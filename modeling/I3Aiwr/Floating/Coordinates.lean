import Mathlib.Data.Rat.Floor
import I3Aiwr.Tree.Show

/-!
# Floating windows on another output

`floating_fix_coordinates` keeps the centre of a window at the same fraction of the output. The new
position is computed as a real number and then converted to an integer, which rounds towards zero:
down where the position is positive, but up where it is negative. A window that hangs out to the left
of the screen, or above it, may so be put with its centre just beyond the output.

## Main definitions

* `Rect.Centred r output`: the centre of `r` is on the output
* `Lands`: along one axis, rounding does not leave the output
* `Tree.KeepsCentre`: what fixing the coordinates is to do

## Main results

* `lands_centre_iff`: where the centre ends along one axis
* `Tree.keepsCentre_iff`: when the centre stays on the output
-/

namespace I3

/-- The middle of a range of whole pixels. -/
def middle (start : ℤ) (size : ℕ) : ℤ := start + (size / 2 : ℕ)

/-- The centre of a rectangle is on the output. -/
structure Rect.Centred (r output : Rect) : Prop where
  x : output.x ≤ middle r.x r.width ∧ middle r.x r.width < output.x + output.width
  y : output.y ≤ middle r.y r.height ∧ middle r.y r.height < output.y + output.height

/-- The exact new position is not negative, or the exact new centre is a pixel or more away from the
far edge. The window starts at `pos`, and its middle is `half` behind that; the outputs start at
`start` and `start'` and have the sizes `size` and `size'`. -/
def Lands (start : ℤ) (size : ℕ) (start' : ℤ) (size' : ℕ) (pos half : ℤ) : Prop :=
  half * size ≤ start' * size + (pos - start + half) * size'
    ∨ (pos - start + half) * size' ≤ (size' - 1) * size

instance (start : ℤ) (size : ℕ) (start' : ℤ) (size' : ℕ) (pos half : ℤ) :
    Decidable (Lands start size start' size' pos half) :=
  inferInstanceAs (Decidable (_ ∨ _))

section Axis

variable {start start' pos half : ℤ} {size size' : ℕ}

/-- **Along one axis** the middle of the window ends on the output exactly if it lands there. -/
theorem lands_centre_iff (hsize : 0 < size) (hsize' : 0 < size') (hlow : 0 ≤ pos - start + half)
    (hhigh : pos - start + half < size) :
    (start' ≤ Tree.truncate
        (start' + (((pos - start + half) * size' : ℤ) : ℚ) / (size : ℤ) - half) + half
      ∧ Tree.truncate (start' + (((pos - start + half) * size' : ℤ) : ℚ) / (size : ℤ) - half) + half
        < start' + size') ↔ Lands start size start' size' pos half := by
  have hpos : (0 : ℚ) < (size : ℤ) := by exact_mod_cast hsize
  rw [Lands]
  generalize pos - start + half = rel at hlow hhigh ⊢
  have hshare : (0 : ℚ) ≤ ((rel * size' : ℤ) : ℚ) / (size : ℤ) := by positivity
  -- the conditions on the share of the new output, in whole numbers
  have hsign : (0 : ℚ) ≤ start' + ((rel * size' : ℤ) : ℚ) / (size : ℤ) - half
      ↔ half * size ≤ start' * size + rel * size' := by
    rw [sub_nonneg, ← mul_le_mul_iff_of_pos_right hpos, add_mul, div_mul_cancel₀ _ hpos.ne']
    exact_mod_cast Iff.rfl
  have hedge : ((rel * size' : ℤ) : ℚ) / (size : ℤ) ≤ size' - 1
      ↔ rel * size' ≤ (size' - 1) * size := by
    rw [div_le_iff₀ hpos]
    exact_mod_cast Iff.rfl
  have hlt : ((rel * size' : ℤ) : ℚ) / (size : ℤ) < size' := by
    rw [div_lt_iff₀ hpos]
    have hmul : rel * size' < size' * size := by
      rw [mul_comm (size' : ℤ)]
      exact mul_lt_mul_of_pos_right hhigh (by exact_mod_cast hsize')
    exact_mod_cast hmul
  rw [← hsign, ← hedge]
  generalize ((rel * size' : ℤ) : ℚ) / (size : ℤ) = share at hshare hlt ⊢
  by_cases hneg : start' + share - half < 0
  · rw [Tree.truncate, if_pos hneg, or_iff_right (not_le.2 hneg)]
    have hbefore : start' ≤ ⌈start' + share - half⌉ + half := by
      have hceil := Int.le_ceil (start' + share - half)
      have hle : (start' : ℚ) ≤ ⌈start' + share - half⌉ + half := by linarith
      exact_mod_cast hle
    rw [and_iff_right hbefore, ← lt_sub_iff_add_lt, ← Int.le_sub_one_iff, Int.ceil_le]
    push_cast
    constructor <;> intro h <;> linarith
  · rw [Tree.truncate, if_neg hneg]
    -- rounding down stays on the pixel that the centre is in
    refine iff_of_true ⟨?_, ?_⟩ (.inl (not_lt.1 hneg))
    · rw [← sub_le_iff_le_add, Int.le_floor]
      push_cast
      linarith
    · rw [← lt_sub_iff_add_lt, Int.floor_lt]
      push_cast
      linarith

/-- A window whose output stays the same stays where it is. -/
theorem truncate_same (hsize : 0 < size) :
    Tree.truncate (start + (((pos - start + half) * size : ℤ) : ℚ) / (size : ℤ) - half) = pos := by
  have hpos : ((size : ℤ) : ℚ) ≠ 0 := by exact_mod_cast hsize.ne'
  have heq : (start + (((pos - start + half) * size : ℤ) : ℚ) / (size : ℤ) - half : ℚ) = pos := by
    rw [Int.cast_mul, mul_div_cancel_right₀ _ hpos]
    push_cast
    ring
  rw [heq, Tree.truncate]
  split
  · exact Int.ceil_intCast pos
  · exact Int.floor_intCast pos

end Axis

namespace Tree

variable {t : Tree} {c : ConId} {old new : Rect}

/-- What fixing the coordinates of `c` is to do: a centre on the old output goes to the new one, and
where the two are the same the window does not move. -/
structure KeepsCentre (t t' : Tree) (c : ConId) (old new : Rect) : Prop where
  centred : (t.con c).rect.Centred old → (t'.con c).rect.Centred new
  same : old = new → (t'.con c).rect = (t.con c).rect

theorem floatingFixCoordinates_rect (t : Tree) (c : ConId) (old new : Rect) :
    ((t.floatingFixCoordinates c old new).con c).rect =
      { (t.con c).rect with
        x := truncate (new.x + ((((t.con c).rect.x - old.x + ((t.con c).rect.width / 2 : ℕ))
          * new.width : ℤ) : ℚ) / (old.width : ℤ) - (((t.con c).rect.width / 2 : ℕ) : ℤ))
        y := truncate (new.y + ((((t.con c).rect.y - old.y + ((t.con c).rect.height / 2 : ℕ))
          * new.height : ℤ) : ℚ) / (old.height : ℤ) - (((t.con c).rect.height / 2 : ℕ) : ℤ)) } := by
  rw [floatingFixCoordinates, modify_con_self]
  simp only [Int.cast_natCast]

/-- **The centre stays on the output exactly if it lands there along both axes.** -/
theorem keepsCentre_iff (t : Tree) (c : ConId) (old new : Rect)
    (hold : 0 < old.width ∧ 0 < old.height) (hnew : 0 < new.width ∧ 0 < new.height) :
    KeepsCentre t (t.floatingFixCoordinates c old new) c old new ↔
      ((t.con c).rect.Centred old →
        Lands old.x old.width new.x new.width (t.con c).rect.x ((t.con c).rect.width / 2 : ℕ)
          ∧ Lands old.y old.height new.y new.height (t.con c).rect.y
            ((t.con c).rect.height / 2 : ℕ)) := by
  have hrect := floatingFixCoordinates_rect t c old new
  generalize (t.floatingFixCoordinates c old new) = t' at hrect ⊢
  have hsame : old = new → (t'.con c).rect = (t.con c).rect := by
    rintro rfl
    rw [hrect, truncate_same hold.1, truncate_same hold.2]
  have hcentred : (t.con c).rect.Centred old → ((t'.con c).rect.Centred new ↔
      Lands old.x old.width new.x new.width (t.con c).rect.x ((t.con c).rect.width / 2 : ℕ)
        ∧ Lands old.y old.height new.y new.height (t.con c).rect.y
          ((t.con c).rect.height / 2 : ℕ)) := by
    rintro ⟨⟨hx, hx'⟩, hy, hy'⟩
    rw [middle] at hx hx' hy hy'
    rw [← lands_centre_iff hold.1 hnew.1 (by omega) (by omega),
      ← lands_centre_iff hold.2 hnew.2 (by omega) (by omega), hrect]
    exact ⟨fun h => ⟨h.x, h.y⟩, fun h => ⟨h.1, h.2⟩⟩
  constructor
  · intro h hold
    exact (hcentred hold).1 (h.centred hold)
  · intro h
    exact ⟨fun hold => (hcentred hold).2 (h hold), hsame⟩

/-- A window that is wider than either output. -/
def wideWindow : Tree :=
  { con := fun _ => { type := .floatingCon, rect := ⟨619, 100, 2600, 400⟩ }
    allCons := [0], croot := 0, focused := none, nextCon := 1 }

theorem keepsCentre_wideWindow :
    KeepsCentre wideWindow
        (wideWindow.floatingFixCoordinates 0 ⟨0, 0, 1920, 1080⟩ ⟨3000, 0, 1280, 1024⟩) 0
        ⟨0, 0, 1920, 1080⟩ ⟨3000, 0, 1280, 1024⟩ ↔
      ((wideWindow.con 0).rect.Centred ⟨0, 0, 1920, 1080⟩ →
        Lands 0 1920 3000 1280 619 (2600 / 2 : ℕ) ∧ Lands 0 1080 0 1024 100 (400 / 2 : ℕ)) :=
  keepsCentre_iff wideWindow 0 ⟨0, 0, 1920, 1080⟩ ⟨3000, 0, 1280, 1024⟩ (by decide) (by decide)

/-- Where the new output is at the left edge of the screen, the centre ends just beyond it. -/
theorem not_keepsCentre_wideWindow :
    ¬ KeepsCentre wideWindow
        (wideWindow.floatingFixCoordinates 0 ⟨0, 0, 1920, 1080⟩ ⟨0, 0, 1280, 1024⟩) 0
        ⟨0, 0, 1920, 1080⟩ ⟨0, 0, 1280, 1024⟩ := by
  intro h
  have hcentred : (wideWindow.con 0).rect.Centred ⟨0, 0, 1920, 1080⟩ :=
    ⟨by decide, by decide⟩
  have hx := (h.centred hcentred).x.2
  exact absurd hx (by decide +kernel)

end Tree

end I3
