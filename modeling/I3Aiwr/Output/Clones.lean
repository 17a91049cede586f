import Mathlib.Order.Bounds.Basic
import I3Aiwr.Tree.Move

/-!
# Clones among the outputs

After `randr_query_outputs` asked for the outputs, those in the same position are clones: the first
one in the list is kept, with the lowest common mode, and the others are to be disabled. Both loops
change the entries they walk over; the inner one compares with a size that it may have lowered
before.

## Main definitions

* `QueriedOutput`: an output with the flags of the query
* `disableClones`, `cloneLoop`: the loops
* `Distinct before after`: what the loops are to do

## Main results

* `Passed`, `disableClones_getElem?`: what the inner loop does to each of the other outputs
* `isLeast_disableClones`: the size of the kept one
* `distinct_cloneLoop`: the loops do what they are to do
-/

namespace I3

/-- An output while the outputs are queried. -/
structure QueriedOutput extends Output where
  changed : Bool
  toBeDisabled : Bool

namespace QueriedOutput

variable (o o' : QueriedOutput)

/-- The output is not skipped by the loops. -/
def Kept : Bool := o.active && !o.toBeDisabled

def position : ℤ × ℤ := (o.rect.x, o.rect.y)

/-- The size is set; the output has changed if the size has. -/
def resize (width height : ℕ) : QueriedOutput :=
  { o with
    rect := { o.rect with width, height }
    changed := o.changed || decide (width ≠ o.rect.width) || decide (height ≠ o.rect.height) }

/-- The output is disabled as a clone; its size is set without a note. -/
def disable (width height : ℕ) : QueriedOutput :=
  { o with rect := { o.rect with width, height }, toBeDisabled := true }

/-- The other one is a clone. -/
def cloneOf : Bool := o'.Kept && decide (o'.position = o.position)

end QueriedOutput

open QueriedOutput

/-- The inner loop, over the outputs that come after `output`. -/
def disableClones : QueriedOutput → List QueriedOutput → QueriedOutput × List QueriedOutput
  | output, [] => (output, [])
  | output, other :: rest =>
    if output.cloneOf other then
      let width := min other.rect.width output.rect.width
      let height := min other.rect.height output.rect.height
      let (output, rest) := disableClones (output.resize width height) rest
      (output, other.disable width height :: rest)
    else
      let (output, rest) := disableClones output rest
      (output, other :: rest)

theorem length_disableClones (output : QueriedOutput) (others : List QueriedOutput) :
    (disableClones output others).2.length = others.length := by
  induction others generalizing output with
  | nil => rfl
  | cons other rest ih =>
    rw [disableClones]
    split <;> simp [ih]

/-- The loop over all outputs. -/
def cloneLoop : List QueriedOutput → List QueriedOutput
  | [] => []
  | output :: rest =>
    if output.Kept then
      (disableClones output rest).1 :: cloneLoop (disableClones output rest).2
    else output :: cloneLoop rest
  termination_by outputs => outputs.length
  decreasing_by all_goals simp [length_disableClones]

variable {output o x y z : QueriedOutput} {outputs others before after : List QueriedOutput} {i : ℕ}

/-! ### The inner loop -/

/-- What becomes of an output that the inner loop compares with `output`. -/
def Passed (output x y : QueriedOutput) : Prop :=
  if output.cloneOf x then y.toBeDisabled ∧ y.position = x.position else y = x

theorem Passed.position (h : Passed output x y) : y.position = x.position := by
  rw [Passed] at h
  split at h
  · exact h.2
  · rw [h]

/-- What stays is no clone, and as it was. -/
theorem Passed.kept (h : Passed output x y) (hy : y.Kept) : y = x ∧ output.cloneOf x = false := by
  rw [Passed] at h
  split at h
  · simp [Kept, h.1] at hy
  next hnot => exact ⟨h, by simpa using hnot⟩

theorem position_disableClones (output : QueriedOutput) (others : List QueriedOutput) :
    (disableClones output others).1.position = output.position := by
  induction others generalizing output with
  | nil => rfl
  | cons other rest ih =>
    rw [disableClones]
    split <;> exact ih _

theorem kept_disableClones (output : QueriedOutput) (others : List QueriedOutput) :
    (disableClones output others).1.Kept = output.Kept := by
  induction others generalizing output with
  | nil => rfl
  | cons other rest ih =>
    rw [disableClones]
    split <;> exact ih _

/-- **The inner loop disables the clones** and leaves the other outputs alone. -/
theorem disableClones_getElem? (hy : (disableClones output others).2[i]? = some y) :
    ∃ x, others[i]? = some x ∧ Passed output x y := by
  induction others generalizing output i with
  | nil => simp [disableClones] at hy
  | cons other rest ih =>
    rw [disableClones] at hy
    split at hy
    next hclone =>
      -- the output has another size from here on, but its clones are the same
      cases i with
      | zero =>
        obtain rfl : other.disable _ _ = y := by simpa using hy
        refine ⟨other, rfl, ?_⟩
        rw [Passed, if_pos hclone]
        exact ⟨rfl, rfl⟩
      | succ i =>
        obtain ⟨x, hx, hpassed⟩ := ih (by simpa using hy)
        exact ⟨x, by simpa using hx, hpassed⟩
    next hclone =>
      cases i with
      | zero =>
        obtain rfl : other = y := by simpa using hy
        exact ⟨other, rfl, by rw [Passed, if_neg hclone]⟩
      | succ i =>
        obtain ⟨x, hx, hpassed⟩ := ih (by simpa using hy)
        exact ⟨x, by simpa using hx, hpassed⟩

theorem exists_passed (hx : others[i]? = some x) :
    ∃ y, (disableClones output others).2[i]? = some y ∧ Passed output x y := by
  obtain ⟨hi, rfl⟩ := List.getElem?_eq_some_iff.1 hx
  have hi' : i < (disableClones output others).2.length := by rwa [length_disableClones]
  obtain ⟨x', hx', hpassed⟩ := disableClones_getElem? (List.getElem?_eq_getElem hi')
  obtain rfl : others[i] = x' := by simpa [hi] using hx'
  exact ⟨_, List.getElem?_eq_getElem hi', hpassed⟩

/-- The outputs that stay are the ones in other positions. -/
theorem mem_disableClones (hx : x.Kept) :
    x ∈ (disableClones output others).2 ↔ x ∈ others ∧ x.position ≠ output.position := by
  constructor
  · intro hmem
    obtain ⟨i, hi⟩ := List.mem_iff_getElem?.1 hmem
    obtain ⟨x', hx', hpassed⟩ := disableClones_getElem? hi
    obtain ⟨rfl, hclone⟩ := hpassed.kept hx
    refine ⟨List.mem_of_getElem? hx', ?_⟩
    simpa [cloneOf, hx] using hclone
  · rintro ⟨hmem, hne⟩
    obtain ⟨i, hi⟩ := List.mem_iff_getElem?.1 hmem
    obtain ⟨y, hy, hpassed⟩ : ∃ y, (disableClones output others).2[i]? = some y ∧ Passed output x y :=
      exists_passed hi
    rw [Passed, if_neg (by simp [cloneOf, hne])] at hpassed
    exact List.mem_of_getElem? (hpassed ▸ hy)

/-- The sizes of the outputs in a position, along one dimension. -/
def sizesAt (outputs : List QueriedOutput) (dimension : Rect → ℕ) (position : ℤ × ℤ) : Set ℕ :=
  {n | ∃ o ∈ outputs, o.Kept ∧ o.position = position ∧ dimension o.rect = n}

theorem sizesAt_cons_of_kept (dimension : Rect → ℕ) (ho : o.Kept) :
    sizesAt (o :: outputs) dimension o.position =
      insert (dimension o.rect) (sizesAt outputs dimension o.position) := by
  ext n
  simp only [sizesAt, Set.mem_ofPred_eq, List.exists_mem_cons_iff, Set.mem_insert_iff, ho, true_and]
  rw [eq_comm]

theorem sizesAt_cons_of_not (dimension : Rect → ℕ) {position : ℤ × ℤ}
    (h : o.Kept → o.position ≠ position) :
    sizesAt (o :: outputs) dimension position = sizesAt outputs dimension position := by
  ext n
  simp only [sizesAt, Set.mem_ofPred_eq, List.exists_mem_cons_iff]
  exact or_iff_right fun hhead => h hhead.1 hhead.2.1

/-- The lower one of two sizes stands for both. -/
theorem isLeast_of_min {S : Set ℕ} {m n k : ℕ} (h : IsLeast (insert (min m n) S) k) :
    IsLeast (insert n (insert m S)) k := by
  obtain ⟨hmem, hlow⟩ := h
  have hmin : k ≤ min m n := hlow (Set.mem_insert _ _)
  refine ⟨?_, ?_⟩
  · rcases hmem with rfl | hmem
    · rcases min_choice m n with heq | heq <;> simp [heq]
    · exact .inr (.inr hmem)
  · rintro j (rfl | rfl | hj)
    · exact hmin.trans (min_le_right _ _)
    · exact hmin.trans (min_le_left _ _)
    · exact hlow (.inr hj)

/-- An output has the lowest size of those in its position. -/
structure Lowest (outputs : List QueriedOutput) (o : QueriedOutput) : Prop where
  width : IsLeast (sizesAt outputs Rect.width o.position) o.rect.width
  height : IsLeast (sizesAt outputs Rect.height o.position) o.rect.height

/-- **The output that is kept** gets the lowest size of its clones. -/
theorem lowest_disableClones (ho : output.Kept) :
    Lowest (output :: others) (disableClones output others).1 := by
  induction others generalizing output with
  | nil =>
    have hnone : ∀ dimension, sizesAt [] dimension output.position = ∅ := by
      intro dimension
      simp [sizesAt]
    constructor
    · rw [position_disableClones, sizesAt_cons_of_kept _ ho, hnone]
      simp [disableClones]
    · rw [position_disableClones, sizesAt_cons_of_kept _ ho, hnone]
      simp [disableClones]
  | cons other rest ih =>
    rw [disableClones]
    split
    next hclone =>
      obtain ⟨hother, hsame⟩ : other.Kept ∧ other.position = output.position := by
        simpa [cloneOf] using hclone
      -- the sizes from here on are those of the rest and the lower one of the two
      have hboth : ∀ dimension, sizesAt (output :: other :: rest) dimension output.position =
          insert (dimension output.rect) (insert (dimension other.rect)
            (sizesAt rest dimension output.position)) := by
        intro dimension
        rw [sizesAt_cons_of_kept _ ho, ← hsame, sizesAt_cons_of_kept _ hother]
      have ho' : (output.resize (min other.rect.width output.rect.width)
          (min other.rect.height output.rect.height)).Kept := ho
      have ih := ih ho'
      constructor
      · have hwidth := ih.width
        rw [position_disableClones, sizesAt_cons_of_kept _ (by exact ho)] at hwidth
        dsimp only
        rw [position_disableClones]
        exact (hboth Rect.width).symm ▸ isLeast_of_min hwidth
      · have hheight := ih.height
        rw [position_disableClones, sizesAt_cons_of_kept _ (by exact ho)] at hheight
        dsimp only
        rw [position_disableClones]
        exact (hboth Rect.height).symm ▸ isLeast_of_min hheight
    next hclone =>
      have hother : other.Kept → other.position ≠ output.position := by
        intro hkept hsame
        exact hclone (by simp [cloneOf, hkept, hsame])
      have hone : ∀ dimension, sizesAt (output :: other :: rest) dimension output.position =
          sizesAt (output :: rest) dimension output.position := by
        intro dimension
        rw [sizesAt_cons_of_kept _ ho, sizesAt_cons_of_kept _ ho, sizesAt_cons_of_not _ hother]
      have ih := ih ho
      constructor
      · have hwidth := ih.width
        dsimp only
        rw [position_disableClones] at hwidth ⊢
        rwa [hone]
      · have hheight := ih.height
        dsimp only
        rw [position_disableClones] at hheight ⊢
        rwa [hone]

/-! ### The loop over all outputs -/

/-- What detecting clones is to do. -/
structure Distinct (before after : List QueriedOutput) : Prop where
  length : after.length = before.length
  position : ∀ (i : ℕ) (x z : QueriedOutput), before[i]? = some x → after[i]? = some z →
    z.position = x.position
  /-- No output comes back. -/
  kept : ∀ (i : ℕ) (x z : QueriedOutput), before[i]? = some x → after[i]? = some z →
    z.Kept → x.Kept
  /-- The outputs that are kept are in different positions. -/
  apart : after.Pairwise fun z z' => z.Kept → z'.Kept → z.position ≠ z'.position
  /-- A newly disabled output is in the position of one that is kept. -/
  covered : ∀ (i : ℕ) (x z : QueriedOutput), before[i]? = some x → after[i]? = some z →
    ¬ x.toBeDisabled → z.toBeDisabled →
    after.countP (fun z' => z'.Kept && decide (z'.position = z.position)) = 1
  lowest : ∀ z ∈ after, z.Kept → Lowest before z

namespace Distinct

variable (h : Distinct before after)
include h

/-- The outputs that are kept are in the positions of those that were. -/
theorem exists_kept (hz : z ∈ after) (hkept : z.Kept) :
    ∃ x ∈ before, x.Kept ∧ x.position = z.position := by
  obtain ⟨i, hi⟩ := List.mem_iff_getElem?.1 hz
  have hlt : i < before.length := by
    rw [← h.length]
    exact (List.getElem?_eq_some_iff.1 hi).1
  have hx := List.getElem?_eq_getElem hlt
  exact ⟨_, List.mem_of_getElem? hx, h.kept i _ z hx hi hkept, (h.position i _ z hx hi).symm⟩

/-- An output that is skipped is in nobody's way. -/
theorem cons (ho : ¬ o.Kept) : Distinct (o :: before) (o :: after) where
  length := by simp [h.length]
  position i x z hx hz := by
    cases i with
    | zero =>
      obtain rfl : o = x := by simpa using hx
      obtain rfl : o = z := by simpa using hz
      rfl
    | succ i => exact h.position i x z (by simpa using hx) (by simpa using hz)
  kept i x z hx hz hkept := by
    cases i with
    | zero =>
      obtain rfl : o = z := by simpa using hz
      exact absurd hkept ho
    | succ i => exact h.kept i x z (by simpa using hx) (by simpa using hz) hkept
  apart := List.pairwise_cons.2 ⟨fun _ _ hkept => absurd hkept ho, h.apart⟩
  covered i x z hx hz hnot hnew := by
    rw [List.countP_cons_of_neg (by simp [ho])]
    cases i with
    | zero =>
      obtain rfl : o = x := by simpa using hx
      obtain rfl : o = z := by simpa using hz
      exact absurd hnew hnot
    | succ i => exact h.covered i x z (by simpa using hx) (by simpa using hz) hnot hnew
  lowest z hz hkept := by
    obtain rfl | hz := List.mem_cons.1 hz
    · exact absurd hkept ho
    · have hlow := h.lowest z hz hkept
      have hnot : o.Kept → o.position ≠ z.position := fun hkept => absurd hkept ho
      exact ⟨by rw [sizesAt_cons_of_not _ hnot]; exact hlow.width,
        by rw [sizesAt_cons_of_not _ hnot]; exact hlow.height⟩

end Distinct

/-- The sizes in another position are what they were. -/
theorem sizesAt_disableClones {dimension : Rect → ℕ} {position : ℤ × ℤ}
    (hne : position ≠ output.position) :
    sizesAt (disableClones output others).2 dimension position =
      sizesAt (output :: others) dimension position := by
  rw [sizesAt_cons_of_not _ fun _ => hne.symm]
  ext n
  constructor
  · rintro ⟨x, hx, hkept, rfl, hn⟩
    exact ⟨x, ((mem_disableClones hkept).1 hx).1, hkept, rfl, hn⟩
  · rintro ⟨x, hx, hkept, rfl, hn⟩
    exact ⟨x, (mem_disableClones hkept).2 ⟨hx, hne⟩, hkept, rfl, hn⟩

/-- **An output whose clones are disabled**, before the loop goes on with the others. -/
theorem distinct_cons (ho : output.Kept) (h : Distinct (disableClones output others).2 after) :
    Distinct (output :: others) ((disableClones output others).1 :: after) := by
  have hposition := position_disableClones output others
  have hkept : (disableClones output others).1.Kept := by rwa [kept_disableClones]
  -- what is still kept behind the output is elsewhere
  have haway : ∀ z ∈ after, z.Kept → z.position ≠ output.position := by
    intro z hz hzk
    obtain ⟨x, hx, hxk, hsame⟩ := h.exists_kept hz hzk
    rw [← hsame]
    exact ((mem_disableClones hxk).1 hx).2
  have hbehind : ∀ i x, others[i]? = some x → ∃ y, (disableClones output others).2[i]? = some y
      ∧ Passed output x y := fun i x hx => exists_passed hx
  refine ⟨?_, fun i x z hx hz => ?_, fun i x z hx hz hzk => ?_, ?_, fun i x z hx hz hnot hnew => ?_,
    fun z hz hzk => ?_⟩
  · simp [h.length, length_disableClones]
  · cases i with
    | zero =>
      obtain rfl : output = x := by simpa using hx
      obtain rfl : _ = z := by simpa using hz
      exact hposition
    | succ i =>
      obtain ⟨y, hy, hpassed⟩ := hbehind i x (by simpa using hx)
      rw [h.position i y z hy (by simpa using hz), hpassed.position]
  · cases i with
    | zero =>
      obtain rfl : output = x := by simpa using hx
      exact ho
    | succ i =>
      obtain ⟨y, hy, hpassed⟩ := hbehind i x (by simpa using hx)
      have hyk := h.kept i y z hy (by simpa using hz) hzk
      exact (hpassed.kept hyk).1 ▸ hyk
  · refine List.pairwise_cons.2 ⟨fun z hz _ hzk heq => ?_, h.apart⟩
    rw [hposition] at heq
    exact haway z hz hzk heq.symm
  · cases i with
    | zero =>
      obtain rfl : _ = z := by simpa using hz
      simp [Kept, hnew] at hkept
    | succ i =>
      obtain ⟨y, hy, hpassed⟩ := hbehind i x (by simpa using hx)
      have hz : after[i]? = some z := by simpa using hz
      have hzp := h.position i y z hy hz
      by_cases hclone : output.cloneOf x
      · -- the output itself is the one that is kept
        have hsame : z.position = output.position := by
          rw [hzp, hpassed.position]
          have hclone : x.Kept ∧ x.position = output.position := by simpa [cloneOf] using hclone
          exact hclone.2
        have hnone : after.countP (fun z' => z'.Kept && decide (z'.position = z.position)) = 0 := by
          rw [List.countP_eq_zero]
          intro z' hz' hboth
          obtain ⟨hzk, heq⟩ : z'.Kept ∧ z'.position = z.position := by simpa using hboth
          exact haway z' hz' hzk (heq.trans hsame)
        rw [List.countP_cons_of_pos (by simp [hkept, hposition, hsame]), hnone]
      · rw [Passed, if_neg hclone] at hpassed
        subst hpassed
        have hcount := h.covered i y z hy hz hnot hnew
        -- the kept one behind the output is elsewhere, and so is this one
        have haway' : output.position ≠ z.position := by
          intro heq
          obtain ⟨z', hz', hboth⟩ := List.countP_pos_iff.1 (hcount ▸ Nat.one_pos)
          obtain ⟨hzk, hsame⟩ : z'.Kept ∧ z'.position = z.position := by simpa using hboth
          exact haway z' hz' hzk (hsame.trans heq.symm)
        rw [List.countP_cons_of_neg (by simp [hposition, haway']), hcount]
  · obtain rfl | hz := List.mem_cons.1 hz
    · exact lowest_disableClones ho
    · have hlow := h.lowest z hz hzk
      have hne := haway z hz hzk
      exact ⟨by rw [← sizesAt_disableClones hne]; exact hlow.width,
        by rw [← sizesAt_disableClones hne]; exact hlow.height⟩

end I3
