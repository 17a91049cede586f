import I3Aiwr.Tree.Reveal

/-!
# Revealing a column twice

`scrolling_reveal` of `src/scrolling.c` is called once for every level that `con_focus` passes, always
with the same column: without animations the first call is to settle the offset. A column that is wider
than the viewport has no offset at which both of its edges are in view, and every call aligns the other
one. An offset outside the strip stays where it is if it is less than half a pixel from where the call
would put it.

## Main definitions

* `Extent`: a column, its strip and the viewport, in pixels
* `Extent.reveal`: the offset after a call
* `Extent.Oscillates`, `Extent.Lingers`: the offsets that are not settled by it
* `Tree.RevealSettles`: a second call changes nothing, and the offset is within the strip

## Main results

* `Extent.settles_iff`: the offsets that one call settles
* `Tree.revealSettles_iff`: the same for `scrolling_reveal`
-/

namespace I3

/-- A column at `x` of width `w` in a strip of width `total`, in pixels. -/
structure Extent where
  x : ℤ
  w : ℤ
  total : ℤ
  view : ℤ
  x_nonneg : 0 ≤ x
  one_le_w : 1 ≤ w
  fits : x + w ≤ total
  view_pos : 0 < view

namespace Extent

section Definitions

variable (e : Extent) (center : Bool) (offset : ℚ)

/-- `clamp_offset` -/
def clamp : ℚ :=
  if (e.total : ℚ) < e.view then -(e.view - e.total) / 2
  else
    let max : ℚ := if (e.total : ℚ) - e.view < 0 then 0 else e.total - e.view
    let offset := if offset < 0 then 0 else offset
    if offset > max then max else offset

/-- The offset that `scrolling_reveal` asks for. -/
def wanted : ℚ :=
  if center then e.x + e.w / 2 - e.view / 2
  else if e.x < offset then e.x
  else if (e.x : ℚ) + e.w > offset + e.view then e.x + e.w - e.view
  else offset

/-- The offset after `scrolling_reveal`, without animations. -/
def reveal : ℚ :=
  if |e.clamp (e.wanted center offset) - offset| < 1 / 2 then offset else e.clamp (e.wanted center offset)

/-- The least offset of the strip; both are the same if it is centred. -/
def lowest : ℚ := if (e.total : ℚ) < e.view then -(e.view - e.total) / 2 else 0

def highest : ℚ := if (e.total : ℚ) < e.view then -(e.view - e.total) / 2 else e.total - e.view

/-- A second call leaves the offset, and after each of them it is one of the strip. -/
structure Settles : Prop where
  again : e.reveal center (e.reveal center offset) = e.reveal center offset
  first : e.clamp (e.reveal center offset) = e.reveal center offset
  second : e.clamp (e.reveal center (e.reveal center offset)) = e.reveal center (e.reveal center offset)

/-- The column is wider than the viewport, and neither of its edges is in view to half a pixel. -/
def Oscillates : Prop := center = false ∧ e.view < e.w ∧ (offset ≤ e.x ∨ e.x + 1 / 2 ≤ offset)

/-- The offset is just below those of the strip, and the column is wanted at the left. -/
def LingersLeft : Prop :=
  e.lowest - 1 / 2 < offset ∧ offset < e.lowest ∧
    (e.total ≤ e.view ∨
      if center then (e.x : ℚ) + e.w / 2 - e.view / 2 ≤ 0 else e.x + e.w ≤ e.view)

/-- The offset is just above those of the strip, and the column is wanted at the right. -/
def LingersRight : Prop :=
  e.highest < offset ∧ offset < e.highest + 1 / 2 ∧
    (e.total ≤ e.view ∨
      if center then (e.total : ℚ) - e.view ≤ e.x + e.w / 2 - e.view / 2 else e.total - e.view ≤ e.x)

def Lingers : Prop := e.LingersLeft center offset ∨ e.LingersRight center offset

end Definitions

variable {e : Extent} {center : Bool} {offset : ℚ}

/-! ### The offsets of the strip -/

theorem lowest_le_highest (e : Extent) : e.lowest ≤ e.highest := by
  rw [lowest, highest]
  split
  · exact le_rfl
  next h => linarith

theorem clamp_eq (e : Extent) (offset : ℚ) :
    e.clamp offset = if offset < e.lowest then e.lowest
      else if e.highest < offset then e.highest else offset := by
  simp only [clamp, lowest, highest]
  by_cases h : (e.total : ℚ) < e.view
  · simp only [if_pos h]
    split_ifs with hlow hhigh
    · rfl
    · rfl
    · linarith
  · simp only [if_neg h, if_neg (by linarith : ¬ (e.total : ℚ) - e.view < 0)]
    split_ifs <;> linarith

theorem clamp_of_lt_lowest (h : offset ≤ e.lowest) : e.clamp offset = e.lowest := by
  have hle := e.lowest_le_highest
  rw [clamp_eq]
  split_ifs <;> linarith

theorem clamp_of_highest_lt (h : e.highest ≤ offset) : e.clamp offset = e.highest := by
  have hle := e.lowest_le_highest
  rw [clamp_eq]
  split_ifs <;> linarith

theorem clamp_of_mem (hlow : e.lowest ≤ offset) (hhigh : offset ≤ e.highest) : e.clamp offset = offset := by
  rw [clamp_eq, if_neg (not_lt.2 hlow), if_neg (not_lt.2 hhigh)]

theorem lowest_le_clamp (e : Extent) (offset : ℚ) : e.lowest ≤ e.clamp offset := by
  have hle := e.lowest_le_highest
  rw [clamp_eq]
  split_ifs <;> linarith

theorem clamp_le_highest (e : Extent) (offset : ℚ) : e.clamp offset ≤ e.highest := by
  have hle := e.lowest_le_highest
  rw [clamp_eq]
  split_ifs <;> linarith

theorem clamp_clamp (e : Extent) (offset : ℚ) : e.clamp (e.clamp offset) = e.clamp offset :=
  clamp_of_mem (e.lowest_le_clamp offset) (e.clamp_le_highest offset)

theorem clamp_eq_self_iff : e.clamp offset = offset ↔ e.lowest ≤ offset ∧ offset ≤ e.highest := by
  refine ⟨fun h => ?_, fun h => clamp_of_mem h.1 h.2⟩
  rw [← h]
  exact ⟨e.lowest_le_clamp offset, e.clamp_le_highest offset⟩

/-- The column does not begin before the strip, nor end after it. -/
theorem lowest_le_x (e : Extent) : e.lowest ≤ e.x := by
  have hx : (0 : ℚ) ≤ e.x := by exact_mod_cast e.x_nonneg
  rw [lowest]
  split <;> linarith

theorem end_le_highest (e : Extent) : (e.x : ℚ) + e.w ≤ e.highest + e.view := by
  have hfits : (e.x : ℚ) + e.w ≤ e.total := by exact_mod_cast e.fits
  rw [highest]
  split <;> linarith

theorem lowest_of_wide (h : e.view < e.total) : e.lowest = 0 := by
  have h : (e.view : ℚ) < e.total := by exact_mod_cast h
  rw [lowest, if_neg (by linarith)]

theorem highest_of_wide (h : e.view < e.total) : e.highest = e.total - e.view := by
  have h : (e.view : ℚ) < e.total := by exact_mod_cast h
  rw [highest, if_neg (by linarith)]

theorem lowest_eq_highest (h : e.total ≤ e.view) : e.lowest = e.highest := by
  have h : (e.total : ℚ) ≤ e.view := by exact_mod_cast h
  rw [lowest, highest]
  split
  · rfl
  · linarith

/-! ### One call -/

theorem reveal_of_near (h : |e.clamp (e.wanted center offset) - offset| < 1 / 2) :
    e.reveal center offset = offset := if_pos h

theorem reveal_of_far (h : ¬ |e.clamp (e.wanted center offset) - offset| < 1 / 2) :
    e.reveal center offset = e.clamp (e.wanted center offset) := if_neg h

/-- The call that moves the offset moves it into the strip. -/
theorem clamp_reveal_of_far (h : ¬ |e.clamp (e.wanted center offset) - offset| < 1 / 2) :
    e.clamp (e.reveal center offset) = e.reveal center offset := by
  rw [reveal_of_far h, clamp_clamp]

/-- A column that is not wider than the viewport is in view at the offset that is asked for. -/
theorem wanted_inView (hw : e.w ≤ e.view) (offset : ℚ) :
    e.wanted false offset ≤ e.x ∧ (e.x : ℚ) + e.w ≤ e.wanted false offset + e.view := by
  have hw : (e.w : ℚ) ≤ e.view := by exact_mod_cast hw
  simp only [wanted, Bool.false_eq_true, if_false]
  split_ifs <;> constructor <;> linarith

theorem clamp_inView (hleft : offset ≤ e.x) (hright : (e.x : ℚ) + e.w ≤ offset + e.view) :
    e.clamp offset ≤ e.x ∧ (e.x : ℚ) + e.w ≤ e.clamp offset + e.view := by
  have hlow := e.lowest_le_x
  have hhigh := e.end_le_highest
  rw [clamp_eq]
  split_ifs <;> constructor <;> linarith

/-- Where the column is in view the offset is left alone. -/
theorem wanted_of_inView (hleft : offset ≤ e.x) (hright : (e.x : ℚ) + e.w ≤ offset + e.view) :
    e.wanted false offset = offset := by
  simp only [wanted, Bool.false_eq_true, if_false]
  rw [if_neg (not_lt.2 hleft), if_neg (not_lt.2 hright)]

/-- **An offset that a call has chosen is chosen again**, if there is one to show the whole column. -/
theorem clamp_wanted_again (h : center = true ∨ e.w ≤ e.view) (offset : ℚ) :
    e.clamp (e.wanted center (e.clamp (e.wanted center offset))) = e.clamp (e.wanted center offset) := by
  cases center with
  | true => rfl
  | false =>
    have hw := h.resolve_left Bool.false_ne_true
    obtain ⟨hleft, hright⟩ := wanted_inView hw offset
    obtain ⟨hleft, hright⟩ := clamp_inView hleft hright
    rw [wanted_of_inView hleft hright, clamp_clamp]

/-! ### Columns wider than the viewport -/

section Wide

variable (hw : e.view < e.w)
include hw

theorem view_lt_total : e.view < e.total := by
  have hx := e.x_nonneg
  have hfits := e.fits
  omega

/-- At or before the left edge of the column the call aligns the right one. -/
theorem reveal_right (h : offset ≤ e.x) :
    ¬ |e.clamp (e.wanted false offset) - offset| < 1 / 2 ∧
      e.reveal false offset = e.x + e.w - e.view := by
  have hwide : (e.view : ℚ) + 1 ≤ e.w := by exact_mod_cast hw
  have hx : (0 : ℚ) ≤ e.x := by exact_mod_cast e.x_nonneg
  have hend := e.end_le_highest
  have hwanted : e.wanted false offset = e.x + e.w - e.view := by
    simp only [wanted, Bool.false_eq_true, if_false]
    rw [if_neg (not_lt.2 h), if_pos (by linarith)]
  have hclamp : e.clamp (e.wanted false offset) = e.x + e.w - e.view := by
    rw [hwanted]
    apply clamp_of_mem
    · rw [lowest_of_wide (view_lt_total hw)]
      linarith
    · linarith
  have hfar : ¬ |e.clamp (e.wanted false offset) - offset| < 1 / 2 := by
    rw [hclamp, abs_lt]
    rintro ⟨-, hlt⟩
    linarith
  exact ⟨hfar, (reveal_of_far hfar).trans hclamp⟩

theorem clamp_wanted_left (h : (e.x : ℚ) < offset) : e.clamp (e.wanted false offset) = e.x := by
  have hwide : (e.view : ℚ) + 1 ≤ e.w := by exact_mod_cast hw
  have hend := e.end_le_highest
  have hwanted : e.wanted false offset = e.x := by
    simp only [wanted, Bool.false_eq_true, if_false]
    rw [if_pos h]
  rw [hwanted]
  apply clamp_of_mem e.lowest_le_x
  linarith

/-- And beyond it, the left one. -/
theorem reveal_left (h : e.x + 1 / 2 ≤ offset) :
    ¬ |e.clamp (e.wanted false offset) - offset| < 1 / 2 ∧ e.reveal false offset = e.x := by
  have hclamp := clamp_wanted_left hw (by linarith : (e.x : ℚ) < offset)
  have hfar : ¬ |e.clamp (e.wanted false offset) - offset| < 1 / 2 := by
    rw [hclamp, abs_lt]
    rintro ⟨hlt, -⟩
    linarith
  exact ⟨hfar, (reveal_of_far hfar).trans hclamp⟩

/-- **The two alignments follow each other.** -/
theorem reveal_again_ne (h : offset ≤ e.x ∨ e.x + 1 / 2 ≤ offset) :
    e.reveal false (e.reveal false offset) ≠ e.reveal false offset := by
  have hwide : (e.view : ℚ) + 1 ≤ e.w := by exact_mod_cast hw
  rcases h with h | h
  · have hright := (reveal_right hw h).2
    have hbeyond : e.x + 1 / 2 ≤ e.reveal false offset := by
      rw [hright]
      linarith
    rw [(reveal_left hw hbeyond).2, hright]
    intro heq
    linarith
  · have hleft := (reveal_left hw h).2
    rw [(reveal_right hw hleft.le).2, hleft]
    intro heq
    linarith

/-- Less than half a pixel beyond the left edge nothing happens. -/
theorem settles_between (hleft : (e.x : ℚ) < offset) (hright : offset < e.x + 1 / 2) :
    e.reveal false offset = offset ∧ e.clamp offset = offset := by
  have hwide : (e.view : ℚ) + 1 ≤ e.w := by exact_mod_cast hw
  have hend := e.end_le_highest
  have hlow := e.lowest_le_x
  refine ⟨reveal_of_near ?_, clamp_of_mem (by linarith) (by linarith)⟩
  rw [clamp_wanted_left hw hleft, abs_lt]
  constructor <;> linarith

end Wide

/-! ### Offsets just outside the strip -/

theorem near_iff (a offset : ℚ) : |a - offset| < 1 / 2 ↔ offset - 1 / 2 < a ∧ a < offset + 1 / 2 := by
  rw [abs_lt]
  constructor <;> rintro ⟨h, h'⟩ <;> constructor <;> linarith

/-- The strip is wider than the viewport by a pixel at least. -/
theorem highest_ge_one (h : ¬ e.total ≤ e.view) : 1 ≤ e.highest := by
  have hlt : e.view < e.total := not_le.1 h
  have hone : (e.view : ℚ) + 1 ≤ e.total := by exact_mod_cast hlt
  rw [highest_of_wide hlt]
  linarith

/-- The middle of the column is at a half of a pixel. -/
theorem centered_pos (h : 0 < (e.x : ℚ) + e.w / 2 - e.view / 2) : 1 / 2 ≤ (e.x : ℚ) + e.w / 2 - e.view / 2 := by
  have hpos : (0 : ℚ) < (2 * e.x + e.w - e.view : ℤ) := by
    push_cast
    linarith
  have hone : (1 : ℚ) ≤ (2 * e.x + e.w - e.view : ℤ) := by exact_mod_cast hpos
  push_cast at hone
  linarith

theorem centered_lt (h : (e.x : ℚ) + e.w / 2 - e.view / 2 < e.total - e.view) :
    (e.x : ℚ) + e.w / 2 - e.view / 2 ≤ e.total - e.view - 1 / 2 := by
  have hpos : (0 : ℚ) < (2 * (e.total - e.view) - (2 * e.x + e.w - e.view) : ℤ) := by
    push_cast
    linarith
  have hone : (1 : ℚ) ≤ (2 * (e.total - e.view) - (2 * e.x + e.w - e.view) : ℤ) := by exact_mod_cast hpos
  push_cast at hone
  linarith

/-- What is asked for below the strip: its left end, or something far from there. -/
theorem clamp_wanted_of_lt_lowest (center : Bool) (h : offset < e.lowest) :
    (e.clamp (e.wanted center offset) = e.lowest ∧
      (e.total ≤ e.view ∨ if center then (e.x : ℚ) + e.w / 2 - e.view / 2 ≤ 0 else e.x + e.w ≤ e.view)) ∨
    (e.lowest + 1 / 2 ≤ e.clamp (e.wanted center offset) ∧
      ¬ (e.total ≤ e.view ∨
        if center then (e.x : ℚ) + e.w / 2 - e.view / 2 ≤ 0 else e.x + e.w ≤ e.view)) := by
  by_cases hnarrow : e.total ≤ e.view
  · left
    refine ⟨le_antisymm ?_ (e.lowest_le_clamp _), .inl hnarrow⟩
    rw [lowest_eq_highest hnarrow]
    exact e.clamp_le_highest _
  have hzero := lowest_of_wide (not_le.1 hnarrow)
  have hhighest := highest_ge_one hnarrow
  have hx : (0 : ℚ) ≤ e.x := by exact_mod_cast e.x_nonneg
  rw [hzero] at h ⊢
  cases center with
  | true =>
    simp only [hnarrow, if_true, false_or, not_le]
    change e.clamp (e.x + e.w / 2 - e.view / 2) = 0 ∧ _ ∨ _ ≤ e.clamp (e.x + e.w / 2 - e.view / 2) ∧ _
    rcases le_or_gt ((e.x : ℚ) + e.w / 2 - e.view / 2) 0 with hle | hgt
    · left
      exact ⟨(clamp_of_lt_lowest (hle.trans hzero.ge)).trans hzero, hle⟩
    · right
      refine ⟨?_, hgt⟩
      have hhalf := centered_pos hgt
      rw [clamp_eq, hzero]
      split_ifs <;> linarith
  | false =>
    simp only [hnarrow, Bool.false_eq_true, if_false, false_or, not_le]
    have hnot : ¬ (e.x : ℚ) < offset := by linarith
    rcases le_or_gt (e.x + e.w) e.view with hle | hgt
    · left
      have hle' : (e.x : ℚ) + e.w ≤ e.view := by exact_mod_cast hle
      refine ⟨?_, hle⟩
      have hwanted : e.wanted false offset ≤ e.lowest := by
        simp only [wanted, Bool.false_eq_true, if_false, if_neg hnot, hzero]
        split_ifs <;> linarith
      rw [clamp_of_lt_lowest hwanted, hzero]
    · right
      have hgt' : (e.view : ℚ) + 1 ≤ e.x + e.w := by exact_mod_cast hgt
      refine ⟨?_, hgt⟩
      have hwanted : e.wanted false offset = e.x + e.w - e.view := by
        simp only [wanted, Bool.false_eq_true, if_false, if_neg hnot]
        rw [if_pos (by linarith)]
      rw [hwanted, clamp_eq, hzero]
      split_ifs <;> linarith

/-- And above it. -/
theorem clamp_wanted_of_highest_lt (center : Bool) (h : e.highest < offset) :
    (e.clamp (e.wanted center offset) = e.highest ∧
      (e.total ≤ e.view ∨ if center then (e.total : ℚ) - e.view ≤ e.x + e.w / 2 - e.view / 2
        else e.total - e.view ≤ e.x)) ∨
    (e.clamp (e.wanted center offset) ≤ e.highest - 1 / 2 ∧
      ¬ (e.total ≤ e.view ∨ if center then (e.total : ℚ) - e.view ≤ e.x + e.w / 2 - e.view / 2
        else e.total - e.view ≤ e.x)) := by
  by_cases hnarrow : e.total ≤ e.view
  · left
    refine ⟨le_antisymm (e.clamp_le_highest _) ?_, .inl hnarrow⟩
    rw [← lowest_eq_highest hnarrow]
    exact e.lowest_le_clamp _
  have hzero := lowest_of_wide (not_le.1 hnarrow)
  have hhighest := highest_of_wide (not_le.1 hnarrow)
  have hone := highest_ge_one hnarrow
  have hx : (0 : ℚ) ≤ e.x := by exact_mod_cast e.x_nonneg
  have hend := e.end_le_highest
  cases center with
  | true =>
    simp only [hnarrow, if_true, false_or, not_le]
    change e.clamp (e.x + e.w / 2 - e.view / 2) = _ ∧ _ ∨ e.clamp (e.x + e.w / 2 - e.view / 2) ≤ _ ∧ _
    rcases le_or_gt ((e.total : ℚ) - e.view) ((e.x : ℚ) + e.w / 2 - e.view / 2) with hle | hgt
    · left
      exact ⟨clamp_of_highest_lt (hhighest.le.trans hle), hle⟩
    · right
      refine ⟨?_, hgt⟩
      have hhalf := centered_lt hgt
      rw [clamp_eq, hzero]
      split_ifs <;> linarith
  | false =>
    simp only [hnarrow, Bool.false_eq_true, if_false, false_or, not_le]
    rcases le_or_gt (e.total - e.view) e.x with hle | hgt
    · left
      have hle' : (e.total : ℚ) - e.view ≤ e.x := by exact_mod_cast hle
      refine ⟨?_, hle⟩
      have hwanted : e.highest ≤ e.wanted false offset := by
        simp only [wanted, Bool.false_eq_true, if_false]
        split_ifs <;> linarith
      exact clamp_of_highest_lt hwanted
    · right
      have hgt' : (e.x : ℚ) + 1 ≤ e.total - e.view := by exact_mod_cast hgt
      refine ⟨?_, hgt⟩
      have hwanted : e.wanted false offset = e.x := by
        simp only [wanted, Bool.false_eq_true, if_false]
        rw [if_pos (by linarith)]
      rw [hwanted, clamp_of_mem e.lowest_le_x (by linarith)]
      linarith

/-- **An offset outside the strip stays there exactly if it lingers.** -/
theorem lingers_iff :
    e.Lingers center offset ↔
      |e.clamp (e.wanted center offset) - offset| < 1 / 2 ∧ e.clamp offset ≠ offset := by
  have hle := e.lowest_le_highest
  rw [near_iff, Ne, clamp_eq_self_iff, not_and_or, not_le, not_le]
  rcases lt_or_ge offset e.lowest with hlow | hlow
  · have hright : ¬ e.LingersRight center offset := fun h => absurd h.1 (by linarith)
    rw [Lingers, or_iff_left hright, LingersLeft]
    rcases clamp_wanted_of_lt_lowest center hlow with ⟨hclamp, hside⟩ | ⟨hclamp, hside⟩
    · rw [hclamp]
      exact ⟨fun h => ⟨⟨by linarith, by linarith [h.1]⟩, .inl hlow⟩,
        fun h => ⟨by linarith [h.1.2], hlow, hside⟩⟩
    · exact iff_of_false (fun h => hside h.2.2) fun h => by linarith [h.1.2]
  have hleft : ¬ e.LingersLeft center offset := fun h => absurd h.2.1 (not_lt.2 hlow)
  rcases lt_or_ge e.highest offset with hhigh | hhigh
  · rw [Lingers, or_iff_right hleft, LingersRight]
    rcases clamp_wanted_of_highest_lt center hhigh with ⟨hclamp, hside⟩ | ⟨hclamp, hside⟩
    · rw [hclamp]
      exact ⟨fun h => ⟨⟨by linarith [h.2.1], by linarith⟩, .inr hhigh⟩,
        fun h => ⟨hhigh, by linarith [h.1.1], hside⟩⟩
    · exact iff_of_false (fun h => hside h.2.2) fun h => by linarith [h.1.1]
  · refine iff_of_false ?_ fun h => ?_
    · rintro (h | h)
      · exact hleft h
      · exact absurd h.1 (not_lt.2 hhigh)
    · rcases h.2 with h | h
      · exact absurd h (not_lt.2 hlow)
      · exact absurd h (not_lt.2 hhigh)

/-! ### Two calls -/

/-- **One call settles the offset** unless the column is wider than the viewport and is moved, or the
offset is just outside the strip. -/
theorem settles_iff : e.Settles center offset ↔ ¬ e.Oscillates center offset ∧ ¬ e.Lingers center offset := by
  by_cases hwide : center = false ∧ e.view < e.w
  · obtain ⟨rfl, hw⟩ := hwide
    rcases le_or_gt offset e.x with hleft | hleft
    · have hmoves : offset ≤ e.x ∨ e.x + 1 / 2 ≤ offset := .inl hleft
      exact iff_of_false (fun h => reveal_again_ne hw hmoves h.again) fun h => h.1 ⟨rfl, hw, hmoves⟩
    rcases le_or_gt ((e.x : ℚ) + 1 / 2) offset with hright | hright
    · have hmoves : offset ≤ e.x ∨ e.x + 1 / 2 ≤ offset := .inr hright
      exact iff_of_false (fun h => reveal_again_ne hw hmoves h.again) fun h => h.1 ⟨rfl, hw, hmoves⟩
    · obtain ⟨hreveal, hclamp⟩ := settles_between hw hleft hright
      refine iff_of_true ?_ ⟨?_, ?_⟩
      · refine ⟨?_, ?_, ?_⟩ <;> simp only [hreveal, hclamp]
      · rintro ⟨-, -, h | h⟩ <;> linarith
      · exact fun h => (lingers_iff.1 h).2 hclamp
  have hosc : ¬ e.Oscillates center offset := fun h => hwide ⟨h.1, h.2.1⟩
  have hfits : center = true ∨ e.w ≤ e.view := by
    rw [not_and_or, Bool.not_eq_false, not_lt] at hwide
    exact hwide
  rw [and_iff_right hosc, lingers_iff]
  by_cases hnear : |e.clamp (e.wanted center offset) - offset| < 1 / 2
  · have hreveal := reveal_of_near hnear
    rw [and_iff_right hnear, not_not]
    refine ⟨fun h => ?_, fun hclamp => ?_⟩
    · have hfirst := h.first
      rwa [hreveal] at hfirst
    · refine ⟨?_, ?_, ?_⟩ <;> simp only [hreveal, hclamp]
  · refine iff_of_true ?_ fun h => hnear h.1
    have hreveal := reveal_of_far hnear
    have hagain : e.reveal center (e.reveal center offset) = e.reveal center offset := by
      apply reveal_of_near
      rw [hreveal, clamp_wanted_again hfits, sub_self, abs_zero]
      norm_num
    have hclamp := clamp_reveal_of_far hnear
    exact ⟨hagain, hclamp, by rw [hagain, hclamp]⟩

end Extent

/-! ### Revealing in the tree -/

namespace Tree

variable {cfg : Config} {t t' : Tree} {column con : ConId} {e : Extent}

/-- A second reveal of the column leaves the offset, and after each of them clamping does. -/
structure RevealSettles (cfg : Config) (t : Tree) (column con : ConId) : Prop where
  again : (((t.scrollingReveal cfg column).scrollingReveal cfg column).con con).scrollOffset =
    ((t.scrollingReveal cfg column).con con).scrollOffset
  first : (t.scrollingReveal cfg column).clampOffset con ((t.scrollingReveal cfg column).con con).scrollOffset
      ((t.scrollingReveal cfg column).scrollingTotalWidth cfg con) =
    ((t.scrollingReveal cfg column).con con).scrollOffset
  second : ((t.scrollingReveal cfg column).scrollingReveal cfg column).clampOffset con
      (((t.scrollingReveal cfg column).scrollingReveal cfg column).con con).scrollOffset
      (((t.scrollingReveal cfg column).scrollingReveal cfg column).scrollingTotalWidth cfg con) =
    (((t.scrollingReveal cfg column).scrollingReveal cfg column).con con).scrollOffset

/-- The column is in its strip at this extent. -/
structure HasExtent (cfg : Config) (t : Tree) (column con : ConId) (e : Extent) : Prop where
  parent : (t.con column).parent = some con
  layout : (t.con con).layout = .scrolling
  extent : t.columnExtent cfg con column = (some ((e.x : ℚ), (e.w : ℚ)), (e.total : ℚ))
  view : ((t.con con).rect.width : ℤ) = e.view

theorem HasExtent.onlyOffsets (h : HasExtent cfg t column con e) (ho : OnlyOffsets t t') :
    HasExtent cfg t' column con e where
  parent := by rw [ho.parent, h.parent]
  layout := by rw [ho.layout, h.layout]
  extent := by rw [ho.columnExtent, h.extent]
  view := by rw [ho.rect, h.view]

/-- The loop adds up whole pixels. -/
theorem columnExtentLoop_cast (cfg : Config) (t : Tree) (con column : ConId) (l : List ConId) (x : ℤ) (found : Option (ℤ × ℤ)) :
    ∃ (total : ℤ) (found' : Option (ℤ × ℤ)),
      t.columnExtentLoop cfg con column l x (found.map fun p => ((p.1 : ℚ), (p.2 : ℚ))) =
        (found'.map fun p => ((p.1 : ℚ), (p.2 : ℚ)), (total : ℚ)) ∧
      (found.isSome ∨ column ∈ l → found'.isSome) := by
  induction l generalizing x found with
  | nil => exact ⟨x, found, rfl, by simp⟩
  | cons child l ih =>
    obtain ⟨total, found', heq, hsome⟩ := ih (x + t.scrollingColumnWidth cfg con child)
      (if child = column then some (x, t.scrollingColumnWidth cfg con child) else found)
    refine ⟨total, found', ?_, fun h => hsome ?_⟩
    · rw [columnExtentLoop, ← heq]
      push_cast
      split <;> rfl
    · rcases h with h | h
      · left
        split
        · rfl
        · exact h
      · by_cases hc : child = column
        · left
          rw [if_pos hc]
          rfl
        · exact .inr ((List.mem_cons.1 h).resolve_left fun heq => hc heq.symm)

theorem exists_columnExtent (cfg : Config) (hmem : column ∈ (t.con con).nodesHead) :
    ∃ x w total : ℤ, t.columnExtent cfg con column = (some ((x : ℚ), (w : ℚ)), (total : ℚ)) := by
  obtain ⟨total, found, heq, hsome⟩ :=
    columnExtentLoop_cast cfg t con column (t.con con).nodesHead 0 none
  obtain ⟨⟨x, w⟩, rfl⟩ := Option.isSome_iff_exists.1 (hsome (.inr hmem))
  exact ⟨x, w, total, by simpa [columnExtent] using heq⟩

/-- Every column of a scrolling container with a width has an extent. -/
theorem exists_hasExtent (cfg : Config) (hparent : (t.con column).parent = some con)
    (hlayout : (t.con con).layout = .scrolling) (hmem : column ∈ (t.con con).nodesHead) (hwidth : (t.con con).rect.width ≠ 0) :
    ∃ e, HasExtent cfg t column con e := by
  obtain ⟨x, w, total, hextent⟩ := exists_columnExtent cfg hmem
  obtain ⟨hx, hw, hfits⟩ := columnExtent_bounds hextent
  exact ⟨⟨x, w, total, (t.con con).rect.width, by exact_mod_cast hx, by exact_mod_cast hw,
    by exact_mod_cast hfits, by exact_mod_cast Nat.pos_of_ne_zero hwidth⟩, hparent, hlayout, hextent, rfl⟩

theorem clampOffset_eq (h : HasExtent cfg t column con e) (offset : ℚ) :
    t.clampOffset con offset (e.total : ℚ) = e.clamp offset := by
  have hview : ((t.con con).rect.width : ℚ) = e.view := by exact_mod_cast h.view
  simp only [clampOffset, Extent.clamp, hview]

/-- Without animations `scrolling_reveal` changes the offset, and nothing else. -/
theorem scrollingReveal_eq (hduration : cfg.durationMs ≤ 0) (h : HasExtent cfg t column con e) :
    OnlyOffsets t (t.scrollingReveal cfg column) ∧
      ((t.scrollingReveal cfg column).con con).scrollOffset =
        e.reveal cfg.centerFocus (t.con con).scrollOffset := by
  have hview : ((t.con con).rect.width : ℚ) = e.view := by exact_mod_cast h.view
  have hwidth : (t.con con).rect.width ≠ 0 := by
    have hpos := e.view_pos
    rw [← h.view] at hpos
    omega
  have htarget : t.revealTarget cfg con e.x e.w e.total =
      e.clamp (e.wanted cfg.centerFocus (t.con con).scrollOffset) := by
    simp only [revealTarget, clampOffset_eq h, Extent.wanted, hview]
  have hreveal : t.scrollingReveal cfg column =
      t.scrollToOffset cfg con (e.clamp (e.wanted cfg.centerFocus (t.con con).scrollOffset)) := by
    rw [scrollingReveal, h.parent]
    dsimp only
    rw [if_neg (not_or.2 ⟨not_not.2 h.layout, hwidth⟩), h.extent]
    dsimp only
    rw [htarget]
  rw [hreveal, scrollToOffset, Extent.reveal]
  split
  · exact ⟨.refl t, rfl⟩
  · exact ⟨(OnlyOffsets.of_con (scrollCancel_con t)).trans (setScrollOffset_onlyOffsets _ _ _),
      setScrollOffset_self _ _ _⟩

theorem HasExtent.total (h : HasExtent cfg t column con e) : t.scrollingTotalWidth cfg con = e.total := by
  rw [← columnExtent_total con column, h.extent]

theorem revealSettles_iff_of_extent (hduration : cfg.durationMs ≤ 0) (h : HasExtent cfg t column con e) :
    RevealSettles cfg t column con ↔
      ¬ e.Oscillates cfg.centerFocus (t.con con).scrollOffset ∧
        ¬ e.Lingers cfg.centerFocus (t.con con).scrollOffset := by
  obtain ⟨ho, hoffset⟩ := scrollingReveal_eq hduration h
  have h' := h.onlyOffsets ho
  obtain ⟨ho', hoffset'⟩ := scrollingReveal_eq hduration h'
  have h'' := h'.onlyOffsets ho'
  rw [hoffset] at hoffset'
  rw [← Extent.settles_iff]
  constructor
  · rintro ⟨hagain, hfirst, hsecond⟩
    rw [h'.total, clampOffset_eq h', hoffset] at hfirst
    rw [h''.total, clampOffset_eq h'', hoffset'] at hsecond
    rw [hoffset', hoffset] at hagain
    exact ⟨hagain, hfirst, hsecond⟩
  · rintro ⟨hagain, hfirst, hsecond⟩
    refine ⟨?_, ?_, ?_⟩
    · rw [hoffset', hoffset, hagain]
    · rw [h'.total, clampOffset_eq h', hoffset, hfirst]
    · rw [h''.total, clampOffset_eq h'', hoffset', hsecond]

/-- A viewport without a width leaves the offset alone, also one outside the strip. -/
theorem revealSettles_iff_of_width (hparent : (t.con column).parent = some con)
    (hwidth : (t.con con).rect.width = 0) :
    RevealSettles cfg t column con ↔
      t.clampOffset con (t.con con).scrollOffset (t.scrollingTotalWidth cfg con) = (t.con con).scrollOffset := by
  have hreveal : t.scrollingReveal cfg column = t := by
    rw [scrollingReveal, hparent]
    dsimp only
    rw [if_pos (.inr hwidth)]
  refine ⟨fun h => ?_, fun h => ⟨?_, ?_, ?_⟩⟩
  · have hfirst := h.first
    rwa [hreveal] at hfirst
  all_goals simp only [hreveal, h]

theorem clampOffset_of_width (hwidth : (t.con con).rect.width = 0) {offset total : ℚ} (htotal : 0 ≤ total) :
    t.clampOffset con offset total = offset ↔ 0 ≤ offset ∧ offset ≤ total := by
  simp only [clampOffset, hwidth, Nat.cast_zero, sub_zero]
  split_ifs <;> constructor <;> intro h
  all_goals first | (constructor <;> linarith) | linarith [h.1, h.2]

/-- **Revealing a column settles its container** unless the column is wider than the viewport and is
moved, or the offset is just outside the strip. -/
theorem revealSettles_iff (cfg : Config) (t : Tree) (column con : ConId) (hduration : cfg.durationMs ≤ 0)
    (hparent : (t.con column).parent = some con) (hlayout : (t.con con).layout = .scrolling)
    (hmem : column ∈ (t.con con).nodesHead) :
    RevealSettles cfg t column con ↔
      ((t.con con).rect.width = 0 → 0 ≤ (t.con con).scrollOffset ∧
        (t.con con).scrollOffset ≤ t.scrollingTotalWidth cfg con) ∧
      ∀ e, HasExtent cfg t column con e →
        ¬ e.Oscillates cfg.centerFocus (t.con con).scrollOffset ∧
          ¬ e.Lingers cfg.centerFocus (t.con con).scrollOffset := by
  by_cases hwidth : (t.con con).rect.width = 0
  · have hnone : ∀ e, ¬ HasExtent cfg t column con e := by
      intro e h
      have hview := h.view
      rw [hwidth] at hview
      exact e.view_pos.ne hview
    have htotal : 0 ≤ t.scrollingTotalWidth cfg con := by
      rw [← columnExtent_total con column]
      obtain ⟨x, w, total, hextent⟩ := exists_columnExtent cfg hmem
      obtain ⟨hx, hw, hfits⟩ := columnExtent_bounds hextent
      rw [hextent]
      dsimp only
      linarith
    rw [revealSettles_iff_of_width hparent hwidth, clampOffset_of_width hwidth htotal]
    exact ⟨fun h => ⟨fun _ => h, fun e he => absurd he (hnone e)⟩, fun h => h.1 hwidth⟩
  · obtain ⟨e, he⟩ := exists_hasExtent cfg hparent hlayout hmem hwidth
    rw [revealSettles_iff_of_extent hduration he]
    refine ⟨fun h => ⟨fun hzero => absurd hzero hwidth, fun e' he' => ?_⟩, fun h => h.2 e he⟩
    exact (revealSettles_iff_of_extent hduration he').1 ((revealSettles_iff_of_extent hduration he).2 h)

/-- A strip with one column, twice as wide as the viewport. -/
def doubleColumn : Tree where
  con c := match c with
    | 1 => { type := .workspace, layout := .scrolling, rect := ⟨0, 0, 100, 100⟩, nodesHead := [2] }
    | 2 => { parent := some 1, percent := 2 }
    | _ => {}
  allCons := [1, 2]
  croot := 1
  focused := some 2
  nextCon := 3

def doubleColumnExtent : Extent where
  x := 0
  w := 200
  total := 200
  view := 100
  x_nonneg := by decide
  one_le_w := by decide
  fits := by decide
  view_pos := by decide

/-- The configuration without animations. -/
def unanimated : Config := { durationMs := 0 }

theorem hasExtent_doubleColumn : HasExtent unanimated doubleColumn 2 1 doubleColumnExtent :=
  ⟨rfl, rfl, by decide +kernel, rfl⟩

theorem revealSettles_doubleColumn :
    RevealSettles unanimated doubleColumn 2 1 ↔
      ((doubleColumn.con 1).rect.width = 0 → 0 ≤ (doubleColumn.con 1).scrollOffset ∧
        (doubleColumn.con 1).scrollOffset ≤ doubleColumn.scrollingTotalWidth unanimated 1) ∧
      ∀ e, HasExtent unanimated doubleColumn 2 1 e →
        ¬ e.Oscillates unanimated.centerFocus (doubleColumn.con 1).scrollOffset ∧
          ¬ e.Lingers unanimated.centerFocus (doubleColumn.con 1).scrollOffset :=
  revealSettles_iff unanimated doubleColumn 2 1 (by decide) rfl rfl (by decide)

/-- From the left edge to the right one, and back. -/
theorem not_revealSettles_doubleColumn : ¬ RevealSettles unanimated doubleColumn 2 1 := by
  intro h
  have hagain := h.again
  obtain ⟨ho, hoffset⟩ := scrollingReveal_eq (by decide) hasExtent_doubleColumn
  obtain ⟨-, hoffset'⟩ := scrollingReveal_eq (by decide) (hasExtent_doubleColumn.onlyOffsets ho)
  rw [hoffset', hoffset] at hagain
  exact Extent.reveal_again_ne (by decide) (.inl (by decide +kernel)) hagain

end Tree

end I3
