import Mathlib.Data.List.GetD
import Mathlib.Order.Bounds.Basic
import Mathlib.Tactic.IntervalCases
import Mathlib.Tactic.NormNum
import I3Aiwr.Tree.Columns

/-!
# Cycling through the widths

`scrolling_cycle_width` of `src/scrolling.c` gives a column the next width of `width_presets`. What is
next depends on the width the column has, which may be a preset, up to a tolerance, or anything else,
below, between or above the presets. One width later the column has a preset, and from there on every
preset has its turn.

## Main definitions

* `Tree.Neighbour backwards w p`: the preset a column of width `w` is to get
* `Tree.cycledWidth`: the width of a column after some cycles
* `Tree.VisitsAll`: the cycles go through all presets, again and again

## Main results

* `Tree.cycles_iff`: a column gets the neighbouring preset, unless it is wider than all presets and the
  cycle goes backwards
-/

namespace I3

namespace Tree

section Definitions

variable (cfg : Config) (t : Tree) (c column : ConId) (backwards : Bool)

/-- The presets on the side of the width `w` that the cycle goes to, by at least the tolerance. -/
def beyond (w : ℚ) : Set ℚ :=
  {p | p ∈ widthPresets ∧ if backwards then p + 2 / 100 ≤ w else w + 2 / 100 ≤ p}

/-- The element of a set that a cycle meets first. -/
def IsNearest (s : Set ℚ) (p : ℚ) : Prop := if backwards then IsGreatest s p else IsLeast s p

/-- The preset next to the width `w`, around the end where there is none. -/
def Neighbour (w p : ℚ) : Prop :=
  IsNearest backwards (beyond backwards w) p ∨
    beyond backwards w = ∅ ∧ IsNearest backwards {p | p ∈ widthPresets} p

/-- The width after `k` cycles. -/
def cycledWidth (k : ℕ) : ℚ :=
  ((fun t => t.scrollingCycleWidth cfg c backwards)^[k] t).columnPercent cfg column

/-- From the first cycle on every preset has its turn, in a period of as many cycles as presets. -/
def VisitsAll : Prop :=
  ∀ k, t.cycledWidth cfg c column backwards (k + 1 + widthPresets.length) =
      t.cycledWidth cfg c column backwards (k + 1) ∧
    ∀ p ∈ widthPresets, ∃ j < widthPresets.length, t.cycledWidth cfg c column backwards (k + 1 + j) = p

/-- The width after one cycle from the width `w`. -/
def cycleFrom (w : ℚ) : ℚ := widthPresets.getD (nextPreset w backwards) 0

end Definitions

variable {cfg : Config} {t : Tree} {c column : ConId} {backwards : Bool} {w p : ℚ}

/-! ### Where a bound falls in a sorted list -/

section Sorted

variable {α : Type*} [LinearOrder α] {l : List α} {a b : α}

/-- What is not below a bound begins at the place where as many are below it. -/
theorem isLeast_getElem_countP (hl : l.Pairwise (· < ·)) (h : l.countP (· < b) < l.length) :
    IsLeast {a | a ∈ l ∧ b ≤ a} l[l.countP (· < b)] := by
  induction l with
  | nil => cases h
  | cons a l ih =>
    obtain ⟨hal, hl⟩ := List.pairwise_cons.1 hl
    by_cases hab : a < b
    · have hcount : (a :: l).countP (· < b) = l.countP (· < b) + 1 := by simp [hab]
      have hlt : l.countP (· < b) < l.length := by
        rw [hcount, List.length_cons] at h
        omega
      obtain ⟨⟨hmem, hle⟩, hleast⟩ := ih hl hlt
      simp only [hcount, List.getElem_cons_succ]
      refine ⟨⟨List.mem_cons_of_mem a hmem, hle⟩, fun x hx => ?_⟩
      rcases List.mem_cons.1 hx.1 with rfl | hxl
      · exact absurd hx.2 (not_le.2 hab)
      · exact hleast ⟨hxl, hx.2⟩
    · -- the bound is at or before the head, and so before all that follows
      have hcount : (a :: l).countP (· < b) = 0 := by
        rw [List.countP_eq_zero]
        intro x hx
        rcases List.mem_cons.1 hx with rfl | hxl
        · simpa using hab
        · simpa using (not_lt.1 hab).trans (hal x hxl).le
      simp only [hcount, List.getElem_cons_zero]
      refine ⟨⟨List.mem_cons_self, not_lt.1 hab⟩, fun x hx => ?_⟩
      rcases List.mem_cons.1 hx.1 with rfl | hxl
      · exact le_rfl
      · exact (hal x hxl).le

/-- What is not above a bound ends before the place where as many are not above it. -/
theorem isGreatest_getElem_countP (hl : l.Pairwise (· < ·)) {k : ℕ} (hk : l.countP (· ≤ b) = k + 1)
    (h : k < l.length) : IsGreatest {a | a ∈ l ∧ a ≤ b} l[k] := by
  induction l generalizing k with
  | nil => cases h
  | cons a l ih =>
    obtain ⟨hal, hl⟩ := List.pairwise_cons.1 hl
    by_cases hab : a ≤ b
    · have hcount : l.countP (· ≤ b) = k := by simpa [hab] using hk
      cases k with
      | zero =>
        refine ⟨⟨List.mem_cons_self, hab⟩, fun x hx => ?_⟩
        rcases List.mem_cons.1 hx.1 with rfl | hxl
        · exact le_rfl
        · have hnone := List.countP_eq_zero.1 hcount x hxl
          exact absurd hx.2 (by simpa using hnone)
      | succ k =>
        obtain ⟨⟨hmem, hle⟩, hgreatest⟩ := ih hl hcount (Nat.lt_of_succ_lt_succ h)
        refine ⟨⟨List.mem_cons_of_mem a hmem, hle⟩, fun x hx => ?_⟩
        rcases List.mem_cons.1 hx.1 with rfl | hxl
        · exact (hal _ hmem).le
        · exact hgreatest ⟨hxl, hx.2⟩
    · have hnone : (a :: l).countP (· ≤ b) = 0 := by
        rw [List.countP_eq_zero]
        intro x hx
        rcases List.mem_cons.1 hx with rfl | hxl
        · simpa using hab
        · simpa using (not_le.1 hab).trans (hal x hxl)
      rw [hnone] at hk
      cases hk

end Sorted

/-! ### The next preset -/

/-- The presets are further apart than the tolerance reaches from both sides. -/
def Spaced (presets : List ℚ) : Prop := presets.Pairwise fun p q => p + 4 / 100 ≤ q

theorem Spaced.sorted {presets : List ℚ} (h : Spaced presets) : presets.Pairwise (· < ·) :=
  List.Pairwise.imp (fun {p q} hpq => by linarith) h

/-- Forwards the loop stops one place before the first preset beyond the width. -/
theorem presetIndex_forwards {presets : List ℚ} (h : Spaced presets) (w : ℚ) (i : ℤ) :
    presetIndex w false presets i + 1 = i + presets.countP (· < w + 2 / 100) := by
  induction presets generalizing i with
  | nil => simp [presetIndex]
  | cons p presets ih =>
    obtain ⟨hp, h⟩ := List.pairwise_cons.1 h
    have hrest (hw : w - 2 / 100 < p) : presets.countP (· < w + 2 / 100) = 0 := by
      rw [List.countP_eq_zero]
      intro q hq
      have := hp q hq
      simp only [decide_eq_true_eq]
      linarith
    rw [presetIndex]
    split
    next hnear =>
      obtain ⟨hlow, hhigh⟩ := abs_lt.1 hnear
      have hlt : p < w + 2 / 100 := by linarith
      rw [List.countP_cons_of_pos (by simpa using hlt), hrest (by linarith)]
      simp
    next hnear =>
      split
      next hgt =>
        have hge : ¬ p < w + 2 / 100 := fun hlt => hnear (abs_lt.2 ⟨by linarith, by linarith⟩)
        rw [List.countP_cons_of_neg (by simpa using hge), hrest (by linarith)]
        simp
      next hle =>
        have hlt : p < w + 2 / 100 := by linarith
        rw [ih h, List.countP_cons_of_pos (by simpa using hlt)]
        push_cast
        ring

/-- Backwards it stops one place after the last preset beyond the width, if there is a place. -/
theorem presetIndex_backwards {presets : List ℚ} (h : Spaced presets) {w : ℚ} (i : ℤ)
    (hw : ∃ p ∈ presets, w - 2 / 100 < p) :
    presetIndex w true presets i = i + presets.countP (· ≤ w - 2 / 100) := by
  induction presets generalizing i with
  | nil => obtain ⟨_, hp, _⟩ := hw; cases hp
  | cons p presets ih =>
    obtain ⟨hp, h⟩ := List.pairwise_cons.1 h
    have hrest (hw : w - 2 / 100 < p) : (p :: presets).countP (· ≤ w - 2 / 100) = 0 := by
      rw [List.countP_eq_zero]
      intro q hq
      simp only [decide_eq_true_eq]
      rcases List.mem_cons.1 hq with rfl | hq
      · linarith
      · have := hp q hq
        linarith
    rw [presetIndex]
    split
    next hnear =>
      have hlow := (abs_lt.1 hnear).1
      rw [hrest (by linarith)]
      simp
    next hnear =>
      split
      next hgt =>
        rw [hrest (by linarith)]
        simp
      next hle =>
        have hge : p ≤ w - 2 / 100 := by
          by_contra hlt
          exact hnear (abs_lt.2 ⟨by linarith, by linarith⟩)
        obtain ⟨q, hq, hwq⟩ := hw
        rcases List.mem_cons.1 hq with rfl | hq
        · linarith
        · rw [ih h (i + 1) ⟨q, hq, hwq⟩, List.countP_cons_of_pos (by simpa using hge)]
          push_cast
          ring

/-- At the end of the table it stops on the last preset, which is where the place after it would be
needed. -/
theorem presetIndex_above {presets : List ℚ} {w : ℚ} (backwards : Bool) (i : ℤ)
    (hw : ∀ p ∈ presets, p ≤ w - 2 / 100) :
    presetIndex w backwards presets i = i + presets.length - 1 := by
  induction presets generalizing i with
  | nil => simp [presetIndex]
  | cons p presets ih =>
    have hp := hw p List.mem_cons_self
    have hnear : ¬ |p - w| < 2 / 100 := by
      rw [abs_lt]
      rintro ⟨hlow, -⟩
      linarith
    have hgt : ¬ p > w := by
      intro hgt
      linarith
    rw [presetIndex, if_neg hnear, if_neg hgt, ih _ fun q hq => hw q (List.mem_cons_of_mem p hq)]
    push_cast [List.length_cons]
    ring

theorem spaced_widthPresets : Spaced widthPresets := by
  norm_num [Spaced, widthPresets]

theorem mem_widthPresets : p ∈ widthPresets ↔ p = 3333 / 10000 ∨ p = 1 / 2 ∨ p = 6667 / 10000 ∨ p = 1 := by
  simp [widthPresets]

theorem isLeast_widthPresets : IsLeast {p | p ∈ widthPresets} (3333 / 10000) := by
  refine ⟨mem_widthPresets.2 (.inl rfl), fun p hp => ?_⟩
  rcases mem_widthPresets.1 hp with rfl | rfl | rfl | rfl <;> norm_num

theorem isGreatest_widthPresets : IsGreatest {p | p ∈ widthPresets} 1 := by
  refine ⟨mem_widthPresets.2 (.inr (.inr (.inr rfl))), fun p hp => ?_⟩
  rcases mem_widthPresets.1 hp with rfl | rfl | rfl | rfl <;> norm_num

/-- Forwards the column gets the neighbouring preset, whatever its width. -/
theorem neighbour_forwards (w : ℚ) : Neighbour false w (cycleFrom false w) := by
  have hindex := presetIndex_forwards spaced_widthPresets w 0
  have hle : widthPresets.countP (· < w + 2 / 100) ≤ widthPresets.length := List.countP_le_length
  rcases Nat.lt_or_eq_of_le hle with hlt | hall
  · have hnext : nextPreset w false = widthPresets.countP (· < w + 2 / 100) := by
      simp only [nextPreset, Bool.false_eq_true, if_false]
      rw [hindex, if_neg (by omega), if_neg (by omega)]
      omega
    rw [cycleFrom, hnext, List.getD_eq_getElem _ _ hlt]
    exact .inl (isLeast_getElem_countP spaced_widthPresets.sorted hlt)
  · -- no preset is beyond the width, and the cycle begins again
    have hnext : nextPreset w false = 0 := by
      simp only [nextPreset, Bool.false_eq_true, if_false]
      rw [hindex, if_neg (by omega), if_pos (by omega)]
    rw [cycleFrom, hnext]
    refine .inr ⟨?_, isLeast_widthPresets⟩
    ext p
    constructor
    · rintro ⟨hp, hbeyond⟩
      have hbelow := List.countP_eq_length.1 hall p hp
      simp only [decide_eq_true_eq, Bool.false_eq_true, if_false] at hbelow hbeyond
      linarith
    · exact False.elim

/-- Backwards it does so if it is not wider than all presets. -/
theorem neighbour_backwards (h : w < 1 + 2 / 100) : Neighbour true w (cycleFrom true w) := by
  have hindex := presetIndex_backwards spaced_widthPresets 0
    ⟨1, mem_widthPresets.2 (.inr (.inr (.inr rfl))), (by linarith : w - 2 / 100 < 1)⟩
  have hle : widthPresets.countP (· ≤ w - 2 / 100) ≤ widthPresets.length := List.countP_le_length
  have hbeyond : beyond true w = {p | p ∈ widthPresets ∧ p ≤ w - 2 / 100} := by
    ext p
    simp only [beyond, if_true, Set.mem_ofPred_eq, le_sub_iff_add_le]
  rw [Neighbour, hbeyond]
  cases hcount : widthPresets.countP (· ≤ w - 2 / 100) with
  | zero =>
    have hnext : nextPreset w true = widthPresets.length - 1 := by
      simp only [nextPreset, if_true]
      rw [hindex, hcount, if_pos (by omega)]
    rw [cycleFrom, hnext]
    refine .inr ⟨?_, isGreatest_widthPresets⟩
    ext p
    constructor
    · rintro ⟨hp, hbelow⟩
      have hnot := List.countP_eq_zero.1 hcount p hp
      exact hnot (by simpa using hbelow)
    · exact False.elim
  | succ k =>
    have hlt : k < widthPresets.length := by omega
    have hnext : nextPreset w true = k := by
      simp only [nextPreset, if_true]
      rw [hindex, hcount, if_neg (by omega), if_neg (by omega)]
      omega
    rw [cycleFrom, hnext, List.getD_eq_getElem _ _ hlt]
    exact .inl (isGreatest_getElem_countP spaced_widthPresets.sorted hcount hlt)

/-- A column wider than all presets gets the last but one. -/
theorem cycleFrom_above (h : 1 + 2 / 100 ≤ w) : cycleFrom true w = 6667 / 10000 := by
  have hall : ∀ p ∈ widthPresets, p ≤ w - 2 / 100 := fun p hp =>
    (isGreatest_widthPresets.2 hp).trans (by linarith)
  have hnext : nextPreset w true = 2 := by
    rw [nextPreset, presetIndex_above true 0 hall]
    rfl
  rw [cycleFrom, hnext]
  rfl

theorem not_neighbour_above (h : 1 + 2 / 100 ≤ w) : ¬ Neighbour true w (cycleFrom true w) := by
  have hbeyond : beyond true w = {p | p ∈ widthPresets} := by
    ext p
    refine ⟨And.left, fun hp => ⟨hp, ?_⟩⟩
    have hle : p ≤ 1 := isGreatest_widthPresets.2 hp
    rw [if_pos rfl]
    linarith
  rw [cycleFrom_above h, Neighbour, hbeyond]
  rintro (hgreatest | ⟨hempty, -⟩)
  · have := isGreatest_widthPresets.unique hgreatest
    norm_num at this
  · have hone : (1 : ℚ) ∈ {p | p ∈ widthPresets} := isGreatest_widthPresets.1
    rw [hempty] at hone
    exact hone

/-! ### The column that is resized -/

theorem columnOfN_congr {t' : Tree} (hparent : ∀ c, (t'.con c).parent = (t.con c).parent)
    (hlayout : ∀ c, (t'.con c).layout = (t.con c).layout)
    (htype : ∀ c, (t'.con c).type = (t.con c).type) (n : ℕ) (c : ConId) :
    t'.columnOfN n c = t.columnOfN n c := by
  induction n generalizing c with
  | zero => rfl
  | succ n ih =>
    simp only [columnOfN, hparent, htype]
    cases (t.con c).parent with
    | none => rfl
    | some p => simp only [hlayout, ih]

theorem columnOf_congr {t' : Tree} {S : ConId → Prop} (hlinks : Links t t') (hweighs : Reweighs S t t')
    (c : ConId) : t'.columnOf c = t.columnOf c := by
  rw [columnOf, columnOf, hlinks.nextCon]
  exact columnOfN_congr hlinks.parent hweighs.layout hlinks.type _ c

/-- A cycle leaves the columns where they are. -/
theorem columnOf_cycle (d : ConId) : (t.scrollingCycleWidth cfg c backwards).columnOf d = t.columnOf d := by
  rw [scrollingCycleWidth]
  split
  · rfl
  next column hcolumn =>
    apply columnOf_congr (S := fun _ => True)
    · exact ((Links.of_modify t column _ rfl rfl rfl rfl rfl rfl rfl).trans
        (stirs_treeRender cfg _).links).trans (stirs_scrollingReveal cfg _ column).links
    · exact ((Reweighs.of_modify rfl rfl rfl (.inl trivial)).trans .treeRender).trans .scrollingReveal

theorem cycleFrom_mem (backwards : Bool) (w : ℚ) : cycleFrom backwards w ∈ widthPresets := by
  have hlt : nextPreset w backwards < widthPresets.length := by
    have hlength : widthPresets.length = 4 := rfl
    simp only [nextPreset, hlength]
    generalize presetIndex w backwards widthPresets 0 + (if backwards then -1 else 1) = idx
    split_ifs <;> omega
  rw [cycleFrom, List.getD_eq_getElem _ _ hlt]
  exact List.getElem_mem hlt

/-- The width a cycle gives to its column. -/
theorem columnPercent_cycle (hcolumn : t.columnOf c = some column) :
    (t.scrollingCycleWidth cfg c backwards).columnPercent cfg column =
      cycleFrom backwards (t.columnPercent cfg column) := by
  have hpos : 0 < cycleFrom backwards (t.columnPercent cfg column) := by
    have hleast := isLeast_widthPresets.2 (cycleFrom_mem backwards (t.columnPercent cfg column))
    linarith
  have hpercent : ((t.scrollingCycleWidth cfg c backwards).con column).percent =
      cycleFrom backwards (t.columnPercent cfg column) := by
    rw [scrollingCycleWidth, hcolumn]
    dsimp only
    rw [(stirs_scrollingReveal cfg _ column).percent, (stirs_treeRender cfg _).percent, modify_con_self]
    rfl
  rw [columnPercent, hpercent, if_pos hpos]

/-! ### One cycle after the other -/

theorem columnOf_cycles (k : ℕ) (d : ConId) :
    ((fun t => t.scrollingCycleWidth cfg c backwards)^[k] t).columnOf d = t.columnOf d := by
  induction k with
  | zero => rfl
  | succ k ih => rw [Function.iterate_succ_apply', columnOf_cycle, ih]

theorem cycledWidth_succ (hcolumn : t.columnOf c = some column) (k : ℕ) :
    t.cycledWidth cfg c column backwards (k + 1) =
      cycleFrom backwards (t.cycledWidth cfg c column backwards k) := by
  rw [cycledWidth, Function.iterate_succ_apply', columnPercent_cycle ((columnOf_cycles k c).trans hcolumn)]
  rfl

/-- The place of the preset that has its turn after the one at the place `i`. -/
def turn (backwards : Bool) (i : ℕ) : ℕ := (i + if backwards then 3 else 1) % 4

theorem cycleFrom_preset (backwards : Bool) {i : ℕ} (hi : i < 4) :
    cycleFrom backwards (widthPresets.getD i 0) = widthPresets.getD (turn backwards i) 0 := by
  cases backwards <;> interval_cases i <;> decide +kernel

theorem cycledWidth_preset (hcolumn : t.columnOf c = some column) {k i : ℕ} (hi : i < 4)
    (hk : t.cycledWidth cfg c column backwards k = widthPresets.getD i 0) (j : ℕ) :
    t.cycledWidth cfg c column backwards (k + j) = widthPresets.getD ((turn backwards)^[j] i) 0 := by
  induction j generalizing k i with
  | zero => exact hk
  | succ j ih =>
    have hnext : t.cycledWidth cfg c column backwards (k + 1) = widthPresets.getD (turn backwards i) 0 := by
      rw [cycledWidth_succ hcolumn, hk, cycleFrom_preset backwards hi]
    have hlt : turn backwards i < 4 := Nat.mod_lt _ (by norm_num)
    rw [Function.iterate_succ_apply, ← ih hlt hnext, Nat.add_right_comm, Nat.add_assoc k j 1]

/-- Four turns lead back, and meet every place. -/
theorem turns (backwards : Bool) {i : ℕ} (hi : i < 4) :
    (turn backwards)^[4] i = i ∧ ∀ j < 4, ∃ m < 4, (turn backwards)^[m] i = j := by
  cases backwards <;> interval_cases i <;> decide

theorem visitsAll (hcolumn : t.columnOf c = some column) : t.VisitsAll cfg c column backwards := by
  intro k
  obtain ⟨i, hi, hwidth⟩ := List.mem_iff_getElem.1
    (cycleFrom_mem backwards (t.cycledWidth cfg c column backwards k))
  have hk : t.cycledWidth cfg c column backwards (k + 1) = widthPresets.getD i 0 := by
    rw [cycledWidth_succ hcolumn, List.getD_eq_getElem _ _ hi, hwidth]
  obtain ⟨hperiod, hmeets⟩ := turns backwards hi
  refine ⟨?_, fun p hp => ?_⟩
  · rw [hk, cycledWidth_preset hcolumn hi hk]
    exact congrArg (widthPresets.getD · 0) hperiod
  · obtain ⟨j, hj, rfl⟩ := List.mem_iff_getElem.1 hp
    obtain ⟨m, hm, hturn⟩ := hmeets j hj
    refine ⟨m, hm, ?_⟩
    rw [cycledWidth_preset hcolumn hi hk, hturn, List.getD_eq_getElem _ _ hj]

/-- **Cycling reaches the neighbouring preset**, and goes through all of them from there on; but
backwards from a width above all presets it leaves the last one out. -/
theorem cycles_iff (cfg : Config) (t : Tree) (c column : ConId) (backwards : Bool)
    (hcolumn : t.columnOf c = some column) :
    (Neighbour backwards (t.columnPercent cfg column)
        ((t.scrollingCycleWidth cfg c backwards).columnPercent cfg column) ∧
      t.VisitsAll cfg c column backwards) ↔
      ¬ (backwards = true ∧ 1 + 2 / 100 ≤ t.columnPercent cfg column) := by
  rw [and_iff_left (visitsAll hcolumn), columnPercent_cycle hcolumn]
  cases backwards with
  | false => exact iff_of_true (neighbour_forwards _) (by simp)
  | true =>
    simp only [true_and, not_le]
    refine ⟨fun h => ?_, neighbour_backwards⟩
    by_contra hwide
    exact not_neighbour_above (not_lt.1 hwide) h

/-- A strip with one column, one and a half times as wide as the viewport. -/
def wideColumn : Tree where
  con c := match c with
    | 1 => { type := .workspace, layout := .scrolling, nodesHead := [2], focusHead := [2] }
    | 2 => { parent := some 1, percent := 3 / 2 }
    | _ => {}
  allCons := [1, 2]
  croot := 1
  focused := some 2
  nextCon := 3

theorem cycles_wideColumn :
    (Neighbour false (wideColumn.columnPercent {} 2)
        ((wideColumn.scrollingCycleWidth {} 2 false).columnPercent {} 2) ∧
      wideColumn.VisitsAll {} 2 2 false) ↔
      ¬ (false = true ∧ 1 + 2 / 100 ≤ wideColumn.columnPercent {} 2) :=
  cycles_iff {} wideColumn 2 2 false (by decide)

theorem not_neighbour_wideColumn :
    wideColumn.columnOf 2 = some 2 ∧ wideColumn.columnPercent {} 2 = 3 / 2 ∧
      ¬ Neighbour true (wideColumn.columnPercent {} 2)
        ((wideColumn.scrollingCycleWidth {} 2 true).columnPercent {} 2) := by
  have hcolumn : wideColumn.columnOf 2 = some 2 := by decide
  have hwidth : wideColumn.columnPercent {} 2 = 3 / 2 := by decide +kernel
  refine ⟨hcolumn, hwidth, ?_⟩
  rw [columnPercent_cycle hcolumn, hwidth]
  exact not_neighbour_above (by norm_num)

end Tree

end I3
