import Mathlib.Tactic.Ring
import I3Aiwr.Lib.Runs
import I3Aiwr.Tree.Scrolling

/-!
# Bringing columns into view

Runs of focus changes, animation frames and completions on scrolling containers, the renderer
leaving the rectangles as they are. `scrolling_reveal` decides from the offset of the moment and
`scroll_to_offset` returns early when the target is close to it, also while the animation of the
same container is on its way elsewhere: then the completion takes the column out of view. Without
such a reveal, the column revealed last is in view whenever no animation is running.

## Main definitions

* `Tree.ColumnInView cfg con column offset`: the column is in view at the offset, up to half a pixel
* `ScrollEvent`, `ScrollRun.step`: the events and their effect
* `Tree.Unhurried`: the reveal does not return early under an animation that leaves the column

## Main results

* `Tree.columnInView_clampOffset`: clamping an offset keeps a column in view
* `ScrollRun.step_settles`: what one event preserves
* `ScrollRun.revealed_inView`: the column revealed last is in view
-/

namespace I3

/-- The configuration whose renderer keeps the rectangles of the containers it visits. -/
def Config.still (cfg : Config) (visits : Tree → ConId → Bool) : Config :=
  { cfg with render := fun t c => if visits t c then some (t.con c).rect else none }

namespace Tree

variable {cfg : Config} {t t' : Tree}

/-! ### The extent of a column -/

theorem one_le_scrollingColumnWidth (cfg : Config) (t : Tree) (con child : ConId) :
    1 ≤ t.scrollingColumnWidth cfg con child := by
  simp only [scrollingColumnWidth]
  split <;> omega

theorem columnExtentLoop_bounds (cfg : Config) (t : Tree) (con column : ConId) :
    ∀ (l : List ConId) (x : ℚ) (found : Option (ℚ × ℚ)), 0 ≤ x →
      (∀ p ∈ found, 0 ≤ p.1 ∧ 1 ≤ p.2 ∧ p.1 + p.2 ≤ x) →
      ∀ p ∈ (t.columnExtentLoop cfg con column l x found).1,
        0 ≤ p.1 ∧ 1 ≤ p.2 ∧ p.1 + p.2 ≤ (t.columnExtentLoop cfg con column l x found).2
  | [], _, _, _, hfound => hfound
  | child :: rest, x, found, hx, hfound => by
    have hw : (1 : ℚ) ≤ t.scrollingColumnWidth cfg con child := by
      exact_mod_cast one_le_scrollingColumnWidth cfg t con child
    refine columnExtentLoop_bounds cfg t con column rest _ _ (by linarith) ?_
    intro p hp
    by_cases hc : child = column
    · rw [if_pos hc, Option.mem_def, Option.some.injEq] at hp
      subst hp
      exact ⟨hx, hw, le_refl _⟩
    · rw [if_neg hc] at hp
      obtain ⟨h₁, h₂, h₃⟩ := hfound p hp
      exact ⟨h₁, h₂, by linarith⟩

/-- A column lies within its strip and is at least a pixel wide. -/
theorem columnExtent_bounds {con column : ConId} {x w total : ℚ}
    (h : t.columnExtent cfg con column = (some (x, w), total)) :
    0 ≤ x ∧ 1 ≤ w ∧ x + w ≤ total := by
  have := columnExtentLoop_bounds cfg t con column (t.con con).nodesHead 0 none
    (le_refl 0) (by simp) (x, w)
  rw [columnExtent] at h
  rw [h] at this
  exact this rfl

/-! ### Columns in view -/

/-- The column, if it is no wider than the viewport, lies in the viewport at `offset`, up to half a
pixel. -/
def ColumnInView (cfg : Config) (t : Tree) (con column : ConId) (offset : ℚ) : Prop :=
  ∀ p ∈ (t.columnExtent cfg con column).1, p.2 ≤ (t.con con).rect.width →
    offset - 1 / 2 ≤ p.1 ∧ p.1 + p.2 ≤ offset + (t.con con).rect.width + 1 / 2

instance (con column : ConId) (offset : ℚ) : Decidable (ColumnInView cfg t con column offset) :=
  inferInstanceAs (Decidable (∀ p ∈ _, _ → _))

theorem columnInView_of_extent {con column : ConId} {x w total offset : ℚ}
    (h : t.columnExtent cfg con column = (some (x, w), total)) :
    ColumnInView cfg t con column offset ↔ (w ≤ (t.con con).rect.width →
      offset - 1 / 2 ≤ x ∧ x + w ≤ offset + (t.con con).rect.width + 1 / 2) := by
  simp [ColumnInView, h]

/-- Clamping an offset to the strip moves no column of the strip away from the viewport. -/
theorem clampOffset_inView {con : ConId} {x w total offset δ : ℚ} (hx : 0 ≤ x) (hw : x + w ≤ total)
    (hδ : 0 ≤ δ) (h₁ : offset - δ ≤ x) (h₂ : x + w ≤ offset + (t.con con).rect.width + δ) :
    t.clampOffset con offset total - δ ≤ x ∧
      x + w ≤ t.clampOffset con offset total + (t.con con).rect.width + δ := by
  simp only [clampOffset]
  split_ifs <;> constructor <;> linarith

theorem columnInView_clampOffset {con column : ConId} {total offset : ℚ}
    (ht : (t.columnExtent cfg con column).2 = total)
    (h : ColumnInView cfg t con column offset) :
    ColumnInView cfg t con column (t.clampOffset con offset total) := by
  rcases hext : t.columnExtent cfg con column with ⟨_ | ⟨x, w⟩, total'⟩
  · simp [ColumnInView, hext]
  · obtain rfl : total' = total := by rw [hext] at ht; exact ht
    obtain ⟨hx, -, hxw⟩ := columnExtent_bounds hext
    rw [columnInView_of_extent hext] at h ⊢
    intro hw
    obtain ⟨h₁, h₂⟩ := h hw
    exact clampOffset_inView hx hxw (by norm_num) h₁ h₂

/-- The offset `scrolling_reveal` asks for shows the column. -/
theorem revealTarget_inView (hc : cfg.centerFocus = false) {con column : ConId} {x w total : ℚ}
    (h : t.columnExtent cfg con column = (some (x, w), total)) {offset : ℚ}
    (hnear : |t.revealTarget cfg con x w total - offset| ≤ 1 / 2) :
    ColumnInView cfg t con column offset := by
  obtain ⟨hx, -, hxw⟩ := columnExtent_bounds h
  rw [columnInView_of_extent h]
  intro hw
  obtain ⟨h₁, h₂⟩ := abs_le.mp hnear
  simp only [revealTarget, hc, Bool.false_eq_true, if_false] at h₁ h₂
  have key : ∀ o : ℚ, o ≤ x → x + w ≤ o + (t.con con).rect.width →
      t.clampOffset con o total ≤ x ∧ x + w ≤ t.clampOffset con o total + (t.con con).rect.width := by
    intro o ho₁ ho₂
    have h₀ : o - 0 ≤ x := by linarith
    simpa using clampOffset_inView hx hxw (le_refl 0) h₀ (by linarith)
  have hview : t.clampOffset con (if x < (t.con con).scrollOffset then x
        else if x + w > (t.con con).scrollOffset + (t.con con).rect.width
          then x + w - (t.con con).rect.width else (t.con con).scrollOffset) total ≤ x ∧
      x + w ≤ t.clampOffset con (if x < (t.con con).scrollOffset then x
        else if x + w > (t.con con).scrollOffset + (t.con con).rect.width
          then x + w - (t.con con).rect.width else (t.con con).scrollOffset) total +
        (t.con con).rect.width := by
    split_ifs with h₃ h₄
    · exact key x (le_refl x) (by linarith)
    · exact key _ (by linarith) (by linarith)
    · exact key _ (by linarith) (by linarith)
  constructor <;> linarith [hview.1, hview.2]

/-! ### What the functions leave alone -/

/-- The trees differ in the offsets of their containers only. -/
def OnlyOffsets (t t' : Tree) : Prop :=
  ∀ c, { t'.con c with scrollOffset := 0 } = { t.con c with scrollOffset := 0 }

theorem OnlyOffsets.refl (t : Tree) : OnlyOffsets t t := fun _ => rfl

theorem OnlyOffsets.trans {t'' : Tree} (h : OnlyOffsets t t') (h' : OnlyOffsets t' t'') :
    OnlyOffsets t t'' := fun c => (h' c).trans (h c)

theorem OnlyOffsets.of_con (h : t'.con = t.con) : OnlyOffsets t t' := by
  intro c
  rw [h]

theorem OnlyOffsets.rect (h : OnlyOffsets t t') (c : ConId) : (t'.con c).rect = (t.con c).rect :=
  (congrArg Con.rect (h c) :)

theorem OnlyOffsets.parent (h : OnlyOffsets t t') (c : ConId) :
    (t'.con c).parent = (t.con c).parent :=
  (congrArg Con.parent (h c) :)

theorem OnlyOffsets.layout (h : OnlyOffsets t t') (c : ConId) :
    (t'.con c).layout = (t.con c).layout :=
  (congrArg Con.layout (h c) :)

theorem OnlyOffsets.nodesHead (h : OnlyOffsets t t') (c : ConId) :
    (t'.con c).nodesHead = (t.con c).nodesHead :=
  (congrArg Con.nodesHead (h c) :)

theorem OnlyOffsets.columnPercent (h : OnlyOffsets t t') (c : ConId) :
    t'.columnPercent cfg c = t.columnPercent cfg c := by
  have hp : (t'.con c).percent = (t.con c).percent := (congrArg Con.percent (h c) :)
  rw [Tree.columnPercent, Tree.columnPercent, hp]

theorem OnlyOffsets.scrollingColumnWidth (h : OnlyOffsets t t') (con child : ConId) :
    t'.scrollingColumnWidth cfg con child = t.scrollingColumnWidth cfg con child := by
  rw [Tree.scrollingColumnWidth, Tree.scrollingColumnWidth, h.rect, h.columnPercent]

theorem OnlyOffsets.columnExtent (h : OnlyOffsets t t') (con column : ConId) :
    t'.columnExtent cfg con column = t.columnExtent cfg con column := by
  have hloop : ∀ (l : List ConId) (x : ℚ) (found : Option (ℚ × ℚ)),
      t'.columnExtentLoop cfg con column l x found = t.columnExtentLoop cfg con column l x found := by
    intro l
    induction l with
    | nil => intro x found; rfl
    | cons child rest ih =>
      intro x found
      simp only [columnExtentLoop, h.scrollingColumnWidth, ih]
  simp only [Tree.columnExtent, hloop, h.nodesHead]

theorem OnlyOffsets.columnInView (h : OnlyOffsets t t') {con column : ConId} {offset : ℚ} :
    ColumnInView cfg t' con column offset ↔ ColumnInView cfg t con column offset := by
  simp only [ColumnInView, h.columnExtent, h.rect]

theorem setScrollOffset_onlyOffsets (t : Tree) (con : ConId) (offset : ℚ) :
    OnlyOffsets t (t.setScrollOffset con offset) := by
  intro c
  by_cases hc : c = con
  · subst hc; simp [setScrollOffset]
  · simp [setScrollOffset, hc]

@[simp] theorem setScrollOffset_scrollAnim (t : Tree) (con : ConId) (offset : ℚ) :
    (t.setScrollOffset con offset).scrollAnim = t.scrollAnim := rfl

@[simp] theorem setScrollOffset_self (t : Tree) (con : ConId) (offset : ℚ) :
    ((t.setScrollOffset con offset).con con).scrollOffset = offset := by
  simp [setScrollOffset]

theorem setScrollOffset_of_ne {con c : ConId} (h : c ≠ con) (offset : ℚ) :
    (t.setScrollOffset con offset).con c = t.con c := by
  simp [setScrollOffset, h]

@[simp] theorem treeRender_scrollAnim (cfg : Config) (t : Tree) :
    (t.treeRender cfg).scrollAnim = t.scrollAnim := rfl

/-- Rendering at the same rectangles clamps offsets, and nothing else. -/
theorem treeRender_still_onlyOffsets (cfg : Config) (visits : Tree → ConId → Bool) (t : Tree) :
    OnlyOffsets t (t.treeRender (cfg.still visits)) := by
  intro c
  by_cases h : visits t c <;> simp [treeRender, withRects, Config.still, h]

/-- The offset of a container after rendering at the same rectangles. -/
theorem treeRender_still_scrollOffset (visits : Tree → ConId → Bool) (t : Tree) (c : ConId) :
    ((t.treeRender (cfg.still visits)).con c).scrollOffset =
      if visits t c then t.scrollingPrepare (cfg.still visits) c else (t.con c).scrollOffset := by
  have hcon : (fun d => { t.con d with
      rect := ((cfg.still visits).render t d).getD (t.con d).rect }) = t.con := by
    funext d
    by_cases h : visits t d <;> simp [Config.still, h]
  have hrects : t.withRects (cfg.still visits) = t := by
    rw [withRects, hcon]
  simp only [treeRender, hrects]
  by_cases h : visits t c <;> simp [Config.still, h]

/-- The width of the strip as `column_extent` computes it is `scrolling_total_width`. -/
theorem columnExtent_total (con column : ConId) :
    (t.columnExtent cfg con column).2 = t.scrollingTotalWidth cfg con := by
  have hloop : ∀ (l : List ConId) (x : ℚ) (found : Option (ℚ × ℚ)),
      (t.columnExtentLoop cfg con column l x found).2 =
        l.foldl
          (fun (total : ℚ) child => total + (t.scrollingColumnWidth cfg con child : ℚ)) x := by
    intro l
    induction l with
    | nil => intro x found; rfl
    | cons child rest ih => intro x found; exact ih _ _
  exact hloop _ _ _

/-- Rendering leaves a column in view that was in view. -/
theorem treeRender_inView (visits : Tree → ConId → Bool) {con column : ConId}
    (h : ColumnInView (cfg.still visits) t con column (t.con con).scrollOffset) :
    ColumnInView (cfg.still visits) (t.treeRender (cfg.still visits)) con column
      ((t.treeRender (cfg.still visits)).con con).scrollOffset := by
  rw [(treeRender_still_onlyOffsets cfg visits t).columnInView, treeRender_still_scrollOffset]
  split_ifs
  · rw [scrollingPrepare]
    split_ifs
    · exact h
    · exact columnInView_clampOffset (columnExtent_total con column) h
  · exact h

/-! ### Scrolling to an offset -/

/-- The reveal of the column does not return early, the target being less than half a pixel away,
while the animation of the same container ends with the column out of view. -/
def Unhurried (cfg : Config) (t : Tree) (column : ConId) : Prop :=
  ∀ con ∈ (t.con column).parent, ∀ p ∈ (t.columnExtent cfg con column).1,
    t.scrollAnim.con = some con →
      |t.revealTarget cfg con p.1 p.2 (t.columnExtent cfg con column).2 -
        (t.con con).scrollOffset| < 1 / 2 →
      ColumnInView cfg t con column t.scrollAnim.dst

instance (column : ConId) : Decidable (Unhurried cfg t column) :=
  inferInstanceAs (Decidable (∀ con ∈ _, ∀ p ∈ _, _ → _ → _))

/-- The offset at which the container comes to rest: the end of its animation, or where it is. -/
def restOffset (t : Tree) (con : ConId) : ℚ :=
  if t.scrollAnim.con = some con then t.scrollAnim.dst else (t.con con).scrollOffset

/-- `scroll_anim` refers to a container exactly while its animation runs. -/
def AnimCoherent (t : Tree) : Prop :=
  t.scrollAnim.con = none ↔ t.scrollAnim.animId = 0

instance : Decidable (AnimCoherent t) := inferInstanceAs (Decidable (_ ↔ _))

theorem scrollCancel_anim (h : AnimCoherent t) :
    t.scrollCancel.scrollAnim.con = none ∧ t.scrollCancel.scrollAnim.animId = 0 := by
  unfold scrollCancel
  split_ifs with hid
  · exact ⟨rfl, rfl⟩
  · have h0 : t.scrollAnim.animId = 0 := by omega
    exact ⟨h.mpr h0, h0⟩

theorem scrollCancel_con (t : Tree) : t.scrollCancel.con = t.con := by
  unfold scrollCancel
  split_ifs <;> rfl

/-- **What `scroll_to_offset` does**: it leaves the tree as it is when the target is less than half
a pixel away; otherwise the container comes to rest at the target. -/
theorem scrollToOffset_cases (visits : Tree → ConId → Bool) (h : AnimCoherent t) (con : ConId)
    (target : ℚ) {column : ConId} (hv : ColumnInView (cfg.still visits) t con column target) :
    (|target - (t.con con).scrollOffset| < 1 / 2 ∧ t.scrollToOffset (cfg.still visits) con target = t) ∨
      (OnlyOffsets t (t.scrollToOffset (cfg.still visits) con target) ∧
        AnimCoherent (t.scrollToOffset (cfg.still visits) con target) ∧
        ColumnInView (cfg.still visits) t con column
          ((t.scrollToOffset (cfg.still visits) con target).restOffset con)) := by
  by_cases hnear : |target - (t.con con).scrollOffset| < 1 / 2
  · exact Or.inl ⟨hnear, if_pos hnear⟩
  · right
    obtain ⟨hcon, hid⟩ := scrollCancel_anim h
    have hcancel : OnlyOffsets t t.scrollCancel := OnlyOffsets.of_con (scrollCancel_con t)
    simp only [scrollToOffset, if_neg hnear]
    split_ifs with hdur hinit
    · -- no animation configured: the offset is set at once
      refine ⟨hcancel.trans (setScrollOffset_onlyOffsets _ con target), ?_, ?_⟩
      · simp [AnimCoherent, hcon, hid]
      · simpa [restOffset, hcon] using hv
    · refine ⟨OnlyOffsets.of_con (scrollCancel_con t), by simp [AnimCoherent], ?_⟩
      simpa [restOffset] using hv
    · -- the clock does not run: the offset is set at once, and the tree rendered
      set u := ({ t.scrollCancel with scrollAnim :=
        ⟨none, (t.scrollCancel.con con).scrollOffset, target, 0⟩ }.setScrollOffset con target) with hu
      have hou : OnlyOffsets t u :=
        hcancel.trans (setScrollOffset_onlyOffsets { t.scrollCancel with scrollAnim := _ } con target)
      have hor := hou.trans (treeRender_still_onlyOffsets cfg visits u)
      have hvu : ColumnInView (cfg.still visits) u con column (u.con con).scrollOffset := by
        rw [hou.columnInView, hu, setScrollOffset_self]
        exact hv
      refine ⟨hor, by simp [AnimCoherent, hu], ?_⟩
      rw [← hor.columnInView]
      simpa [restOffset, hu] using treeRender_inView visits hvu

end Tree

/-! ## Runs -/

/-- What happens to the scrolling containers: a column is focused, the tree is rendered, the running
animation shows a frame, or completes. -/
inductive ScrollEvent
  | reveal (column : ConId)
  | render
  | tick (e : ℚ)
  | done
  deriving DecidableEq, Repr

/-- The tree, and the column revealed last. -/
structure ScrollRun where
  tree : Tree
  revealed : Option ConId := none

namespace ScrollRun

open I3.Tree

variable {cfg : Config} {visits : Tree → ConId → Bool} {s : ScrollRun}

/-- The effect of an event; the callbacks are called for a running animation only. -/
def step (cfg : Config) (s : ScrollRun) : ScrollEvent → ScrollRun
  | .reveal column => ⟨s.tree.scrollingReveal cfg column, some column⟩
  | .render => { s with tree := s.tree.treeRender cfg }
  | .tick e => if s.tree.scrollAnim.animId > 0 then { s with tree := s.tree.scrollStep cfg e } else s
  | .done => if s.tree.scrollAnim.animId > 0 then { s with tree := s.tree.scrollDone cfg } else s

/-- Each reveal is unhurried. -/
def Ok (cfg : Config) (s : ScrollRun) : ScrollEvent → Prop
  | .reveal column => Unhurried cfg s.tree column
  | _ => True

instance : (e : ScrollEvent) → Decidable (Ok cfg s e)
  | .reveal _ => inferInstanceAs (Decidable (Unhurried ..))
  | .render | .tick _ | .done => inferInstanceAs (Decidable True)

/-- The column revealed last is in view where its container comes to rest. -/
structure Settles (cfg : Config) (s : ScrollRun) : Prop where
  coherent : AnimCoherent s.tree
  inView : ∀ column ∈ s.revealed, ∀ con, (s.tree.con column).parent = some con →
    (s.tree.con con).layout = .scrolling →
      ColumnInView cfg s.tree con column (s.tree.restOffset con)

theorem settles_scrollingReveal (hc : cfg.centerFocus = false)
    (h : AnimCoherent s.tree) {column : ConId} (hok : Unhurried (cfg.still visits) s.tree column) :
    Settles (cfg.still visits) ⟨s.tree.scrollingReveal (cfg.still visits) column, some column⟩ := by
  unfold Unhurried at hok
  unfold scrollingReveal
  cases hp : (s.tree.con column).parent with
  | none => exact ⟨h, by rintro _ ⟨⟩ con hcon; simp [hp] at hcon⟩
  | some con =>
    simp only
    have hsame : ∀ {t' : Tree}, OnlyOffsets s.tree t' → ∀ con', (t'.con column).parent = some con' →
        con' = con := by
      intro t' ho con' hcon'
      rw [ho.parent, hp] at hcon'
      exact (Option.some.inj hcon').symm
    split_ifs with hearly
    · refine ⟨h, ?_⟩
      rintro _ ⟨⟩ con' hcon' hl
      obtain rfl := hsame (OnlyOffsets.refl _) con' hcon'
      obtain hw := hearly.resolve_left (not_not_intro hl)
      rcases hext : s.tree.columnExtent (cfg.still visits) con' column with ⟨_ | ⟨x, w⟩, total⟩
      · simp [ColumnInView, hext]
      · rw [columnInView_of_extent hext]
        intro hle
        have hone := (columnExtent_bounds hext).2.1
        have hzero : ((s.tree.con con').rect.width : ℚ) = 0 := by exact_mod_cast hw
        exact absurd (hzero ▸ hle) (by linarith)
    · rcases hext : s.tree.columnExtent (cfg.still visits) con column with ⟨_ | ⟨x, w⟩, total⟩
      · refine ⟨h, ?_⟩
        rintro _ ⟨⟩ con' hcon' -
        obtain rfl := hsame (OnlyOffsets.refl _) con' hcon'
        simp [ColumnInView, hext]
      · simp only
        have hview : ∀ offset : ℚ,
            |s.tree.revealTarget (cfg.still visits) con x w total - offset| ≤ 1 / 2 →
              ColumnInView (cfg.still visits) s.tree con column offset :=
          fun _ hnear => revealTarget_inView (show (cfg.still visits).centerFocus = false from hc)
            hext hnear
        rcases scrollToOffset_cases visits h con
            (s.tree.revealTarget (cfg.still visits) con x w total)
            (hview _ (by norm_num)) with ⟨hnear, heq⟩ | ⟨honly, hco, hin⟩
        · rw [heq]
          refine ⟨h, ?_⟩
          rintro _ ⟨⟩ con' hcon' -
          obtain rfl := hsame (OnlyOffsets.refl _) con' hcon'
          unfold restOffset
          split_ifs with hanim
          · exact hok _ hp (x, w) (by rw [hext]; rfl) hanim (by rw [hext]; exact hnear)
          · exact hview _ hnear.le
        · refine ⟨hco, ?_⟩
          rintro _ ⟨⟩ con' hcon' -
          obtain rfl := hsame honly con' hcon'
          rw [honly.columnInView]
          exact hin

/-- Showing a frame, or rendering, does not move the place where a container comes to rest out of
sight of the column. -/
theorem Settles.of_onlyOffsets {t' : Tree} (h : Settles cfg s) (ho : OnlyOffsets s.tree t')
    (hco : AnimCoherent t')
    (hrest : ∀ column con, ColumnInView cfg s.tree con column (s.tree.restOffset con) →
      ColumnInView cfg s.tree con column (t'.restOffset con)) :
    Settles cfg { s with tree := t' } := by
  refine ⟨hco, ?_⟩
  intro column hcol con hp hl
  rw [ho.parent] at hp
  rw [ho.layout] at hl
  rw [ho.columnInView]
  exact hrest column con (h.inView column hcol con hp hl)

/-- Rendering keeps the place where a container comes to rest, or clamps it. -/
theorem restOffset_treeRender {t : Tree} {column con : ConId}
    (h : ColumnInView (cfg.still visits) t con column (t.restOffset con)) :
    ColumnInView (cfg.still visits) t con column
      ((t.treeRender (cfg.still visits)).restOffset con) := by
  unfold restOffset at h ⊢
  rw [treeRender_scrollAnim]
  split_ifs at h ⊢
  · exact h
  · rw [← (treeRender_still_onlyOffsets cfg visits t).columnInView]
    exact treeRender_inView visits h

theorem settles_treeRender (h : Settles (cfg.still visits) s) :
    Settles (cfg.still visits) { s with tree := s.tree.treeRender (cfg.still visits) } :=
  h.of_onlyOffsets (treeRender_still_onlyOffsets cfg visits s.tree) h.coherent
    fun _ _ => restOffset_treeRender

theorem settles_scrollStep (h : Settles (cfg.still visits) s) (e : ℚ) :
    Settles (cfg.still visits) { s with tree := s.tree.scrollStep (cfg.still visits) e } := by
  unfold scrollStep
  cases hcon : s.tree.scrollAnim.con with
  | none => exact h
  | some con =>
    set u := s.tree.setScrollOffset con
      (s.tree.scrollAnim.src + (s.tree.scrollAnim.dst - s.tree.scrollAnim.src) * e) with hu
    have hrest : ∀ con', u.restOffset con' = s.tree.restOffset con' := by
      intro con'
      by_cases hc : con' = con
      · subst hc; simp [restOffset, hu, hcon]
      · simp [restOffset, hu, setScrollOffset_of_ne hc]
    have hframe : Settles (cfg.still visits) { s with tree := u } :=
      h.of_onlyOffsets (setScrollOffset_onlyOffsets _ _ _) h.coherent
        fun _ con' hv => by rw [hrest con']; exact hv
    exact settles_treeRender hframe

theorem settles_scrollDone (h : Settles (cfg.still visits) s) :
    Settles (cfg.still visits) { s with tree := s.tree.scrollDone (cfg.still visits) } := by
  unfold scrollDone
  extract_lets u
  have hou : OnlyOffsets s.tree u := by
    simp only [u]
    split
    · exact OnlyOffsets.refl _
    · exact setScrollOffset_onlyOffsets _ _ _
  have hrest : ∀ con, (u.con con).scrollOffset = s.tree.restOffset con := by
    intro con
    simp only [u, restOffset]
    cases hcon : s.tree.scrollAnim.con with
    | none => simp
    | some con' =>
      by_cases hc : con = con'
      · subst hc; simp
      · simp [setScrollOffset_of_ne hc, Ne.symm hc]
  have hidle : Settles (cfg.still visits)
      { s with tree := { u with scrollAnim := { s.tree.scrollAnim with con := none, animId := 0 } } } :=
    h.of_onlyOffsets (hou.trans (OnlyOffsets.of_con rfl)) (by simp [AnimCoherent])
      fun _ con hin => by simpa [restOffset, hrest con] using hin
  exact settles_treeRender hidle

/-- **One event**: an unhurried reveal, a render, a frame or a completion keeps the column revealed last in
view where its container comes to rest. -/
theorem step_settles (hc : cfg.centerFocus = false) (s : ScrollRun) (e : ScrollEvent)
    (h : Settles (cfg.still visits) s) (hok : Ok (cfg.still visits) s e) :
    Settles (cfg.still visits) (step (cfg.still visits) s e) := by
  cases e with
  | reveal column => exact settles_scrollingReveal hc h.coherent hok
  | render => exact settles_treeRender h
  | tick e =>
    unfold step
    split_ifs
    · exact settles_scrollStep h e
    · exact h
  | done =>
    unfold step
    split_ifs
    · exact settles_scrollDone h
    · exact h

/-- **A revealed column ends up on screen**: in every state of a run of unhurried reveals, renders,
frames and completions in which no animation is running, the column revealed last, if it is no wider than
the viewport, is in view. -/
theorem revealed_inView (cfg : Config) (hc : cfg.centerFocus = false)
    (visits : Tree → ConId → Bool) (t : Tree) (h₀ : AnimCoherent t) (es fs : List ScrollEvent)
    (hok : Runs.Meets (step (cfg.still visits)) (Ok (cfg.still visits)) ⟨t, none⟩ fs)
    (hes : es <+: fs) :
    let s := Runs.after (step (cfg.still visits)) ⟨t, none⟩ es
    s.tree.scrollAnim.animId = 0 → ∀ column ∈ s.revealed, ∀ con,
      (s.tree.con column).parent = some con → (s.tree.con con).layout = .scrolling →
        ColumnInView (cfg.still visits) s.tree con column (s.tree.con con).scrollOffset := by
  intro s hidle column hcol con hp hl
  have hstart : Settles (cfg.still visits) ⟨t, none⟩ := ⟨h₀, by simp⟩
  have hs : Settles (cfg.still visits) s :=
    Runs.invariant_prefix (step_settles hc) hstart hok hes
  have hin := hs.inView column hcol con hp hl
  have hnone : s.tree.scrollAnim.con = none := hs.coherent.mpr hidle
  simpa [restOffset, hnone] using hin

/-- A workspace of three columns, each as wide as the viewport of 100 pixels. -/
def threeColumns : Tree where
  con := fun c =>
    if c = 0 then
      { type := .workspace, layout := .scrolling, nodesHead := [1, 2, 3]
        rect := { width := 100, height := 100 } }
    else { parent := some 0, percent := 1 }
  allCons := [0, 1, 2, 3]
  croot := 0
  focused := some 1
  nextCon := 4

theorem revealed_inView_threeColumns :
    let s := Runs.after (step (Config.still {} fun _ c => c == 0)) ⟨threeColumns, none⟩
      [.reveal 3, .tick (1 / 4), .reveal 2, .done]
    ColumnInView (Config.still {} fun _ c => c == 0) s.tree 0 2 (s.tree.con 0).scrollOffset :=
  revealed_inView {} rfl (fun _ c => c == 0) threeColumns (by decide +kernel)
    [.reveal 3, .tick (1 / 4), .reveal 2, .done] [.reveal 3, .tick (1 / 4), .reveal 2, .done]
    (by decide +kernel)
    (List.prefix_refl _) (by decide +kernel) 2 (by decide +kernel) 0 (by decide +kernel)
    (by decide +kernel)

/-- The third column is revealed; before the first frame the first one is, at the offset of the
moment: the target is reached already, and the animation goes on to the third column. -/
theorem revealed_outOfView :
    ¬ ∀ (t : Tree) (es : List ScrollEvent), AnimCoherent t →
      let cfg := Config.still {} fun _ c => c == 0
      let s := Runs.after (step cfg) ⟨t, none⟩ es
      s.tree.scrollAnim.animId = 0 → ∀ column ∈ s.revealed, ∀ con,
        (s.tree.con column).parent = some con → (s.tree.con con).layout = .scrolling →
          ColumnInView cfg s.tree con column (s.tree.con con).scrollOffset := by
  intro h
  have hin := h threeColumns [.reveal 3, .tick 0, .reveal 1, .done] (by decide +kernel)
    (by decide +kernel) 1 (by decide +kernel) 0 (by decide +kernel) (by decide +kernel)
  exact absurd hin (by decide +kernel)

end ScrollRun

end I3
