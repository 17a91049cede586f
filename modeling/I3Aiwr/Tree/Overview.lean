import I3Aiwr.Tree.Columns
import I3Aiwr.Tree.Move

/-!
# Dropping a window in the overview

In the overview of `src/overview.c` a window is dragged onto the thumbnail of a workspace.
`drop_slot_at` resolves where the window is going to land, which is drawn while it is dragged, and
`overview_drop` puts it there. In a scrolling workspace the slot is a place among the columns; the
window may be one of them.

## Main definitions

* `Tree.dropSlotAt`: the slot at a position of the pointer
* `Tree.overviewDrop`: what dropping does to the tree
* `Tree.Lands`: the window lands where the slot is

## Main results

* `Tree.placeColumn_eq`: the columns after the drop
* `Tree.lands_iff`: a column lands in its slot unless the slot is before a column further to the right
-/

namespace I3

/-- `workspace_thumbnail_t`, as far as dropping needs it: `out` is the rectangle of the output. -/
structure Thumbnail where
  workspace : Option ConId
  out : Rect

/-- `drop_slot_t`: beside the target, at an index among the columns, or on the whole of it. -/
structure DropSlot where
  target : Option ConId := none
  position : Position := .after
  scrollIndex : ℤ := -1
  rect : Rect := {}
  whole : Bool := false
  deriving DecidableEq, Repr

/-- What the overview needs to know: `logical_px(6)`, and where a thumbnail is on the screen. -/
structure OverviewConfig where
  logicalPx6 : ℕ := 6
  thumbX : ℚ := 0
  thumbY : ℚ := 0
  thumbWidth : ℚ := 0
  thumbHeight : ℚ := 0
  deriving Repr

/-- The position of the pointer in coordinates of the output. -/
def OverviewConfig.outputX (oc : OverviewConfig) (thumb : Thumbnail) (dragX : ℚ) : ℚ :=
  thumb.out.x + (dragX - oc.thumbX) * (thumb.out.width / oc.thumbWidth)

def OverviewConfig.outputY (oc : OverviewConfig) (thumb : Thumbnail) (dragY : ℚ) : ℚ :=
  thumb.out.y + (dragY - oc.thumbY) * (thumb.out.height / oc.thumbHeight)

/-- The pointer is within a rectangle. -/
def Rect.inside (r : Rect) (ox oy : ℚ) : Bool :=
  r.x ≤ ox && ox < r.x + r.width && r.y ≤ oy && oy < r.y + r.height

namespace Tree

section Definitions

variable (cfg : Config) (oc : OverviewConfig) (t : Tree)

/-! ### What is under the pointer -/

/-- `con_alive` and `overview_ws_alive` -/
def overviewWsAlive (ws : ConId) : Bool := t.inTree ws && (t.con ws).type = .workspace

/-- The recursion of `leaf_at`. -/
def leafAtN (ox oy : ℚ) : ℕ → ConId → Option ConId
  | 0, _ => none
  | n + 1, c =>
    if (t.con c).type ≠ .workspace ∧ (t.con c).type ≠ .floatingCon ∧ (t.con c).window.isSome then
      if (t.con c).rect.inside ox oy then some c else none
    else (t.con c).nodesHead.findSome? (leafAtN ox oy n)

def leafAt (c : ConId) (ox oy : ℚ) : Option ConId := t.leafAtN ox oy t.nextCon c

/-- `ws_window_at` -/
def wsWindowAt (ws : ConId) (ox oy : ℚ) : Option ConId :=
  match (t.getFullscreenCon ws .output).or (t.getFullscreenCon ws .global) with
  | some fs => t.leafAt fs ox oy
  | none => match (t.con ws).floatingHead.reverse.findSome? fun fl => t.leafAt fl ox oy with
    | some c => some c
    | none => t.leafAt ws ox oy

/-- `ws_scrolling_con` -/
def wsScrollingCon (ws : ConId) : Option ConId := t.wsFindScrolling ws

/-! ### The slot -/

/-- The middle of a column. -/
def columnMiddle (c : ConId) : ℚ := (t.con c).rect.x + (t.con c).rect.width / 2

/-- The loop of `drop_slot_at` over the columns from the index `i` on: the first one with its middle to
the right of the pointer. -/
def slotColumn (ox : ℚ) : List ConId → ℕ → Option (ℕ × ConId)
  | [], _ => none
  | c :: rest, i => if ox < t.columnMiddle c then some (i, c) else slotColumn ox rest (i + 1)

/-- The slot of `drop_slot_at` between columns, as wide as a new column. -/
def scrollingSlot (out : Rect) (columns : List ConId) (ox : ℚ) : DropSlot :=
  let first := (columns.head?.map fun c => (t.con c).rect).getD out
  let width := ⌊(cfg.defaultWidth / 100 : ℚ) * out.width⌋.toNat
  match t.slotColumn ox columns 0 with
  | some (index, c) =>
    { target := some c, position := .before, scrollIndex := index
      rect := ⟨(t.con c).rect.x, first.y, width, first.height⟩ }
  | none =>
    let edge := (columns.getLast?.map fun c => (t.con c).rect.x + (t.con c).rect.width).getD out.x
    { target := columns.getLast?, position := .after, scrollIndex := columns.length
      rect := ⟨edge, first.y, width, first.height⟩ }

/-- The band that shows a slot beside a leaf. -/
def band (size : ℕ) : ℕ := ⌊max (oc.logicalPx6 : ℚ) (size * (3 / 10))⌋.toNat

/-- The slot of `drop_slot_at` beside a leaf of a split. -/
def leafSlot (leaf : ConId) (o : Orientation) (ox oy : ℚ) : DropSlot :=
  let r := (t.con leaf).rect
  if o = .vert then
    let band := band oc r.height
    if oy < r.y + r.height / 2 then
      { target := some leaf, position := .before, rect := ⟨r.x, r.y, r.width, band⟩ }
    else
      { target := some leaf, rect := ⟨r.x, r.y + r.height - band, r.width, band⟩ }
  else
    let band := band oc r.width
    if ox < r.x + r.width / 2 then
      { target := some leaf, position := .before, rect := ⟨r.x, r.y, band, r.height⟩ }
    else
      { target := some leaf, rect := ⟨r.x + r.width - band, r.y, band, r.height⟩ }

/-- `drop_slot_at`. Where the source asserts there is no slot. -/
def dropSlotAt (thumb : Thumbnail) (ox oy : ℚ) : Option DropSlot :=
  match thumb.workspace with
  | none => none
  | some ws =>
    if ¬ t.overviewWsAlive ws then none
    else match t.wsScrollingCon ws with
      | some sc => some (t.scrollingSlot cfg thumb.out (t.con sc).nodesHead ox)
      | none => match t.wsWindowAt ws ox oy with
        | none => some { whole := true, rect := (t.con ws).rect }
        | some leaf => match (t.con leaf).parent with
          | none => none
          | some parent =>
            if (t.con parent).layout = .stacked ∨ (t.con parent).layout = .tabbed then
              some { target := some leaf, whole := true, rect := (t.con parent).rect }
            else (t.orientation parent).map fun o => t.leafSlot oc leaf o ox oy

/-! ### The drop -/

def setRect (c : ConId) (rect : Rect) : Tree := t.modify c fun d => { d with rect }

/-- A column is taken out and put before the one at the index, or last if there is none. -/
def placeColumn (column : ConId) (index : ℕ) (columns : List ConId) : List ConId :=
  let rest := columns.erase column
  match rest[index]? with
  | some before => Queue.insertBefore before column rest
  | none => rest ++ [column]

/-- The default width, for a container without a percentage. -/
def defaultPercent (c : ConId) : Tree :=
  if (t.con c).percent ≤ 0 then t.setPercent c (cfg.defaultWidth / 100) else t

/-- `overview_drop` on a scrolling workspace. -/
def dropColumn (con sc : ConId) (slot : Option DropSlot) : Tree :=
  let t := if (t.con con).parent = some sc then t else
    let oldParent := (t.con con).parent
    let t := (t.conDetach con).conAttach cfg con sc true
    match oldParent with
    | none => t
    | some p => t.onRemoveChild cfg p
  let t := match slot with
    | none => t
    | some slot =>
      if 0 ≤ slot.scrollIndex then t.editNodes sc (placeColumn con slot.scrollIndex.toNat) else t
  let t := t.defaultPercent cfg con
  match slot with
  | none => t
  | some slot => t.setRect con slot.rect

/-- `overview_drop` on any other workspace. -/
def dropBeside (con ws : ConId) (slot : Option DropSlot) : Tree :=
  let t := match slot with
    | none => t
    | some slot => match slot.target with
      | none => t
      | some target =>
        if ¬ slot.whole ∧ target ≠ con ∧ t.conExists target then t.insertConInto cfg con target slot.position
        else t
  if t.workspaceIsVisible ws then t
  else t.setRect con ((slot.map DropSlot.rect).getD (t.con ws).rect)

/-- The slot that `overview_drop` finds, with the pointer on the screen at `dragX` and `dragY`. -/
def dropSlot (thumb : Thumbnail) (dragX dragY : ℚ) : Option DropSlot :=
  if 1 < oc.thumbWidth ∧ 1 < oc.thumbHeight then
    t.dropSlotAt cfg oc thumb (oc.outputX thumb dragX) (oc.outputY thumb dragY)
  else none

/-- `overview_drop` of a container that is on the workspace. -/
def dropAt (con ws : ConId) (slot : Option DropSlot) : Tree :=
  match t.wsScrollingCon ws with
  | some sc => t.dropColumn cfg con sc slot
  | none => t.dropBeside cfg con ws slot

/-- The end of `overview_drop`. -/
def finishDrop (con ws : ConId) : Tree :=
  (if (t.con con).percent ≤ 0 then t.setPercent con (cfg.defaultWidth / 100)
  else if t.workspaceIsVisible ws then t
  else t.setRect con (t.con ws).rect).treeRender cfg

/-- `overview_drop` of the container `con` onto the thumbnail of the workspace `ws`. -/
def overviewDrop (con ws : ConId) (thumb : Thumbnail) (dragX dragY : ℚ) : Tree :=
  if ¬ t.inTree con then t
  else
    let t := if t.getWorkspace con = some ws then t else t.conMoveToWorkspace cfg con ws true true
    (t.dropAt cfg con ws (t.dropSlot cfg oc thumb dragX dragY)).finishDrop cfg con ws

/-! ### Where a column lands -/

/-- The columns other than `con` stay in their order, and `con` stands where the slot is. -/
structure Lands (columns columns' : List ConId) (con : ConId) (slot : DropSlot) : Prop where
  others : columns'.erase con = columns.erase con
  before : slot.position = .before → ∀ target, slot.target = some target → target ≠ con →
    [con, target] <:+: columns'
  after : slot.position = .after → columns'.getLast? = some con

end Definitions

variable {cfg : Config} {oc : OverviewConfig} {t : Tree} {c con sc ws : ConId} {pre post columns : List ConId}
  {k : ℕ}

/-! ### The columns after the drop -/

/-- **The dragged column is put at the index counted without it.** -/
theorem placeColumn_eq (h : (pre ++ con :: post).Nodup) (k : ℕ) :
    placeColumn con k (pre ++ con :: post) = (pre ++ post).take k ++ con :: (pre ++ post).drop k := by
  have hpre : con ∉ pre := fun hmem => (List.nodup_append.1 h).2.2 con hmem con List.mem_cons_self rfl
  have hrest : (pre ++ con :: post).erase con = pre ++ post := by
    rw [List.erase_append_right _ hpre, List.erase_cons_head]
  have hnodup : (pre ++ post).Nodup := by
    rw [← hrest]
    exact h.erase con
  rw [placeColumn, hrest]
  generalize pre ++ post = rest at hnodup
  by_cases hlt : k < rest.length
  · have hsplit : rest = rest.take k ++ rest[k] :: rest.drop (k + 1) := by
      rw [← List.drop_eq_getElem_cons hlt, List.take_append_drop]
    have hbefore : rest[k] ∉ rest.take k := by
      rw [hsplit] at hnodup
      intro hmem
      exact (List.nodup_append.1 hnodup).2.2 _ hmem _ List.mem_cons_self rfl
    have hinsert : Queue.insertBefore rest[k] con (rest.take k ++ rest[k] :: rest.drop (k + 1)) =
        rest.take k ++ con :: rest[k] :: rest.drop (k + 1) := Queue.insertBefore_append_self hbefore
    rw [← hsplit, ← List.drop_eq_getElem_cons hlt] at hinsert
    rw [List.getElem?_eq_getElem hlt]
    exact hinsert
  · have hle : rest.length ≤ k := not_lt.1 hlt
    rw [List.getElem?_eq_none hle, List.take_of_length_le hle, List.drop_of_length_le hle]

theorem nodesHead_setRect (t : Tree) (c : ConId) (rect : Rect) (d : ConId) :
    ((t.setRect c rect).con d).nodesHead = (t.con d).nodesHead := by
  rw [setRect, modify_con]
  split <;> rfl

theorem nodesHead_defaultPercent (t : Tree) (c d : ConId) :
    ((t.defaultPercent cfg c).con d).nodesHead = (t.con d).nodesHead := by
  rw [defaultPercent]
  split
  · exact (links_setPercent t c _).nodesHead d
  · rfl

theorem nodesHead_finishDrop (t : Tree) (con ws d : ConId) :
    ((t.finishDrop cfg con ws).con d).nodesHead = (t.con d).nodesHead := by
  rw [finishDrop, (stirs_treeRender cfg _).nodesHead]
  split
  · exact (links_setPercent t con _).nodesHead d
  split
  · rfl
  · exact nodesHead_setRect t con _ d

/-- Dropping a column of the workspace's strip moves it in the list, and nothing else is moved. -/
theorem nodesHead_overviewDrop {thumb : Thumbnail} {dragX dragY : ℚ} {slot : DropSlot}
    (halive : t.inTree con = true) (hws : t.getWorkspace con = some ws) (hsc : t.wsScrollingCon ws = some sc)
    (hparent : (t.con con).parent = some sc) (hslot : t.dropSlot cfg oc thumb dragX dragY = some slot)
    (hindex : 0 ≤ slot.scrollIndex) :
    ((t.overviewDrop cfg oc con ws thumb dragX dragY).con sc).nodesHead =
      placeColumn con slot.scrollIndex.toNat (t.con sc).nodesHead := by
  rw [overviewDrop, if_neg (not_not.2 halive), if_pos hws, nodesHead_finishDrop, dropAt, hsc, hslot]
  change ((t.dropColumn cfg con sc (some slot)).con sc).nodesHead = _
  rw [dropColumn, if_pos hparent, if_pos hindex, nodesHead_setRect, nodesHead_defaultPercent, editNodes, modify_con_self]

/-! ### The slot among the columns -/

/-- The slot is before the first column with its middle to the right of the pointer. -/
theorem slotColumn_eq {ox : ℚ} (post : List ConId) (hpre : ∀ c ∈ pre, t.columnMiddle c ≤ ox) (hc : ox < t.columnMiddle c)
    (i : ℕ) : t.slotColumn ox (pre ++ c :: post) i = some (i + pre.length, c) := by
  induction pre generalizing i with
  | nil => rw [List.nil_append, slotColumn, if_pos hc, List.length_nil, Nat.add_zero]
  | cons d pre ih =>
    rw [List.cons_append, slotColumn, if_neg (not_lt.2 (hpre d List.mem_cons_self)),
      ih (fun e he => hpre e (List.mem_cons_of_mem d he)), List.length_cons]
    congr 2
    omega

theorem slotColumn_none {ox : ℚ} (h : ∀ c ∈ columns, t.columnMiddle c ≤ ox) (i : ℕ) :
    t.slotColumn ox columns i = none := by
  induction columns generalizing i with
  | nil => rfl
  | cons c columns ih =>
    rw [slotColumn, if_neg (not_lt.2 (h c List.mem_cons_self))]
    exact ih (fun d hd => h d (List.mem_cons_of_mem c hd)) (i + 1)

/-- The first element of a list with a property, and what is around it. -/
theorem exists_first {α : Type*} {p : α → Prop} {l : List α} (h : ∃ a ∈ l, p a) :
    ∃ pre a post, l = pre ++ a :: post ∧ p a ∧ ∀ b ∈ pre, ¬ p b := by
  induction l with
  | nil => simp at h
  | cons b l ih =>
    by_cases hb : p b
    · exact ⟨[], b, l, rfl, hb, by simp⟩
    · obtain ⟨a, ha, hpa⟩ := h
      have hal : a ∈ l := (List.mem_cons.1 ha).resolve_left fun heq => hb (heq ▸ hpa)
      obtain ⟨pre, a, post, rfl, hpa, hpre⟩ := ih ⟨a, hal, hpa⟩
      refine ⟨b :: pre, a, post, rfl, hpa, fun d hd => ?_⟩
      rcases List.mem_cons.1 hd with rfl | hd
      · exact hb
      · exact hpre d hd

/-- The slot is before a column, which has its index. -/
structure SlotBefore (slot : DropSlot) (c : ConId) (index : ℕ) : Prop where
  target : slot.target = some c
  position : slot.position = .before
  scrollIndex : slot.scrollIndex = index

theorem slotBefore_scrollingSlot (cfg : Config) {ox : ℚ} {index : ℕ} (out : Rect)
    (h : t.slotColumn ox columns 0 = some (index, c)) :
    SlotBefore (t.scrollingSlot cfg out columns ox) c index := by
  rw [scrollingSlot, h]
  exact ⟨rfl, rfl, rfl⟩

theorem dropSlot_eq {thumb : Thumbnail} {dragX dragY : ℚ} {slot : DropSlot} (hthumb : thumb.workspace = some ws)
    (hsc : t.wsScrollingCon ws = some sc) (hslot : t.dropSlot cfg oc thumb dragX dragY = some slot) :
    slot = t.scrollingSlot cfg thumb.out (t.con sc).nodesHead (oc.outputX thumb dragX) := by
  rw [dropSlot] at hslot
  split at hslot
  · rw [dropSlotAt, hthumb] at hslot
    dsimp only at hslot
    split at hslot
    · cases hslot
    · rw [hsc] at hslot
      exact (Option.some_inj.1 hslot).symm
  · cases hslot

/-! ### Where it lands -/

theorem erase_placeColumn (h : (pre ++ con :: post).Nodup) (k : ℕ) :
    (placeColumn con k (pre ++ con :: post)).erase con = (pre ++ con :: post).erase con := by
  have hpre : con ∉ pre := fun hmem => (List.nodup_append.1 h).2.2 con hmem con List.mem_cons_self rfl
  have hpost : con ∉ post := (List.nodup_cons.1 (List.nodup_append.1 h).2.1).1
  have hrest : con ∉ (pre ++ post).take k := by
    intro hmem
    rcases List.mem_append.1 (List.mem_of_mem_take hmem) with hmem | hmem
    · exact hpre hmem
    · exact hpost hmem
  rw [placeColumn_eq h, List.erase_append_right _ hrest, List.erase_cons_head, List.take_append_drop,
    List.erase_append_right _ hpre, List.erase_cons_head]

/-- A column dropped before one that was in front of it is put there. -/
theorem infix_placeColumn {p₁ p₂ : List ConId} (h : ((p₁ ++ c :: p₂) ++ con :: post).Nodup) :
    [con, c] <:+: placeColumn con p₁.length ((p₁ ++ c :: p₂) ++ con :: post) := by
  rw [placeColumn_eq h, List.append_assoc, List.take_left, List.drop_left]
  exact ⟨p₁, p₂ ++ post, by simp⟩

/-- A column dropped before one that was behind it comes to stand after that one. -/
theorem not_infix_placeColumn {p₁ p₂ : List ConId} (h : (pre ++ con :: (p₁ ++ c :: p₂)).Nodup) :
    ¬ [con, c] <:+: placeColumn con (pre.length + 1 + p₁.length) (pre ++ con :: (p₁ ++ c :: p₂)) := by
  have hfront : pre ++ (p₁ ++ c :: p₂) = (pre ++ p₁ ++ [c]) ++ p₂ := by simp
  have hlength : pre.length + 1 + p₁.length = (pre ++ p₁ ++ [c]).length := by
    simp only [List.length_append, List.length_cons, List.length_nil]
    omega
  have herase : (pre ++ con :: (p₁ ++ c :: p₂)).erase con = (pre ++ p₁ ++ [c]) ++ p₂ := by
    have hpre : con ∉ pre := fun hmem => (List.nodup_append.1 h).2.2 con hmem con List.mem_cons_self rfl
    rw [List.erase_append_right _ hpre, List.erase_cons_head, hfront]
  have hnodup : ((pre ++ p₁ ++ [c]) ++ p₂).Nodup := herase ▸ h.erase con
  have hcon : con ∉ (pre ++ p₁ ++ [c]) ++ p₂ := herase ▸ h.not_mem_erase
  have hplace : placeColumn con (pre.length + 1 + p₁.length) (pre ++ con :: (p₁ ++ c :: p₂)) =
      (pre ++ p₁ ++ [c]) ++ con :: p₂ := by
    rw [placeColumn_eq h, hfront, hlength, List.take_left, List.drop_left]
  rw [hplace]
  rintro ⟨l₁, l₂, hinfix⟩
  -- what follows the dragged column is not the target, which is in front of it
  have hcon₁ : con ∉ l₁ := by
    intro hmem
    have hcount := congrArg (List.count con) hinfix
    have hnone : ((pre ++ p₁ ++ [c]) ++ p₂).count con = 0 := List.count_eq_zero.2 hcon
    simp only [List.count_append, List.count_cons_self, List.append_assoc] at hcount hnone
    have := List.count_pos_iff.2 hmem
    omega
  have hnext : Queue.next con (l₁ ++ con :: c :: l₂) = some c := Queue.next_append_self hcon₁
  have hnext' : Queue.next con ((pre ++ p₁ ++ [c]) ++ con :: p₂) = p₂.head? :=
    Queue.next_append_self fun hmem => hcon (List.mem_append_left _ hmem)
  have hsame : l₁ ++ con :: c :: l₂ = (pre ++ p₁ ++ [c]) ++ con :: p₂ := by
    rw [← hinfix]
    simp
  rw [hsame, hnext'] at hnext
  have hmem : c ∈ p₂ := List.mem_of_mem_head? hnext
  exact (List.nodup_append.1 hnodup).2.2 c (by simp) c hmem rfl

theorem lands_of_front {p₁ p₂ : List ConId} {slot : DropSlot} (h : ((p₁ ++ c :: p₂) ++ con :: post).Nodup)
    (hslot : SlotBefore slot c p₁.length) :
    Lands ((p₁ ++ c :: p₂) ++ con :: post) (placeColumn con p₁.length ((p₁ ++ c :: p₂) ++ con :: post)) con
      slot where
  others := erase_placeColumn h _
  before _ target htarget _ := by
    obtain rfl : c = target := Option.some_inj.1 (hslot.target.symm.trans htarget)
    exact infix_placeColumn h
  after hafter := by
    rw [hslot.position] at hafter
    cases hafter

/-- The slot may be before the dragged column itself, which then stays where it is. -/
theorem lands_of_self {slot : DropSlot} (h : (pre ++ con :: post).Nodup)
    (hslot : SlotBefore slot con pre.length) :
    Lands (pre ++ con :: post) (placeColumn con pre.length (pre ++ con :: post)) con slot where
  others := erase_placeColumn h _
  before _ _ htarget hne := absurd (Option.some_inj.1 (hslot.target.symm.trans htarget)) hne.symm
  after hafter := by
    rw [hslot.position] at hafter
    cases hafter

theorem not_lands_of_behind {p₁ p₂ : List ConId} {slot : DropSlot}
    (h : (pre ++ con :: (p₁ ++ c :: p₂)).Nodup) (hslot : SlotBefore slot c (pre.length + 1 + p₁.length)) :
    ¬ Lands (pre ++ con :: (p₁ ++ c :: p₂))
      (placeColumn con (pre.length + 1 + p₁.length) (pre ++ con :: (p₁ ++ c :: p₂))) con slot := by
  intro hlands
  have hne : c ≠ con := by
    rintro rfl
    exact (List.nodup_cons.1 (List.nodup_append.1 h).2.1).1 (by simp)
  exact not_infix_placeColumn h (hlands.before hslot.position c hslot.target hne)

theorem lands_of_last {slot : DropSlot} (h : (pre ++ con :: post).Nodup) (hslot : slot.position = .after) :
    Lands (pre ++ con :: post) (placeColumn con (pre ++ con :: post).length (pre ++ con :: post)) con slot where
  others := erase_placeColumn h _
  before hbefore := by
    rw [hslot] at hbefore
    cases hbefore
  after _ := by
    have hlength : (pre ++ post).length ≤ (pre ++ con :: post).length := by
      simp only [List.length_append, List.length_cons]
      omega
    rw [placeColumn_eq h, List.drop_of_length_le hlength, List.getLast?_append]
    rfl

/-- **A column lands in the slot that is shown** unless the slot is before a column further to the
right: the index of the slot counts the dragged column, and is used where it does not. -/
theorem lands_iff (cfg : Config) (oc : OverviewConfig) (t : Tree) (con sc ws : ConId)
    (pre post : List ConId) (thumb : Thumbnail) (dragX dragY : ℚ) (slot : DropSlot)
    (halive : t.inTree con = true) (hws : t.getWorkspace con = some ws) (hsc : t.wsScrollingCon ws = some sc)
    (hparent : (t.con con).parent = some sc) (hnodes : (t.con sc).nodesHead = pre ++ con :: post)
    (hnodup : (t.con sc).nodesHead.Nodup) (hthumb : thumb.workspace = some ws)
    (hslot : t.dropSlot cfg oc thumb dragX dragY = some slot) :
    Lands (t.con sc).nodesHead ((t.overviewDrop cfg oc con ws thumb dragX dragY).con sc).nodesHead con slot ↔
      (∃ c ∈ pre ++ [con], oc.outputX thumb dragX < t.columnMiddle c) ∨
        ∀ c ∈ post, t.columnMiddle c ≤ oc.outputX thumb dragX := by
  have hdrop := nodesHead_overviewDrop halive hws hsc hparent hslot
  obtain rfl := dropSlot_eq hthumb hsc hslot
  generalize oc.outputX thumb dragX = ox at hdrop ⊢
  rw [hnodes] at hnodup hdrop ⊢
  have hplaced {c : ConId} {index : ℕ}
      (hslot : SlotBefore (t.scrollingSlot cfg thumb.out (pre ++ con :: post) ox) c index) :
      ((t.overviewDrop cfg oc con ws thumb dragX dragY).con sc).nodesHead =
        placeColumn con index (pre ++ con :: post) := by
    rw [hdrop (by rw [hslot.scrollIndex]; exact Int.natCast_nonneg _), hslot.scrollIndex, Int.toNat_natCast]
  -- the first column with its middle to the right of the pointer is in front of the dragged one, is the
  -- dragged one, is behind it, or there is none
  by_cases hfront : ∃ c ∈ pre, ox < t.columnMiddle c
  · obtain ⟨p₁, c, p₂, rfl, hc, hp₁⟩ := exists_first hfront
    refine iff_of_true ?_ (.inl ⟨c, by simp, hc⟩)
    have hslot := slotBefore_scrollingSlot cfg thumb.out
      (slotColumn_eq (p₂ ++ con :: post) (fun d hd => not_lt.1 (hp₁ d hd)) hc 0)
    rw [Nat.zero_add, ← List.cons_append, ← List.append_assoc] at hslot
    rw [hplaced hslot]
    exact lands_of_front hnodup hslot
  have hpre : ∀ c ∈ pre, t.columnMiddle c ≤ ox := fun c hc => not_lt.1 fun hlt => hfront ⟨c, hc, hlt⟩
  by_cases hself : ox < t.columnMiddle con
  · refine iff_of_true ?_ (.inl ⟨con, by simp, hself⟩)
    have hslot := slotBefore_scrollingSlot cfg thumb.out (slotColumn_eq post hpre hself 0)
    rw [Nat.zero_add] at hslot
    rw [hplaced hslot]
    exact lands_of_self hnodup hslot
  have hnot : ¬ ∃ c ∈ pre ++ [con], ox < t.columnMiddle c := by
    rintro ⟨c, hc, hlt⟩
    rcases List.mem_append.1 hc with hc | hc
    · exact hfront ⟨c, hc, hlt⟩
    · exact hself (List.mem_singleton.1 hc ▸ hlt)
  by_cases hback : ∃ c ∈ post, ox < t.columnMiddle c
  · obtain ⟨p₁, c, p₂, rfl, hc, hp₁⟩ := exists_first hback
    refine iff_of_false ?_ (not_or.2 ⟨hnot, fun hall => not_lt.2 (hall c (by simp)) hc⟩)
    have hleft : ∀ d ∈ pre ++ con :: p₁, t.columnMiddle d ≤ ox := by
      intro d hd
      rcases List.mem_append.1 hd with hd | hd
      · exact hpre d hd
      rcases List.mem_cons.1 hd with rfl | hd
      · exact not_lt.1 hself
      · exact not_lt.1 (hp₁ d hd)
    have hslot := slotBefore_scrollingSlot cfg thumb.out (slotColumn_eq p₂ hleft hc 0)
    have hlength : (pre ++ con :: p₁).length = pre.length + 1 + p₁.length := by
      simp only [List.length_append, List.length_cons]
      omega
    rw [Nat.zero_add, List.append_assoc, List.cons_append, hlength] at hslot
    rw [hplaced hslot]
    exact not_lands_of_behind hnodup hslot
  · have hpost : ∀ c ∈ post, t.columnMiddle c ≤ ox := fun c hc => not_lt.1 fun hlt => hback ⟨c, hc, hlt⟩
    refine iff_of_true ?_ (.inr hpost)
    have hnone : t.slotColumn ox (pre ++ con :: post) 0 = none := by
      apply slotColumn_none
      intro d hd
      rcases List.mem_append.1 hd with hd | hd
      · exact hpre d hd
      rcases List.mem_cons.1 hd with rfl | hd
      · exact not_lt.1 hself
      · exact hpost d hd
    have hindex : (t.scrollingSlot cfg thumb.out (pre ++ con :: post) ox).scrollIndex =
        (pre ++ con :: post).length := by
      rw [scrollingSlot, hnone]
    have hposition : (t.scrollingSlot cfg thumb.out (pre ++ con :: post) ox).position = .after := by
      rw [scrollingSlot, hnone]
    rw [hdrop (by rw [hindex]; exact Int.natCast_nonneg _), hindex, Int.toNat_natCast]
    exact lands_of_last hnodup hposition

/-- A strip of three columns, as wide as the output together. -/
def threeTiles : Tree where
  con c := match c with
    | 1 => { type := .root, nodesHead := [2], focusHead := [2] }
    | 2 =>
      { type := .workspace, layout := .scrolling, parent := some 1, rect := ⟨0, 0, 300, 100⟩
        nodesHead := [3, 4, 5], focusHead := [3, 4, 5] }
    | 3 => { parent := some 2, percent := 1 / 3, rect := ⟨0, 0, 100, 100⟩ }
    | 4 => { parent := some 2, percent := 1 / 3, rect := ⟨100, 0, 100, 100⟩ }
    | 5 => { parent := some 2, percent := 1 / 3, rect := ⟨200, 0, 100, 100⟩ }
    | _ => {}
  allCons := [1, 2, 3, 4, 5]
  croot := 1
  focused := some 3
  nextCon := 6

/-- Its thumbnail is as large as the output. -/
def threeTilesOverview : OverviewConfig where
  thumbWidth := 300
  thumbHeight := 100

def threeTilesThumbnail : Thumbnail := ⟨some 2, ⟨0, 0, 300, 100⟩⟩

/-- The first column is dragged onto the left half of the last one. -/
def threeTilesSlot : DropSlot where
  target := some 5
  position := .before
  scrollIndex := 2
  rect := ⟨200, 0, 150, 100⟩

theorem dropSlot_threeTiles :
    threeTiles.dropSlot {} threeTilesOverview threeTilesThumbnail 220 50 = some threeTilesSlot := by
  decide +kernel

theorem lands_threeTiles :
    Lands (threeTiles.con 2).nodesHead
        ((threeTiles.overviewDrop {} threeTilesOverview 3 2 threeTilesThumbnail 220 50).con 2).nodesHead 3
        threeTilesSlot ↔
      (∃ c ∈ [] ++ [3], threeTilesOverview.outputX threeTilesThumbnail 220 < threeTiles.columnMiddle c) ∨
        ∀ c ∈ [4, 5], threeTiles.columnMiddle c ≤ threeTilesOverview.outputX threeTilesThumbnail 220 :=
  lands_iff {} threeTilesOverview threeTiles 3 2 2 [] [4, 5] threeTilesThumbnail 220 50 threeTilesSlot
    (by decide +kernel) (by decide) (by decide) rfl rfl (by decide) rfl dropSlot_threeTiles

theorem not_lands_threeTiles :
    threeTiles.dropSlot {} threeTilesOverview threeTilesThumbnail 220 50 = some threeTilesSlot ∧
      ¬ Lands (threeTiles.con 2).nodesHead
        ((threeTiles.overviewDrop {} threeTilesOverview 3 2 threeTilesThumbnail 220 50).con 2).nodesHead 3
        threeTilesSlot := by
  have hdropped : ((threeTiles.overviewDrop {} threeTilesOverview 3 2 threeTilesThumbnail 220 50).con
      2).nodesHead = [4, 5, 3] := by
    rw [nodesHead_overviewDrop (by decide +kernel) (by decide) (by decide) rfl dropSlot_threeTiles (by decide)]
    decide
  refine ⟨dropSlot_threeTiles, fun hlands => ?_⟩
  have hinfix := hlands.before rfl 5 rfl (by decide)
  rw [hdropped] at hinfix
  revert hinfix
  decide

end Tree

end I3
