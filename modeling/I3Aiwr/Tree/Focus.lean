import I3Aiwr.Tree.Edit

/-!
# Focus and urgency

`con_focus` and its helpers: the focus stack of every container above the focused one, the urgency
flags, the stacking order of the floating windows, and the scroll that brings a focused column into
view. None of them moves a container to another parent: they *stir* the tree.

## Main definitions

* `Tree.conFocus`, `Tree.conActivate`
* `Tree.conSetUrgency`, `Tree.updateParentsUrgency`, `Tree.workspaceUpdateUrgentFlag`
* `Tree.Stirs t t'`: `t'` is `t` up to the order of focus stacks and of floating windows, urgency,
  geometry and the scroll

## Main results

* `Tree.stirs_conFocus`, `Tree.stirs_conActivate`, `Tree.stirs_conSetUrgency`,
  `Tree.stirs_treeRender`
-/

namespace I3

namespace Tree

variable (cfg : Config) (t : Tree)

/-! ### Urgency -/

def setUrgent (c : ConId) (urgent : Bool) : Tree := t.modify c fun d => { d with urgent }

def workspaceUpdateUrgentFlag (ws : Option ConId) : Tree :=
  match ws with
  | none => t
  | some ws => t.setUrgent ws (t.urgencyFlag ws)

/-- The loop of `con_update_parents_urgency`, up to the workspace or the dock area. -/
def updateUrgencyOf (urgent : Bool) : List ConId → Tree → Tree
  | [], t => t
  | p :: rest, t =>
    if (t.con p).type = .workspace ∨ (t.con p).type = .dockarea then t
    else updateUrgencyOf urgent rest
      (if urgent then t.setUrgent p true
      else if t.hasUrgentChild p then t else t.setUrgent p false)

/-- `con_update_parents_urgency`. -/
def updateParentsUrgency (c : ConId) : Tree :=
  if (t.con c).type = .workspace then t
  else updateUrgencyOf (t.con c).urgent (t.chain c).tail t

/-- `con_set_urgency`. -/
def conSetUrgency (c : ConId) (urgent : Bool) : Tree :=
  if urgent ∧ t.focused = some c then t
  else
    let t := if (t.con c).urgencyTimer then t else t.setUrgent c urgent
    let t := t.updateParentsUrgency c
    t.workspaceUpdateUrgentFlag (t.getWorkspace c)

/-- The urgency of `c` is cleared, where it is set. -/
def clearUrgency (c : ConId) : Tree :=
  let t := (t.conSetUrgency c false).updateParentsUrgency c
  t.workspaceUpdateUrgentFlag (t.getWorkspace c)

/-! ### Focus -/

def setFocused (c : Option ConId) : Tree := { t with focused := c }

/-- The end of `con_focus`: the focus is set, and a leaf is no longer urgent. -/
def focusHere (c : ConId) : Tree :=
  let t := t.setFocused (some c)
  let t := if (t.con c).urgent ∧ t.isLeaf c then t.clearUrgency c else t
  t.scrollingOnFocus cfg c

/-- `con_focus`, at most `n` containers up. The parent is focused first. -/
def conFocusN : ℕ → Tree → ConId → Tree
  | 0, t, _ => t
  | n + 1, t, c => match (t.con c).parent with
    | none => t
    | some p =>
      let t := t.editFocus p (Queue.toFront c)
      (if (t.con p).parent.isSome then conFocusN n t p else t).focusHere cfg c

def conFocus (c : ConId) : Tree := conFocusN cfg t.nextCon t c

def floatingRaiseCon (c : ConId) : Tree :=
  match (t.con c).parent with
  | none => t
  | some p => t.editFloating p (Queue.toBack c)

/-- `con_raise`. -/
def conRaise (c : ConId) : Tree :=
  match t.insideFloating c with
  | none => t
  | some f => t.floatingRaiseCon f

/-- `con_activate`: focus the container and raise it to the top. -/
def conActivate (c : ConId) : Tree := (t.conFocus cfg c).conRaise c

end Tree

/-! ### Stirring -/

/-- A container without what stirring the tree changes. -/
def Con.still (c : Con) : Con :=
  { c with
    focusHead := [], floatingHead := [], urgent := false, urgencyTimer := false, scrollOffset := 0
    rect := {} }

namespace Tree

/-- `t'` is `t` up to the order of focus stacks and of floating windows, urgency, geometry, the
focus and the scroll. -/
structure Stirs (t t' : Tree) : Prop where
  allCons : t'.allCons = t.allCons
  croot : t'.croot = t.croot
  nextCon : t'.nextCon = t.nextCon
  still : ∀ c, (t'.con c).still = (t.con c).still
  focusHead : ∀ c, (t'.con c).focusHead.Perm (t.con c).focusHead
  floatingHead : ∀ c, (t'.con c).floatingHead.Perm (t.con c).floatingHead

namespace Stirs

variable {t t' t'' : Tree}

@[refl] theorem refl (t : Tree) : Stirs t t :=
  ⟨rfl, rfl, rfl, fun _ => rfl, fun _ => .refl _, fun _ => .refl _⟩

theorem trans (h : Stirs t t') (h' : Stirs t' t'') : Stirs t t'' where
  allCons := h'.allCons.trans h.allCons
  croot := h'.croot.trans h.croot
  nextCon := h'.nextCon.trans h.nextCon
  still c := (h'.still c).trans (h.still c)
  focusHead c := (h'.focusHead c).trans (h.focusHead c)
  floatingHead c := (h'.floatingHead c).trans (h.floatingHead c)

/-- Stirring one container. -/
theorem of_modify (t : Tree) (c : ConId) (f : Con → Con)
    (hstill : (f (t.con c)).still = (t.con c).still)
    (hfocus : (f (t.con c)).focusHead.Perm (t.con c).focusHead)
    (hfloating : (f (t.con c)).floatingHead.Perm (t.con c).floatingHead) :
    Stirs t (t.modify c f) := by
  refine ⟨rfl, rfl, rfl, fun d => ?_, fun d => ?_, fun d => ?_⟩ <;> by_cases hd : d = c
  · subst hd; simpa using hstill
  · simp [hd]
  · subst hd; simpa using hfocus
  · simp [hd]
  · subst hd; simpa using hfloating
  · simp [hd]

section Fields

variable (h : Stirs t t') (c : ConId)
include h

theorem type : (t'.con c).type = (t.con c).type := (congrArg Con.type (h.still c) :)
theorem parent : (t'.con c).parent = (t.con c).parent := (congrArg Con.parent (h.still c) :)
theorem nodesHead : (t'.con c).nodesHead = (t.con c).nodesHead :=
  (congrArg Con.nodesHead (h.still c) :)
theorem layout : (t'.con c).layout = (t.con c).layout := (congrArg Con.layout (h.still c) :)
theorem percent : (t'.con c).percent = (t.con c).percent := (congrArg Con.percent (h.still c) :)
theorem fullscreenMode : (t'.con c).fullscreenMode = (t.con c).fullscreenMode :=
  (congrArg Con.fullscreenMode (h.still c) :)
theorem sticky : (t'.con c).sticky = (t.con c).sticky := (congrArg Con.sticky (h.still c) :)
theorem window : (t'.con c).window = (t.con c).window := (congrArg Con.window (h.still c) :)
theorem floating : (t'.con c).floating = (t.con c).floating := (congrArg Con.floating (h.still c) :)
theorem name : (t'.con c).name = (t.con c).name := (congrArg Con.name (h.still c) :)

theorem mem_children {d : ConId} : d ∈ t'.children c ↔ d ∈ t.children c := by
  simp only [Tree.children, List.mem_append, h.nodesHead, (h.floatingHead c).mem_iff]

end Fields

end Stirs

variable (cfg : Config) (t : Tree)

theorem stirs_setUrgent (c : ConId) (urgent : Bool) : Stirs t (t.setUrgent c urgent) :=
  .of_modify t c _ rfl (.refl _) (.refl _)

theorem stirs_workspaceUpdateUrgentFlag (ws : Option ConId) :
    Stirs t (t.workspaceUpdateUrgentFlag ws) := by
  cases ws with
  | none => exact .refl t
  | some ws => exact stirs_setUrgent t ws _

theorem stirs_updateUrgencyOf (urgent : Bool) (ps : List ConId) :
    Stirs t (updateUrgencyOf urgent ps t) := by
  induction ps generalizing t with
  | nil => exact .refl t
  | cons p ps ih =>
    rw [updateUrgencyOf]
    split
    · exact .refl t
    · refine Stirs.trans ?_ (ih _)
      split
      · exact stirs_setUrgent t p _
      · split
        · exact .refl t
        · exact stirs_setUrgent t p _

theorem stirs_updateParentsUrgency (c : ConId) : Stirs t (t.updateParentsUrgency c) := by
  rw [updateParentsUrgency]
  split
  · exact .refl t
  · exact stirs_updateUrgencyOf t _ _

theorem stirs_conSetUrgency (c : ConId) (urgent : Bool) : Stirs t (t.conSetUrgency c urgent) := by
  rw [conSetUrgency]
  split
  · exact .refl t
  · refine Stirs.trans ?_ ((stirs_updateParentsUrgency _ c).trans
      (stirs_workspaceUpdateUrgentFlag _ _))
    split
    · exact .refl t
    · exact stirs_setUrgent t c urgent

theorem stirs_clearUrgency (c : ConId) : Stirs t (t.clearUrgency c) :=
  ((stirs_conSetUrgency t c false).trans (stirs_updateParentsUrgency _ c)).trans
    (stirs_workspaceUpdateUrgentFlag _ _)

theorem stirs_setScrollOffset (c : ConId) (offset : ℚ) : Stirs t (t.setScrollOffset c offset) :=
  .of_modify t c _ rfl (.refl _) (.refl _)

theorem stirs_treeRender : Stirs t (t.treeRender cfg) :=
  ⟨rfl, rfl, rfl, fun _ => rfl, fun _ => .refl _, fun _ => .refl _⟩

/-- The globals of the scroll and of the focus are no part of what stirring keeps. -/
theorem stirs_globals (focused : Option ConId) (anim : ScrollAnim) (ids : ℕ) :
    Stirs t { t with focused, scrollAnim := anim, animIds := ids } :=
  ⟨rfl, rfl, rfl, fun _ => rfl, fun _ => .refl _, fun _ => .refl _⟩

theorem stirs_scrollCancel : Stirs t t.scrollCancel := by
  rw [scrollCancel]
  split
  · exact stirs_globals t _ _ _
  · exact .refl t

theorem stirs_scrollToOffset (c : ConId) (target : ℚ) : Stirs t (t.scrollToOffset cfg c target) := by
  rw [scrollToOffset]
  split
  · exact .refl t
  · refine (stirs_scrollCancel t).trans ?_
    split
    · exact stirs_setScrollOffset _ c target
    · split
      · exact stirs_globals _ _ _ _
      · exact ((stirs_globals _ _ _ _).trans (stirs_setScrollOffset _ c target)).trans
          (stirs_treeRender cfg _)

theorem stirs_scrollStep (e : ℚ) : Stirs t (t.scrollStep cfg e) := by
  rw [scrollStep]
  split
  · exact .refl t
  · exact (stirs_setScrollOffset t _ _).trans (stirs_treeRender cfg _)

theorem stirs_scrollDone : Stirs t (t.scrollDone cfg) := by
  refine Stirs.trans ?_ (stirs_treeRender cfg _)
  refine Stirs.trans ?_ (stirs_globals _ _ _ _)
  split
  · exact .refl t
  · exact stirs_setScrollOffset t _ _

theorem stirs_scrollingReveal (column : ConId) : Stirs t (t.scrollingReveal cfg column) := by
  rw [scrollingReveal]
  split
  · exact .refl t
  · split
    · exact .refl t
    · split
      · exact .refl t
      · exact stirs_scrollToOffset cfg t _ _

theorem stirs_scrollingOnFocus (c : ConId) : Stirs t (t.scrollingOnFocus cfg c) := by
  rw [scrollingOnFocus]
  split
  · exact .refl t
  · exact stirs_scrollingReveal cfg t _

theorem stirs_toFront (c p : ConId) : Stirs t (t.editFocus p (Queue.toFront c)) :=
  .of_modify t p _ rfl Queue.toFront_perm (.refl _)

theorem stirs_setFocused (c : Option ConId) : Stirs t (t.setFocused c) := stirs_globals t c _ _

theorem stirs_focusHere (c : ConId) : Stirs t (t.focusHere cfg c) := by
  refine Stirs.trans ?_ (stirs_scrollingOnFocus cfg _ c)
  split
  · exact (stirs_setFocused t _).trans (stirs_clearUrgency _ c)
  · exact stirs_setFocused t _

theorem stirs_conFocusN (n : ℕ) (c : ConId) : Stirs t (conFocusN cfg n t c) := by
  induction n generalizing t c with
  | zero => exact .refl t
  | succ n ih =>
    rw [conFocusN]
    split
    · exact .refl t
    · next p _ =>
      refine Stirs.trans ?_ (stirs_focusHere cfg _ c)
      split
      · exact (stirs_toFront t c p).trans (ih _ p)
      · exact stirs_toFront t c p

theorem stirs_conFocus (c : ConId) : Stirs t (t.conFocus cfg c) := stirs_conFocusN cfg t _ c

theorem stirs_floatingRaiseCon (c : ConId) : Stirs t (t.floatingRaiseCon c) := by
  rw [floatingRaiseCon]
  split
  · exact .refl t
  · exact .of_modify t _ _ rfl (.refl _) Queue.toBack_perm

theorem stirs_conRaise (c : ConId) : Stirs t (t.conRaise c) := by
  rw [conRaise]
  split
  · exact .refl t
  · exact stirs_floatingRaiseCon t _

theorem stirs_conActivate (c : ConId) : Stirs t (t.conActivate cfg c) :=
  (stirs_conFocus cfg t c).trans (stirs_conRaise _ c)

/-! ### The focused container -/

section Focused

variable {cfg t}

theorem updateUrgencyOf_focused (urgent : Bool) (ps : List ConId) (t : Tree) :
    (updateUrgencyOf urgent ps t).focused = t.focused := by
  induction ps generalizing t with
  | nil => rfl
  | cons p ps ih =>
    rw [updateUrgencyOf]
    split
    · rfl
    · rw [ih]
      split
      · rfl
      · split <;> rfl

@[simp] theorem updateParentsUrgency_focused (c : ConId) :
    (t.updateParentsUrgency c).focused = t.focused := by
  rw [updateParentsUrgency]
  split
  · rfl
  · exact updateUrgencyOf_focused _ _ t

@[simp] theorem workspaceUpdateUrgentFlag_focused (ws : Option ConId) :
    (t.workspaceUpdateUrgentFlag ws).focused = t.focused := by
  cases ws <;> rfl

@[simp] theorem conSetUrgency_focused (c : ConId) (urgent : Bool) :
    (t.conSetUrgency c urgent).focused = t.focused := by
  rw [conSetUrgency]
  split
  · rfl
  · dsimp only
    rw [workspaceUpdateUrgentFlag_focused, updateParentsUrgency_focused]
    split <;> rfl

@[simp] theorem clearUrgency_focused (c : ConId) : (t.clearUrgency c).focused = t.focused := by
  rw [clearUrgency, workspaceUpdateUrgentFlag_focused, updateParentsUrgency_focused,
    conSetUrgency_focused]

theorem scrollCancel_focused : t.scrollCancel.focused = t.focused := by
  rw [scrollCancel]
  split <;> rfl

@[simp] theorem scrollToOffset_focused (c : ConId) (target : ℚ) :
    (t.scrollToOffset cfg c target).focused = t.focused := by
  rw [scrollToOffset]
  split
  · rfl
  · dsimp only
    split
    · exact scrollCancel_focused
    · split
      · exact scrollCancel_focused
      · exact scrollCancel_focused

@[simp] theorem scrollingOnFocus_focused (c : ConId) :
    (t.scrollingOnFocus cfg c).focused = t.focused := by
  rw [scrollingOnFocus]
  split
  · rfl
  · rw [scrollingReveal]
    split
    · rfl
    · split
      · rfl
      · split
        · rfl
        · exact scrollToOffset_focused _ _

theorem focusHere_focused (c : ConId) : (t.focusHere cfg c).focused = some c := by
  rw [focusHere, scrollingOnFocus_focused]
  split
  · exact clearUrgency_focused c
  · rfl

/-- **`con_focus` focuses the container**, unless it is the root. -/
theorem conFocus_focused {c p : ConId} (hp : (t.con c).parent = some p) (hlt : 0 < t.nextCon) :
    (t.conFocus cfg c).focused = some c := by
  obtain ⟨n, hn⟩ := Nat.exists_eq_succ_of_ne_zero hlt.ne'
  rw [conFocus, hn, conFocusN, hp]
  exact focusHere_focused c

end Focused

end Tree

end I3
