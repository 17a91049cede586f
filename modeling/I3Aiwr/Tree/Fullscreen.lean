import I3Aiwr.Tree.Show

/-!
# Fullscreen containers, and swapping two containers

A container becomes fullscreen on its output or globally, and another fullscreen container that
would hide it gives way. Two swapped containers exchange their places in the tree, and their
fullscreen modes with the same functions.

## Main definitions

* `Tree.conEnableFullscreen`, `Tree.conToggleFullscreen`
* `Tree.conSwap`: `con_swap`, with `Tree.swapInTree` for what happens to the links
-/

namespace I3

namespace Tree

variable (cfg : Config) (t : Tree)

/-! ### Enabling -/

/-- The fullscreen container that would conflict the new one on `ws` is disabled. -/
def disableConflicting (ws : ConId) : Tree :=
  match t.fullscreenCoveringWs (some ws) with
  | none => t
  | some fs => t.conDisableFullscreen fs

/-- The focus goes to the new fullscreen container. Its workspace is shown if the mode is global;
otherwise the focus on another workspace is restored. -/
def enableFocus (con ws : ConId) (mode : FullscreenMode) : Tree :=
  let curWs := t.focused.bind t.getWorkspace
  let oldFocused := t.focused
  let t := if mode = .global ∧ curWs ≠ some ws then t.workspaceShow cfg ws else t
  let t := t.conActivate cfg con
  if mode ≠ .global ∧ curWs ≠ some ws then
    match oldFocused with
    | none => t
    | some old => t.conActivate cfg old
  else t

/-- `con_enable_fullscreen`. -/
def conEnableFullscreen (con : ConId) (mode : FullscreenMode) : Tree :=
  if (t.con con).type = .workspace then t
  else if (t.con con).fullscreenMode = mode then t
  else match t.getWorkspace con with
    | none => t
    | some ws =>
      ((t.disableConflicting ws).enableFocus cfg con ws mode).setFullscreenMode con mode

/-- `con_toggle_fullscreen`. -/
def conToggleFullscreen (con : ConId) (mode : FullscreenMode) : Tree :=
  if (t.con con).type = .workspace then t
  else if (t.con con).fullscreenMode = .none then t.conEnableFullscreen cfg con mode
  else t.conDisableFullscreen con

/-! ### Swapping -/

/-- The two containers change places in the queues of their parents. -/
def exchangeEntries (first second p : ConId) : Tree :=
  (t.editNodes p (Queue.exchange first second)).editFocus p (Queue.exchange first second)

/-- What belongs to the place of a container in the tree. -/
def takePlaceOf (c : ConId) (d : Con) : Tree :=
  t.modify c fun e =>
    { e with parent := d.parent, floating := d.floating, rect := d.rect, percent := d.percent }

/-- The containers with the parents `p` and `q` change places in the tree. -/
def swapInTree (first second p q : ConId) : Tree :=
  let t' := t.exchangeEntries first second p
  let t' := if p = q then t' else t'.exchangeEntries first second q
  (t'.takePlaceOf first (t.con second)).takePlaceOf second (t.con first)

/-- The container to be focused after the swap, if the focus is affected. -/
def swapFocus (first second : ConId) : Option ConId :=
  let ws1 := t.getWorkspace first
  match t.focused with
  | none => none
  | some f =>
    if ws1 = t.getWorkspace second ∧ ws1 = t.getWorkspace f then some f
    else if first = f ∨ t.hasParent f first then some second
    else if second = f ∨ t.hasParent f second then some first
    else none

/-- The fullscreen mode of one container goes over to the other one. -/
def passFullscreen (con : ConId) (mode : FullscreenMode) : Tree :=
  if mode = .none then t.conDisableFullscreen con else t.conEnableFullscreen cfg con mode

/-- Two containers can be swapped: regular ones, none above the other. -/
def swappable (first second : ConId) : Prop :=
  (t.con first).type = .con ∧ (t.con second).type = .con ∧ first ≠ second
    ∧ ¬ t.hasParent first second ∧ ¬ t.hasParent second first

instance (first second : ConId) : Decidable (t.swappable first second) :=
  inferInstanceAs (Decidable (_ ∧ _ ∧ _ ∧ _ ∧ _))

/-- The fullscreen modes are exchanged; the one of the second container is the old one. -/
def exchangeModes (first second : ConId) : Tree :=
  let secondMode := (t.con second).fullscreenMode
  (t.passFullscreen cfg second (t.con first).fullscreenMode).passFullscreen cfg first secondMode

/-- From the swap in the tree to the urgency flags of the new parents. -/
def swapPlaces (first second p q : ConId) : Tree :=
  let restoreFocus := t.swapFocus first second
  let t := t.swapInTree first second p q
  let t := match restoreFocus with
    | none => t
    | some f => t.conFocus cfg f
  let t := t.conSetUrgency first (t.con first).urgent
  t.conSetUrgency second (t.con second).urgent

/-- The percentages in the new parents are fixed. -/
def fixParent (c : ConId) : Tree :=
  match (t.con c).parent with
  | none => t
  | some p => t.conFixPercent p

/-- `con_swap`, and whether the containers were swapped. -/
def conSwap (first second : ConId) : Tree × Bool :=
  if t.swappable first second then
    match (t.con first).parent, (t.con second).parent with
    | some p, some q =>
      (((((t.swapPlaces cfg first second p q).exchangeModes cfg first second).fixParent first).fixParent
        second), true)
    | _, _ => (t, true)
  else (t, false)

end Tree

end I3
