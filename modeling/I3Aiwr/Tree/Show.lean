import I3Aiwr.Tree.Close

/-!
# Moving containers and showing workspaces

`_con_move_to_con` moves a container next to another one, and ends with `workspace_show` on the
workspace that had the focus; `workspace_show` shows a workspace, and ends with moving the sticky
windows of its output there. The first function takes the second one as an argument, and the second
one is bounded by the depth of this recursion.

## Main definitions

* `Tree.moveConWith show`: `_con_move_to_con` for a container that is no workspace
* `Tree.workspaceShow`: `workspace_show`
* `Tree.conMoveToCon`, `Tree.conMoveToWorkspace`
* `Tree.conDisableFullscreen`
-/

namespace I3

namespace Tree

variable (cfg : Config) (t : Tree)

/-! ### Fullscreen modes -/

/-- `con_set_fullscreen_mode`. -/
def setFullscreenMode (c : ConId) (mode : FullscreenMode) : Tree :=
  t.modify c fun d => { d with fullscreenMode := mode }

/-- `con_disable_fullscreen`. -/
def conDisableFullscreen (c : ConId) : Tree :=
  if (t.con c).type = .workspace then t
  else if (t.con c).fullscreenMode = .none then t
  else t.setFullscreenMode c .none

/-- Something at or below the container is fullscreen, as `_con_move_to_con` finds out. -/
def hasFullscreen (c : ConId) : Bool :=
  (t.con c).fullscreenMode ≠ .none || (t.getFullscreenCon c .global).isSome
    || (t.getFullscreenCon c .output).isSome

/-! ### Moving a container -/

/-- The conversion of a double to an integer. -/
def truncate (x : ℚ) : ℤ := if x < 0 then ⌈x⌉ else ⌊x⌋

/-- `floating_fix_coordinates`: the same relative position on another output. -/
def floatingFixCoordinates (c : ConId) (old new : Rect) : Tree :=
  let r := (t.con c).rect
  let relX := r.x - old.x + (r.width / 2 : ℕ)
  let relY := r.y - old.y + (r.height / 2 : ℕ)
  t.modify c fun d =>
    { d with
      rect := { r with
        x := truncate (new.x + ((relX * new.width : ℤ) : ℚ) / (old.width : ℤ) - (r.width / 2 : ℕ))
        y := truncate
          (new.y + ((relY * new.height : ℤ) : ℚ) / (old.height : ℤ) - (r.height / 2 : ℕ)) } }

/-- One level up, but only from a normal container. -/
def moveParent (target : ConId) : Option ConId :=
  if (t.con target).type = .workspace then some target else (t.con target).parent

/-- The container to insert after, and the one to attach to. Floating containers have one child
only, and the workspace takes their place. -/
def moveBeside (target parent : ConId) : Option (ConId × ConId) :=
  if (t.con parent).type = .floatingCon then (t.con parent).parent.map fun ws => (parent, ws)
  else some (target, parent)

/-- The same for the container `con`: a floating one goes to the workspace. -/
def moveTarget (con target : ConId) : Option (ConId × ConId) :=
  (t.moveParent target).bind fun parent => (t.moveBeside target parent).bind fun (anchor, parent) =>
    if (t.con con).type = .floatingCon then (t.getWorkspace parent).map fun ws => (anchor, ws)
    else some (anchor, parent)

/-- The container to be focused after `con` was moved away from the focused workspace. -/
def moveFocusNext (con : ConId) (targetWs : ConId) (ignoreFocus : Bool) : Option ConId :=
  match t.getWorkspace con, t.focused.bind t.getWorkspace with
  | some sourceWs, some currentWs =>
    if ¬ ignoreFocus ∧ sourceWs = currentWs ∧ targetWs ≠ sourceWs then
      let next := t.descendFocused sourceWs
      if next = con ∨ t.hasParent next con then t.nextFocused con else some next
    else none
  | _, _ => none

/-- A floating container keeps its place relative to the output. -/
def moveFixCoordinates (con : ConId) (destOutput : Option ConId) (fixCoordinates : Bool) : Tree :=
  match t.getOutput con, destOutput with
  | some source, some dest =>
    if source ≠ dest ∧ fixCoordinates ∧ (t.con con).type = ConType.floatingCon then
      t.floatingFixCoordinates con (t.con source).rect (t.con dest).rect
    else t
  | _, _ => t

/-- A fullscreen container on the target workspace gives way to one that moves there. -/
def moveFullscreen (con targetWs : ConId) : Tree × Option ConId :=
  match t.getFullscreenCon targetWs .output with
  | none => (t, none)
  | some fs =>
    -- `con_toggle_fullscreen` disables it, since its mode is `CF_OUTPUT`
    if t.hasFullscreen con then (t.conDisableFullscreen fs, none) else (t, some fs)

/-- Detach and attach, and distribute the space in the old and in the new parent. -/
def moveReattach (con target : ConId) (anchor : Option ConId) (behindFocused fixPercentage : Bool) :
    Tree :=
  let parent := (t.con con).parent
  let t := (t.conDetach con).conAttachAt cfg con target (if behindFocused then none else anchor)
    (!behindFocused)
  if fixPercentage then
    ((match parent with | none => t | some p => t.conFixPercent p).setPercent con 0).conFixPercent
      target
  else t

/-- The container is focused on its new workspace, and the old focus restored. -/
def moveFocus (con : ConId) (destOutput currentWs : Option ConId) : Tree :=
  let oldFocusWs := (destOutput.bind t.outputGetContent).bind fun content =>
    (t.con content).focusHead.head?
  let oldFocus := t.focused
  let t := t.conActivate cfg (t.descendFocused con)
  match oldFocusWs, oldFocus with
  | some ws, some old =>
    if some ws = currentWs ∧ (t.con old).type ≠ .workspace then t.conActivate cfg old
    else if t.focused.bind t.getWorkspace ≠ some ws then t.conFocus cfg (t.descendFocused ws)
    else t
  | _, _ => t

/-- The focus goes to the next container, where `con` took it away. -/
def moveFocusBack (focusNext : Option ConId) : Tree :=
  match focusNext with
  | none => t
  | some next => t.conActivate cfg (t.descendFocused next)

/-- The end of `_con_move_to_con`: an urgent container stays urgent, and the old parent may be
empty. -/
def moveEnd (con : ConId) (urgent : Bool) (sourceWs parent : Option ConId) : Tree :=
  let t := if urgent then (t.workspaceUpdateUrgentFlag sourceWs).conSetUrgency con true else t
  match parent with
  | none => t
  | some p => t.onRemoveChild cfg p

section

variable (showWorkspace : Tree → ConId → Tree)

/-- `_con_move_to_con` from the second step on: `con` is no workspace, and the focus restrictions
were checked. -/
def moveCon (con target targetWs : ConId)
    (behindFocused fixCoordinates ignoreFocus fixPercentage : Bool) : Tree :=
  let urgent := (t.con con).urgent
  let currentWs := t.focused.bind t.getWorkspace
  let sourceWs := t.getWorkspace con
  let destOutput := t.getOutput targetWs
  let focusNext := t.moveFocusNext con targetWs ignoreFocus
  match t.moveTarget con target with
  | none => t
  | some (anchor, target) =>
    let t := t.moveFixCoordinates con destOutput fixCoordinates
    let fullscreen := (t.moveFullscreen con targetWs).2
    let t := (t.moveFullscreen con targetWs).1
    let parent := (t.con con).parent
    let t := t.moveReattach cfg con target anchor behindFocused fixPercentage
    let t := if ¬ ignoreFocus ∧ ¬ t.isInternal targetWs ∧ fullscreen = none
      then t.moveFocus cfg con destOutput currentWs else t
    let t := if ignoreFocus then t else match currentWs with
      | none => t
      | some ws => showWorkspace t ws
    (t.moveFocusBack cfg focusNext).moveEnd cfg con urgent sourceWs parent

/-- The container that is moved: for a floating window its floating container. -/
def movedCon (con : ConId) : ConId :=
  if t.isFloating con then ((t.con con).parent).getD con else con

/-- `_con_move_to_con` for a container that is no workspace, and for others nothing. -/
def moveConWith (con target : ConId)
    (behindFocused fixCoordinates ignoreFocus fixPercentage : Bool) : Tree :=
  match t.getWorkspace target with
  | none => t
  | some targetWs =>
    if (t.con (t.movedCon con)).type = .workspace then t
    else if ¬ ignoreFocus ∧ ¬ t.fullscreenPermitsFocusing targetWs then t
    else t.moveCon cfg showWorkspace (t.movedCon con) target targetWs behindFocused fixCoordinates
      ignoreFocus fixPercentage

/-- `con_move_to_workspace` for a container that is no workspace. The source asserts that `ws` is
one. -/
def moveToWorkspaceWith (con ws : ConId) (fixCoordinates ignoreFocus : Bool) : Tree :=
  if (t.con ws).type ≠ .workspace ∨ t.getWorkspace con = some ws then t
  else t.moveConWith cfg showWorkspace con (t.descendFocused ws) true fixCoordinates ignoreFocus true

/-! ### Sticky windows -/

/-- One container of `output_push_sticky_windows`. If the container or the visible workspace was
closed in the meantime, the source would follow a pointer to freed memory: nothing happens. -/
def pushSticky (oldFocus visibleWs : Option ConId) (c : ConId) : Tree :=
  match visibleWs with
  | none => t
  | some ws =>
    if (t.con c).type ≠ .floatingCon ∨ ¬ t.isSticky c ∨ ¬ (t.inTree c ∧ t.inTree ws) then t
    else
      let ignoreFocus : Bool := (oldFocus.bind fun f => (t.con f).parent) ≠ some c
      let t := t.moveToWorkspaceWith cfg showWorkspace c ws true ignoreFocus
      if ignoreFocus then t
      else
        let currentWs := t.focused.bind t.getWorkspace
        let t := t.conActivate cfg (t.descendFocused c)
        match currentWs with
        | none => t
        | some ws => t.conActivate cfg (t.descendFocused ws)

/-- The loop over the focus stack of the workspace `ws`; the next one is taken before the move. -/
def pushStickyChildren (oldFocus visibleWs : Option ConId) (ws : ConId) :
    ℕ → Tree → Option ConId → Tree
  | 0, t, _ | _ + 1, t, none => t
  | n + 1, t, some c =>
    pushStickyChildren oldFocus visibleWs ws n (t.pushSticky cfg showWorkspace oldFocus visibleWs c)
      (Queue.next c (t.con ws).focusHead)

/-- The loop over the focus stack of a content container. -/
def pushStickyWorkspaces (oldFocus visibleWs : Option ConId) (content : ConId) :
    ℕ → Tree → Option ConId → Tree
  | 0, t, _ | _ + 1, t, none => t
  | n + 1, t, some ws =>
    pushStickyWorkspaces oldFocus visibleWs content n
      (pushStickyChildren cfg showWorkspace oldFocus visibleWs ws t.nextCon t
        (t.con ws).focusHead.head?)
      (Queue.next ws (t.con content).focusHead)

/-- `output_push_sticky_windows`. -/
def outputPushStickyWindows (oldFocus : Option ConId) : Tree :=
  (t.con t.croot).focusHead.foldl (fun t output =>
    match t.outputGetContent output with
    | none => t
    | some content =>
      pushStickyWorkspaces cfg showWorkspace oldFocus (t.visibleWorkspace output) content t.nextCon t
        (t.con content).focusHead.head?) t

end

/-- `_get_sticky`: a container of the group with a window, in depth-first order. -/
def getStickyN (group : String) (exclude : ConId) : ℕ → ConId → Option ConId
  | 0, _ => none
  | n + 1, c => (t.children c).findSome? fun d =>
    if d ≠ exclude ∧ (t.con d).stickyGroup = some group ∧ (t.con d).window.isSome then some d
    else getStickyN group exclude n d

/-- `workspace_reassign_sticky`: the window of a sticky group moves to the container shown. -/
def reassignStickyN : ℕ → Tree → ConId → Tree
  | 0, t, _ => t
  | n + 1, t, c =>
    let t := (t.con c).nodesHead.foldl (fun t d =>
      match (t.con d).stickyGroup with
      | none => reassignStickyN n t d
      | some group =>
        match (t.getOutput d).bind (t.getStickyN group d t.nextCon) with
        | none => reassignStickyN n t d
        | some src => (t.setWindow d (t.con src).window).setWindow src none) t
    (t.con c).floatingHead.foldl (reassignStickyN n) t

def workspaceReassignSticky (ws : ConId) : Tree := reassignStickyN t.nextCon t ws

/-! ### Showing a workspace -/

/-- The other workspaces of the output are no longer visible, and `ws` is. -/
def flagWorkspace (ws content : ConId) : Tree :=
  ((t.con content).nodesHead.foldl (fun t c => t.setFullscreenMode c .none) t).setFullscreenMode ws
    .output

/-- The visible workspace of a content container, by the loop of `workspace_show`: the last one. -/
def flaggedWorkspace (content : ConId) : Option ConId :=
  (t.con content).nodesHead.reverse.find? fun c => (t.con c).fullscreenMode = .output

/-- The focus goes to `next` on the workspace shown. If that is urgent, the urgency is kept until
a timer expires. -/
def showFocus (ws next : ConId) : Tree :=
  if (t.con next).urgent ∧ cfg.workspaceUrgencyTimer > 0 then
    let t := (t.setUrgent next false).conFocus cfg next
    match t.focused with
    | none => t
    | some f => ((t.setUrgent f true).setUrgent ws true).modify f fun d =>
        { d with urgencyTimer := true }
  else t.conFocus cfg next

def setPreviousWorkspaceName (name : String) : Tree := { t with previousWorkspaceName := some name }

/-- The workspace left is remembered by its name. -/
def rememberWorkspace (current : Option ConId) : Tree :=
  match current with
  | none => t
  | some c => if t.isInternal c then t else t.setPreviousWorkspaceName (t.con c).name

/-- The workspace that was visible is empty and is not visible any more. -/
def closesOld (old : ConId) : Bool :=
  (t.con old).nodesHead.isEmpty && (t.con old).floatingHead.isEmpty && !t.workspaceIsVisible old

def closeOld (old : Option ConId) : Tree :=
  match old with
  | none => t
  | some old => if t.closesOld old then t.treeCloseInternal cfg old .dontKillWindow false else t

/-- `workspace_show` from the point where the focus is on another workspace `current`. -/
def showOther (showWorkspace : Tree → ConId → Tree) (ws : ConId) (old current : Option ConId) :
    Tree :=
  let oldFocus := old.map t.descendFocused
  let t := (t.rememberWorkspace current).workspaceReassignSticky ws
  let t := t.showFocus cfg ws (t.descendFocused ws)
  let oldFocus := if old.any t.closesOld ∧ oldFocus = old then none else oldFocus
  ((t.closeOld cfg old).setFullscreenMode ws .output).outputPushStickyWindows cfg showWorkspace
    oldFocus

/-- `workspace_show`, called for at most `n` sticky windows within each other. Whatever is shown is
a workspace of the tree. -/
def workspaceShowN : ℕ → Tree → ConId → Tree
  | 0, t, _ => t
  | n + 1, t, ws =>
    match (t.con ws).parent with
    | none => t
    | some content =>
      if t.isInternal ws ∨ (t.con ws).type ≠ .workspace ∨ ¬ t.inTree ws then t
      else
        let old := t.flaggedWorkspace content
        let t := t.flagWorkspace ws content
        let current := t.focused.bind t.getWorkspace
        if current = some ws then t
        else t.showOther cfg (workspaceShowN n) ws old current

/-- `workspace_show`. -/
def workspaceShow (ws : ConId) : Tree := workspaceShowN cfg (t.nextCon + 1) t ws

/-! ### Moving containers and workspaces -/

/-- The loop that moves the floating windows of a workspace, one after the other. -/
def moveFloatingWindows (sourceWs targetWs : ConId) : ℕ → Tree → Tree
  | 0, t => t
  | n + 1, t => match (t.con sourceWs).floatingHead with
    | [] => t
    | child :: _ =>
      moveFloatingWindows sourceWs targetWs n
        (t.moveToWorkspaceWith cfg (workspaceShow cfg) child targetWs true false)

/-- `_con_move_to_con`. The contents of a workspace move in a new container around them. -/
def conMoveToCon (con target : ConId)
    (behindFocused fixCoordinates ignoreFocus fixPercentage : Bool) : Tree :=
  if (t.con (t.movedCon con)).type = .workspace then
    match t.getWorkspace target with
    | none => t
    | some targetWs =>
      if ¬ ignoreFocus ∧ ¬ t.fullscreenPermitsFocusing targetWs then t
      else
        let con := t.movedCon con
        let t := moveFloatingWindows cfg con targetWs t.nextCon t
        match t.workspaceEncapsulate cfg con with
        | none => t
        | some (t, new) =>
          t.moveCon cfg (workspaceShow cfg) new target targetWs behindFocused fixCoordinates
            ignoreFocus fixPercentage
  else t.moveConWith cfg (workspaceShow cfg) con target behindFocused fixCoordinates ignoreFocus
    fixPercentage

/-- `con_move_to_workspace`. -/
def conMoveToWorkspace (con ws : ConId) (fixCoordinates ignoreFocus : Bool) : Tree :=
  if (t.con ws).type ≠ .workspace ∨ t.getWorkspace con = some ws then t
  else t.conMoveToCon cfg con (t.descendFocused ws) true fixCoordinates ignoreFocus true

end Tree

end I3
