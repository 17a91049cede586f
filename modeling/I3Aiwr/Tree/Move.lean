import I3Aiwr.Tree.Flatten

/-!
# Moving in a direction

`src/move.c`: moving a container left, right, up or down among the tiling containers, with
`get_output_next` of `src/randr.c` and `floating_disable` of `src/floating.c`.

What `tree_move` does is decided by a loop that only reads the tree, but for a new orientation that
may be forced on the workspace: the decision is a `Move`, and it is carried out afterwards.

## Main definitions

* `Output`, `Tree.getOutputNext`
* `Tree.insertConInto`, `Tree.attachToWorkspace`, `Tree.moveToOutputDirected`, `Tree.floatingDisable`
* `Move`, `Tree.moveWithin`, `Tree.moveOut`, `Tree.moveSearchN`: the decision
* `Tree.treeMove`
-/

namespace I3

/-- An output of the X server: the `Output` of `data.h`, with its container. -/
structure Output where
  con : ConId
  names : List String
  active : Bool
  primary : Bool
  rect : Rect

inductive CloseFar
  | closest | farthest
  deriving DecidableEq, Repr

/-- `orientation_from_direction`. -/
def Direction.orientation : Direction → Orientation
  | .left | .right => .horiz
  | .up | .down => .vert

/-- A coordinate as the unsigned number the source computes with. -/
def u32 (z : ℤ) : ℕ := (z % 2 ^ 32).toNat

/-- `strcasecmp` finds no difference. -/
def sameName (a b : String) : Bool := strcasecmp a b = .eq

/-- `get_output_by_name`. -/
def getOutputByName (outputs : List Output) (name : String) (requireActive : Bool) : Option Output :=
  outputs.find? fun output =>
    (!requireActive || output.active) &&
      ((output.primary && sameName "primary" name) || (!output.primary && sameName "nonprimary" name)
        || output.names.any fun outputName => sameName outputName name)

/-- The ranges of two outputs along one axis have nothing in common. -/
def apart (start size start' size' : ℕ) : Bool :=
  u32 (start' + size') ≤ start || u32 (start + size) ≤ start'

/-- The output lies in the direction, and overlaps the current one across it. -/
def inDirection (direction : Direction) (cur other : Rect) : Bool :=
  match direction with
  | .right => u32 other.x > u32 cur.x && !apart (u32 cur.y) cur.height (u32 other.y) other.height
  | .left => u32 other.x < u32 cur.x && !apart (u32 cur.y) cur.height (u32 other.y) other.height
  | .down => u32 other.y > u32 cur.y && !apart (u32 cur.x) cur.width (u32 other.x) other.width
  | .up => u32 other.y < u32 cur.y && !apart (u32 cur.x) cur.width (u32 other.x) other.width

/-- The output is nearer in the direction than the best one so far. -/
def nearer (direction : Direction) (other best : Rect) : Bool :=
  match direction with
  | .right => u32 other.x < u32 best.x
  | .left => u32 other.x > u32 best.x
  | .down => u32 other.y < u32 best.y
  | .up => u32 other.y > u32 best.y

def better (direction : Direction) (closeFar : CloseFar) (other best : Rect) : Bool :=
  match closeFar with
  | .closest => nearer direction other best
  | .farthest => nearer direction best other

/-- `get_output_next`. -/
def getOutputNext (outputs : List Output) (direction : Direction) (current : Output)
    (closeFar : CloseFar) : Option Output :=
  outputs.foldl (fun best output =>
    if !output.active || !inDirection direction current.rect output.rect then best
    else match best with
      | none => some output
      | some b => if better direction closeFar output.rect b.rect then some output else best) none

namespace Tree

variable (cfg : Config) (t : Tree)

/-! ### Inserting next to another container -/

/-- `lowest_common_ancestor`; `none` where the source asserts. -/
def lowestCommonAncestor (a b : ConId) : Option ConId :=
  (t.chain a).find? fun x => (t.chain b).contains x

/-- `child_containing_con_recursively`. -/
def childContaining (ancestor con : ConId) : Option ConId :=
  (t.chain con).find? fun x => (t.con x).parent = some ancestor

/-- `y` is put into the place in front of `x`. -/
def bringBefore (x y : ConId) (l : List ConId) : List ConId :=
  match Queue.prev x l with
  | some place => Queue.insertAfter place y (l.erase y)
  | none => y :: l.erase y

/-- `con` is going to be placed before the target in the focus stack. -/
def focusBefore (lca conAncestor targetAncestor : ConId) (movesFocus : Bool) : Bool :=
  if conAncestor = targetAncestor then movesFocus
  else ((t.con lca).focusHead.find? fun x => x = conAncestor ∨ x = targetAncestor) = some conAncestor

/-- On a workspace the configured layout is respected: `con` goes into a new split container, which
is detached again and takes its place. -/
def splitFor (con parent : ConId) : Tree × ConId :=
  if (t.con parent).type ≠ .workspace then (t, con)
  else
    let (t, split) := t.workspaceAttachTo cfg parent
    if split = parent then (t, con)
    else
      let t := ((t.setParent con split).conAttach cfg con split false).setPercent con 0
      ((t.conFixPercent split).conDetach split, split)

/-- The place of `con` in the focus stack of its new parent. -/
def placeFocus (con target parent lca : ConId) (focusBefore : Bool) : Tree :=
  t.editFocus parent
    (if parent = lca then
      if focusBefore then Queue.insertBefore target con else Queue.insertAfter target con
    else if focusBefore then (con :: ·) else (· ++ [con]))

/-- The end of `insert_con_into`: the detached `con` is put beside the target. -/
def putBeside (con target parent lca : ConId) (focusBefore : Bool) (position : Position) : Tree :=
  let t := (t.setParent con parent).placeFocus con target parent lca focusBefore
  let t := t.editNodes parent (match position with
    | .before => Queue.insertBefore target con
    | .after => Queue.insertAfter target con)
  (t.setPercent con 0).conFixPercent parent

/-- The same, but for a new split container that takes the place of `con`. -/
def insertBeside (con target parent lca : ConId) (focusBefore : Bool) (position : Position) : Tree :=
  let (t, con) := t.splitFor cfg con parent
  t.putBeside con target parent lca focusBefore position

/-- `insert_con_into`. Where the source asserts nothing happens. -/
def insertConInto (con target : ConId) (position : Position) : Tree :=
  match (t.con target).parent with
  | none => t
  | some parent => match t.lowestCommonAncestor con parent with
    | none => t
    | some lca =>
      if lca = con then t
      else match t.childContaining lca con, t.childContaining lca target with
        | some conAncestor, some targetAncestor =>
          let oldParent := (t.con con).parent
          let movesFocus := t.isFocusedDescendant con conAncestor
          let before := t.focusBefore lca conAncestor targetAncestor movesFocus
          let t := if movesFocus ∧ before then t.editFocus lca (bringBefore conAncestor targetAncestor)
            else t
          let t := t.conDetach con
          let t := match oldParent with | none => t | some p => t.conFixPercent p
          let t := t.insertBeside cfg con target parent lca before position
          match oldParent with | none => t | some p => t.onRemoveChild cfg p
        | _, _ => t

/-! ### Onto a workspace, and to another output -/

/-- `attach_to_workspace`. -/
def attachToWorkspace (con ws : ConId) (direction : Direction) : Tree :=
  let oldParent := (t.con con).parent
  let t := (t.conDetach con).setParent con ws
  let t := t.editNodes ws (if direction = .right ∨ direction = .down then (con :: ·) else (· ++ [con]))
  let t := ((t.editFocus ws (· ++ [con])).setPercent con 0).conFixPercent ws
  match oldParent with
  | none => t
  | some p => (t.conFixPercent p).onRemoveChild cfg p

/-- `get_output_for_con`. -/
def getOutputForCon (outputs : List Output) (con : ConId) : Option Output :=
  (t.getOutput con).bind fun output => getOutputByName outputs (t.con output).name true

/-- The workspace `move_to_output_directed` moves a container to. -/
def workspaceInDirection (outputs : List Output) (con : ConId) (direction : Direction) :
    Option ConId :=
  (t.getOutputForCon outputs con).bind fun current =>
    (getOutputNext outputs direction current .closest).bind fun output =>
      t.visibleWorkspace output.con

/-- `move_to_output_directed`. The focus is on the old workspace while the new one is shown. -/
def moveToOutputDirected (outputs : List Output) (con : ConId) (direction : Direction) : Tree :=
  match t.workspaceInDirection outputs con direction with
  | none => t
  | some ws =>
    let oldWs := t.getWorkspace con
    let movesFocus := t.focused = some con
    let t := t.attachToWorkspace cfg con ws direction
    let t := if movesFocus then
        (((t.conFocus cfg con).setFocused oldWs).workspaceShow cfg ws).conFocus cfg con
      else t
    t.treeFlatten cfg t.croot

/-- `floating_disable`. -/
def floatingDisable (con : ConId) : Tree :=
  if ¬ t.isFloating con then t
  else match t.getWorkspace con with
    | none => t
    | some ws =>
      if t.isInternal ws then t
      else
        let target := t.descendTilingFocused ws
        let t :=
          if (t.con target).type = .workspace then
            let parent := (t.con con).parent
            let t := (t.conDetach con).modify con fun d => { d with parent := none }
            let t := match parent with
              | none => t
              | some p => t.treeCloseInternal cfg p .dontKillWindow true
            let t := (t.conAttach cfg con target false).setPercent con 0
            match (t.con con).parent with
            | none => t
            | some p => t.conFixPercent p
          else t.insertConInto cfg con target .after
        t.modify con fun d => { d with floating := .userOff }

end Tree

/-! ### The decision -/

/-- What `tree_move` does in the end. -/
inductive Move
  /-- Nothing more. -/
  | stay
  /-- `TAILQ_SWAP` with a sibling. -/
  | swap (sibling : ConId)
  | insert (target : ConId) (position : Position)
  | toWorkspace
  | toOutput
  | floatingDisable
  deriving DecidableEq, Repr

/-- The position next to a container to move beside it. -/
def Direction.beside : Direction → Position
  | .left | .up => .before
  | .right | .down => .after

namespace Tree

variable (cfg : Config) (t : Tree)

/-- The neighbour in the direction, in the list of its parent. -/
def siblingTowards (parent c : ConId) (direction : Direction) : Option ConId :=
  match direction with
  | .left | .up => Queue.prev c (t.con parent).nodesHead
  | .right | .down => Queue.next c (t.con parent).nodesHead

variable {t} in
theorem mem_siblingTowards {c p q : ConId} {direction : Direction}
    (h : t.siblingTowards p c direction = some q) : q ∈ (t.con p).nodesHead := by
  cases direction <;> first | exact Queue.mem_of_prev h | exact Queue.mem_of_next h

variable {t} in
theorem siblingTowards_ne {c p q : ConId} {direction : Direction} (hl : (t.con p).nodesHead.Nodup)
    (h : t.siblingTowards p c direction = some q) : q ≠ c := by
  have hrev : (t.con p).nodesHead.reverse.Nodup := List.nodup_reverse.mpr hl
  cases direction <;> first | exact Queue.next_ne hrev h | exact Queue.next_ne hl h

/-- Into a bordering branch. -/
def moveInto (branch : ConId) (direction : Direction) : Move :=
  let target := t.descendDirection branch direction
  let along := ((t.con target).parent.bind t.orientation) = some direction.orientation
  .insert target
    (if ¬ along ∨ direction = .up ∨ direction = .left then .after else .before)

/-- The container is the lone child of a container at the edge of the workspace. -/
def loneAtEdge (con : ConId) : Bool :=
  match (t.con con).parent with
  | none => false
  | some parent => match (t.con parent).parent with
    | none => false
    | some grandparent => (t.con grandparent).type = .workspace && (t.con parent).layout ≠ .default
        && t.numChildren parent = 1

/-- The end of `tree_move`: out of the branch of `same` that contains `con`. -/
def moveOut (con same : ConId) (direction : Direction) : Move :=
  match t.childContaining same con with
  | none => .stay
  | some above =>
    if ¬ t.fullscreenPermitsFocusing same then .stay
    else match t.siblingTowards same above direction with
      | some next => if ¬ t.isLeaf next then t.moveInto next direction else .insert above direction.beside
      | none => if t.loneAtEdge con then .toOutput else .insert above direction.beside

/-- The rest of one time around the loop, with a parent `same` of the orientation. `none` stands for
searching again without one. -/
def moveWithin (con same : ConId) (direction : Direction) : Option Move :=
  match (t.con con).parent with
  | none => some .stay
  | some parent =>
    if same ≠ parent then some (t.moveOut con same direction)
    else match t.siblingTowards parent con direction with
      | some sibling =>
        some (if ¬ t.isLeaf sibling then t.moveInto sibling direction else .swap sibling)
      | none =>
        if t.getWorkspace con = some parent then some .toOutput
        else (t.parentWithOrientation parent direction.orientation).map fun same =>
          t.moveOut con same direction

/-- The loop, at most `n` times around, and what comes after it. -/
def moveSearchN (con : ConId) (direction : Direction) : ℕ → Tree → Option ConId → Tree × Move
  | 0, t, _ => (t, .stay)
  | n + 1, t, some same => match t.moveWithin con same direction with
    | some move => (t, move)
    | none => moveSearchN con direction n t none
  | n + 1, t, none =>
    if t.isFloating con then (t, .floatingDisable)
    else if (t.insideFloating con).isSome then (t, .toWorkspace)
    else match t.getWorkspace con with
      | none => (t, .stay)
      | some ws =>
        let t := t.wsForceOrientation cfg ws direction.orientation
        match t.parentWithOrientation con direction.orientation with
        | none => moveSearchN con direction n t none
        | some same => match t.moveWithin con same direction with
          | some move => (t, move)
          | none => moveSearchN con direction n t none

/-- `tree_move` does not look for a place on the workspace. -/
def movesAway (con : ConId) : Bool :=
  (t.con con).fullscreenMode = .output ||
    (match (t.con con).parent with
      | none => false
      | some parent => (t.con parent).type = .workspace && t.numChildren parent = 1)

/-- What `tree_move` is going to do, in the tree after a forced orientation. The loop ends at the
second time around, when the workspace has the orientation. -/
def moveDecision (con : ConId) (direction : Direction) : Tree × Move :=
  if (t.con con).type = .workspace ∨ (t.con con).fullscreenMode = .global then (t, .stay)
  else if t.movesAway con then (t, .toOutput)
  else moveSearchN cfg con direction 2 t (t.parentWithOrientation con direction.orientation)

/-- `tree_move`. The assignments that are run for a window that does not float any more are not
modelled. -/
def treeMove (outputs : List Output) (con : ConId) (direction : Direction) : Tree :=
  match t.moveDecision cfg con direction with
  | (t, .stay) => t
  | (t, .swap sibling) => match (t.con con).parent with
    | none => t
    | some parent => t.editNodes parent (Queue.exchange con sibling)
  | (t, .insert target position) =>
    let t := t.insertConInto cfg con target position
    t.treeFlatten cfg t.croot
  | (t, .toWorkspace) => match t.getWorkspace con with
    | none => t
    | some ws =>
      let t := t.attachToWorkspace cfg con ws direction
      t.treeFlatten cfg t.croot
  | (t, .toOutput) => t.moveToOutputDirected cfg outputs con direction
  | (t, .floatingDisable) => t.floatingDisable cfg con

end Tree

end I3
