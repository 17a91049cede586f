import I3Aiwr.Lib.Queue
import I3Aiwr.Lib.Descent
import I3Aiwr.Tree.Container

/-!
# Asking the tree

The queries of `src/con.c`, `src/output.c` and `src/workspace.c`: they read the tree and change
nothing. A loop along parent pointers, or a recursion into the children, is bounded by the number
of addresses in use, which no path of a tree exceeds.

## Main definitions

* `Tree.children c`: the tiling children of `c`, then the floating ones
* `Tree.getWorkspace`, `Tree.getOutput`, `Tree.hasParent`, `Tree.insideFloating`
* `Tree.getFullscreenCon`, `Tree.fullscreenCoveringWs`
* `Tree.descendFocused`, `Tree.nextFocused`: where the focus goes
* `Tree.workspaceIsVisible`
-/

namespace I3

namespace Tree

variable (t : Tree)

/-! ### One container -/

/-- The children of a container, in the order the breadth-first search takes them. -/
def children (c : ConId) : List ConId := (t.con c).nodesHead ++ (t.con c).floatingHead

def isLeaf (c : ConId) : Bool := (t.con c).nodesHead.isEmpty

def numChildren (c : ConId) : ℕ := (t.con c).nodesHead.length

def isSplit (c : ConId) : Bool :=
  if t.isLeaf c then false
  else match (t.con c).layout with
    | .dockarea | .output | .scrolling => false
    | _ => true

/-- The container is internal, such as `__i3_scratch`. -/
def isInternal (c : ConId) : Bool := (t.con c).name.toList.take 2 = ['_', '_']

def isFloating (c : ConId) : Bool := (t.con c).floating.isOn

/-- `con_orientation`; `none` where the source asserts. -/
def orientation (c : ConId) : Option Orientation :=
  match (t.con c).layout with
  | .splitv | .stacked => some .vert
  | .splith | .tabbed | .scrolling => some .horiz
  | .default | .dockarea | .output => none

/-! ### Along the parent pointers -/

def getWorkspace (c : ConId) : Option ConId := (t.chain c).find? fun x => (t.con x).type = .workspace

def getOutput (c : ConId) : Option ConId := (t.chain c).find? fun x => (t.con x).type = .output

/-- `con_has_parent`. -/
def hasParent (c parent : ConId) : Bool := (t.chain c).tail.contains parent

/-- The loop of `con_inside_floating`. -/
def insideFloatingN : ℕ → ConId → Option ConId
  | 0, _ => none
  | n + 1, c =>
    if (t.con c).type = .floatingCon then some c
    else if t.isFloating c then (t.con c).parent
    else if (t.con c).type = .workspace ∨ (t.con c).type = .output then none
    else match (t.con c).parent with
      | none => none
      | some p => insideFloatingN n p

/-- The container or its floating container, if it is inside one. -/
def insideFloating (c : ConId) : Option ConId := t.insideFloatingN t.nextCon c

/-- The loop of `con_parent_with_orientation`. -/
def parentWithOrientationN (o : Orientation) : ℕ → ConId → Option ConId
  | 0, _ => none
  | n + 1, p =>
    if t.orientation p = some o then some p
    else match (t.con p).parent with
      | none => none
      | some q =>
        if (t.con q).type = .floatingCon ∨ (t.con q).type = .output
            ∨ (t.con q).parent.any fun r => (t.con r).type = .output then none
        else parentWithOrientationN o n q

def parentWithOrientation (c : ConId) (o : Orientation) : Option ConId :=
  match (t.con c).parent with
  | none => none
  | some p => if (t.con p).type = .floatingCon then none
    else t.parentWithOrientationN o t.nextCon p

/-! ### Into the children -/

/-- The first fullscreen container below `c`, in breadth-first order. -/
def getFullscreenCon (c : ConId) (mode : FullscreenMode) : Option ConId :=
  Descent.search t.children (fun x => x ≠ c ∧ (t.con x).fullscreenMode = mode) (t.nextCon + 1) [c]

/-- The container is below the root, or is the root. One that is not was closed before. -/
def inTree (c : ConId) : Bool :=
  (Descent.search t.children (fun x => x = c) (t.nextCon + 1) [t.croot]).isSome

/-- The fullscreen container that covers the given workspace: a global one anywhere, or one of the
workspace. -/
def fullscreenCoveringWs (ws : Option ConId) : Option ConId :=
  match ws with
  | none => none
  | some ws => match t.getFullscreenCon t.croot .global with
    | none => t.getFullscreenCon ws .output
    | some fs => some fs

def hasUrgentChildN : ℕ → ConId → Bool
  | 0, c => (t.con c).urgent
  | n + 1, c =>
    if t.isLeaf c then (t.con c).urgent else (t.con c).nodesHead.any (hasUrgentChildN n)

def hasUrgentChild (c : ConId) : Bool := t.hasUrgentChildN t.nextCon c

def urgencyFlagN : ℕ → ConId → Bool
  | 0, _ => false
  | n + 1, c => (t.children c).any fun d => (t.con d).urgent || urgencyFlagN n d

/-- `get_urgency_flag`. -/
def urgencyFlag (c : ConId) : Bool := t.urgencyFlagN t.nextCon c

def isStickyN : ℕ → ConId → Bool
  | 0, c => (t.con c).sticky
  | n + 1, c => (t.con c).sticky || (t.con c).nodesHead.any (isStickyN n)

/-- The container or any of its tiling children is sticky. -/
def isSticky (c : ConId) : Bool := t.isStickyN t.nextCon c

/-! ### Outputs and workspaces -/

/-- `output_get_content`. -/
def outputGetContent (output : ConId) : Option ConId :=
  (t.con output).nodesHead.find? fun c => (t.con c).type = .con

def workspaceIsVisible (ws : ConId) : Bool :=
  match t.getOutput ws with
  | none => false
  | some output => t.getFullscreenCon output .output = some ws

/-- The children of the content container of an output, in their order. -/
def workspacesOf (output : ConId) : List ConId :=
  match t.outputGetContent output with
  | none => []
  | some content => (t.con content).nodesHead

/-- The visible workspace of an output. -/
def visibleWorkspace (output : ConId) : Option ConId :=
  (t.workspacesOf output).find? t.workspaceIsVisible

/-! ### Along the focus stack -/

/-- The loop of `con_descend_focused`. -/
def descendFocusedN : ℕ → ConId → ConId
  | 0, c => c
  | n + 1, c =>
    if t.focused = some c then c
    else match (t.con c).focusHead with
      | [] => c
      | d :: _ => descendFocusedN n d

/-- The focused container inside this one, as far down as possible. -/
def descendFocused (c : ConId) : ConId := t.descendFocusedN t.nextCon c

/-- The loop of `con_descend_tiling_focused`. -/
def descendTilingFocusedN : ℕ → ConId → ConId
  | 0, c => c
  | n + 1, c =>
    if t.focused = some c then c
    else match (t.con c).focusHead.find? fun d => (t.con d).type ≠ .floatingCon with
      | none => c
      | some d => descendTilingFocusedN n d

/-- The same through tiling containers only. -/
def descendTilingFocused (c : ConId) : ConId := t.descendTilingFocusedN t.nextCon c

/-- `con_descend_direction`; a layout without an orientation ends the descent. -/
def descendDirectionN (direction : Direction) : ℕ → ConId → ConId
  | 0, c => c
  | n + 1, c =>
    let along := if direction = .left ∨ direction = .right then some .horiz else some .vert
    let most :=
      if t.orientation c = none then none
      else if t.orientation c = along then
        if direction = .right ∨ direction = .down then (t.con c).nodesHead.head?
        else (t.con c).nodesHead.getLast?
      else (t.con c).focusHead.find? fun d => (t.con d).type ≠ .floatingCon
    match most with
    | none => c
    | some d => descendDirectionN direction n d

def descendDirection (c : ConId) (direction : Direction) : ConId :=
  t.descendDirectionN direction t.nextCon c

/-- The last loop of `con_next_focused`: down the focus stack, not into `c`. -/
def descendExcludingN (c : ConId) : ℕ → ConId → ConId
  | 0, d => d
  | n + 1, d => match (t.con d).focusHead with
    | [] => d
    | e :: _ => if e = c then d else descendExcludingN c n e

/-- The first entry in the focus stack of the parent `p` that is not `c`, or else `p`. -/
def focusBeside (c p : ConId) : ConId :=
  if (t.con p).focusHead.head? ≠ some c then ((t.con p).focusHead.head?).getD p
  else (Queue.next c (t.con p).focusHead).getD p

/-- `con_next_focused` below the parent `p` of `c`. -/
def nextFocusedIn (c p : ConId) : ConId :=
  let next := t.descendExcludingN c t.nextCon (t.focusBeside c p)
  if (t.con c).type = .floatingCon ∧ next ≠ p then t.descendFocused next else next

/-- The container to be focused when the given one is not available any more. -/
def nextFocused (c : ConId) : Option ConId :=
  match (t.con c).parent with
  | none => none
  | some p =>
    if (t.con p).type = .dockarea then
      (t.con p).parent.bind fun output => (t.outputGetContent output).map t.descendFocused
    else if t.isFloating c then (t.con p).parent.map (t.nextFocusedIn p)
    else some (t.nextFocusedIn c p)

/-! ### Fullscreen -/

/-- The loop of `con_fullscreen_permits_focusing`: the first fullscreen container upwards. -/
def fullscreenAncestor (c : ConId) : Option ConId :=
  (t.chain c).find? fun x => (t.con x).fullscreenMode ≠ .none

/-- `con_fullscreen_permits_focusing`. -/
def fullscreenPermitsFocusing (c : ConId) : Bool :=
  match t.focused.bind t.fullscreenAncestor with
  | none => true
  | some fs =>
    (t.con fs).type = .workspace || c = fs
      || ((t.con fs).fullscreenMode = .output && t.getWorkspace c ≠ t.getWorkspace fs)
      || t.hasParent c fs

end Tree

end I3
