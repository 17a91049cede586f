import Mathlib.Logic.Function.Basic
import I3Aiwr.Lib.Countdown
import I3Aiwr.Lib.Runs

/-!
# Unmaps

What i3 and the X server do when windows are unmapped: `handle_unmap_notify_event` of
`src/handlers.c`, the part of `x_push_node` and `x_push_node_unmaps` of `src/x.c` that maps, unmaps and
reparents, moving the window of a sticky group (`workspace_reassign_sticky`), and a placeholder that
swallows a window (`remanage_window` of `src/manage.c`). i3 unmaps frames, and a counter of each
container, `ignore_unmap`, is to tell the events of its own unmaps from those of a client.

The X server delivers, in order, two `UnmapNotify` events for a client window that is unmapped (for the
window, and through its frame) and one for a frame. Reparenting is done with the event masks cleared,
and gives none. The containers are pushed in the order of the tree, which matters for the order of the
events only, and is arbitrary here.

## Main definitions

* `XWindow`: the windows an event can be for
* `Con`, `State`: the containers, and the events that are not delivered yet
* `State.handleUnmapNotifyEvent`, `State.xPushNode`, `State.xPushNodeUnmaps`
* `State.reassignSticky`, `State.remanageWindow`
* `Step`, `step`
-/

namespace I3

namespace X

abbrev ConId := ℕ

/-- `event->window` of an `UnmapNotify` event. -/
inductive XWindow
  | client (id : ℕ)
  | frame (id : ℕ)
  deriving DecidableEq, Repr

/-- What of a container, and of the `con_state` of its frame, mapping and unmapping need. -/
structure Con where
  frame : ℕ
  window : Option ℕ := none
  stickyGroup : Option String := none
  mapped : Bool := false
  ignoreUnmap : UInt8 := 0
  stateMapped : Bool := false
  childMapped : Bool := false
  unmapNow : Bool := false
  needReparent : Bool := false
  deriving Repr

namespace Con

variable (con : Con)

/-- A counted event came. -/
def ignore : Con :=
  if 0 < con.ignoreUnmap then { con with ignoreUnmap := con.ignoreUnmap - 1 } else con

/-- The child window was reparented. -/
def reparent : Con := { con with needReparent := false, ignoreUnmap := con.ignoreUnmap + 1 }

/-- The frame is mapped, and the child window with it. -/
def map : Con :=
  { con with stateMapped := con.mapped, childMapped := con.childMapped || con.window.isSome }

/-- The frame is unmapped. -/
def unmap : Con :=
  { con with
    ignoreUnmap := if con.window ≠ none then con.ignoreUnmap + 1 else con.ignoreUnmap
    stateMapped := con.mapped }

/-- Another frame, which is not mapped. -/
def reframe (frame : ℕ) : Con :=
  { con with
    frame, stateMapped := false, childMapped := false, unmapNow := false, needReparent := false }

end Con

/-- i3 and the X server: the client windows that are mapped, the clients that unmapped their window,
and the `UnmapNotify` events on the way. -/
structure State where
  con : ConId → Con
  allCons : List ConId
  mappedWindows : List ℕ := []
  withdrawn : List ℕ := []
  pending : List XWindow := []

namespace State

variable (s : State)

def modify (c : ConId) (f : Con → Con) : State :=
  { s with con := Function.update s.con c (f (s.con c)) }

def send (events : List XWindow) : State := { s with pending := s.pending ++ events }

/-! ### The handler -/

/-- `con_by_window_id`. -/
def conByWindowId (w : ℕ) : Option ConId := s.allCons.find? fun c => (s.con c).window = some w

/-- `con_by_frame_id`. -/
def conByFrameId (f : ℕ) : Option ConId := s.allCons.find? fun c => (s.con c).frame = f

/-- `tree_close_internal` of a container without children, whose window is not killed. -/
def treeCloseInternal (c : ConId) : State :=
  { s.modify c fun con => { con with window := none } with allCons := s.allCons.erase c }

/-- The event is ignored, and one less is to be ignored. -/
def ignore (c : ConId) : State := s.modify c Con.ignore

/-- `handle_unmap_notify_event`. -/
def handleUnmapNotifyEvent (event : XWindow) : State :=
  match event with
  | .client w => match s.conByWindowId w with
    | none => s
    | some c => if 0 < (s.con c).ignoreUnmap then s.ignore c else s.treeCloseInternal c
  | .frame f => match s.conByFrameId f with
    | none => s
    | some c => s.ignore c

/-! ### Rendering -/

/-- `render_con` of the tree: which containers are visible. -/
def render (visible : ConId → Bool) : State :=
  { s with con := fun c => { s.con c with mapped := visible c } }

/-- A split container is mapped only to draw the decorations of a stacked or tabbed one. -/
def mapSplit (decorated : Bool) (c : ConId) : State :=
  if (s.con c).window = none ∧ ¬ decorated then s.modify c fun con => { con with mapped := false }
  else s

/-- Reparenting the child window, when it was moved. -/
def pushReparent (c : ConId) : State :=
  if (s.con c).needReparent ∧ (s.con c).window ≠ none then
    s.modify c Con.reparent
  else s

/-- Mapping the frame, and the child window if it is not. -/
def pushMap (c : ConId) : State :=
  let con := s.con c
  if (con.stateMapped ≠ con.mapped ∨ con.window ≠ none ∧ ¬ con.childMapped) ∧ con.mapped then
    { s.modify c Con.map with
      mappedWindows := if con.childMapped then s.mappedWindows else
        con.window.toList ++ s.mappedWindows }
  else s

/-- `x_push_node` of one container; `decorated` tells whether it is a stacked or tabbed container with
decorations. -/
def xPushNode (decorated : Bool) (c : ConId) : State :=
  (((s.mapSplit decorated c).pushReparent c).pushMap c).modify c fun con =>
    { con with unmapNow := con.stateMapped ≠ con.mapped ∧ ¬ con.mapped }

/-- `x_push_node_unmaps` of one container. -/
def xPushNodeUnmaps (c : ConId) : State :=
  if (s.con c).unmapNow then
    (s.modify c Con.unmap).send [.frame (s.con c).frame]
  else s

/-! ### Windows that move -/

/-- `x_reparent_child`. -/
def xReparentChild (c : ConId) : State := s.modify c fun con => { con with needReparent := true }

/-- What `workspace_reassign_sticky` does to a container of the workspace shown, `current`, and the one
of its sticky group that has the window. -/
def reassignSticky (current src : ConId) : State :=
  let window := (s.con src).window
  (((s.modify current fun con => { con with window, mapped := true }).modify src fun con =>
    { con with window := none, mapped := false }).xReparentChild current)

/-- `x_con_reframe`. -/
def xConReframe (c : ConId) (frame : ℕ) : State := s.modify c (·.reframe frame)

/-- `_match_depth`: another frame if the depths differ. -/
def matchDepth (c : ConId) (frame : Option ℕ) : State :=
  match frame with
  | some frame => s.xConReframe c frame
  | none => s

/-- What `con_merge_into` moves: the window, and the sticky group if there is one. -/
def mergeWindow (old new : ConId) : State :=
  let window := (s.con old).window
  let stickyGroup := (s.con old).stickyGroup
  (s.modify new fun con => { con with window, stickyGroup := stickyGroup.or con.stickyGroup }).modify
    old fun con => { con with window := none }

/-- `con_merge_into`. -/
def conMergeInto (old new : ConId) : State := (s.mergeWindow old new).treeCloseInternal old

/-- `remanage_window`: the placeholder `nc` swallows the window of `c`, perhaps in another frame. The
window of the placeholder is destroyed. -/
def remanageWindow (c nc : ConId) (frame : Option ℕ) : State :=
  let placeholder := (s.con nc).window.toList
  let s := { s.send (placeholder.flatMap fun w => [.client w, .client w]) with
    mappedWindows := s.mappedWindows.filter (· ∉ placeholder) }
  ((s.matchDepth nc frame).xReparentChild nc).conMergeInto c nc

/-! ### The X server -/

/-- A client unmaps its window. -/
def clientUnmap (w : ℕ) : State :=
  { s.send [.client w, .client w] with
    mappedWindows := s.mappedWindows.filter (· ≠ w)
    withdrawn := w :: s.withdrawn }

/-- The next event is handled. -/
def deliver : State :=
  match s.pending with
  | [] => s
  | event :: pending => { s with pending }.handleUnmapNotifyEvent event

end State

/-! ### Runs -/

/-- What happens: switching workspaces moves the windows of sticky groups, the tree is rendered and
pushed, a placeholder swallows a window, an empty container is closed, a client unmaps its window, an
event is handled. -/
inductive Step
  | reassign (current src : ConId)
  | render (visible : ConId → Bool)
  | pushNode (decorated : Bool) (c : ConId)
  | pushUnmaps (c : ConId)
  | remanage (c nc : ConId) (frame : Option ℕ)
  | close (c : ConId)
  | clientUnmap (w : ℕ)
  | deliver

def step (s : State) : Step → State
  | .reassign current src => s.reassignSticky current src
  | .render visible => s.render visible
  | .pushNode decorated c => s.xPushNode decorated c
  | .pushUnmaps c => s.xPushNodeUnmaps c
  | .remanage c nc frame => s.remanageWindow c nc frame
  | .close c => s.treeCloseInternal c
  | .clientUnmap w => s.clientUnmap w
  | .deliver => s.deliver

/-- The step can happen: the containers of a sticky group are different, and one has a window; a
placeholder has one too, and the X server gives a new frame an id that is not in use; only an empty
container is closed; a client unmaps a window that is mapped. -/
def Enabled (s : State) : Step → Prop
  | .reassign current src => current ∈ s.allCons ∧ src ∈ s.allCons ∧ current ≠ src ∧
      (s.con src).window ≠ none ∧ (s.con current).stickyGroup ≠ none ∧
      (s.con src).stickyGroup = (s.con current).stickyGroup
  | .render _ => True
  | .pushNode _ c => c ∈ s.allCons
  | .pushUnmaps c => c ∈ s.allCons
  | .remanage c nc new => c ∈ s.allCons ∧ nc ∈ s.allCons ∧ c ≠ nc ∧
      (s.con c).window ≠ none ∧ (s.con nc).window ≠ none ∧
      ∀ frame ∈ new, .frame frame ∉ s.pending ∧ ∀ d ∈ s.allCons, (s.con d).frame ≠ frame
  | .close c => c ∈ s.allCons ∧ (s.con c).window = none
  | .clientUnmap w => w ∈ s.mappedWindows
  | .deliver => s.pending ≠ []

instance (s : State) (e : Step) : Decidable (Enabled s e) :=
  match e with
  | .reassign _ _ => inferInstanceAs (Decidable (_ ∧ _))
  | .render _ => inferInstanceAs (Decidable True)
  | .pushNode _ _ => inferInstanceAs (Decidable (_ ∈ _))
  | .pushUnmaps _ => inferInstanceAs (Decidable (_ ∈ _))
  | .remanage _ _ _ => inferInstanceAs (Decidable (_ ∧ _))
  | .close _ => inferInstanceAs (Decidable (_ ∧ _))
  | .clientUnmap _ => inferInstanceAs (Decidable (_ ∈ _))
  | .deliver => inferInstanceAs (Decidable (_ ≠ _))

end X

end I3
