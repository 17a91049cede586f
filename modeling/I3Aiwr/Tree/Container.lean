import Mathlib.Data.Rat.Defs
import Mathlib.Logic.Function.Basic

/-!
# Containers and the tree

The data of `include/data.h` and the globals of `src/tree.c`. A container is known by its
address; the tree is the heap of containers with the list `all_cons`, the root, the focused
container, and the scroll animation of `src/scrolling.c`, which refers to a container too. The
queues of a container are lists of addresses. Addresses are never reused: a container that was
freed stays distinguishable from every later one.

## Main definitions

* `Con`: a container
* `Tree`: the heap of containers and the globals
* `Tree.modify t c f`: the tree with the container `c` updated by `f`
* `Config`: the configuration, and the geometry the renderer assigns
-/

namespace I3

/-- The address of a container. -/
abbrev ConId := ℕ

inductive ConType
  | root | output | con | floatingCon | workspace | dockarea
  deriving DecidableEq, Repr

inductive Layout
  | default | stacked | tabbed | dockarea | output | splitv | splith | scrolling
  deriving DecidableEq, Repr

inductive FullscreenMode
  | none | output | global
  deriving DecidableEq, Repr

/-- Whether a container floats, and whether the user or the application decided it. -/
inductive Floating
  | autoOff | userOff | autoOn | userOn
  deriving DecidableEq, Repr

/-- `floating >= FLOATING_AUTO_ON`. -/
def Floating.isOn : Floating → Bool
  | autoOff | userOff => false
  | autoOn | userOn => true

inductive Orientation
  | none | horiz | vert
  deriving DecidableEq, Repr

inductive Direction
  | left | right | up | down
  deriving DecidableEq, Repr

inductive Position
  | before | after
  deriving DecidableEq, Repr

inductive BorderStyle
  | none | pixel | normal
  deriving DecidableEq, Repr

inductive ScratchpadState
  | none | fresh | changed
  deriving DecidableEq, Repr

/-- A rectangle; the position is signed, as the comment in `data.h` allows. -/
structure Rect where
  x : ℤ := 0
  y : ℤ := 0
  width : ℕ := 0
  height : ℕ := 0
  deriving DecidableEq, Repr

/-- The managed X11 window of a container. -/
structure Window where
  id : ℕ
  classClass : Option String := none
  classInstance : Option String := none
  deriving DecidableEq, Repr

/-- A container. The defaults are those of `con_new_skeleton`, which zeroes the memory. -/
structure Con where
  type : ConType := .con
  num : ℤ := 0
  parent : Option ConId := none
  rect : Rect := {}
  name : String := ""
  percent : ℚ := 0
  scrollOffset : ℚ := 0
  scrollPrevPercent : ℚ := 0
  window : Option Window := none
  urgent : Bool := false
  urgencyTimer : Bool := false
  floatingHead : List ConId := []
  nodesHead : List ConId := []
  focusHead : List ConId := []
  fullscreenMode : FullscreenMode := .none
  sticky : Bool := false
  stickyGroup : Option String := none
  layout : Layout := .default
  lastSplitLayout : Layout := .default
  workspaceLayout : Layout := .default
  borderStyle : BorderStyle := .normal
  floating : Floating := .autoOff
  scratchpadState : ScratchpadState := .none
  titleFormat : Option String := none
  marks : List String := []
  markChanged : Bool := false
  deriving Repr

/-- `scroll_anim`: the one running scroll, on `con` from `src` to `dst`. `con = none` stands for
`NULL`, and `animId = 0` for no animation. -/
structure ScrollAnim where
  con : Option ConId := none
  src : ℚ := 0
  dst : ℚ := 0
  animId : ℕ := 0
  deriving DecidableEq, Repr

/-- The heap of containers and the globals. `nextCon` bounds the addresses in use, and `animIds`
counts the animations started. -/
structure Tree where
  con : ConId → Con
  allCons : List ConId
  croot : ConId
  focused : Option ConId
  nextCon : ConId
  scrollAnim : ScrollAnim := {}
  animIds : ℕ := 0
  previousWorkspaceName : Option String := none

namespace Tree

variable (t : Tree) (c d : ConId) (f g : Con → Con)

/-- The tree with the container `c` updated by `f`. -/
def modify : Tree := { t with con := Function.update t.con c (f (t.con c)) }

@[simp] theorem modify_con_self : (t.modify c f).con c = f (t.con c) := Function.update_self ..

@[simp] theorem modify_con_of_ne {c d : ConId} (h : d ≠ c) : (t.modify c f).con d = t.con d :=
  Function.update_of_ne h ..

theorem modify_con : (t.modify c f).con d = if d = c then f (t.con d) else t.con d := by
  by_cases h : d = c
  · subst h; simp
  · simp [h]

@[simp] theorem modify_allCons : (t.modify c f).allCons = t.allCons := rfl
@[simp] theorem modify_croot : (t.modify c f).croot = t.croot := rfl
@[simp] theorem modify_focused : (t.modify c f).focused = t.focused := rfl
@[simp] theorem modify_nextCon : (t.modify c f).nextCon = t.nextCon := rfl
@[simp] theorem modify_scrollAnim : (t.modify c f).scrollAnim = t.scrollAnim := rfl
@[simp] theorem modify_animIds : (t.modify c f).animIds = t.animIds := rfl

/-- The container is in `all_cons`. -/
def Alive : Prop := c ∈ t.allCons

instance : Decidable (t.Alive c) := inferInstanceAs (Decidable (c ∈ t.allCons))

/-- `con_exists`. -/
def conExists : Bool := t.allCons.contains c

/-- The containers from `c` up to the root, at most `n` of them. -/
def chainN : ℕ → ConId → List ConId
  | 0, _ => []
  | n + 1, c => c :: match (t.con c).parent with
    | none => []
    | some p => chainN n p

/-- The containers from `c` up to the root, following the parent pointers. -/
def chain : List ConId := t.chainN t.nextCon c

end Tree

/-- The configuration. `render t c` is the rectangle `tree_render` gives to the container `c` in
the tree `t`, or `none` where it does not visit it: the geometry stays a parameter. -/
structure Config where
  /-- `scrolling_config.default_width`, in percent of the viewport. -/
  defaultWidth : ℤ := 50
  /-- `scrolling_config.duration_ms`. -/
  durationMs : ℤ := 200
  /-- `scrolling_config.center_focus`. -/
  centerFocus : Bool := false
  /-- `an.initialized` of `src/aiwr_anim.c`. -/
  animInitialized : Bool := true
  defaultBorder : BorderStyle := .normal
  defaultOrientation : Orientation := .none
  /-- `config.default_layout`, the `workspace_layout` of a new workspace. -/
  defaultLayout : Layout := .default
  /-- `(int)(config.workspace_urgency_timer * 1000)`. -/
  workspaceUrgencyTimer : ℤ := 500
  render : Tree → ConId → Option Rect := fun _ _ => none

end I3
