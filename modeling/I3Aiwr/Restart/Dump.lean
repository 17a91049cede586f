import I3Aiwr.Configuration.Assignments
import I3Aiwr.Floating.Resize
import I3Aiwr.Tree.Move

/-!
# Dumping the tree

`dump_node` of `src/ipc.c` writes a container and all below it as JSON. Before i3 restarts in place,
`store_restart_layout` dumps the whole tree, which the new process loads.

The tree is here the one that a dump shows: a container with its children, its floating containers, and
the order in which these were focused, by their addresses. The JSON is the sequence of the calls made
to the generator, which are those of the parser's callbacks when it is read again.

## Main definitions

* `Restart.Fields`, `Restart.Node`: containers
* `Restart.Key`, `Restart.Token`: what JSON is made of
* `Restart.dumpNode`: `dump_node`
-/

namespace I3

namespace Restart

open Configuration (Gaps)

/-! ### Containers -/

/-- `_NET_WM_WINDOW_TYPE`. -/
inductive WindowType
  | normal | dock | dialog | utility | toolbar | splash | menu | dropdownMenu | popupMenu | tooltip
  | notification | unknown
  deriving DecidableEq, Repr

/-- The window of a container, with its properties. -/
structure ClientWindow where
  id : ℤ
  name : Option String := none
  windowType : WindowType := .normal
  classClass : Option String := none
  classInstance : Option String := none
  role : Option String := none
  machine : Option String := none
  /-- `none` for `XCB_NONE`. -/
  transientFor : Option ℤ := none
  deriving DecidableEq, Repr

/-- A `Match` of `swallow_head`: the criteria of the window that a container waits for. Regular
expressions are known by their patterns, and `dock` and `insert_where` by the numbers that JSON has;
-1 is `M_DONTCHECK`. -/
structure Swallow where
  dock : ℤ := -1
  insertWhere : ℤ := 0
  id : ℤ := 0
  class_ : Option String := none
  instance_ : Option String := none
  windowRole : Option String := none
  title : Option String := none
  machine : Option String := none
  restartMode : Bool := false
  deriving DecidableEq, Repr

/-- A container, without those it is linked with. The defaults are those of `con_new_skeleton`; `id`
is the address of a container, and the `old_id` of one that is loaded. -/
@[ext]
structure Fields where
  id : ℤ := 0
  type : ConType := .con
  scratchpadState : ScratchpadState := .none
  percent : ℚ := 0
  urgent : Bool := false
  marks : List String := []
  layout : Layout := .default
  workspaceLayout : Layout := .default
  lastSplitLayout : Layout := .default
  borderStyle : BorderStyle := .normal
  maxUserBorderStyle : BorderStyle := .normal
  currentBorderWidth : ℤ := -1
  rect : Rect := {}
  decoRect : Rect := {}
  windowRect : Rect := {}
  geometry : Rect := {}
  name : Option String := none
  titleFormat : Option String := none
  stickyGroup : Option String := none
  windowIconPadding : ℤ := -1
  num : ℤ := 0
  gaps : Gaps := {}
  window : Option ClientWindow := none
  fullscreenMode : FullscreenMode := .none
  sticky : Bool := false
  floating : Floating := .autoOff
  swallows : List Swallow := []
  depth : ℕ
  deriving DecidableEq, Repr

/-- A container with those below it: `nodes_head`, `floating_head`, and `focus_head` by the `id`s. -/
inductive Node
  | mk (con : Fields) (nodes floatingNodes : List Node) (focus : List ℤ)

namespace Node

def con : Node → Fields
  | mk con _ _ _ => con

def nodes : Node → List Node
  | mk _ nodes _ _ => nodes

def floatingNodes : Node → List Node
  | mk _ _ floatingNodes _ => floatingNodes

def focus : Node → List ℤ
  | mk _ _ _ focus => focus

end Node

/-- `con_is_split`. -/
def conIsSplit (con : Fields) (nodes : List Node) : Bool :=
  !nodes.isEmpty && match con.layout with
    | .dockarea | .output | .scrolling => false
    | _ => true

/-- `con_orientation` of a split container whose layout is set. -/
def isHoriz : Layout → Bool
  | .splith | .tabbed | .scrolling => true
  | _ => false

/-- `con_draw_decoration_into_frame`. The border style is the container's own where the layout of its
parent lets the rest of the condition hold. -/
def drawDecorationIntoFrame (parent : Fields) (con : Fields) (nodes : List Node) : Bool :=
  nodes.isEmpty && con.fullscreenMode = .none && parent.type ≠ .dockarea
    && con.borderStyle = .normal && parent.layout ≠ .tabbed && parent.layout ≠ .stacked

/-! ### Texts -/

/-- The keys of a container, and of the maps in it. -/
inductive Key
  | id | type | orientation | scratchpadState | percent | urgent | marks | focused | output | layout
  | workspaceLayout | lastSplitLayout | border | currentBorderWidth | rect | decoRect | actualDecoRect
  | windowRect | geometry | name | titleFormat | windowIconPadding | num | gaps | window | windowType
  | windowProperties | nodes | floatingNodes | focus | fullscreenMode | sticky | floating | swallows
  | depth | previousWorkspaceName | x | y | width | height | inner | outer | top | right | bottom | left
  | class_ | instance_ | windowRole | title | machine | transientFor | dock | insertWhere | restartMode
  | mark | stickyGroup
  deriving DecidableEq, Repr

def Key.text : Key → String
  | id => "id"
  | type => "type"
  | orientation => "orientation"
  | scratchpadState => "scratchpad_state"
  | percent => "percent"
  | urgent => "urgent"
  | marks => "marks"
  | focused => "focused"
  | output => "output"
  | layout => "layout"
  | workspaceLayout => "workspace_layout"
  | lastSplitLayout => "last_split_layout"
  | border => "border"
  | currentBorderWidth => "current_border_width"
  | rect => "rect"
  | decoRect => "deco_rect"
  | actualDecoRect => "actual_deco_rect"
  | windowRect => "window_rect"
  | geometry => "geometry"
  | name => "name"
  | titleFormat => "title_format"
  | windowIconPadding => "window_icon_padding"
  | num => "num"
  | gaps => "gaps"
  | window => "window"
  | windowType => "window_type"
  | windowProperties => "window_properties"
  | nodes => "nodes"
  | floatingNodes => "floating_nodes"
  | focus => "focus"
  | fullscreenMode => "fullscreen_mode"
  | sticky => "sticky"
  | floating => "floating"
  | swallows => "swallows"
  | depth => "depth"
  | previousWorkspaceName => "previous_workspace_name"
  | x => "x"
  | y => "y"
  | width => "width"
  | height => "height"
  | inner => "inner"
  | outer => "outer"
  | top => "top"
  | right => "right"
  | bottom => "bottom"
  | left => "left"
  | class_ => "class"
  | instance_ => "instance"
  | windowRole => "window_role"
  | title => "title"
  | machine => "machine"
  | transientFor => "transient_for"
  | dock => "dock"
  | insertWhere => "insert_where"
  | restartMode => "restart_mode"
  | mark => "mark"
  | stickyGroup => "sticky_group"

def typeText : ConType → String
  | .root => "root"
  | .output => "output"
  | .con => "con"
  | .floatingCon => "floating_con"
  | .workspace => "workspace"
  | .dockarea => "dockarea"

def scratchpadText : ScratchpadState → String
  | .none => "none"
  | .fresh => "fresh"
  | .changed => "changed"

/-- The text of a layout; that of `L_DEFAULT` is one of a `workspace_layout` only. -/
def layoutText : Layout → String
  | .default => "default"
  | .splitv => "splitv"
  | .splith => "splith"
  | .stacked => "stacked"
  | .tabbed => "tabbed"
  | .dockarea => "dockarea"
  | .output => "output"
  | .scrolling => "scrolling"

def borderText : BorderStyle → String
  | .normal => "normal"
  | .none => "none"
  | .pixel => "pixel"

def floatingText : Floating → String
  | .autoOff => "auto_off"
  | .autoOn => "auto_on"
  | .userOff => "user_off"
  | .userOn => "user_on"

def windowTypeText : WindowType → String
  | .normal => "normal"
  | .dock => "dock"
  | .dialog => "dialog"
  | .utility => "utility"
  | .toolbar => "toolbar"
  | .splash => "splash"
  | .menu => "menu"
  | .dropdownMenu => "dropdown_menu"
  | .popupMenu => "popup_menu"
  | .tooltip => "tooltip"
  | .notification => "notification"
  | .unknown => "unknown"

def fullscreenNumber : FullscreenMode → ℤ
  | .none => 0
  | .output => 1
  | .global => 2

/-- The calls of the generator, and of the parser's callbacks. -/
inductive Token
  | startMap
  | endMap
  | startArray
  | endArray
  | key (k : String)
  | string (s : String)
  | integer (n : ℤ)
  | double (q : ℚ)
  | bool (b : Bool)
  | null
  deriving DecidableEq, Repr

/-! ### Dumping -/

/-- What `dump_node` reads besides the tree: the focused container and `previous_workspace_name`. -/
structure Globals where
  focused : ℤ
  previousWorkspaceName : Option String := none
  deriving DecidableEq, Repr

def Key.with (k : Key) (value : Token) : List Token := [.key k.text, value]

/-- A key is written only where there is a value. -/
def Key.withSome (k : Key) : Option String → List Token
  | none => []
  | some s => k.with (.string s)

/-- A string, or `null`. -/
def stringOrNull : Option String → Token
  | none => .null
  | some s => .string s

/-- `dump_rect`. -/
def dumpRect (k : Key) (r : Rect) : List Token :=
  [.key k.text, .startMap] ++ Key.x.with (.integer r.x) ++ Key.y.with (.integer r.y)
    ++ Key.width.with (.integer r.width) ++ Key.height.with (.integer r.height) ++ [.endMap]

/-- `dump_gaps`; `outer` is there for compatibility. -/
def dumpGaps (k : Key) (g : Gaps) : List Token :=
  [.key k.text, .startMap] ++ Key.inner.with (.integer g.inner) ++ Key.outer.with (.integer g.top)
    ++ Key.top.with (.integer g.top) ++ Key.right.with (.integer g.right)
    ++ Key.bottom.with (.integer g.bottom) ++ Key.left.with (.integer g.left) ++ [.endMap]

/-- The rectangles of the decoration: of one that is drawn into the frame, first where it would be
otherwise. -/
def dumpDecoRect (parent con : Fields) (nodes : List Node) : List Token :=
  if drawDecorationIntoFrame parent con nodes then
    let simulatedDecoRect : Rect :=
      { con.decoRect with x := con.rect.x - parent.rect.x, y := con.rect.y - parent.rect.y }
    dumpRect .decoRect simulatedDecoRect ++ dumpRect .actualDecoRect con.decoRect
  else dumpRect .decoRect con.decoRect

/-- The properties of the window, which a restart queries again. -/
def dumpProperties (w : ClientWindow) : List Token :=
  [.key Key.windowProperties.text, .startMap] ++ Key.class_.withSome w.classClass
    ++ Key.instance_.withSome w.classInstance ++ Key.windowRole.withSome w.role
    ++ Key.machine.withSome w.machine ++ Key.title.withSome w.name
    ++ Key.transientFor.with (match w.transientFor with
      | none => .null
      | some id => .integer id)
    ++ [.endMap]

/-- What is dumped of the window. -/
def dumpWindow (inplaceRestart : Bool) : Option ClientWindow → List Token
  | none => Key.window.with .null ++ Key.windowType.with .null
  | some w =>
    Key.window.with (.integer w.id) ++ Key.windowType.with (.string (windowTypeText w.windowType))
      ++ if inplaceRestart then [] else dumpProperties w

/-- The name of the window, or else of the container. -/
def Fields.dumpedName (con : Fields) : Option String :=
  match con.window.bind ClientWindow.name with
  | some name => some name
  | none => con.name

/-- The `last_split_layout` that is dumped goes by the layout. -/
def splitText : Layout → String
  | .splitv => "splitv"
  | _ => "splith"

/-- What is dumped up to `focused`. -/
def dumpFirst (con : Fields) (nodes : List Node) (g : Globals) : List Token :=
  Key.id.with (.integer con.id) ++ Key.type.with (.string (typeText con.type))
    ++ Key.orientation.with (.string (if ¬ conIsSplit con nodes then "none"
      else if isHoriz con.layout then "horizontal" else "vertical"))
    ++ Key.scratchpadState.with (.string (scratchpadText con.scratchpadState))
    ++ Key.percent.with (if con.percent = 0 then .null else .double con.percent)
    ++ Key.urgent.with (.bool con.urgent)
    ++ [.key Key.marks.text, .startArray] ++ con.marks.map .string ++ [.endArray]
    ++ Key.focused.with (.bool (con.id = g.focused))

/-- What is dumped from there to the children. -/
def dumpLayout (inplaceRestart : Bool) (output : String) (parent con : Fields) (nodes : List Node) :
    List Token :=
  (if con.type ≠ .root ∧ con.type ≠ .output then Key.output.with (.string output) else [])
    ++ Key.layout.with (.string (layoutText con.layout))
    ++ Key.workspaceLayout.with (.string (layoutText con.workspaceLayout))
    ++ Key.lastSplitLayout.with (.string (splitText con.layout))
    ++ Key.border.with (.string (borderText con.borderStyle))
    ++ Key.currentBorderWidth.with (.integer con.currentBorderWidth)
    ++ dumpRect .rect con.rect ++ dumpDecoRect parent con nodes ++ dumpRect .windowRect con.windowRect
    ++ dumpRect .geometry con.geometry ++ Key.name.with (stringOrNull con.dumpedName)
    ++ Key.titleFormat.withSome con.titleFormat
    ++ Key.windowIconPadding.with (.integer con.windowIconPadding)
    ++ (if con.type = .workspace then Key.num.with (.integer con.num) ++ dumpGaps .gaps con.gaps
      else [])
    ++ dumpWindow inplaceRestart con.window

/-- One of the criteria a container waits for. -/
def dumpSwallow (s : Swallow) : List Token :=
  [.startMap]
    ++ (if s.dock ≠ -1 then
      Key.dock.with (.integer s.dock) ++ Key.insertWhere.with (.integer s.insertWhere) else [])
    ++ Key.class_.withSome s.class_ ++ Key.instance_.withSome s.instance_
    ++ Key.windowRole.withSome s.windowRole ++ Key.title.withSome s.title
    ++ Key.machine.withSome s.machine ++ [.endMap]

/-- The criteria that a restart adds: the window itself. -/
def dumpRestartSwallow (w : ClientWindow) : List Token :=
  [.startMap] ++ Key.id.with (.integer w.id) ++ Key.restartMode.with (.bool true) ++ [.endMap]

/-- What is dumped after the children. -/
def dumpLast (inplaceRestart : Bool) (g : Globals) (con : Fields) (focus : List ℤ) : List Token :=
  [.key Key.focus.text, .startArray] ++ focus.map .integer ++ [.endArray]
    ++ Key.fullscreenMode.with (.integer (fullscreenNumber con.fullscreenMode))
    ++ Key.sticky.with (.bool con.sticky) ++ Key.floating.with (.string (floatingText con.floating))
    ++ [.key Key.swallows.text, .startArray]
    ++ (con.swallows.filter fun s => !s.restartMode).flatMap dumpSwallow
    ++ (if inplaceRestart then con.window.toList.flatMap dumpRestartSwallow else []) ++ [.endArray]
    ++ (if inplaceRestart ∧ con.window ≠ none then Key.depth.with (.integer con.depth) else [])
    ++ (if inplaceRestart ∧ con.type = .root then
      Key.previousWorkspaceName.withSome g.previousWorkspaceName else [])

mutual

/-- `dump_node`, below `parent` on the output called `output`. -/
def dumpNode (inplaceRestart : Bool) (g : Globals) (output : String) (parent : Fields) :
    Node → List Token
  | .mk con nodes floatingNodes focus =>
    let output := if con.type = .output then con.name.getD "" else output
    [.startMap] ++ dumpFirst con nodes g ++ dumpLayout inplaceRestart output parent con nodes
      ++ [.key Key.nodes.text, .startArray]
      ++ (if con.type ≠ .dockarea ∨ ¬ inplaceRestart then dumpNodes inplaceRestart g output con nodes
        else [])
      ++ [.endArray, .key Key.floatingNodes.text, .startArray]
      ++ dumpNodes inplaceRestart g output con floatingNodes ++ [.endArray]
      ++ dumpLast inplaceRestart g con focus ++ [.endMap]

/-- The containers of a queue. -/
def dumpNodes (inplaceRestart : Bool) (g : Globals) (output : String) (parent : Fields) :
    List Node → List Token
  | [] => []
  | n :: ns => dumpNode inplaceRestart g output parent n
      ++ dumpNodes inplaceRestart g output parent ns

end

end Restart

end I3
