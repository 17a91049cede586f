import I3Aiwr.Restart.Dump

/-!
# Loading a layout

The callbacks of the JSON parser in `src/load_layout.c`, which `tree_append_json` runs over a layout:
each map that is not a part of a container is a container, made below the one that is read and attached
when its map ends. `json_node` and the containers above it are a list of open containers.

Not modelled: what a dump has no part in, namely a container that floats outside a floating container,
which `floating_enable` then puts into one, a child of a `dockarea`, whose window is read before
there is one, and values of another type than the key asks for. The loader has no result there. Of
a container that was left with its parent still open, nothing is kept.

## Main definitions

* `Restart.Loader`: the state of the loader
* `Restart.Loader.step`, `Restart.Loader.run`: the callbacks
* `Restart.treeRestore`: `tree_restore`
-/

namespace I3

namespace Restart

/-! ### The texts of keys and values -/

/-- All keys. -/
def Key.all : List Key :=
  [id, type, orientation, scratchpadState, percent, urgent, marks, focused, output, layout,
    workspaceLayout, lastSplitLayout, border, currentBorderWidth, rect, decoRect, actualDecoRect,
    windowRect, geometry, name, titleFormat, windowIconPadding, num, gaps, window, windowType,
    windowProperties, nodes, floatingNodes, focus, fullscreenMode, sticky, floating, swallows, depth,
    previousWorkspaceName, x, y, width, height, inner, outer, top, right, bottom, left, class_, instance_,
    windowRole, title, machine, transientFor, dock, insertWhere, restartMode, mark, stickyGroup]

/-- The key that `last_key` is, by `strcasecmp`; `none` for any other. -/
def Key.ofText (s : String) : Option Key := Key.all.find? fun k => sameName s k.text

/-- The value that a text stands for, by `strcasecmp`. -/
def ofText {α : Type*} (values : List α) (text : α → String) (s : String) : Option α :=
  values.find? fun v => sameName s (text v)

def typeOfText : String → Option ConType :=
  ofText [.root, .output, .con, .floatingCon, .workspace, .dockarea] typeText

def scratchpadOfText : String → Option ScratchpadState :=
  ofText [.none, .fresh, .changed] scratchpadText

/-- The texts of `layout` besides `default`, which is the `last_split_layout`. -/
def layoutOfText : String → Option Layout :=
  ofText [.stacked, .tabbed, .scrolling, .dockarea, .output, .splith, .splitv] layoutText

def workspaceLayoutOfText : String → Option Layout :=
  ofText [.default, .stacked, .tabbed, .scrolling] layoutText

def splitOfText : String → Option Layout := ofText [.splith, .splitv] layoutText

/-- The texts of `border`, with the width that the deprecated `1pixel` sets. -/
def borderOfText : String → Option BorderStyle := ofText [.none, .pixel, .normal] borderText

def floatingOfText : String → Option Floating :=
  ofText [.autoOff, .autoOn, .userOff, .userOn] floatingText

def fullscreenOfNumber (n : ℤ) : Option FullscreenMode :=
  [FullscreenMode.none, .output, .global].find? fun m => fullscreenNumber m = n

/-- The types by their numbers, for layouts of old versions. -/
def typeOfNumber (n : ℤ) : Option ConType :=
  [ConType.root, .output, .con, .floatingCon, .workspace, .dockarea][n.toNat]?

/-- An `int` that a number is stored in. -/
def int32 (n : ℤ) : ℤ := n.bmod (2 ^ 32)

/-! ### The state -/

/-- What the loader depends on: the limits of floating windows, what the border of a floating
container's focused window takes, the depth of the root window and the default border, which patterns
are regular expressions, and the names of the workspaces there are. -/
structure Env where
  limits : SizeLimits
  /-- What `con_border_style_rect` takes of the width and of the height. -/
  border : Node → ℕ × ℕ := fun _ => (0, 0)
  rootDepth : ℕ := 24
  defaultBorder : BorderStyle := .normal
  compiles : String → Bool := fun _ => true
  workspaces : List String := []

/-- `con_new_skeleton`. -/
def Env.skeleton (env : Env) : Fields :=
  { depth := env.rootDepth, borderStyle := env.defaultBorder,
    maxUserBorderStyle := env.defaultBorder }

/-- The flags `parsing_*`. -/
structure Parsing where
  gaps : Bool := false
  swallows : Bool := false
  rect : Bool := false
  actualDecoRect : Bool := false
  decoRect : Bool := false
  windowRect : Bool := false
  geometry : Bool := false
  focus : Bool := false
  marks : Bool := false
  deriving DecidableEq, Repr

/-- The map is one in a container. -/
def Parsing.inMap (p : Parsing) : Bool :=
  p.rect || p.actualDecoRect || p.decoRect || p.windowRect || p.geometry || p.gaps

/-- The state of the loader. A mark that is to be set has the number of containers above the one it is
for, which are still open then. -/
structure Loader where
  /-- `json_node`. -/
  node : Node
  /-- The containers above it, the innermost first. -/
  parents : List Node := []
  lastKey : Option Key := none
  parsing : Parsing := {}
  swallowIsEmpty : Bool := false
  marks : List (ℕ × String) := []
  focusMappings : List ℤ := []
  /-- The `old_id` of `to_focus`. -/
  toFocus : Option ℤ := none
  previousWorkspaceName : Option String := none
  incomplete : ℕ := 0

/-! ### Containers -/

namespace Node

def setCon (f : Fields → Fields) : Node → Node
  | mk con nodes floatingNodes focus => mk (f con) nodes floatingNodes focus

def setFocus (f : List ℤ → List ℤ) : Node → Node
  | mk con nodes floatingNodes focus => mk con nodes floatingNodes (f focus)

def setNodes (f : List Node → List Node) : Node → Node
  | mk con nodes floatingNodes focus => mk con (f nodes) floatingNodes focus

mutual

/-- `con_unmark` of a mark, for a container and all below it. -/
def unmark (mark : String) : Node → Node
  | mk con nodes floatingNodes focus =>
    mk { con with marks := con.marks.erase mark } (unmarkAll mark nodes) (unmarkAll mark floatingNodes)
      focus

def unmarkAll (mark : String) : List Node → List Node
  | [] => []
  | n :: ns => unmark mark n :: unmarkAll mark ns

end

end Node

/-- The workspaces are sorted by their numbers, those with -1 last; other containers come last. -/
def insertNode (nodes : List Node) (n : Node) : List Node :=
  if n.con.type ≠ .workspace ∨ n.con.num = -1 then nodes ++ [n]
  else
    nodes.takeWhile (fun m => m.con.num ≠ -1 ∧ m.con.num ≤ n.con.num) ++ n
      :: nodes.dropWhile fun m => m.con.num ≠ -1 ∧ m.con.num ≤ n.con.num

/-- `con_attach` of a container that is loaded, which has no window yet. -/
def conAttach (n parent : Node) : Node :=
  match parent with
  | .mk con nodes floatingNodes focus =>
    if n.con.type = .floatingCon then .mk con nodes (floatingNodes ++ [n]) (focus ++ [n.con.id])
    else .mk con (insertNode nodes n) floatingNodes (focus ++ [n.con.id])

/-- The shares that `con_fix_percent` gives where some containers have none: what is distributed
grows with each. -/
def fillPercents (withPercent : ℕ) : List ℚ → ℚ → List ℚ
  | [], _ => []
  | p :: ps, total =>
    if p ≤ 0 then
      let share := if withPercent = 0 then 1 else total / withPercent
      share :: fillPercents withPercent ps (total + share)
    else p :: fillPercents withPercent ps total

/-- `con_fix_percent`, as it changes the shares. -/
def fixPercents (ps : List ℚ) : List ℚ :=
  let withPercent := ps.filter fun p => 0 < p
  let filled := fillPercents withPercent.length ps withPercent.sum
  if filled.sum = 0 then filled.map fun _ => 1 / (ps.length : ℚ)
  else if filled.sum ≠ 1 then filled.map fun p => p / filled.sum
  else filled

def conFixPercent (nodes : List Node) : List Node :=
  nodes.zipWith (fun n p => n.setCon fun con => { con with percent := p })
    (fixPercents (nodes.map fun n => n.con.percent))

/-- The container and the containers above it from the workspace on: `con_get_workspace`. -/
def fromWorkspace : List Node → Option (List Node)
  | [] => none
  | n :: ns => if n.con.type = .workspace then some (n :: ns) else fromWorkspace ns

/-- A name that no workspace has yet. -/
def uniqueName (taken : List String) (base : String) : ℕ → ℕ → String → String
  | 0, _, name => name
  | fuel + 1, cnt, name =>
    if taken.any fun other => sameName other name then
      uniqueName taken base fuel (cnt + 1) (base ++ "_" ++ toString cnt)
    else name

/-- The rectangle of a floating container without one, from the sizes that its children ask for. -/
def combinedRect (rect : Rect) (nodes : List Node) : Rect :=
  nodes.foldl (fun r child =>
    { r with
      width := u32 (r.width + child.con.geometry.width)
      height := max r.height child.con.geometry.height }) rect

/-- `floating_check_size` of a container that is loaded. -/
def checkSize (env : Env) (n : Node) : Rect :=
  let border := env.border n
  let c := floatingCheckSize env.limits
    { width := n.con.rect.width, height := n.con.rect.height, borderWidth := border.1,
      borderHeight := border.2, window := none } false
  { n.con.rect with width := c.width, height := c.height }

/-- The last of the criteria of a container, `current_swallow`. -/
def modifySwallow (f : Swallow → Swallow) (con : Fields) : Fields :=
  { con with swallows := con.swallows.dropLast ++ (con.swallows.getLast?.map f).toList }

/-- A place of the focus stack becomes its first. -/
def moveToFront (id : ℤ) (focus : List ℤ) : List ℤ :=
  if id ∈ focus then id :: focus.erase id else focus

/-! ### The callbacks -/

namespace Loader

def setCon (L : Loader) (f : Fields → Fields) : Loader := { L with node := L.node.setCon f }

/-- `json_start_map`. -/
def jsonStartMap (env : Env) (L : Loader) : Option Loader :=
  if L.parsing.swallows then
    some { L.setCon fun con => { con with swallows := con.swallows ++ [{}] } with
      swallowIsEmpty := true }
  else if L.parsing.inMap then some L
  else
    let opened (parents : List Node) : Loader :=
      { L with node := .mk env.skeleton [] [] [], parents, incomplete := L.incomplete + 1 }
    if L.lastKey = some .floatingNodes then (fromWorkspace (L.node :: L.parents)).map opened
    else some (opened (L.node :: L.parents))

/-- A container with those `above` it when the mark is set for the one with `depth` above it: no
other keeps it. -/
def markNode (depth : ℕ) (mark : String) (n : Node) (above : List Node) : Node :=
  if above.length = depth then
    (n.unmark mark).setCon fun con => { con with marks := con.marks ++ [mark] }
  else n.unmark mark

def markNodes (depth : ℕ) (mark : String) : List Node → List Node
  | [] => []
  | n :: above => markNode depth mark n above :: markNodes depth mark above

/-- `con_mark` with `MM_ADD`, for the container with `depth` containers above it. -/
def conMark (L : Loader) (depth : ℕ) (mark : String) : Loader :=
  { L with
    node := markNode depth mark L.node L.parents
    parents := markNodes depth mark L.parents }

/-- The default for layouts that are written by hand. -/
def completeLayout (con : Fields) : Fields :=
  if con.layout = .default then { con with layout := .splith } else con

/-- A split container waits for no window. -/
def completeSwallows (con : Fields) (nodes : List Node) : Fields :=
  if conIsSplit con nodes then { con with swallows := [] } else con

/-- The name of a workspace. -/
def baseName : Option String → String
  | none => "unnamed"
  | some name => if name = "" then "unnamed" else name

/-- A workspace gets a name that no other has, and its number from it. -/
def completeWorkspace (taken : List String) (con : Fields) : Fields :=
  if con.type = .workspace then
    let base := baseName con.name
    let name := uniqueName taken base (taken.length + 1) 1 base
    { con with
      name := some name
      num := (Configuration.wsNameToNumber name.toList).getD (-1) }
  else con

/-- What `json_end_map` does to the fields of a container, before it is attached. -/
def completeFields (taken : List String) (con : Fields) (nodes : List Node) : Fields :=
  completeWorkspace taken (completeSwallows (completeLayout con) nodes)

/-- The rectangle of a floating container. -/
def completeRect (env : Env) (n : Node) : Node :=
  if n.con.type = .floatingCon then
    let n := if n.con.rect = {} then
      n.setCon fun con => { con with rect := combinedRect con.rect n.nodes } else n
    n.setCon fun con => { con with rect := checkSize env n }
  else n

/-- The names of the workspaces: those there were, and those attached where the layout is loaded. -/
def taken (env : Env) (L : Loader) : List String :=
  env.workspaces ++ ((L.parents.getLast?.map Node.nodes).getD []).filterMap fun n =>
    if n.con.type = .workspace then n.con.name else none

/-- The container that is complete, as `n`, is attached to its parent, that of a floating container
being the workspace. -/
def attach (L : Loader) (n : Node) : Option Loader :=
  match if n.con.type = .floatingCon then fromWorkspace L.parents else some L.parents with
  | none | some [] => none
  | some (parent :: above) =>
    if parent.con.type = .dockarea ∨ (n.con.floating.isOn ∧ parent.con.type ≠ .floatingCon) then none
    else
      some { L with
        node := conAttach n parent, parents := above, incomplete := L.incomplete - 1 }

/-- The marks that were read are set, for the containers they were read in. -/
def setMarks (L : Loader) : Loader :=
  L.marks.foldl (fun L m => L.conMark m.1 m.2) { L with marks := [] }

/-- A container is complete: `json_end_map`. -/
def complete (env : Env) (L : Loader) : Option Loader :=
  let L := L.setMarks
  L.attach (completeRect env (L.node.setCon fun con =>
    completeFields (L.taken env) con L.node.nodes))

/-- `json_end_map`; `none` also where the callback stops the parser. -/
def jsonEndMap (env : Env) (L : Loader) : Option Loader := do
  let L ← if ¬ L.parsing.swallows ∧ ¬ L.parsing.inMap then L.complete env else some L
  if L.parsing.swallows ∧ L.swallowIsEmpty then none
  else
    some { L with
      parsing :=
        { L.parsing with
          gaps := false, rect := false, actualDecoRect := false, decoRect := false,
          windowRect := false, geometry := false } }

/-- `json_end_array`. -/
def jsonEndArray (L : Loader) : Loader :=
  let L := if ¬ L.parsing.swallows ∧ ¬ L.parsing.focus ∧ ¬ L.parsing.marks then
    { L with node := L.node.setNodes conFixPercent } else L
  let L := { L with parsing := { L.parsing with swallows := false, marks := false } }
  if L.parsing.focus then
    { L with
      node := L.node.setFocus fun focus => L.focusMappings.foldr moveToFront focus
      focusMappings := []
      parsing := { L.parsing with focus := false } }
  else L

/-- `json_key`. -/
def jsonKey (L : Loader) (s : String) : Loader :=
  let L := { L with lastKey := Key.ofText s }
  match L.lastKey with
  | some .swallows => { L with parsing := { L.parsing with swallows := true } }
  | some .gaps => { L with parsing := { L.parsing with gaps := true } }
  | some .rect => { L with parsing := { L.parsing with rect := true } }
  | some .actualDecoRect => { L with parsing := { L.parsing with actualDecoRect := true } }
  | some .decoRect => { L with parsing := { L.parsing with decoRect := true } }
  | some .windowRect => { L with parsing := { L.parsing with windowRect := true } }
  | some .geometry => { L with parsing := { L.parsing with geometry := true } }
  | some .focus => { L with parsing := { L.parsing with focus := true } }
  | some .marks => { L with parsing := { L.parsing with marks := true }, marks := [] }
  | _ => L

/-- A regular expression of a criterion. -/
def regex (env : Env) (s : String) : Option String := if env.compiles s then some s else none

/-- `json_string` in the criteria. -/
def swallowString (env : Env) (s : String) (L : Loader) : Loader :=
  let set (f : Swallow → Swallow) : Loader :=
    { L.setCon (modifySwallow f) with swallowIsEmpty := false }
  match L.lastKey with
  | some .class_ => set fun w => { w with class_ := regex env s }
  | some .instance_ => set fun w => { w with instance_ := regex env s }
  | some .windowRole => set fun w => { w with windowRole := regex env s }
  | some .title => set fun w => { w with title := regex env s }
  | some .machine => set fun w => { w with machine := regex env s }
  | _ => L

/-- `json_string` of a container: what it sets. -/
def fieldString (lastKey : Option Key) (s : String) (con : Fields) : Fields :=
  match lastKey with
  | some .name => { con with name := some s }
  | some .titleFormat => { con with titleFormat := some s }
  | some .stickyGroup => { con with stickyGroup := some s }
  | some .orientation =>
    if sameName s "none" ∨ sameName s "horizontal" then { con with lastSplitLayout := .splith }
    else if sameName s "vertical" then { con with lastSplitLayout := .splitv }
    else con
  | some .border =>
    if sameName s "1pixel" then
      { con with borderStyle := .pixel, maxUserBorderStyle := .pixel, currentBorderWidth := 1 }
    else
      match borderOfText s with
      | some b => { con with borderStyle := b, maxUserBorderStyle := b }
      | none => con
  | some .type => { con with type := (typeOfText s).getD con.type }
  | some .layout =>
    if sameName s "default" then { con with layout := con.lastSplitLayout }
    else { con with layout := (layoutOfText s).getD con.layout }
  | some .workspaceLayout =>
    { con with workspaceLayout := (workspaceLayoutOfText s).getD con.workspaceLayout }
  | some .lastSplitLayout => { con with lastSplitLayout := (splitOfText s).getD con.lastSplitLayout }
  | some .floating => { con with floating := (floatingOfText s).getD con.floating }
  | some .scratchpadState =>
    { con with scratchpadState := (scratchpadOfText s).getD con.scratchpadState }
  | _ => con

/-- `json_string`. The deprecated key `mark` replaces the marks of the container. -/
def jsonString (env : Env) (s : String) (L : Loader) : Loader :=
  if L.parsing.swallows then L.swallowString env s
  else if L.parsing.marks then { L with marks := L.marks ++ [(L.parents.length, s)] }
  else
    match L.lastKey with
    | some .mark =>
      (L.setCon fun con => { con with marks := [] }).conMark L.parents.length s
    | some .previousWorkspaceName => { L with previousWorkspaceName := some s }
    | k => L.setCon (fieldString k s)

/-- A number in a rectangle. -/
def rectInt (lastKey : Option Key) (n : ℤ) (r : Rect) : Rect :=
  match lastKey with
  | some .x => { r with x := int32 n }
  | some .y => { r with y := int32 n }
  | some .width => { r with width := u32 n }
  | some .height => { r with height := u32 n }
  | _ => r

/-- A number in the gaps. -/
def gapsInt (lastKey : Option Key) (n : ℤ) (g : Configuration.Gaps) : Configuration.Gaps :=
  match lastKey with
  | some .inner => { g with inner := int32 n }
  | some .top => { g with top := int32 n }
  | some .right => { g with right := int32 n }
  | some .bottom => { g with bottom := int32 n }
  | some .left => { g with left := int32 n }
  | _ => g

/-- A number of a container: what it sets. -/
def fieldInt (parsing : Parsing) (lastKey : Option Key) (n : ℤ) (con : Fields) : Fields :=
  match lastKey with
  | some .type => { con with type := (typeOfNumber n).getD con.type }
  | some .fullscreenMode =>
    { con with fullscreenMode := (fullscreenOfNumber n).getD con.fullscreenMode }
  | some .num => { con with num := int32 n }
  | some .currentBorderWidth => { con with currentBorderWidth := int32 n }
  | some .windowIconPadding => { con with windowIconPadding := int32 n }
  | some .depth => { con with depth := n.toNat % 2 ^ 16 }
  | some .id => if parsing.swallows then con else { con with id := int32 n }
  | _ => con

/-- A number in one of the maps of a container. -/
def mapInt (parsing : Parsing) (lastKey : Option Key) (n : ℤ) (con : Fields) : Fields :=
  let con :=
    if parsing.rect then { con with rect := rectInt lastKey n con.rect }
    else if parsing.windowRect then { con with windowRect := rectInt lastKey n con.windowRect }
    else if parsing.geometry then { con with geometry := rectInt lastKey n con.geometry }
    else con
  if parsing.gaps then { con with gaps := gapsInt lastKey n con.gaps } else con

/-- A number in the criteria. -/
def swallowInt (n : ℤ) (L : Loader) : Loader :=
  let set (f : Swallow → Swallow) : Loader :=
    { L.setCon (modifySwallow f) with swallowIsEmpty := false }
  match L.lastKey with
  | some .id => set fun w => { w with id := n }
  | some .dock => set fun w => { w with dock := n }
  | some .insertWhere => set fun w => { w with insertWhere := n }
  | _ => L

/-- `json_int`. -/
def jsonInt (n : ℤ) (L : Loader) : Loader :=
  let L := L.setCon fun con => mapInt L.parsing L.lastKey n (fieldInt L.parsing L.lastKey n con)
  let L := if L.parsing.focus then { L with focusMappings := L.focusMappings ++ [int32 n] } else L
  if L.parsing.swallows then L.swallowInt n else L

/-- `json_bool`. -/
def jsonBool (b : Bool) (L : Loader) : Loader :=
  let L := if L.lastKey = some .focused ∧ b then { L with toFocus := some L.node.con.id } else L
  let L := if L.lastKey = some .sticky then L.setCon fun con => { con with sticky := b } else L
  if L.parsing.swallows ∧ L.lastKey = some .restartMode then
    { L.setCon (modifySwallow fun w => { w with restartMode := b }) with swallowIsEmpty := false }
  else L

/-- `json_double`. -/
def jsonDouble (q : ℚ) (L : Loader) : Loader :=
  if L.lastKey = some .percent then L.setCon fun con => { con with percent := q } else L

/-- One callback. There is none for `null` and for the start of an array. -/
def step (env : Env) (L : Loader) : Token → Option Loader
  | .startMap => L.jsonStartMap env
  | .endMap => L.jsonEndMap env
  | .startArray => some L
  | .endArray => some L.jsonEndArray
  | .key s => some (L.jsonKey s)
  | .string s => some (L.jsonString env s)
  | .integer n => some (L.jsonInt n)
  | .double q => some (L.jsonDouble q)
  | .bool b => some (L.jsonBool b)
  | .null => some L

/-- The callbacks of a text. -/
def run (env : Env) (L : Loader) (ts : List Token) : Option Loader := ts.foldlM (step env) L

end Loader

/-- `tree_append_json` for a text that is read to its end, up to the focus. -/
def treeAppendJson (env : Env) (con : Node) (ts : List Token) : Option Loader :=
  (Loader.run env { node := con } ts).map fun L => { L with node := L.node.setNodes conFixPercent }

/-- What a restart begins with: the root, `to_focus` and `previous_workspace_name`. -/
structure Restored where
  croot : Node
  toFocus : Option ℤ
  previousWorkspaceName : Option String

/-- `tree_restore`, up to the windows of the placeholders: the layout is appended to a container made
for it, and the root is the first that it has then. -/
def treeRestore (env : Env) (ts : List Token) : Option Restored := do
  let L ← treeAppendJson env (.mk env.skeleton [] [] []) ts
  let croot ← L.node.nodes.head?
  some ⟨croot, L.toFocus, L.previousWorkspaceName⟩

end Restart

end I3
