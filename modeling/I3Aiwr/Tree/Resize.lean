import I3Aiwr.Tree.Move

/-!
# Resizing

How tiling containers are resized: `src/resize.c`, the `resize` commands of `src/commands.c`, the part of
`src/scrolling.c` for the widths of columns, and the search in `src/click.c` for the containers on both
sides of a border that is dragged. A size is a percentage of the parent's, and in a split what one
container gets another one gives up; the columns of a scrolling container have percentages of their own.
Doubles are rationals. Where the parent has no size yet the quotients of the source are infinite and
nothing is resized; here they are 0.

## Main definitions

* `Tree.resizeParticipants`: the search for two containers to resize
* `Tree.widthHeight`, `Tree.resizeNeighboring`: the resizing of splits
* `Tree.scrollingResizeHandled`, `Tree.scrollingCycleWidth`: the widths of columns
* `Tree.resizeGraphical`: a drag, from its first motion to its end
* `Tree.cmdResize`, `Tree.cmdResizeSet`, `Tree.resizeForBorder`
-/

namespace I3

inductive ResizeWay
  | grow | shrink
  deriving DecidableEq, Repr

/-- The word of `resize grow` and `resize shrink`. -/
inductive ResizeWord
  | width | height | left | right | up | down
  deriving DecidableEq, Repr

/-- The directions in which a split is searched for. -/
def ResizeWord.direction : ResizeWord → Direction
  | .width | .left => .left
  | .right => .right
  | .up => .up
  | .height | .down => .down

inductive Border
  | left | right | top | bottom
  deriving DecidableEq, Repr

def Border.direction : Border → Direction
  | .left => .left
  | .right => .right
  | .top => .up
  | .bottom => .down

def Direction.opposite : Direction → Direction
  | .left => .right
  | .right => .left
  | .up => .down
  | .down => .up

/-- `dir_backwards` -/
def Direction.backwards (d : Direction) : Bool := d = .left || d = .up

/-- `(int)z` of a `long`. -/
def toInt (z : ℤ) : ℤ := z.bmod (2 ^ 32)

/-- A rectangle along an axis. -/
def Rect.start (r : Rect) (o : Orientation) : ℤ := if o = .horiz then r.x else r.y

def Rect.extent (r : Rect) (o : Orientation) : ℕ := if o = .horiz then r.width else r.height

/-- What resizing depends on besides the tree. -/
structure ResizeConfig where
  /-- `live_resize_config.enabled` -/
  live : Bool := true
  /-- `deco_rect.height` -/
  decoHeight : ConId → ℕ := fun _ => 0
  /-- The rectangle that a floating container gets, if it is resized. -/
  floatingRect : Tree → ConId → Option Rect := fun _ _ => none

/-- The pointer moves; `due` where the limit on the rate lets the new position be applied. -/
structure Motion where
  position : ℤ
  due : Bool := true
  deriving DecidableEq, Repr

/-- A drag by the user, who may cancel it. -/
structure Drag where
  root : ℤ
  threshold : Bool := false
  motions : List Motion
  revert : Bool := false
  deriving DecidableEq, Repr

namespace Tree

variable (cfg : Config) (rc : ResizeConfig) (t : Tree)

/-! ### Percentages -/

/-- New percentages for some containers, from the old ones. -/
def mapPercents (nodes : List ConId) (f : ConId → ℚ → ℚ) : Tree :=
  nodes.foldl (fun t child => t.setPercent child (f child (t.con child).percent)) t

/-- `con_rect_size_in_orientation` -/
def rectSizeInOrientation (c : ConId) : ℕ :=
  if t.orientation c = some .horiz then (t.con c).rect.width else (t.con c).rect.height

/-- `percent_for_1px` -/
def percentFor1px (c : ConId) : ℚ :=
  match (t.con c).parent with
  | none => 0
  | some parent =>
    (if t.orientation parent = some .horiz then 1 else 1 + rc.decoHeight c : ℕ) /
      t.rectSizeInOrientation parent

/-- A change in percent, or in pixels of the parent's size. -/
def changeOf (parent : ConId) (px : ℤ) (ppt : ℚ) : ℚ :=
  if ppt ≠ 0 then ppt else px / t.rectSizeInOrientation parent

/-! ### Splits -/

/-- The counterpart of a container, on the other side if there is none in the direction. -/
def counterpart (parent c : ConId) (direction : Direction) (bothSides : Bool) : Option ConId :=
  match t.siblingTowards parent c direction with
  | some second => some second
  | none => if bothSides then t.siblingTowards parent c direction.opposite else none

/-- The loop of `resize_find_tiling_participants`. -/
def resizeParticipantsN (direction : Direction) (bothSides : Bool) : ℕ → ConId → ConId × Option ConId
  | 0, first => (first, none)
  | n + 1, first =>
    if (t.con first).type = .workspace ∨ (t.con first).type = .floatingCon then (first, none)
    else match (t.con first).parent with
      | none => (first, none)
      | some parent =>
        if t.orientation parent ≠ some direction.orientation ∨ (t.con parent).layout = .stacked ∨
            (t.con parent).layout = .tabbed then resizeParticipantsN direction bothSides n parent
        else match t.counterpart parent first direction bothSides with
          | some second => (first, some second)
          | none => resizeParticipantsN direction bothSides n parent

/-- `resize_find_tiling_participants`: the two containers, or where the search ended. -/
def resizeParticipants (current : ConId) (direction : Direction) (bothSides : Bool) :
    ConId × Option ConId :=
  t.resizeParticipantsN direction bothSides t.nextCon current

/-- `resize_neighboring_cons`; `none` where a container would have less than a pixel. -/
def resizeNeighboring (first second : ConId) (px ppt : ℤ) : Option Tree :=
  match (t.con first).parent with
  | none => none
  | some parent =>
    let pct := t.changeOf parent px (ppt / 100)
    let newFirst := (t.con first).percent + pct
    let newSecond := (t.con second).percent - pct
    if newFirst < t.percentFor1px rc first ∨ newSecond < t.percentFor1px rc second then none
    else some (((t.setPercent first newFirst).setPercent second newSecond).conFixPercent parent)

/-- What all but one of `n` containers give up. -/
def subtractPercent (n : ℕ) (ppt : ℚ) : ℚ := ppt / (n - 1)

/-- With so much more for `current` it, or one of the others, would have less than a pixel. -/
def noRoom (nodes : List ConId) (current : ConId) (ppt : ℚ) : Prop :=
  (ppt < 0 ∧ (t.con current).percent + ppt < t.percentFor1px rc current) ∨
    (0 ≤ subtractPercent nodes.length ppt ∧ ∃ child ∈ nodes, child ≠ current ∧
      (t.con child).percent - subtractPercent nodes.length ppt < t.percentFor1px rc child)

instance (nodes : List ConId) (current : ConId) (ppt : ℚ) : Decidable (t.noRoom rc nodes current ppt) :=
  inferInstanceAs (Decidable (_ ∨ _ ∧ ∃ child ∈ nodes, child ≠ current ∧
    (t.con child).percent - subtractPercent nodes.length ppt < t.percentFor1px rc child))

/-- `cmd_resize_tiling_width_height`, in the direction of the search. -/
def widthHeight (current : ConId) (direction : Direction) (px : ℤ) (ppt : ℚ) : Tree :=
  match t.resizeParticipants current direction true with
  | (_, none) => t
  | (current, some _) => match (t.con current).parent with
    | none => t
    | some parent =>
      let nodes := (t.con parent).nodesHead
      -- the others are to have a percentage
      let t := t.mapPercents nodes fun _ p => if p = 0 then 1 / nodes.length else p
      let ppt := t.changeOf parent px ppt
      if t.noRoom rc nodes current ppt then t
      else t.mapPercents nodes fun child p =>
        if child = current then p + ppt else p - subtractPercent nodes.length ppt

/-- `cmd_resize_tiling_direction` -/
def tilingDirection (current : ConId) (direction : Direction) (px ppt : ℤ) : Tree :=
  match t.resizeParticipants current direction false with
  | (_, none) => t
  | (first, some second) =>
    (t.resizeNeighboring rc first second (if ppt ≠ 0 then 0 else px) ppt).getD t

/-! ### Columns -/

/-- A column is between a twentieth of the viewport and four times as wide. -/
def clampColumn (pct : ℚ) : ℚ :=
  let pct := if pct < 5 / 100 then 5 / 100 else pct
  if pct > 4 then 4 else pct

/-- `scrolling_resize_column_px` -/
def scrollingResizeColumnPx (column : ConId) (px : ℤ) : Tree :=
  match (t.con column).parent with
  | none => t
  | some con =>
    if (t.con con).layout ≠ .scrolling then t
    else if (t.con con).rect.width = 0 then t
    else (t.setPercent column
      (clampColumn (t.columnPercent cfg column + px / (t.con con).rect.width))).treeRender cfg

/-- `scrolling_resize_column` -/
def scrollingResizeColumn (column : ConId) (deltaPpt : ℤ) : Tree :=
  match (t.con column).parent with
  | none => t
  | some con =>
    if (t.con con).layout ≠ .scrolling then t
    else ((t.setPercent column (clampColumn (t.columnPercent cfg column + deltaPpt / 100))).treeRender
      cfg).scrollingReveal cfg column

/-- The change of `scrolling_resize_handled`, in percent of a viewport; 0 is left to the splits. -/
def resizeDelta (px ppt : ℤ) (view : ℕ) : ℤ :=
  if toInt ppt = 0 ∧ px ≠ 0 then
    if view = 0 then 0
    else if toInt ((px * 100).tdiv view) = 0 then (if px > 0 then 1 else -1)
    else toInt ((px * 100).tdiv view)
  else toInt ppt

/-- `scrolling_resize_handled` -/
def scrollingResizeHandled (c : ConId) (word : ResizeWord) (px ppt : ℤ) : Option Tree :=
  match t.columnOf c with
  | none => none
  | some column => match (t.con column).parent with
    | none => none
    | some con =>
      if word = .height ∨ word = .up ∨ word = .down then none
      else if resizeDelta px ppt (t.con con).rect.width = 0 then none
      else some (t.scrollingResizeColumn cfg column (resizeDelta px ppt (t.con con).rect.width))

def widthPresets : List ℚ := [3333 / 10000, 1 / 2, 6667 / 10000, 1]

/-- The loop of `scrolling_cycle_width` over the presets from the place `i`. -/
def presetIndex (cur : ℚ) (backwards : Bool) : List ℚ → ℤ → ℤ
  | [], i => i - 1
  | preset :: presets, i =>
    if |preset - cur| < 2 / 100 then i
    else if preset > cur then (if backwards then i else i - 1)
    else presetIndex cur backwards presets (i + 1)

/-- The preset that comes next, around the ends. -/
def nextPreset (cur : ℚ) (backwards : Bool) : ℕ :=
  let n := widthPresets.length
  let idx := presetIndex cur backwards widthPresets 0 + (if backwards then -1 else 1)
  if idx < 0 then n - 1 else if idx ≥ n then 0 else idx.toNat

/-- `scrolling_cycle_width` -/
def scrollingCycleWidth (c : ConId) (backwards : Bool) : Tree :=
  match t.columnOf c with
  | none => t
  | some column =>
    ((t.modify column fun d =>
      { d with
        percent := widthPresets.getD (nextPreset (t.columnPercent cfg column) backwards) 0
        scrollPrevPercent := 0 }).treeRender cfg).scrollingReveal cfg column

/-! ### Drags -/

/-- The state of a drag. -/
structure Dragging where
  tree : Tree
  newPosition : ℤ
  appliedPosition : ℤ
  exceeded : Bool

/-- The containers on both sides of the border that is dragged. -/
structure Dragged where
  first : ConId
  second : Option ConId
  orientation : Orientation
  output : Rect
  /-- `scroll_column` -/
  column : Option ConId
  /-- `scroll_sign` -/
  sign : ℤ
  deriving DecidableEq, Repr

/-- Whether the pointer is within the output, and not too close to its edges. -/
def Dragged.allows (d : Dragged) (position : ℤ) : Bool :=
  let edge : ℤ := if d.column.isSome then 1 else 25
  let start := d.output.start d.orientation
  position ≤ start + d.output.extent d.orientation - edge && start + edge ≤ position

/-- The border is moved: a column is resized, or two containers of a split. -/
def dragBy (d : Dragged) (px : ℤ) : Option Tree :=
  match d.column, d.second with
  | some column, _ => some (t.scrollingResizeColumnPx cfg column (px * d.sign))
  | none, some second => t.resizeNeighboring rc d.first second px 0
  | none, none => none

/-- `resize_callback` -/
def resizeCallback (d : Dragged) (s : Dragging) (m : Motion) : Dragging :=
  if !s.exceeded then { s with exceeded := true }
  else if !d.allows m.position then s
  else if !rc.live || !m.due || m.position - s.appliedPosition = 0 then { s with newPosition := m.position }
  else match s.tree.dragBy cfg rc d (m.position - s.appliedPosition) with
    | some tree =>
      { s with
        tree := if d.column.isSome then tree else tree.treeRender cfg
        newPosition := m.position
        appliedPosition := m.position }
    | none => { s with newPosition := m.position }

/-- Where the border is, that of the columns where the pointer is. -/
def initialPosition (d : Dragged) (direction : Direction) (root : ℤ) : ℤ :=
  if d.column.isSome then root
  else
    let first := (t.con (t.descendFocused d.first)).rect
    let beyond := first.start d.orientation + first.extent d.orientation
    match d.second with
    | some second =>
      let start := (t.con (t.descendFocused second)).rect.start d.orientation
      start - (u32 (start - beyond) / 2 : ℕ)
    | none => if direction = .right ∨ direction = .down then beyond else first.start d.orientation

/-- The containers of a drag, as `resize_graphical_handler` gets them. -/
def dragged (first : ConId) (second : Option ConId) (orientation : Orientation) (direction : Direction) :
    Dragged where
  first := first
  second := second
  orientation := orientation
  output := ((t.getOutput first).map fun output => (t.con output).rect).getD {}
  column :=
    if (t.con first).parent.any fun parent => (t.con parent).layout = .scrolling then some first else none
  sign := if direction.backwards then -1 else 1

/-- The percentages from before the drag. -/
def dragBack (before : Tree) (d : Dragged) : Tree :=
  let t := t.setPercent d.first (before.con d.first).percent
  match d.second with
  | some second => t.setPercent second (before.con second).percent
  | none => t

/-- What `resize_graphical_handler` does after the drag. -/
def dragEnd (before : Tree) (d : Dragged) (initial : ℤ) (s : Dragging) (revert : Bool) : Tree :=
  if rc.live then
    if revert then match (before.con d.first).parent with
      | some parent => ((s.tree.dragBack before d).conFixPercent parent).treeRender cfg
      | none => s.tree.dragBack before d
    else if s.newPosition - s.appliedPosition = 0 then s.tree.treeRender cfg
    -- the limit on the rate has left something to do
    else ((s.tree.dragBy cfg rc d (s.newPosition - s.appliedPosition)).getD s.tree).treeRender cfg
  else if revert || s.newPosition - initial = 0 then s.tree
  else match d.second with
    | none => s.tree
    | some second =>
      (s.tree.resizeNeighboring rc d.first second (s.newPosition - initial) 0).getD s.tree

/-- `resize_graphical_handler` -/
def resizeGraphical (first : ConId) (second : Option ConId) (orientation : Orientation)
    (direction : Direction) (drag : Drag) : Tree :=
  let d := t.dragged first second orientation direction
  let initial := t.initialPosition d direction drag.root
  let s := drag.motions.foldl (resizeCallback cfg rc d)
    ⟨t.treeRender cfg, initial, initial, !drag.threshold⟩
  dragEnd cfg rc t d initial s drag.revert

/-- The search of `tiling_resize_for_border` for a column. -/
def borderColumnN : ℕ → ConId → Option ConId
  | 0, _ => none
  | n + 1, c => match (t.con c).parent with
    | none => none
    | some parent =>
      if (t.con c).type = .workspace ∨ (t.con c).type = .floatingCon then none
      else if (t.con parent).layout = .scrolling then some c
      else borderColumnN n parent

/-- `tiling_resize_for_border` -/
def resizeForBorder (c : ConId) (border : Border) (drag : Drag) : Tree :=
  let column := if border = .left ∨ border = .right then t.borderColumnN t.nextCon c else none
  match column with
  | some column => (t.resizeGraphical cfg rc column none .horiz border.direction drag).treeRender cfg
  | none => match t.resizeParticipants c border.direction false with
    | (_, none) => t
    | (first, some second) =>
      if (t.con first).fullscreenMode ≠ (t.con second).fullscreenMode then t
      else
        -- the first one is to be in front of the second
        let (first, second) := if border.direction.backwards then (second, first) else (first, second)
        (t.resizeGraphical cfg rc first (some second) border.direction.orientation border.direction
          drag).treeRender cfg

/-! ### Commands -/

/-- `cmd_resize_floating` and `floating_resize`. -/
def resizeFloating (floating : ConId) : Tree :=
  match rc.floatingRect t floating with
  | none => t
  | some rect =>
    t.modify floating fun d =>
      { d with
        rect := rect
        scratchpadState := if d.scratchpadState = .fresh then .changed else d.scratchpadState }

/-- `cmd_resize`, of one of the windows that match. -/
def cmdResize (c : ConId) (way : ResizeWay) (word : ResizeWord) (px ppt : ℤ) : Tree :=
  let px := if way = .shrink then -px else px
  let ppt := if way = .shrink then -ppt else ppt
  match t.insideFloating c with
  | some floating => t.resizeFloating rc floating
  | none => match t.scrollingResizeHandled cfg c word px ppt with
    | some t => t
    | none =>
      if word = .width ∨ word = .height then t.widthHeight rc c word.direction (toInt px) (ppt / 100)
      else t.tilingDirection rc c word.direction (toInt px) (toInt ppt)

/-- `resize_set_tiling` -/
def resizeSetTiling (target : ConId) (direction : Direction) (isPpt : Bool) (targetSize : ℤ) : Tree :=
  let found := (t.resizeParticipants target direction true).1
  let rect := (t.con found).rect
  let ppt : ℚ := if isPpt then targetSize / 100 - (t.con found).percent else 0
  let px := if isPpt then 0 else toInt (targetSize - rect.extent direction.orientation)
  t.widthHeight rc found direction px ppt

/-- `cmd_resize_set`, of one of the windows that match. -/
def cmdResizeSet (c : ConId) (cwidth : ℤ) (widthPpt : Bool) (cheight : ℤ) (heightPpt : Bool) : Tree :=
  if cwidth < 0 ∨ cheight < 0 then t
  else match t.insideFloating c with
    | some floating => t.resizeFloating rc floating
    | none =>
      let t := if 0 < cwidth then t.resizeSetTiling rc c .left widthPpt cwidth else t
      if 0 < cheight then t.resizeSetTiling rc c .down heightPpt cheight else t

end Tree

end I3
