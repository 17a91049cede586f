import Mathlib.Data.Rat.Floor
import Mathlib.Tactic.Linarith
import I3Aiwr.Tree.Container

/-!
# The scrolling layout

`src/scrolling.c`: a container of layout `L_SCROLLING` is a strip of columns, each with its own
width, seen through a viewport at `scroll_offset`. Focusing a column scrolls it into view, at once
or by the one animation `scroll_anim`. Doubles are rationals.

## Main definitions

* `Tree.columnExtent cfg con column`: the position and width of a column in its strip, and the
  width of the strip
* `Tree.scrollToOffset cfg con target`: scrolling, at once or by an animation
* `Tree.scrollingReveal cfg column`: bring a column into view
* `Tree.scrollStep`, `Tree.scrollDone`: the callbacks of the animation
* `Tree.treeRender cfg`: what the renderer does to the geometry and to the offsets
-/

namespace I3

namespace Tree

variable (cfg : Config) (t : Tree)

/-- The width of a column as a fraction of the viewport. -/
def columnPercent (column : ConId) : ℚ :=
  if (t.con column).percent > 0 then (t.con column).percent else cfg.defaultWidth / 100

/-- Width of a column in pixels, given the viewport. The conversion to `int` truncates; below 1
it is the floor that counts as little. -/
def scrollingColumnWidth (con child : ConId) : ℤ :=
  let w := ⌊((t.con con).rect.width : ℚ) * t.columnPercent cfg child⌋
  if w < 1 then 1 else w

/-- The loop of `column_extent` from the position `x`: the last match, and the end. -/
def columnExtentLoop (con column : ConId) : List ConId → ℚ → Option (ℚ × ℚ) → Option (ℚ × ℚ) × ℚ
  | [], x, found => (found, x)
  | child :: rest, x, found =>
    let w : ℚ := t.scrollingColumnWidth cfg con child
    columnExtentLoop con column rest (x + w) (if child = column then some (x, w) else found)

/-- The x (before the offset) and width of a column within its container, and the total. -/
def columnExtent (con column : ConId) : Option (ℚ × ℚ) × ℚ :=
  t.columnExtentLoop cfg con column (t.con con).nodesHead 0 none

def scrollingTotalWidth (con : ConId) : ℚ :=
  (t.con con).nodesHead.foldl
    (fun (total : ℚ) child => total + (t.scrollingColumnWidth cfg con child : ℚ)) 0

/-- The offset within the strip; a strip narrower than the viewport is centred. -/
def clampOffset (con : ConId) (offset total : ℚ) : ℚ :=
  let view : ℚ := (t.con con).rect.width
  if total < view then -(view - total) / 2
  else
    let max := if total - view < 0 then 0 else total - view
    let offset := if offset < 0 then 0 else offset
    if offset > max then max else offset

/-- `scrolling_prepare`: the offset a container gets before its columns are positioned. -/
def scrollingPrepare (con : ConId) : ℚ :=
  if (t.con con).layout ≠ .scrolling ∨ t.scrollAnim.con = some con then (t.con con).scrollOffset
  else t.clampOffset con (t.con con).scrollOffset (t.scrollingTotalWidth cfg con)

/-- The tree with the rectangles the renderer assigned. -/
def withRects : Tree :=
  { t with con := fun c => { t.con c with rect := (cfg.render t c).getD (t.con c).rect } }

/-- `tree_render`: the visited containers get their rectangle and a clamped offset. -/
def treeRender : Tree :=
  { t with con := fun c =>
      { (t.withRects cfg).con c with
        scrollOffset :=
          if (cfg.render t c).isSome then (t.withRects cfg).scrollingPrepare cfg c
          else (t.con c).scrollOffset } }

def setScrollOffset (con : ConId) (offset : ℚ) : Tree :=
  t.modify con fun d => { d with scrollOffset := offset }

/-- `scroll_step`, the step callback of the animation, at the eased progress `e`. -/
def scrollStep (e : ℚ) : Tree :=
  match t.scrollAnim.con with
  | none => t
  | some con =>
    (t.setScrollOffset con (t.scrollAnim.src + (t.scrollAnim.dst - t.scrollAnim.src) * e)).treeRender
      cfg

/-- `scroll_done`, the done callback of the animation. -/
def scrollDone : Tree :=
  let t₁ := match t.scrollAnim.con with
    | none => t
    | some con => t.setScrollOffset con t.scrollAnim.dst
  { t₁ with scrollAnim := { t.scrollAnim with con := none, animId := 0 } }.treeRender cfg

/-- `aiwr_anim_cancel` of the running scroll, and the reset of `scroll_anim`. -/
def scrollCancel : Tree :=
  if t.scrollAnim.animId > 0 then
    { t with scrollAnim := { t.scrollAnim with con := none, animId := 0 } }
  else t

/-- `scroll_to_offset`: nothing for less than half a pixel. The identifier of a started animation
is positive; without the clock `aiwr_anim_start` returns 0. -/
def scrollToOffset (con : ConId) (target : ℚ) : Tree :=
  if |target - (t.con con).scrollOffset| < 1 / 2 then t
  else
    let t := t.scrollCancel
    if cfg.durationMs ≤ 0 then t.setScrollOffset con target
    else if cfg.animInitialized then
      { t with
        scrollAnim := ⟨some con, (t.con con).scrollOffset, target, t.animIds + 1⟩
        animIds := t.animIds + 1 }
    else
      { t with scrollAnim := ⟨none, (t.con con).scrollOffset, target, 0⟩ }.setScrollOffset con target
        |>.treeRender cfg

/-- The offset `scrolling_reveal` asks for, of a column at `x` of width `w`. -/
def revealTarget (con : ConId) (x w total : ℚ) : ℚ :=
  let view : ℚ := (t.con con).rect.width
  let offset := (t.con con).scrollOffset
  t.clampOffset con
    (if cfg.centerFocus then x + w / 2 - view / 2
     else if x < offset then x
     else if x + w > offset + view then x + w - view
     else offset)
    total

/-- `scrolling_reveal`: scrolls so that the given column is visible. -/
def scrollingReveal (column : ConId) : Tree :=
  match (t.con column).parent with
  | none => t
  | some con =>
    if (t.con con).layout ≠ .scrolling ∨ (t.con con).rect.width = 0 then t
    else match t.columnExtent cfg con column with
      | (none, _) => t
      | (some (x, w), total) => t.scrollToOffset cfg con (t.revealTarget cfg con x w total)

/-- The loop of `column_of` and `scrolling_on_focus`, at most `n` steps up. -/
def columnOfN : ℕ → ConId → Option ConId
  | 0, _ => none
  | n + 1, c => match (t.con c).parent with
    | none => none
    | some p =>
      if (t.con p).layout = .scrolling then some c
      else if (t.con c).type = .workspace then none
      else columnOfN n p

/-- `column_of`: the column a container is in. -/
def columnOf (c : ConId) : Option ConId := t.columnOfN t.nextCon c

/-- The recursion of `ws_find_scrolling`, at most `n` levels down. -/
def wsFindScrollingN : ℕ → ConId → Option ConId
  | 0, _ => none
  | n + 1, ws =>
    if (t.con ws).layout = .scrolling then some ws
    else (t.con ws).nodesHead.findSome? (wsFindScrollingN n)

/-- `ws_find_scrolling`: the first scrolling container of a workspace. -/
def wsFindScrolling (ws : ConId) : Option ConId := t.wsFindScrollingN t.nextCon ws

/-- `scrolling_on_focus`, called from the end of `con_focus`. -/
def scrollingOnFocus (c : ConId) : Tree :=
  match t.columnOf c with
  | none => t
  | some column => t.scrollingReveal cfg column

/-- `scrolling_forget`. -/
def scrollingForget (c : ConId) : Tree :=
  if t.scrollAnim.con = some c then
    { t with scrollAnim := { t.scrollAnim with con := none, animId := 0 } }
  else t

end Tree

end I3
