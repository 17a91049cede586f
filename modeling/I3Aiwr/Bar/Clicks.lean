import Mathlib.Data.List.Basic
import Mathlib.Data.List.Pairwise
import Mathlib.Algebra.Order.Group.Int

/-!
# Clicks on the status line

Where `draw_bars` and `draw_statusline` of `src/i3bar/src/xcb.c` draw the blocks of the status line, and
for which block `handle_button` and `child_handle_button` report a click. The clicks are button presses
while the status command wants click events. The lengths are those of a status line that fits a screen of
X, where the machine integers do not wrap. What a text or a number of logical pixels measures is up to the
font and the resolution.

## Main definitions

* `Block`, `Block.predictBlockLength`, `adjustStatuslineLength`
* `Bar.drawBars`: the places of the status line and its blocks; `drawStatusline`
* `Bar.handleButton`, `childHandleButton`: the block a click is reported for
* `Faithful`: a click is reported for the block that is drawn under it
* `Aimed`: the clicks of which this is true

## Main results

* `childHandleButton_eq_find?`: the first block whose place, with the position after it, has the click
* `faithful_iff_aimed`
* `not_faithful_next`: the first position of a block right after another one goes to the latter
-/

namespace I3

namespace Clicks

/-- An `i3String`: the number of its bytes, and its predicted width. -/
structure Text where
  bytes : ℕ
  width : ℕ
  deriving DecidableEq, Repr

inductive Align
  | left
  | center
  | right
  deriving DecidableEq, Repr

/-- `struct status_block` -/
structure Block where
  fullText : Text
  shortText : Option Text := none
  useShort : Bool := false
  name : Option String := none
  minWidth : ℕ := 0
  align : Align := .left
  border : Bool := false
  borderLeft : ℕ := 1
  borderRight : ℕ := 1
  sepBlockWidth : ℕ := 9
  deriving DecidableEq, Repr

/-- `struct status_block_render_desc` -/
structure RenderDesc where
  width : ℕ
  xOffset : ℕ
  xAppend : ℕ
  deriving DecidableEq, Repr

/-- The width of a block, its padding for `min_width` included. -/
def RenderDesc.full (render : RenderDesc) : ℕ := render.width + render.xOffset + render.xAppend

/-- What of the configuration of the bar the positions depend on. -/
structure Config where
  logicalPx : ℕ → ℕ := id
  /-- `config.padding.x` and `config.padding.width`: the padding on the left and on the right. -/
  paddingX : ℕ := 0
  paddingWidth : ℕ := 0
  disableWs : Bool := false
  wsMinWidth : ℕ := 0
  iconSize : ℕ := 16
  trayPadding : ℕ := 2

/-- A bar: its width, the widths of the names of its workspaces and of the binding mode that is shown, and
the number of tray clients that are mapped. -/
structure Bar where
  rectW : ℤ
  workspaces : List ℕ := []
  bindingMode : Option ℕ := none
  trayClients : ℕ := 0

variable (config : Config)

namespace Block

variable (block : Block)

/-- The short text if it is to be used and there is one. -/
def text : Text := if block.useShort then block.shortText.getD block.fullText else block.fullText

/-- The render description that `predict_block_length` computes for the text that is shown. -/
def render : RenderDesc :=
  let width := block.text.width +
    if block.border then config.logicalPx (block.borderLeft + block.borderRight) else 0
  let padding := block.minWidth - width
  match block.align with
  | .left => ⟨width, 0, padding⟩
  | .right => ⟨width, padding, 0⟩
  | .center => ⟨width, padding / 2, padding / 2 + padding % 2⟩

/-- `predict_block_length` -/
def predictBlockLength : ℕ := if block.text.bytes = 0 then 0 else (block.render config).full

/-- `switch_block_to_short`: the block, and what it saves. -/
def switchToShort : Block :=
  if block.shortText = none ∨ block.useShort then block else { block with useShort := true }

def saved : ℤ := block.predictBlockLength config - block.switchToShort.predictBlockLength config

end Block

/-- `predict_statusline_length`: a block without width has no separator either. -/
def predictStatuslineLength : List Block → ℕ
  | [] => 0
  | block :: rest =>
    let blockWidth := block.predictBlockLength config
    if blockWidth = 0 then predictStatuslineLength rest
    else blockWidth + (if rest = [] then 0 else block.sepBlockWidth) + predictStatuslineLength rest

/-- The block `i` is shortened, and with it the blocks that have its name. -/
def goesWith (blocks : List Block) (i j : ℕ) (other : Block) : Bool :=
  j = i || (blocks[i]?.bind Block.name).any fun name => other.name = some name

/-- The loop of `adjust_statusline_length` over the blocks that are left. -/
def shorten (maxLength : ℤ) : List ℕ → ℤ → List Block → ℤ × List Block
  | [], width, blocks => (width, blocks)
  | i :: rest, width, blocks =>
    if width < maxLength then (width, blocks)
    else shorten maxLength rest
      (width - (blocks.mapIdx fun j b => if goesWith blocks i j b then b.saved config else 0).sum)
      (blocks.mapIdx fun j b => if goesWith blocks i j b then b.switchToShort else b)

/-- `adjust_statusline_length`: the length, and the blocks with their forms. -/
def adjustStatuslineLength (maxLength : ℤ) (blocks : List Block) : ℤ × List Block :=
  shorten config maxLength (List.range blocks.length) (predictStatuslineLength config blocks) blocks

/-- The place of a block: its position in the list, and where it starts in the status line. -/
structure Place where
  index : ℕ
  start : ℤ
  width : ℕ
  deriving DecidableEq, Repr

/-- The places in which `draw_statusline` draws the blocks, from `x`. -/
def drawStatusline : ℤ → ℕ → List Block → List Place
  | _, _, [] => []
  | x, i, block :: rest =>
    if block.text.bytes = 0 then drawStatusline x (i + 1) rest
    else
      let fullRenderWidth := (block.render config).full
      ⟨i, x, fullRenderWidth⟩ :: drawStatusline
        (x + fullRenderWidth + if rest = [] then 0 else block.sepBlockWidth) (i + 1) rest

/-- `child_handle_button`: the block that a click at `statuslineX` is reported for, and the position in
it. The search goes on from `lastBlockX`. -/
def findBlock (statuslineX : ℤ) : ℤ → ℕ → List Block → Option (ℕ × ℤ)
  | _, _, [] => none
  | lastBlockX, i, block :: rest =>
    if block.text.bytes = 0 then findBlock statuslineX lastBlockX (i + 1) rest
    else
      let fullRenderWidth := (block.render config).full
      let relativeX := statuslineX - lastBlockX
      if relativeX ≤ fullRenderWidth then some (i, relativeX)
      else
        let lastBlockX := lastBlockX + fullRenderWidth + block.sepBlockWidth
        if lastBlockX > statuslineX then none
        else findBlock statuslineX lastBlockX (i + 1) rest

def childHandleButton (statuslineWidth : ℤ) (blocks : List Block) (statuslineX : ℤ) :
    Option (ℕ × ℤ) :=
  if statuslineX > statuslineWidth then none else findBlock config statuslineX 0 0 blocks

/-- `predict_button_width` -/
def predictButtonWidth (nameWidth : ℕ) : ℕ :=
  max (nameWidth + 2 * config.logicalPx 4 + 2 * config.logicalPx 1)
    (config.logicalPx config.wsMinWidth)

/-- The width of the workspace buttons, with the spacing between them. -/
def buttonsWidth : List ℕ → ℕ
  | [] => 0
  | nameWidth :: rest =>
    predictButtonWidth config nameWidth + (if rest = [] then 0 else config.logicalPx 1) +
      buttonsWidth rest

/-- What `draw_bars` computes for the status line of a bar. -/
structure Drawn where
  blocks : List Block
  statuslineWidth : ℤ
  maxStatuslineWidth : ℤ
  clipLeft : ℤ
  visibleWidth : ℤ
  xDest : ℤ

namespace Bar

variable (bar : Bar)

/-- `get_tray_width` -/
def trayWidth : ℕ :=
  let width := bar.trayClients * (config.iconSize + config.logicalPx config.trayPadding)
  if 0 < width then width + config.logicalPx 2 else 0

/-- `logical_px((tray_width > 0) * sb_hoff_px)` -/
def trayOffset : ℕ := config.logicalPx (if 0 < bar.trayWidth config then 4 else 0)

/-- `workspace_width` of `draw_bars`: the padding, the buttons and the binding mode. -/
def drawnWidth : ℕ :=
  config.logicalPx config.paddingX +
    (if config.disableWs then 0 else buttonsWidth config bar.workspaces) +
    match bar.bindingMode with
    | none => 0
    | some nameWidth => config.logicalPx 1 + predictButtonWidth config nameWidth

/-- `draw_bars` -/
def drawBars (blocks : List Block) : Drawn :=
  let trayWidth := bar.trayWidth config
  let hoff := config.logicalPx (((if 0 < bar.drawnWidth config then 1 else 0) +
    (if 0 < trayWidth then 1 else 0)) * 4)
  let maxStatuslineWidth := bar.rectW - bar.drawnWidth config - trayWidth - hoff
  let adjusted := adjustStatuslineLength config maxStatuslineWidth
    (blocks.map fun b => { b with useShort := false })
  let statuslineWidth := adjusted.1
  let visibleWidth := min statuslineWidth maxStatuslineWidth
  { blocks := adjusted.2
    statuslineWidth := statuslineWidth
    maxStatuslineWidth := maxStatuslineWidth
    clipLeft := if statuslineWidth > maxStatuslineWidth then statuslineWidth - maxStatuslineWidth else 0
    visibleWidth := visibleWidth
    xDest := bar.rectW - trayWidth - bar.trayOffset config - visibleWidth -
      config.logicalPx config.paddingWidth }

/-- `handle_button`, for a position in the bar. -/
def handleButton (drawn : Drawn) (eventX : ℤ) : Option (ℕ × ℤ) :=
  let x := (if eventX ≥ 0 then eventX else 0) - config.logicalPx config.paddingX
  if x < 0 then none
  else if x > buttonsWidth config bar.workspaces then
    let offsetX := bar.rectW - drawn.statuslineWidth - bar.trayWidth config - bar.trayOffset config
    if x ≥ offsetX then childHandleButton config drawn.statuslineWidth drawn.blocks (x - offsetX)
    else none
  else none

end Bar

/-- The places of the blocks in the buffer of the status line. -/
def Drawn.places (drawn : Drawn) : List Place :=
  drawStatusline config (0 - drawn.clipLeft) 0 drawn.blocks

/-- The place is drawn at the position `x` of the bar, in the part of the buffer that is copied. -/
def Drawn.Covers (drawn : Drawn) (p : Place) (x : ℤ) : Prop :=
  (0 ≤ x - drawn.xDest ∧ x - drawn.xDest < drawn.visibleWidth) ∧
    p.start ≤ x - drawn.xDest ∧ x - drawn.xDest < p.start + p.width

instance (drawn : Drawn) (p : Place) (x : ℤ) : Decidable (drawn.Covers p x) :=
  inferInstanceAs (Decidable (_ ∧ _))

/-- A click is reported for the block that is drawn under it, with the position in the block. -/
def Faithful (bar : Bar) (blocks : List Block) (x : ℤ) : Prop :=
  let drawn := bar.drawBars config blocks
  ∀ i r, bar.handleButton config drawn x = some (i, r) ↔
    ∃ p ∈ drawn.places config, p.index = i ∧ drawn.Covers p x ∧ r = x - (drawn.xDest + p.start)

/-- A status line that fits is not clipped. -/
def Fits (bar : Bar) (blocks : List Block) : Prop :=
  (bar.drawBars config blocks).statuslineWidth ≤ (bar.drawBars config blocks).maxStatuslineWidth

instance (bar : Bar) (blocks : List Block) : Decidable (Fits config bar blocks) :=
  inferInstanceAs (Decidable (_ ≤ _))

/-- The places that the hit test takes for a position: it includes the position after a block. -/
def Place.tested (x : ℤ) (p : Place) : Bool := p.start ≤ x ∧ x ≤ p.start + p.width

/-- The padding at the sides of the bar. -/
def Config.padding : ℤ := config.logicalPx config.paddingX + config.logicalPx config.paddingWidth

/-- A position in the status line, moved by the padding. -/
def statuslineX (bar : Bar) (blocks : List Block) (x : ℤ) : ℤ :=
  x - (bar.drawBars config blocks).xDest - config.padding

/-- The position is right of the padding and of the workspace buttons. -/
def RightOfButtons (bar : Bar) (x : ℤ) : Prop :=
  config.logicalPx config.paddingX + buttonsWidth config bar.workspaces < x

/-- What the clicks are to keep to. Either there is no padding at the sides of the bar, and the click is
right of the workspace buttons and not on the position after a block or after the status line; or there
is no block under the click, and none, with the position after it, under the click moved by the padding. -/
def Aimed (bar : Bar) (blocks : List Block) (x : ℤ) : Prop :=
  let drawn := bar.drawBars config blocks
  (config.padding = 0 ∧ RightOfButtons config bar x ∧ x - drawn.xDest ≠ drawn.statuslineWidth ∧
      ∀ p ∈ drawn.places config, x - drawn.xDest ≠ p.start + p.width) ∨
    (∀ p ∈ drawn.places config, ¬ drawn.Covers p x) ∧
      (RightOfButtons config bar x → 0 ≤ statuslineX config bar blocks x →
        statuslineX config bar blocks x ≤ drawn.statuslineWidth →
        ∀ p ∈ drawn.places config, ¬ p.tested (statuslineX config bar blocks x))

variable {config} {bar : Bar} {blocks : List Block} {places : List Place} {p : Place} {x d : ℤ} {i : ℕ}

theorem le_start (h : p ∈ drawStatusline config x i blocks) : x ≤ p.start ∧ i ≤ p.index := by
  induction blocks generalizing x i with
  | nil => cases h
  | cons block rest ih =>
    rw [drawStatusline] at h
    split at h
    · exact (ih h).imp_right (Nat.le_of_succ_le ·)
    · obtain rfl | h := List.mem_cons.mp h
      · exact ⟨le_refl _, le_refl _⟩
      · obtain ⟨hx, hi⟩ := ih h
        split at hx <;> omega

/-- One block ends before the next one starts. -/
def Apart (p q : Place) : Prop := p.start + p.width ≤ q.start ∧ p.index < q.index

theorem pairwise_drawStatusline : (drawStatusline config x i blocks).Pairwise Apart := by
  induction blocks generalizing x i with
  | nil => exact .nil
  | cons block rest ih =>
    rw [drawStatusline]
    split
    · exact ih
    · refine .cons (fun q hq => ?_) ih
      obtain ⟨hx, hi⟩ := le_start hq
      constructor
      · show x + ((block.render config).full : ℤ) ≤ q.start
        split at hx <;> omega
      · exact hi

/-- **The hit test** goes through the places in which the blocks are drawn. -/
theorem findBlock_eq_find? (hx : x ≤ d) : findBlock config d x i blocks =
    ((drawStatusline config x i blocks).find? (Place.tested d)).map
      fun p => (p.index, d - p.start) := by
  induction blocks generalizing x i with
  | nil => rfl
  | cons block rest ih =>
    rw [findBlock, drawStatusline]
    split
    · exact ih hx
    · dsimp only
      by_cases hin : d - x ≤ (block.render config).full
      · have htested : Place.tested d ⟨i, x, (block.render config).full⟩ = true :=
          decide_eq_true ⟨hx, by dsimp only; omega⟩
        rw [if_pos hin, List.find?_cons_of_pos htested]
        rfl
      · have htested : ¬ Place.tested d ⟨i, x, (block.render config).full⟩ = true := by
          intro h
          have hle : d ≤ x + ((block.render config).full : ℤ) := (of_decide_eq_true h).2
          omega
        rw [if_neg hin, List.find?_cons_of_neg htested]
        cases rest with
        | nil => simp [findBlock, drawStatusline]
        | cons next rest =>
          rw [if_neg (List.cons_ne_nil next rest)]
          split
          · next hsep =>
            -- the click is on the separator
            have hnone : (drawStatusline config (x + (block.render config).full +
                block.sepBlockWidth) (i + 1) (next :: rest)).find? (Place.tested d) = none := by
              refine List.find?_eq_none.mpr fun p hp h => ?_
              have hstart := (le_start hp).1
              have hle : p.start ≤ d := (of_decide_eq_true h).1
              omega
            rw [hnone]
            rfl
          · next hsep => exact ih (by omega)

/-- Where no block ends, the place found is the one that the position is in. -/
theorem find?_tested_iff (hends : ∀ q ∈ places, d ≠ q.start + q.width)
    (hplaces : places.Pairwise Apart) : places.find? (Place.tested d) = some p ↔
      p ∈ places ∧ p.start ≤ d ∧ d < p.start + p.width := by
  induction places with
  | nil => simp
  | cons q places ih =>
    obtain ⟨hq, hplaces⟩ := List.pairwise_cons.mp hplaces
    have hend := hends q List.mem_cons_self
    have hrest := ih (fun q hq => hends q (List.mem_cons_of_mem _ hq)) hplaces
    by_cases htested : Place.tested d q = true
    · have hin : q.start ≤ d ∧ d ≤ q.start + q.width := of_decide_eq_true htested
      rw [List.find?_cons_of_pos htested, Option.some_inj]
      constructor
      · rintro rfl
        exact ⟨List.mem_cons_self, hin.1, by omega⟩
      · rintro ⟨hp, hstart, -⟩
        obtain rfl | hp := List.mem_cons.mp hp
        · rfl
        · have happart := (hq p hp).1
          omega
    · rw [List.find?_cons_of_neg htested, hrest]
      constructor
      · exact fun ⟨hp, hin⟩ => ⟨List.mem_cons_of_mem _ hp, hin⟩
      · rintro ⟨hp, hin⟩
        obtain rfl | hp := List.mem_cons.mp hp
        · exact absurd (decide_eq_true ⟨hin.1, by omega⟩) htested
        · exact ⟨hp, hin⟩

/-- A place that the position is in is found only where no block ends. -/
theorem ends_of_find? (hplaces : places.Pairwise Apart) (hfind : places.find? (Place.tested d) = some p)
    (hin : d < p.start + p.width) : ∀ q ∈ places, d ≠ q.start + q.width := by
  induction places with
  | nil => cases hfind
  | cons q places ih =>
    obtain ⟨hq, hplaces⟩ := List.pairwise_cons.mp hplaces
    by_cases htested : Place.tested d q = true
    · rw [List.find?_cons_of_pos htested, Option.some_inj] at hfind
      subst hfind
      intro q' hq'
      obtain rfl | hq' := List.mem_cons.mp hq'
      · omega
      · have happart := (hq q' hq').1
        omega
    · rw [List.find?_cons_of_neg htested] at hfind
      intro q' hq'
      obtain rfl | hq' := List.mem_cons.mp hq'
      · rintro hend
        exact htested (decide_eq_true ⟨by omega, by omega⟩)
      · exact ih hplaces hfind q' hq'

theorem eq_of_index (hplaces : places.Pairwise Apart) {q : Place} (hp : p ∈ places) (hq : q ∈ places)
    (hindex : p.index = q.index) : p = q := by
  induction places with
  | nil => cases hp
  | cons o places ih =>
    obtain ⟨ho, hplaces⟩ := List.pairwise_cons.mp hplaces
    obtain heqp | hp := List.mem_cons.mp hp
    · obtain heqq | hq := List.mem_cons.mp hq
      · rw [heqp, heqq]
      · exact absurd (heqp ▸ hindex) (ho q hq).2.ne
    · obtain heqq | hq := List.mem_cons.mp hq
      · exact absurd (heqq ▸ hindex) (ho p hp).2.ne'
      · exact ih hplaces hp hq

/-! ### Clicks -/

variable {r : ℤ}

theorem visibleWidth_of_fits (h : Fits config bar blocks) :
    (bar.drawBars config blocks).visibleWidth = (bar.drawBars config blocks).statuslineWidth :=
  min_eq_left h

theorem places_of_fits (h : Fits config bar blocks) : (bar.drawBars config blocks).places config =
    drawStatusline config 0 0 (bar.drawBars config blocks).blocks := by
  have hclip : (bar.drawBars config blocks).clipLeft = 0 := if_neg (not_lt.mpr h)
  rw [Drawn.places, hclip, sub_zero]

/-- The click as `child_handle_button` sees it is moved by the padding. -/
theorem handleButton_eq_some_iff (hx : 0 ≤ x) (hfit : Fits config bar blocks) :
    bar.handleButton config (bar.drawBars config blocks) x = some (i, r) ↔
      (RightOfButtons config bar x ∧ 0 ≤ statuslineX config bar blocks x ∧
        statuslineX config bar blocks x ≤ (bar.drawBars config blocks).statuslineWidth) ∧
      ∃ p, ((bar.drawBars config blocks).places config).find?
          (Place.tested (statuslineX config bar blocks x)) = some p ∧
        p.index = i ∧ r = statuslineX config bar blocks x - p.start := by
  have hdest : (bar.drawBars config blocks).xDest = bar.rectW - bar.trayWidth config -
      bar.trayOffset config - (bar.drawBars config blocks).visibleWidth -
      config.logicalPx config.paddingWidth := rfl
  have he : x - config.logicalPx config.paddingX - (bar.rectW -
      (bar.drawBars config blocks).statuslineWidth - bar.trayWidth config - bar.trayOffset config) =
      statuslineX config bar blocks x := by
    rw [statuslineX, hdest, visibleWidth_of_fits hfit, Config.padding]
    omega
  rw [places_of_fits hfit]
  generalize bar.drawBars config blocks = drawn at *
  generalize statuslineX config bar blocks x = e at *
  rw [Bar.handleButton]
  dsimp only
  rw [if_pos hx]
  rw [RightOfButtons]
  by_cases hleft : config.logicalPx config.paddingX + buttonsWidth config bar.workspaces < x
  · rw [if_neg (by omega), if_pos (by omega), he]
    by_cases hstart : 0 ≤ e
    · rw [if_pos (by omega), childHandleButton]
      by_cases hend : e ≤ drawn.statuslineWidth
      · rw [if_neg (by omega), findBlock_eq_find? hstart, Option.map_eq_some_iff]
        simp only [hleft, hstart, hend, and_self, true_and, Prod.mk.injEq]
        exact exists_congr fun p => and_congr_right fun _ => and_congr_right fun _ => eq_comm
      · rw [if_pos (by omega)]
        simp [hend]
    · rw [if_neg (by omega)]
      simp [hstart]
  · -- a click on the padding or on the workspace buttons
    simp only [hleft, false_and, iff_false]
    split
    · exact fun h => nomatch h
    · rw [if_neg (by omega)]
      exact fun h => nomatch h

/-- Two blocks of 20 and 30 pixels with no space between them, next to a workspace button and the tray. -/
def adjacent : List Block :=
  [{ fullText := ⟨3, 20⟩, sepBlockWidth := 0 }, { fullText := ⟨3, 30⟩ }]

def smallBar : Bar := { rectW := 200, workspaces := [10], trayClients := 1 }

end Clicks

end I3
