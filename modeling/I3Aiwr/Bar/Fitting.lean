import I3Aiwr.Bar.Clicks
import Mathlib.Data.UInt
import Mathlib.Tactic.Abel

/-!
# The room of the status line

How wide the status line is and where it goes, in the types of the source: `predict_block_length`,
`adjust_statusline_length`, `draw_statusline` and `draw_bars` of `src/i3bar/src/xcb.c`. The widths of
blocks are unsigned numbers of 32 bits; of an `int` the overflow is undefined, and it is an integer here.
What a text or a number of logical pixels measures is up to the font and the resolution.

The length is predicted once, with a separator behind each block that has a width, and then corrected as
blocks are shortened; the separators are not. The room is an unsigned number too, which is large when
there is none, and does not take the padding on the right into account.

## Main definitions

* `predictStatuslineLength`, `adjustStatuslineLength`, `drawStatusline`
* `Bar.drawBars`
* `Fitted`: what the status line is to keep to
* `shownAfter`, `lengthAfter`, `rounds`: the status line after some blocks were shortened
* `Fits`: when it keeps to that

## Main results

* `adjustStatuslineLength_eq`
* `fitted_iff`
-/

namespace I3

namespace Fitting

open Clicks (Block goesWith)

/-- What of the configuration of the bar the positions depend on. -/
structure Config where
  logicalPx : ℤ → ℤ := id
  /-- `config.padding.x` and `config.padding.width`: the padding on the left and on the right. -/
  paddingX : ℤ := 0
  paddingWidth : ℤ := 0
  disableWs : Bool := false
  wsMinWidth : ℤ := 0
  iconSize : ℤ := 16
  trayPadding : ℤ := 2

/-- A bar: its width, the widths of the names of its workspaces and of the binding mode that is shown, and
the number of tray clients that are mapped. -/
structure Bar where
  rectW : ℤ
  workspaces : List ℤ := []
  bindingMode : Option ℤ := none
  trayClients : ℕ := 0
  deriving DecidableEq, Repr

/-- `struct status_block_render_desc` -/
structure RenderDesc where
  width : UInt32
  xOffset : UInt32
  xAppend : UInt32
  deriving DecidableEq, Repr

def RenderDesc.full (render : RenderDesc) : UInt32 := render.width + render.xOffset + render.xAppend

/-- An unsigned number as an `int`. -/
def toInt (n : UInt32) : ℤ := (n.toNat : ℤ).bmod (2 ^ 32)

/-- A number as an `int16_t`. -/
def toInt16 (n : UInt32) : ℤ := (n.toNat : ℤ).bmod (2 ^ 16)

variable (config : Config)

/-- `sep_block_width` -/
def sepBlockWidth (block : Block) : UInt32 := .ofNat block.sepBlockWidth

/-- The width of the text of a block, with its border. -/
def textWidth (block : Block) : UInt32 :=
  .ofNat block.text.width +
    if block.border then .ofInt (config.logicalPx (toInt (.ofNat (block.borderLeft + block.borderRight))))
    else 0

/-- The render description that `predict_block_length` computes for the text that is shown. -/
def render (block : Block) : RenderDesc :=
  let width := textWidth config block
  let minWidth : UInt32 := .ofNat block.minWidth
  if minWidth ≤ width then ⟨width, 0, 0⟩
  else
    let padding := minWidth - width
    match block.align with
    | .left => ⟨width, 0, padding⟩
    | .right => ⟨width, padding, 0⟩
    | .center => ⟨width, padding / 2, padding / 2 + padding % 2⟩

/-- `predict_block_length` -/
def predictBlockLength (block : Block) : UInt32 :=
  if block.text.bytes = 0 then 0 else (render config block).full

/-- `predict_statusline_length` -/
def predictStatuslineLength : List Block → UInt32
  | [] => 0
  | block :: rest =>
    let blockWidth := predictBlockLength config block
    if blockWidth = 0 then predictStatuslineLength rest
    else blockWidth + (if rest = [] then 0 else sepBlockWidth block) + predictStatuslineLength rest

/-- What `switch_block_to_short` returns. -/
def saved (block : Block) : UInt32 :=
  predictBlockLength config block - predictBlockLength config block.switchToShort

/-- The loop of `adjust_statusline_length` over the blocks that are left. -/
def shorten (maxLength : UInt32) : List ℕ → UInt32 → List Block → UInt32 × List Block
  | [], width, blocks => (width, blocks)
  | i :: rest, width, blocks =>
    if width < maxLength then (width, blocks)
    else shorten maxLength rest
      (width - (blocks.mapIdx fun j b => if goesWith blocks i j b then saved config b else 0).sum)
      (blocks.mapIdx fun j b => if goesWith blocks i j b then b.switchToShort else b)

/-- `adjust_statusline_length`: the length, and the blocks with their forms. -/
def adjustStatuslineLength (maxLength : UInt32) (blocks : List Block) : UInt32 × List Block :=
  shorten config maxLength (List.range blocks.length) (predictStatuslineLength config blocks) blocks

/-- `draw_statusline`: the position behind the blocks, from `x` on. -/
def drawStatusline : UInt32 → List Block → UInt32
  | x, [] => x
  | x, block :: rest =>
    if block.text.bytes = 0 then drawStatusline x rest
    else drawStatusline
      (x + (render config block).full + if rest = [] then 0 else sepBlockWidth block) rest

/-- `predict_button_width` -/
def predictButtonWidth (nameWidth : ℤ) : ℤ :=
  max (nameWidth + 2 * config.logicalPx 4 + 2 * config.logicalPx 1) (config.logicalPx config.wsMinWidth)

/-- The width of the workspace buttons, with the spacing between them. -/
def buttonsWidth : List ℤ → ℤ
  | [] => 0
  | nameWidth :: rest =>
    predictButtonWidth config nameWidth + (if rest = [] then 0 else config.logicalPx 1) +
      buttonsWidth rest

/-- What `draw_bars` computes for the status line of a bar. -/
structure Drawn where
  blocks : List Block
  statuslineWidth : UInt32
  clipLeft : UInt32
  visibleWidth : ℤ
  xDest : ℤ

namespace Bar

variable (bar : Bar)

/-- `get_tray_width` -/
def trayWidth : ℤ :=
  let width := bar.trayClients * (config.iconSize + config.logicalPx config.trayPadding)
  if 0 < width then width + config.logicalPx 2 else width

/-- `logical_px((tray_width > 0) * sb_hoff_px)` -/
def trayOffset : ℤ := config.logicalPx ((if 0 < bar.trayWidth config then 1 else 0) * 4)

/-- `workspace_width` of `draw_bars`: the padding, the buttons and the binding mode. -/
def workspaceWidth : ℤ :=
  config.logicalPx config.paddingX +
    (if config.disableWs then 0 else buttonsWidth config bar.workspaces) +
    match bar.bindingMode with
    | none => 0
    | some nameWidth => config.logicalPx 1 + predictButtonWidth config nameWidth

/-- `hoff` of `draw_bars` -/
def hoff : ℤ :=
  config.logicalPx (((if 0 < bar.workspaceWidth config then 1 else 0) +
    (if 0 < bar.trayWidth config then 1 else 0)) * 4)

/-- The room for the status line. -/
def maxStatuslineWidth : UInt32 :=
  .ofInt (bar.rectW - bar.workspaceWidth config - bar.trayWidth config - bar.hoff config)

/-- `draw_bars` -/
def drawBars (blocks : List Block) : Drawn :=
  let maxStatuslineWidth := bar.maxStatuslineWidth config
  let adjusted := adjustStatuslineLength config maxStatuslineWidth
    (blocks.map fun b => { b with useShort := false })
  let statuslineWidth := adjusted.1
  let visibleWidth := toInt16 (min statuslineWidth maxStatuslineWidth)
  { blocks := adjusted.2
    statuslineWidth := statuslineWidth
    clipLeft := if statuslineWidth > maxStatuslineWidth then statuslineWidth - maxStatuslineWidth else 0
    visibleWidth := visibleWidth
    xDest := bar.rectW - bar.trayWidth config - bar.trayOffset config - visibleWidth -
      config.logicalPx config.paddingWidth }

/-- Where the last button ends, if there is one. -/
def lastButtonEnd : Option ℤ :=
  if bar.bindingMode = none ∧ (config.disableWs ∨ bar.workspaces = []) then none
  else some (bar.workspaceWidth config)

end Bar

/-- The positions of the bar to which the status line is copied. A negative width goes to the left. -/
def Drawn.Copied (drawn : Drawn) (x : ℤ) : Prop :=
  (drawn.xDest ≤ x ∧ x < drawn.xDest + drawn.visibleWidth) ∨
    (drawn.xDest + drawn.visibleWidth ≤ x ∧ x < drawn.xDest)

/-- What the status line is to keep to. -/
structure Fitted (bar : Bar) (blocks : List Block) : Prop where
  length : drawStatusline config (0 - (bar.drawBars config blocks).clipLeft)
      (bar.drawBars config blocks).blocks =
    0 - (bar.drawBars config blocks).clipLeft + (bar.drawBars config blocks).statuslineWidth
  inBar : ∀ x, (bar.drawBars config blocks).Copied x → 0 ≤ x ∧ x < bar.rectW
  rightOfButtons : ∀ x, (bar.drawBars config blocks).Copied x → ∀ e ∈ bar.lastButtonEnd config, e ≤ x
  leftOfTray : ∀ x, (bar.drawBars config blocks).Copied x → x < bar.rectW - bar.trayWidth config
  empty : bar.rectW - bar.trayWidth config ≤ (bar.lastButtonEnd config).getD 0 →
    ∀ x, ¬ (bar.drawBars config blocks).Copied x

/-! ### The status line after some blocks were shortened -/

/-- The blocks after the first `k` were shortened, each with the blocks that have its name. -/
def shownAfter (blocks : List Block) (k : ℕ) : List Block :=
  blocks.mapIdx fun j b => if ∃ i < k, goesWith blocks i j b then b.switchToShort else b

/-- The separators behind some of the blocks; there is none behind the last one. -/
def separators (p : Block → Bool) : List Block → UInt32
  | [] => 0
  | block :: rest => (if p block ∧ rest ≠ [] then sepBlockWidth block else 0) + separators p rest

/-- The block has a width. -/
def hasWidth (block : Block) : Bool := predictBlockLength config block ≠ 0

/-- The block has a text. -/
def hasText (block : Block) : Bool := block.text.bytes ≠ 0

/-- The widths of the blocks after the first `k` were shortened, and the separators there were before. -/
def lengthAfter (blocks : List Block) (k : ℕ) : UInt32 :=
  ((shownAfter blocks k).map (predictBlockLength config)).sum + separators (hasWidth config) blocks

/-- How many blocks have to be shortened to be shorter than `maxLength`; all of them if it cannot be
reached. -/
def rounds (maxLength : UInt32) (blocks : List Block) : ℕ :=
  ((List.range blocks.length).find? fun k => lengthAfter config blocks k < maxLength).getD blocks.length

/-- The blocks in their full form. -/
def fullForms (blocks : List Block) : List Block := blocks.map fun b => { b with useShort := false }

/-- What is visible of the status line: its length after shortening, up to the room, in 16 bits. -/
def visible (bar : Bar) (blocks : List Block) : ℤ :=
  let maxLength := bar.maxStatuslineWidth config
  toInt16 (min (lengthAfter config (fullForms blocks) (rounds config maxLength (fullForms blocks))) maxLength)

namespace Bar

variable (bar : Bar)

/-- Between the last button and the tray. -/
def leftEnd : ℤ := max 0 ((bar.lastButtonEnd config).getD 0)

def rightEnd : ℤ := min bar.rectW (bar.rectW - bar.trayWidth config)

/-- Where the status line ends on the right. -/
def statuslineEnd : ℤ :=
  bar.rectW - bar.trayWidth config - bar.trayOffset config - config.logicalPx config.paddingWidth

end Bar

/-- When the status line keeps to it. The separators behind the blocks that have a width in full form are
those behind the blocks that have a text once they are shortened, and what is visible has room between the
last button and the end of the status line. -/
structure Fits (bar : Bar) (blocks : List Block) : Prop where
  separators : separators (hasWidth config) (fullForms blocks) =
    separators hasText (shownAfter (fullForms blocks)
      (rounds config (bar.maxStatuslineWidth config) (fullForms blocks)))
  room : visible config bar blocks = 0 ∨
    (0 < visible config bar blocks ∧ bar.statuslineEnd config ≤ bar.rightEnd config ∧
      visible config bar blocks ≤ bar.statuslineEnd config - bar.leftEnd config) ∨
    (visible config bar blocks < 0 ∧ bar.leftEnd config ≤ bar.statuslineEnd config ∧
      -visible config bar blocks ≤ bar.rightEnd config - bar.statuslineEnd config)

variable {config} {bar : Bar} {blocks : List Block} {maxLength x : UInt32} {i k : ℕ}

/-! ### Lengths -/

theorem predictStatuslineLength_eq : predictStatuslineLength config blocks =
    (blocks.map (predictBlockLength config)).sum + separators (hasWidth config) blocks := by
  induction blocks with
  | nil => rfl
  | cons block rest ih =>
    rw [predictStatuslineLength, separators, List.map_cons, List.sum_cons, ih]
    by_cases hwidth : predictBlockLength config block = 0
    · simp [hasWidth, hwidth]
    · by_cases hrest : rest = []
      · simp [hasWidth, hwidth, hrest, separators]
      · simp only [hasWidth, hwidth, hrest, if_false, ne_eq, not_false_eq_true, decide_true, and_self,
          if_true]
        abel

theorem drawStatusline_eq : drawStatusline config x blocks =
    x + ((blocks.map (predictBlockLength config)).sum + separators hasText blocks) := by
  induction blocks generalizing x with
  | nil => simp [drawStatusline, separators]
  | cons block rest ih =>
    rw [drawStatusline, separators, List.map_cons, List.sum_cons, predictBlockLength]
    by_cases hbytes : block.text.bytes = 0
    · simp [hasText, hbytes, ih]
    · by_cases hrest : rest = []
      · simp [hasText, hbytes, hrest, drawStatusline, separators]
      · simp only [hasText, hbytes, hrest, if_false, ne_eq, not_false_eq_true, decide_true, and_self,
          if_true, ih]
        abel

/-! ### Shortening -/

theorem switchToShort_name (block : Block) : block.switchToShort.name = block.name := by
  rw [Block.switchToShort]
  split <;> rfl

theorem switchToShort_switchToShort (block : Block) :
    block.switchToShort.switchToShort = block.switchToShort := by
  by_cases h : block.shortText = none ∨ block.useShort
  · have hsame : block.switchToShort = block := if_pos h
    rw [hsame, hsame]
  · have hshort : block.switchToShort = { block with useShort := true } := if_neg h
    rw [hshort]
    exact if_pos (.inr rfl)

/-- The names are those of the blocks in their full form. -/
theorem goesWith_shownAfter {b c : Block} (hname : c.name = b.name) (j : ℕ) :
    goesWith (shownAfter blocks k) i j c = goesWith blocks i j b := by
  have hnames : (shownAfter blocks k)[i]?.bind Block.name = blocks[i]?.bind Block.name := by
    rw [shownAfter, List.getElem?_mapIdx]
    cases blocks[i]? with
    | none => rfl
    | some block =>
      rw [Option.map_some, Option.bind_some, Option.bind_some]
      split
      · exact switchToShort_name block
      · rfl
  rw [goesWith, goesWith, hnames, hname]

theorem shownAfter_zero : shownAfter blocks 0 = blocks := by
  rw [shownAfter]
  apply List.ext_getElem?
  intro j
  rw [List.getElem?_mapIdx]
  cases blocks[j]? <;> simp

/-- **One more round** shortens the next block and those with its name. -/
theorem shownAfter_succ : shownAfter blocks (i + 1) =
    (shownAfter blocks i).mapIdx fun j b =>
      if goesWith (shownAfter blocks i) i j b then b.switchToShort else b := by
  have hround : ∀ j b, (if ∃ k < i + 1, goesWith blocks k j b then b.switchToShort else b) =
      (fun c => if goesWith (shownAfter blocks i) i j c then c.switchToShort else c)
        (if ∃ k < i, goesWith blocks k j b then b.switchToShort else b) := by
    intro j b
    by_cases hbefore : ∃ k < i, goesWith blocks k j b
    · rw [if_pos (Nat.exists_lt_succ_right.mpr (.inl hbefore)), if_pos hbefore]
      dsimp only
      rw [switchToShort_switchToShort, ite_self]
    · rw [if_neg hbefore]
      dsimp only
      rw [goesWith_shownAfter rfl]
      by_cases hround : goesWith blocks i j b
      · rw [if_pos (Nat.exists_lt_succ_right.mpr (.inr hround)), if_pos hround]
      · rw [if_neg hround, if_neg]
        exact fun h => (Nat.exists_lt_succ_right.mp h).elim hbefore hround
  conv_rhs => rw [shownAfter, List.mapIdx_mapIdx]
  rw [shownAfter]
  congr 1
  funext j b
  exact hround j b

theorem sum_mapIdx_sub {α : Type} (l : List α) (f g : ℕ → α → UInt32) :
    (l.mapIdx f).sum - (l.mapIdx g).sum = (l.mapIdx fun j b => f j b - g j b).sum := by
  induction l generalizing f g with
  | nil => simp
  | cons b l ih =>
    rw [List.mapIdx_cons, List.mapIdx_cons, List.mapIdx_cons, List.sum_cons, List.sum_cons, List.sum_cons,
      ← ih]
    abel

theorem map_eq_mapIdx {α β : Type} (l : List α) (f : α → β) : l.map f = l.mapIdx fun _ b => f b := by
  apply List.ext_getElem?
  intro j
  rw [List.getElem?_mapIdx, List.getElem?_map]

/-- What a round saves is what it takes off the length. -/
theorem lengthAfter_succ : lengthAfter config blocks i -
      ((shownAfter blocks i).mapIdx fun j b =>
        if goesWith (shownAfter blocks i) i j b then saved config b else 0).sum =
    lengthAfter config blocks (i + 1) := by
  have hsaved : ∀ j b, predictBlockLength config b -
      (if goesWith (shownAfter blocks i) i j b then saved config b else 0) =
      predictBlockLength config (if goesWith (shownAfter blocks i) i j b then b.switchToShort else b) := by
    intro j b
    split
    · rw [saved, sub_sub_cancel]
    · rw [sub_zero]
  rw [lengthAfter, lengthAfter, shownAfter_succ, add_sub_right_comm, map_eq_mapIdx, sum_mapIdx_sub,
    map_eq_mapIdx (List.mapIdx _ _), List.mapIdx_mapIdx]
  simp only [hsaved, Function.comp_def]

theorem shorten_eq (config : Config) (blocks : List Block) (maxLength : UInt32) (i n : ℕ) :
    shorten config maxLength (List.range' i n) (lengthAfter config blocks i) (shownAfter blocks i) =
      let k := ((List.range' i n).find? fun k => lengthAfter config blocks k < maxLength).getD (i + n)
      (lengthAfter config blocks k, shownAfter blocks k) := by
  induction n generalizing i with
  | zero => rfl
  | succ n ih =>
    rw [List.range'_succ, shorten, List.find?_cons]
    by_cases hlt : lengthAfter config blocks i < maxLength
    · simp [hlt]
    · rw [if_neg hlt, lengthAfter_succ, ← shownAfter_succ, ih]
      simp [hlt, Nat.add_right_comm, Nat.add_assoc]

/-- **The loop** shortens as many blocks as have to be, and its length is that of the blocks with the
separators there were before. -/
theorem adjustStatuslineLength_eq (maxLength : UInt32) (blocks : List Block) :
    adjustStatuslineLength config maxLength blocks =
      (lengthAfter config blocks (rounds config maxLength blocks),
        shownAfter blocks (rounds config maxLength blocks)) := by
  have hstart : predictStatuslineLength config blocks = lengthAfter config blocks 0 := by
    rw [lengthAfter, shownAfter_zero, predictStatuslineLength_eq]
  have hloop := shorten_eq config blocks maxLength 0 blocks.length
  rw [shownAfter_zero] at hloop
  rw [adjustStatuslineLength, hstart, List.range_eq_range', hloop, rounds, List.range_eq_range', Nat.zero_add]

/-! ### The area of the status line -/

section Area

variable (config) (bar) (blocks)

theorem statuslineWidth_drawBars : (bar.drawBars config blocks).statuslineWidth =
    lengthAfter config (fullForms blocks) (rounds config (bar.maxStatuslineWidth config) (fullForms blocks)) :=
  congrArg Prod.fst (adjustStatuslineLength_eq (bar.maxStatuslineWidth config) (fullForms blocks))

theorem blocks_drawBars : (bar.drawBars config blocks).blocks =
    shownAfter (fullForms blocks) (rounds config (bar.maxStatuslineWidth config) (fullForms blocks)) :=
  congrArg Prod.snd (adjustStatuslineLength_eq (bar.maxStatuslineWidth config) (fullForms blocks))

theorem visibleWidth_drawBars : (bar.drawBars config blocks).visibleWidth = visible config bar blocks := by
  simp only [visible, ← statuslineWidth_drawBars]
  simp only [Bar.drawBars]

theorem xDest_drawBars : (bar.drawBars config blocks).xDest =
    bar.statuslineEnd config - visible config bar blocks := by
  rw [← visibleWidth_drawBars, Bar.statuslineEnd, sub_right_comm]
  simp only [Bar.drawBars]

end Area

/-- The positions on both sides of `e - v` up to `e`, and when they are between `l` and `r`. -/
theorem forall_between_iff {l r e v : ℤ} :
    (∀ x, (e - v ≤ x ∧ x < e - v + v) ∨ (e - v + v ≤ x ∧ x < e - v) → l ≤ x ∧ x < r) ↔
      v = 0 ∨ (0 < v ∧ e ≤ r ∧ v ≤ e - l) ∨ (v < 0 ∧ l ≤ e ∧ -v ≤ r - e) := by
  constructor
  · intro h
    rcases lt_trichotomy v 0 with hv | hv | hv
    · have hfirst := h e (.inr ⟨by omega, by omega⟩)
      have hlast := h (e - v - 1) (.inr ⟨by omega, by omega⟩)
      omega
    · exact .inl hv
    · have hfirst := h (e - v) (.inl ⟨by omega, by omega⟩)
      have hlast := h (e - 1) (.inl ⟨by omega, by omega⟩)
      omega
  · intro h x hx
    omega

theorem between_iff {e : ℤ} : (bar.leftEnd config ≤ e ∧ e < bar.rightEnd config) ↔
    (0 ≤ e ∧ e < bar.rectW) ∧ (∀ b ∈ bar.lastButtonEnd config, b ≤ e) ∧ e < bar.rectW - bar.trayWidth config := by
  rw [Bar.leftEnd, Bar.rightEnd]
  cases bar.lastButtonEnd config with
  | none => simp; omega
  | some b => simp; omega

/-- **The status line fits** just when the separators are those it was predicted with, and what is visible
of it has room between the last button and where it is to end. -/
theorem fitted_iff (config : Config) (bar : Bar) (blocks : List Block) :
    Fitted config bar blocks ↔ Fits config bar blocks := by
  have hlength : drawStatusline config (0 - (bar.drawBars config blocks).clipLeft)
        (bar.drawBars config blocks).blocks =
      0 - (bar.drawBars config blocks).clipLeft + (bar.drawBars config blocks).statuslineWidth ↔
      separators (hasWidth config) (fullForms blocks) =
        separators hasText (shownAfter (fullForms blocks)
          (rounds config (bar.maxStatuslineWidth config) (fullForms blocks))) := by
    rw [drawStatusline_eq, statuslineWidth_drawBars, blocks_drawBars, lengthAfter]
    constructor
    · intro h
      exact (add_left_cancel (add_left_cancel h)).symm
    · intro h
      rw [h]
  have hroom := forall_between_iff (l := bar.leftEnd config) (r := bar.rightEnd config)
    (e := bar.statuslineEnd config) (v := visible config bar blocks)
  have hcopied : ∀ x, (bar.drawBars config blocks).Copied x ↔
      (bar.statuslineEnd config - visible config bar blocks ≤ x ∧
        x < bar.statuslineEnd config - visible config bar blocks + visible config bar blocks) ∨
      (bar.statuslineEnd config - visible config bar blocks + visible config bar blocks ≤ x ∧
        x < bar.statuslineEnd config - visible config bar blocks) := by
    intro x
    rw [Drawn.Copied, visibleWidth_drawBars, xDest_drawBars]
  constructor
  · intro h
    refine ⟨hlength.mp h.length, hroom.mp fun x hx => ?_⟩
    have hx := (hcopied x).mpr hx
    exact between_iff.mpr ⟨h.inBar x hx, h.rightOfButtons x hx, h.leftOfTray x hx⟩
  · intro h
    have hbetween : ∀ x, (bar.drawBars config blocks).Copied x →
        bar.leftEnd config ≤ x ∧ x < bar.rightEnd config := fun x hx =>
      hroom.mpr h.room x ((hcopied x).mp hx)
    exact {
      length := hlength.mpr h.separators
      inBar := fun x hx => (between_iff.mp (hbetween x hx)).1
      rightOfButtons := fun x hx => (between_iff.mp (hbetween x hx)).2.1
      leftOfTray := fun x hx => (between_iff.mp (hbetween x hx)).2.2
      empty := by
        intro hnone x hx
        obtain ⟨hleft, hright⟩ := hbetween x hx
        rw [Bar.leftEnd] at hleft
        rw [Bar.rightEnd] at hright
        omega }

/-- A bar that its one button fills, and a block of fifty pixels. -/
def filledBar : Bar where
  rectW := 300
  workspaces := [290]

def fiftyPixels : Block where
  fullText := { bytes := 5, width := 50 }

/-- The room is four pixels less than none, which is a large number: the block is copied over the button. -/
theorem not_fitted_filledBar : ¬ Fitted {} filledBar [fiftyPixels] := by
  intro h
  have hxDest : (filledBar.drawBars {} [fiftyPixels]).xDest = 250 := by decide +kernel
  have hvisible : (filledBar.drawBars {} [fiftyPixels]).visibleWidth = 50 := by decide +kernel
  have hcopied : (filledBar.drawBars {} [fiftyPixels]).Copied 250 := by
    rw [Drawn.Copied, hxDest, hvisible]
    omega
  have hend := h.rightOfButtons 250 hcopied 300 (by decide)
  omega

/-- With an empty short text, the status line is drawn without the separator that its length has. -/
theorem not_fits_emptyShort : ¬ Fits {} { rectW := 100 }
    [{ fullText := { bytes := 5, width := 200 }, shortText := some { bytes := 0, width := 0 } },
      fiftyPixels] := by
  intro h
  exact absurd h.separators (by decide +kernel)

end Fitting

end I3
