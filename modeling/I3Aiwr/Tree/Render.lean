import I3Aiwr.Lib.Apportion
import I3Aiwr.Tree.Overview
import I3Aiwr.Tree.Percent
import Mathlib.Data.Rat.Floor

/-!
# Rendering splits

How the children of a split get their rectangles: `precalculate_sizes`, `render_con_split` and the loop
over the children in `render_con` (`src/render.c`), with `rect_sanitize_dimensions` (`src/util.c`). The
share of a child in its parent's size is rounded, and the first children are corrected until the sizes
add up. Left out are gaps, decorations, and the rendering of the children themselves. Doubles are
rationals.

A child of one pixel can be the one that is corrected: it is left with no size, is given a pixel all the
same, and overlaps with the next one.

## Main definitions

* `Tree.precalculateSizes`, `Tree.renderSplit`
* `Tiles`: rectangles are side by side along an axis
* `Tree.Rendered`: what rendering a split is to do
-/

namespace I3

open Apportion

/-- `lround`: to the nearest integer, halves away from zero. -/
def lround (q : ℚ) : ℤ := if 0 ≤ q then ⌊q + 1 / 2⌋ else ⌈q - 1 / 2⌉

/-- `rect_sanitize_dimensions` -/
def Rect.sanitizeDimensions (r : Rect) : Rect :=
  { r with
    width := if toInt r.width ≤ 0 then 1 else r.width
    height := if toInt r.height ≤ 0 then 1 else r.height }

/-- `render_params`, as far as splits depend on it. -/
structure RenderParams where
  x : ℤ
  y : ℤ
  rect : Rect
  sizes : List ℤ
  deriving DecidableEq, Repr

/-- The position along an axis. -/
def RenderParams.position (p : RenderParams) (o : Orientation) : ℤ := if o = .horiz then p.x else p.y

/-- One pass of the correction in `precalculate_sizes`: the new sizes, and their sum. -/
def correctPass (signal total : ℤ) : List ℤ → ℤ → List ℤ × ℤ
  | [], assigned => ([], assigned)
  | size :: sizes, assigned =>
    if assigned = total then (size :: sizes, assigned)
    else
      let r := correctPass signal total sizes (assigned + signal)
      ((size + signal) :: r.1, r.2)

/-- The correction, with at most `n` passes; `none` if they are not enough. -/
def correctN (signal total : ℤ) : ℕ → List ℤ → ℤ → Option (List ℤ)
  | 0, sizes, assigned => if assigned = total then some sizes else none
  | n + 1, sizes, assigned =>
    if assigned = total then some sizes
    else
      let r := correctPass signal total sizes assigned
      correctN signal total n r.1 r.2

/-- Rectangles are side by side along an axis, from `s` to `e`, none of them empty: each begins, as an
`int`, where the one before ends. -/
def Tiles (o : Orientation) : ℤ → List Rect → ℤ → Prop
  | s, [], e => s = e
  | s, r :: rs, e => r.start o = toInt s ∧ 0 < r.extent o ∧ Tiles o (s + r.extent o) rs e

/-- Rounding the shares adds no more pixels than there are children ahead of one that has less than one
and a half. -/
def Spared (total : ℤ) (shares : List ℚ) : Prop :=
  ∀ (k : ℕ) (q : ℚ), shares[k]? = some q → q < 3 / 2 → (shares.map round).sum ≤ total + k

namespace Tree

variable (t : Tree)

/-- The size of a container along the axis of its split. -/
def totalSize (con : ConId) : ℤ := toInt (t.rectSizeInOrientation con)

/-- `precalculate_sizes`, with at most `n` passes to correct the sizes. It is `none` where an assertion
fails or the passes are not enough, and where there is nothing to divide there are no sizes. -/
def precalculateSizes (n : ℕ) (con : ConId) : Option (List ℤ) :=
  let nodes := (t.con con).nodesHead
  if ((t.con con).layout ≠ .splith ∧ (t.con con).layout ≠ .splitv) ∨ nodes = [] then some []
  else
    let total := t.totalSize con
    let sizes := nodes.map fun child =>
      toInt (lround ((if 0 < (t.con child).percent then (t.con child).percent else 1 / nodes.length) * total))
    let assigned := sizes.sum
    if |assigned - total| ≤ nodes.length * 2 then
      correctN (if assigned < total then 1 else -1) total n sizes assigned
    else none

/-- `render_con_split` -/
def renderConSplit (con child : ConId) (p : RenderParams) (i : ℕ) : Tree × RenderParams :=
  let size := u32 (p.sizes.getD i 0)
  if (t.con con).layout = .splith then
    (t.setRect child { x := p.x, y := p.y, width := size, height := p.rect.height },
      { p with x := toInt (p.x + size) })
  else
    (t.setRect child { x := p.x, y := p.y, width := p.rect.width, height := size },
      { p with y := toInt (p.y + size) })

/-- The loop over the children in `render_con`, from the `i`-th on. -/
def renderChildren (con : ConId) : List ConId → ℕ → RenderParams → Tree → Tree
  | [], _, _, t => t
  | child :: nodes, i, p, t =>
    let r := t.renderConSplit con child p i
    renderChildren con nodes (i + 1) r.2 (r.1.setRect child (r.1.con child).rect.sanitizeDimensions)

/-- What `render_con` does to the children of a split that has these sizes. -/
def renderSplit (con : ConId) (sizes : List ℤ) : Tree :=
  let rect := (t.con con).rect
  renderChildren con (t.con con).nodesHead 0 { x := toInt rect.x, y := toInt rect.y, rect, sizes } t

/-- The axis along which a split divides its rectangle. -/
def axis (con : ConId) : Orientation := if (t.con con).layout = .splith then .horiz else .vert

/-- What each child is to have of the size of its parent. -/
def shares (con : ConId) : List ℚ :=
  (t.con con).nodesHead.map fun child => (t.con child).percent * t.totalSize con

/-- A split whose children share its size, each with a pixel at least. -/
structure Shared (con : ConId) : Prop where
  split : (t.con con).layout = .splith ∨ (t.con con).layout = .splitv
  nodup : (t.con con).nodesHead.Nodup
  total : 0 < t.totalSize con
  positive : ∀ child ∈ (t.con con).nodesHead, 0 < (t.con child).percent
  sum : t.percentSum (t.con con).nodesHead = 1
  pixel : ∀ child ∈ (t.con con).nodesHead, 1 / (t.totalSize con : ℚ) ≤ (t.con child).percent

/-- What rendering a split is to do, with these sizes. -/
structure Rendered (con : ConId) (sizes : List ℤ) : Prop where
  terminates : ∀ n, 1 ≤ n → t.precalculateSizes n con = some sizes
  sum : sizes.sum = t.totalSize con
  pixel : ∀ size ∈ sizes, 1 ≤ size
  near : List.Forall₂ (fun child (size : ℤ) => |(t.con child).percent * t.totalSize con - size| < 2)
    (t.con con).nodesHead sizes
  tiles : Tiles (t.axis con) ((t.con con).rect.start (t.axis con))
    ((t.con con).nodesHead.map fun child => ((t.renderSplit con sizes).con child).rect)
    ((t.con con).rect.start (t.axis con) + t.totalSize con)

end Tree

/-! ### Numbers -/

theorem toInt_of_bounds {z : ℤ} (hle : -2 ^ 31 ≤ z) (hlt : z < 2 ^ 31) : toInt z = z := by
  rw [toInt, Int.bmod_eq_of_le_mul_two] <;> omega

theorem toInt_lt (z : ℤ) : toInt z < 2 ^ 31 := by
  have hlt := Int.bmod_lt (x := z) (m := 2 ^ 32) (by decide)
  rw [toInt]
  omega

theorem toInt_toInt_add (y z : ℤ) : toInt (toInt y + z) = toInt (y + z) := Int.bmod_add_bmod

theorem u32_of_bounds {z : ℤ} (hle : 0 ≤ z) (hlt : z < 2 ^ 31) : (u32 z : ℤ) = z := by
  rw [u32, Int.toNat_of_nonneg (by omega), Int.emod_eq_of_lt hle (by omega)]

theorem lround_of_nonneg {q : ℚ} (hq : 0 ≤ q) : lround q = round q := by
  rw [lround, if_pos hq, round_eq]

/-! ### Tilings -/

section Tilings

variable {o : Orientation} {s e x : ℤ} {r : Rect} {rects : List Rect}

theorem Tiles.le (h : Tiles o s rects e) : s ≤ e := by
  induction rects generalizing s with
  | nil => exact h.le
  | cons r rects ih =>
    have hle := ih h.2.2
    omega

/-- Where positions fit an `int`, no rectangle begins before the first. -/
theorem Tiles.le_start (h : Tiles o s rects e) (hs : -2 ^ 31 ≤ s) (he : e ≤ 2 ^ 31) (hr : r ∈ rects) :
    s ≤ r.start o := by
  induction rects generalizing s with
  | nil => cases hr
  | cons first rects ih =>
    obtain ⟨hstart, hpos, hrest⟩ := h
    have hle := hrest.le
    rcases List.mem_cons.mp hr with rfl | hr
    · rw [hstart, toInt_of_bounds hs (by omega)]
    · have hnext := ih hrest (by omega) hr
      omega

/-- **Every pixel is in exactly one of them**, where positions fit an `int`. -/
theorem Tiles.existsUnique (h : Tiles o s rects e) (hs : -2 ^ 31 ≤ s) (he : e ≤ 2 ^ 31) (hx : s ≤ x)
    (hxe : x < e) :
    ∃! i : ℕ, ∃ r, rects[i]? = some r ∧ r.start o ≤ x ∧ x < r.start o + r.extent o := by
  induction rects generalizing s with
  | nil =>
    have heq : s = e := h
    omega
  | cons first rects ih =>
    obtain ⟨hstart, hpos, hrest⟩ := h
    have hle := hrest.le
    rw [toInt_of_bounds hs (by omega)] at hstart
    by_cases hfirst : x < s + first.extent o
    · refine ⟨0, ⟨first, rfl, by omega, by omega⟩, ?_⟩
      rintro (- | i) ⟨r, hr, hrx, -⟩
      · rfl
      · -- the others begin where the first one ends, or later
        have hnext := hrest.le_start (by omega) he (List.mem_of_getElem? hr)
        omega
    · obtain ⟨i, hi, hunique⟩ := ih hrest (by omega) (by omega)
      refine ⟨i + 1, hi, ?_⟩
      rintro (- | k) ⟨r, hr, hrx, hxr⟩
      · obtain rfl : first = r := Option.some.inj hr
        omega
      · exact congrArg (· + 1) (hunique k ⟨r, hr, hrx, hxr⟩)

end Tilings

/-! ### The correction -/

section Correction

variable {signal total assigned : ℤ} {sizes : List ℤ} {n m : ℕ}

/-- **One pass** corrects the first sizes, as many as are needed. -/
theorem correctPass_eq (hsignal : signal ≠ 0) (hn : n ≤ sizes.length) :
    correctPass signal total sizes (total - n * signal) = (handOut signal n sizes, total) := by
  induction sizes generalizing n with
  | nil =>
    obtain rfl : n = 0 := Nat.le_zero.mp hn
    simp [correctPass]
  | cons size sizes ih =>
    cases n with
    | zero => simp [correctPass]
    | succ n =>
      have hne : total - (n + 1 : ℕ) * signal ≠ total := by
        intro h
        have hzero : ((n + 1 : ℕ) : ℤ) * signal = 0 := by omega
        rcases mul_eq_zero.mp hzero with h | h
        · omega
        · exact hsignal h
      have hnext : total - (n + 1 : ℕ) * signal + signal = total - n * signal := by
        push_cast
        ring
      rw [correctPass, if_neg hne, hnext, ih (Nat.le_of_succ_le_succ hn), handOut_succ_cons]

theorem correctN_total : correctN signal total n sizes total = some sizes := by
  cases n <;> rw [correctN, if_pos rfl]

/-- The loop ends after its first pass. -/
theorem correctN_eq (hsignal : signal ≠ 0) (hn : n ≤ sizes.length) (hm : 1 ≤ m)
    (hassigned : assigned = total - n * signal) :
    correctN signal total m sizes assigned = some (handOut signal n sizes) := by
  obtain ⟨m, rfl⟩ := Nat.exists_eq_add_of_le' hm
  by_cases h : assigned = total
  · have hzero : (n : ℤ) * signal = 0 := by omega
    obtain rfl : n = 0 := by
      rcases mul_eq_zero.mp hzero with h | h
      · omega
      · exact absurd h hsignal
    rw [h, correctN_total, handOut_zero]
  · rw [correctN, if_neg h, hassigned]
    simp only [correctPass_eq hsignal hn, correctN_total]

end Correction

namespace Tree

variable {t : Tree} {con child d : ConId} {nodes : List ConId} {sizes : List ℤ} {q : ℚ} {n : ℕ}

/-! ### The sizes -/

namespace Shared

variable (h : t.Shared con)

include h

theorem sum_shares : (t.shares con).sum = t.totalSize con := by
  have hsum := h.sum
  rw [percentSum] at hsum
  rw [shares, List.sum_map_mul_right, hsum, one_mul]

theorem percent_le_one (hchild : child ∈ (t.con con).nodesHead) : (t.con child).percent ≤ 1 := by
  rw [← h.sum, percentSum]
  apply List.single_le_sum
  · simp only [List.mem_map]
    rintro _ ⟨d, hd, rfl⟩
    exact (h.positive d hd).le
  · exact List.mem_map_of_mem hchild

theorem one_le_share (hq : q ∈ t.shares con) : 1 ≤ q := by
  obtain ⟨child, hchild, rfl⟩ := List.mem_map.mp hq
  have htotal : (0 : ℚ) < t.totalSize con := by exact_mod_cast h.total
  exact (div_le_iff₀ htotal).mp (h.pixel child hchild)

theorem share_le_total (hq : q ∈ t.shares con) : q ≤ t.totalSize con := by
  obtain ⟨child, hchild, rfl⟩ := List.mem_map.mp hq
  have htotal : (0 : ℚ) < t.totalSize con := by exact_mod_cast h.total
  exact mul_le_of_le_one_left htotal.le (h.percent_le_one hchild)

/-- A rounded share is a number that fits an `int`. -/
theorem toInt_lround_share (hq : q ∈ t.shares con) : toInt (lround q) = round q := by
  have hone := h.one_le_share hq
  have hround : 1 ≤ round q := one_le_round hone
  have hle : round q ≤ t.totalSize con := by
    rw [round_eq, ← Int.lt_add_one_iff, Int.floor_lt]
    push_cast
    linarith [h.share_le_total hq]
  have hlt : t.totalSize con < 2 ^ 31 := toInt_lt _
  rw [lround_of_nonneg (by linarith), toInt_of_bounds (by omega) (by omega)]

theorem nodesHead_ne_nil : (t.con con).nodesHead ≠ [] := by
  intro hnil
  have hsum := h.sum
  rw [hnil] at hsum
  simp [percentSum] at hsum

/-- **The sizes** are the rounded shares, of which the first are corrected by one. -/
theorem precalculateSizes_eq (hn : 1 ≤ n) :
    t.precalculateSizes n con = some (apportion (t.totalSize con) (t.shares con)) := by
  have hlayout : ¬ (((t.con con).layout ≠ .splith ∧ (t.con con).layout ≠ .splitv) ∨
      (t.con con).nodesHead = []) := by
    rintro (⟨hh, hv⟩ | hnil)
    · exact h.split.elim hh hv
    · exact h.nodesHead_ne_nil hnil
  have hsizes : ((t.con con).nodesHead.map fun child =>
      toInt (lround ((if 0 < (t.con child).percent then (t.con child).percent
        else 1 / (t.con con).nodesHead.length) * t.totalSize con))) = (t.shares con).map round := by
    rw [shares, List.map_map]
    refine List.map_congr_left fun child hchild => ?_
    rw [if_pos (h.positive child hchild), Function.comp_apply]
    exact h.toInt_lround_share (List.mem_map_of_mem hchild)
  have hle := two_mul_natAbs_le h.sum_shares
  have hlength : (t.shares con).length = (t.con con).nodesHead.length := List.length_map ..
  rw [precalculateSizes, if_neg hlayout]
  simp only [hsizes]
  rw [if_pos (by rw [Int.abs_eq_natAbs]; omega), apportion]
  refine correctN_eq (by split <;> decide) (by rw [List.length_map]; omega) hn ?_
  split <;> omega

end Shared

/-! ### The rectangles -/

section Rectangles

variable {o : Orientation} {s : ℤ} {p : RenderParams} {i : ℕ} {rect : Rect}

theorem layout_setRect : ((t.setRect child rect).con d).layout = (t.con d).layout := by
  rw [setRect, modify_con]
  split <;> rfl

theorem axis_setRect : (t.setRect child rect).axis con = t.axis con := by
  rw [axis, axis, layout_setRect]

theorem rect_setRect : ((t.setRect child rect).con d).rect = if d = child then rect else (t.con d).rect := by
  rw [setRect, modify_con]
  split <;> rfl

theorem renderConSplit_fst (t : Tree) (con child : ConId) (p : RenderParams) (i : ℕ) :
    ∃ rect, (t.renderConSplit con child p i).1 = t.setRect child rect ∧
    rect.start (t.axis con) = p.position (t.axis con) ∧
    rect.extent (t.axis con) = u32 (p.sizes.getD i 0) := by
  rw [renderConSplit, axis]
  by_cases hlayout : (t.con con).layout = .splith
  · rw [if_pos hlayout, if_pos hlayout]
    exact ⟨_, rfl, rfl, rfl⟩
  · rw [if_neg hlayout, if_neg hlayout]
    exact ⟨_, rfl, rfl, rfl⟩

theorem renderConSplit_snd (t : Tree) (con child : ConId) (p : RenderParams) (i : ℕ) :
    (t.renderConSplit con child p i).2.sizes = p.sizes ∧
    (t.renderConSplit con child p i).2.position (t.axis con) =
      toInt (p.position (t.axis con) + u32 (p.sizes.getD i 0)) := by
  by_cases hlayout : (t.con con).layout = .splith
  · simp [renderConSplit, axis, RenderParams.position, hlayout]
  · simp [renderConSplit, axis, RenderParams.position, hlayout]

theorem start_sanitizeDimensions : rect.sanitizeDimensions.start o = rect.start o := by
  rw [Rect.start, Rect.start, Rect.sanitizeDimensions]

/-- A size that fits an `int` stays as it is. -/
theorem extent_sanitizeDimensions (hpos : 0 < rect.extent o) (hlt : rect.extent o < 2 ^ 31) :
    rect.sanitizeDimensions.extent o = rect.extent o := by
  have hint : toInt (rect.extent o) = rect.extent o := toInt_of_bounds (by omega) (by exact_mod_cast hlt)
  by_cases ho : o = .horiz
  · simp only [Rect.extent, if_pos ho] at hint hpos
    simp only [Rect.extent, if_pos ho, Rect.sanitizeDimensions]
    rw [if_neg (by omega)]
  · simp only [Rect.extent, if_neg ho] at hint hpos
    simp only [Rect.extent, if_neg ho, Rect.sanitizeDimensions]
    rw [if_neg (by omega)]

theorem rect_renderChildren_of_notMem (hd : d ∉ nodes) :
    ((renderChildren con nodes i p t).con d).rect = (t.con d).rect := by
  induction nodes generalizing t i p with
  | nil => rfl
  | cons child nodes ih =>
    obtain ⟨hne, hd⟩ := List.ne_and_not_mem_of_not_mem_cons hd
    obtain ⟨rect, hfst, -⟩ := renderConSplit_fst t con child p i
    rw [renderChildren, ih hd, rect_setRect, if_neg hne, hfst, rect_setRect, if_neg hne]

/-- **The children are side by side**: the step puts the next one where the positions are advanced to,
and what follows does not touch it. -/
theorem tiles_renderChildren (hnodup : nodes.Nodup) (hsizes : p.sizes.drop i = sizes)
    (hlength : sizes.length = nodes.length) (hbounds : ∀ size ∈ sizes, 1 ≤ size ∧ size < 2 ^ 31)
    (hp : p.position (t.axis con) = toInt s) :
    Tiles (t.axis con) s (nodes.map fun c => ((renderChildren con nodes i p t).con c).rect)
      (s + sizes.sum) := by
  induction nodes generalizing t i p sizes s with
  | nil =>
    obtain rfl : sizes = [] := List.length_eq_zero_iff.mp hlength
    simp [Tiles]
  | cons child nodes ih =>
    obtain ⟨size, sizes, rfl⟩ := List.exists_cons_of_length_eq_add_one hlength
    obtain ⟨hchild, hnodup⟩ := List.nodup_cons.mp hnodup
    obtain ⟨⟨hone, hlt⟩, hbounds⟩ := List.forall_mem_cons.mp hbounds
    have hsize : p.sizes.getD i 0 = size := by
      rw [List.getD_eq_getElem?_getD, ← Nat.add_zero i, ← List.getElem?_drop, hsizes]
      rfl
    have hdrop : p.sizes.drop (i + 1) = sizes := by
      rw [← List.drop_drop, hsizes, List.drop_succ_cons, List.drop_zero]
    have hu32 : (u32 size : ℤ) = size := u32_of_bounds (by omega) hlt
    obtain ⟨rect, hfst, hstart, hextent⟩ := renderConSplit_fst t con child p i
    obtain ⟨hsndSizes, hsnd⟩ := renderConSplit_snd t con child p i
    rw [hsize] at hextent hsnd
    have hsame : rect.sanitizeDimensions.extent (t.axis con) = u32 size := by
      rw [extent_sanitizeDimensions (by omega) (by omega), hextent]
    have hrest := ih (t := (t.setRect child rect).setRect child rect.sanitizeDimensions) hnodup
      (hsndSizes ▸ hdrop) (Nat.succ.inj hlength) hbounds (s := s + size)
      (by rw [axis_setRect, axis_setRect, hsnd, hp, hu32, toInt_toInt_add])
    rw [axis_setRect, axis_setRect] at hrest
    rw [renderChildren, hfst, rect_setRect, if_pos rfl, List.map_cons, List.sum_cons, ← add_assoc]
    refine ⟨?_, ?_, ?_⟩
    · rw [rect_renderChildren_of_notMem hchild, rect_setRect, if_pos rfl, start_sanitizeDimensions,
        hstart, hp]
    · rw [rect_renderChildren_of_notMem hchild, rect_setRect, if_pos rfl, hsame]
      omega
    · rw [rect_renderChildren_of_notMem hchild, rect_setRect, if_pos rfl, hsame, hu32]
      exact hrest

theorem tiles_renderSplit (hnodup : (t.con con).nodesHead.Nodup)
    (hlength : sizes.length = (t.con con).nodesHead.length)
    (hbounds : ∀ size ∈ sizes, 1 ≤ size ∧ size < 2 ^ 31) :
    Tiles (t.axis con) ((t.con con).rect.start (t.axis con))
      ((t.con con).nodesHead.map fun child => ((t.renderSplit con sizes).con child).rect)
      ((t.con con).rect.start (t.axis con) + sizes.sum) := by
  rw [renderSplit]
  refine tiles_renderChildren hnodup ?_ hlength hbounds ?_
  · exact List.drop_zero
  · by_cases ho : t.axis con = .horiz
    · simp only [RenderParams.position, Rect.start, if_pos ho]
    · simp only [RenderParams.position, Rect.start, if_neg ho]

end Rectangles

/-! ### What a split looks like -/

/-- **Split children tile their parent** just when no child that has less than one and a half pixels is
among the first, which give up what rounding adds. -/
theorem rendered_iff (h : t.Shared con) :
    (∃ sizes, t.Rendered con sizes) ↔ Spared (t.totalSize con) (t.shares con) := by
  have hpixel := forall_one_le_apportion (t.totalSize con) fun q => h.one_le_share (q := q)
  constructor
  · rintro ⟨sizes, hsizes⟩
    have hsame := hsizes.terminates 1 le_rfl
    rw [h.precalculateSizes_eq le_rfl, Option.some.injEq] at hsame
    exact hpixel.mp (hsame ▸ hsizes.pixel)
  · intro hspared
    have hone := hpixel.mpr hspared
    have hsum := sum_apportion h.sum_shares
    have hnear := apportion_near (t.totalSize con) (t.shares con)
    refine ⟨apportion (t.totalSize con) (t.shares con), fun n => h.precalculateSizes_eq, hsum, hone, ?_, ?_⟩
    · rw [shares, List.forall₂_map_left_iff] at hnear
      exact hnear.imp fun _ _ hle => lt_of_le_of_lt hle (by norm_num)
    · have hlength : (apportion (t.totalSize con) (t.shares con)).length = (t.con con).nodesHead.length := by
        rw [← hnear.length_eq, shares, List.length_map]
      have hbounds : ∀ size ∈ apportion (t.totalSize con) (t.shares con), 1 ≤ size ∧ size < 2 ^ 31 := by
        intro size hsize
        have hle := List.single_le_sum (fun s hs => le_trans Int.one_nonneg (hone s hs)) size hsize
        have hlt : t.totalSize con < 2 ^ 31 := toInt_lt _
        rw [hsum] at hle
        exact ⟨hone size hsize, lt_of_le_of_lt hle hlt⟩
      have htiles := tiles_renderSplit h.nodup hlength hbounds
      rwa [hsum] at htiles

/-- A split of a thousand pixels: the first child has one, the other four share the rest. -/
def fivePanes : Tree where
  con c := match c with
    | 1 => { layout := .splith, rect := { width := 1000, height := 800 },
             nodesHead := [2, 3, 4, 5, 6], focusHead := [2, 3, 4, 5, 6] }
    | 2 => { parent := some 1, percent := 1 / 1000 }
    | 3 => { parent := some 1, percent := 999 / 4000 }
    | 4 => { parent := some 1, percent := 999 / 4000 }
    | 5 => { parent := some 1, percent := 999 / 4000 }
    | 6 => { parent := some 1, percent := 999 / 4000 }
    | _ => {}
  allCons := [1, 2, 3, 4, 5, 6]
  croot := 1
  focused := some 2
  nextCon := 7

theorem shared_fivePanes : fivePanes.Shared 1 where
  split := .inl rfl
  nodup := by decide
  total := by decide
  positive := by decide +kernel
  sum := by decide +kernel
  pixel := by decide +kernel

theorem rendered_fivePanes : (∃ sizes, fivePanes.Rendered 1 sizes) ↔
    Spared (fivePanes.totalSize 1) (fivePanes.shares 1) :=
  rendered_iff shared_fivePanes

/-- Rounding adds a pixel, and the first child has to give it up. -/
theorem not_rendered_fivePanes : fivePanes.Shared 1 ∧ ¬ ∃ sizes, fivePanes.Rendered 1 sizes := by
  refine ⟨shared_fivePanes, ?_⟩
  rintro ⟨sizes, h⟩
  have hsizes := h.terminates 1 le_rfl
  have hrun : fivePanes.precalculateSizes 1 1 = some [0, 250, 250, 250, 250] := by decide +kernel
  rw [hrun, Option.some.injEq] at hsizes
  subst hsizes
  exact absurd (h.pixel 0 List.mem_cons_self) (by decide)

end Tree

end I3
