import Mathlib.Algebra.BigOperators.Pi
import Mathlib.Data.Rat.Floor
import I3Aiwr.Lib.Window

/-!
# The blur of the overview

`box_blur_pass` of `src/src/overview.c` blurs an image along its rows or its columns: each pixel becomes
the mean of the pixels around it. The sums over them are kept up to date while the window moves along
the line, and beyond the ends of the line its first and its last pixel are repeated. The mean is computed
with real numbers, which are exact here, and converted to an integer.

## Main definitions

* `boxBlurPass`: a pass over the image, `none` where it reads or writes outside of an image
* `mean`: what a pass is to write at a pixel

## Main results

* `exists_blurLine`: a pass over one line
* `exists_boxBlurPass`: a pass over the image writes the means
-/

namespace I3

namespace Blur

/-- The colours of a pixel, as the bits of its word. -/
inductive Channel
  | red
  | green
  | blue
  deriving DecidableEq, Repr

/-- The value of a channel, `(px >> 16) & 0xff` for the red one. -/
def Channel.of : Channel → UInt32 → ℤ
  | red, px => ((px >>> 16) &&& 0xff).toNat
  | green, px => ((px >>> 8) &&& 0xff).toNat
  | blue, px => (px &&& 0xff).toNat

/-- The three channels of a pixel. -/
def channels (px : UInt32) : ℤ × ℤ × ℤ :=
  (Channel.red.of px, Channel.green.of px, Channel.blue.of px)

/-- `a[k]`, if the place is in the image. -/
def read (a : Array UInt32) (k : ℤ) : Option UInt32 :=
  if k < 0 then none else a[k.toNat]?

/-- `a[k] = px`, if the place is in the image. -/
def write (a : Array UInt32) (k : ℤ) (px : UInt32) : Option (Array UInt32) :=
  if 0 ≤ k ∧ k < a.size then some (a.setIfInBounds k.toNat px) else none

/-- `(uint32_t)x` of a number that is not negative. -/
def toWord (x : ℚ) : UInt32 := UInt32.ofNat ⌊x⌋₊

/-- The pixel with the means of the three sums. -/
def pixel (inv : ℚ) (sums : ℤ × ℤ × ℤ) : UInt32 :=
  (0xff000000 : UInt32) ||| (toWord (sums.1 * inv) <<< 16) ||| (toWord (sums.2.1 * inv) <<< 8)
    ||| toWord (sums.2.2 * inv)

section Line

variable (src : Array UInt32) (len stride start radius : ℕ) (inv : ℚ)

/-- The sums over the window around the first pixel of a line, with the edges repeated. -/
def initialWindow : Option (ℤ × ℤ × ℤ) :=
  (List.range (2 * radius + 1)).foldlM
    (fun sums (j : ℕ) => do
      let i : ℤ := -radius + j
      let k : ℤ := if i < 0 then 0 else if len ≤ i then len - 1 else i
      let px ← read src (start + k * stride)
      return sums + channels px) 0

/-- The pixel is written, and the window moves on to the next one. -/
def blurPixel (acc : Array UInt32 × (ℤ × ℤ × ℤ)) (i : ℕ) :
    Option (Array UInt32 × (ℤ × ℤ × ℤ)) := do
  let dst ← write acc.1 (start + i * stride) (pixel inv acc.2)
  let add : ℤ := i + radius + 1
  let sub : ℤ := i - radius
  let add : ℤ := if len ≤ add then len - 1 else add
  let sub : ℤ := if sub < 0 then 0 else sub
  let pa ← read src (start + add * stride)
  let ps ← read src (start + sub * stride)
  return (dst, acc.2 + (channels pa - channels ps))

/-- One line of the image, the body of the loop of `box_blur_pass`. -/
def blurLine (dst : Array UInt32) : Option (Array UInt32) := do
  let sums ← initialWindow src len stride start radius
  let acc ← (List.range len).foldlM (blurPixel src len stride start radius inv) (dst, sums)
  return acc.1

end Line

def boxBlurPass (src dst : Array UInt32) (W H radius : ℕ) (vertical : Bool) :
    Option (Array UInt32) :=
  let len := if vertical then H else W
  let lines := if vertical then W else H
  let stride := if vertical then W else 1
  let step := if vertical then 1 else W
  let inv : ℚ := 1 / (radius * 2 + 1)
  (List.range lines).foldlM
    (fun dst line => blurLine src len stride (line * step) radius inv dst) dst

/-- The pixel of the image at `x` and `y`, or else the one at the nearest edge. -/
def nearest (src : Array UInt32) (W H : ℕ) (x y : ℤ) : UInt32 :=
  src.getD (Window.clamp H y * W + Window.clamp W x).toNat 0

/-- **What a pass is to write**: the mean of a channel over the `2 * radius + 1` pixels around the one at
`x` and `y`, rounded down. -/
def mean (src : Array UInt32) (W H radius : ℕ) (vertical : Bool) (c : Channel) (x y : ℕ) : ℤ :=
  ⌊((∑ j ∈ Finset.range (2 * radius + 1),
    c.of (if vertical then nearest src W H x (y - radius + j) else nearest src W H (x - radius + j) y) : ℤ)
      : ℚ) / (2 * radius + 1)⌋

/-! ### Pixels and channels -/

/-- How far the bits of a channel are shifted. -/
def Channel.shift : Channel → ℕ
  | red => 16
  | green => 8
  | blue => 0

/-- The sum of a channel among the three. -/
def Channel.part : Channel → ℤ × ℤ × ℤ → ℤ
  | red, sums => sums.1
  | green, sums => sums.2.1
  | blue, sums => sums.2.2

variable {c : Channel} {px : UInt32} {sums : ℤ × ℤ × ℤ} {radius : ℕ}

@[simp] theorem Channel.part_channels : c.part (channels px) = c.of px := by
  cases c <;> rfl

theorem Channel.part_sum (f : ℤ → ℤ × ℤ × ℤ) (i : ℤ) :
    c.part (Window.sum f radius i) = Window.sum (fun k => c.part (f k)) radius i := by
  cases c <;> simp [Channel.part, Window.sum, Prod.fst_sum, Prod.snd_sum]

/-- A channel, by arithmetic. -/
theorem Channel.of_eq : c.of px = (px.toNat / 2 ^ c.shift % 2 ^ 8 : ℕ) := by
  have hmask : (255 : ℕ) = 2 ^ 8 - 1 := rfl
  cases c
  all_goals
    simp only [Channel.of, UInt32.toNat_and, UInt32.toNat_shiftRight, UInt32.reduceToNat, hmask,
      Nat.and_two_pow_sub_one_eq_mod, Nat.shiftRight_eq_div_pow]
    simp [Channel.shift]

theorem Channel.of_mem : 0 ≤ c.of px ∧ c.of px ≤ 255 := by
  rw [Channel.of_eq]
  omega

/-- The bytes of a word do not overlap. -/
theorem pack_toNat {r g b : ℕ} (hr : r < 256) (hg : g < 256) (hb : b < 256) :
    ((0xff000000 : UInt32) ||| (UInt32.ofNat r <<< 16) ||| (UInt32.ofNat g <<< 8)
      ||| UInt32.ofNat b).toNat = 255 * 2 ^ 24 + r * 2 ^ 16 + g * 2 ^ 8 + b := by
  have halpha : (0xff000000 : UInt32).toNat = 2 ^ 24 * 255 := rfl
  have hred : (UInt32.ofNat r <<< 16).toNat = 2 ^ 16 * r := by
    simp [UInt32.toNat_shiftLeft, Nat.shiftLeft_eq]
    omega
  have hgreen : (UInt32.ofNat g <<< 8).toNat = 2 ^ 8 * g := by
    simp [UInt32.toNat_shiftLeft, Nat.shiftLeft_eq]
    omega
  have hblue : (UInt32.ofNat b).toNat = b := by
    simp
    omega
  -- the lower bytes are added one after another
  have hupper : 2 ^ 24 * 255 + 2 ^ 16 * r = 2 ^ 16 * (2 ^ 8 * 255 + r) := by ring
  have hlower : 2 ^ 16 * (2 ^ 8 * 255 + r) + 2 ^ 8 * g
      = 2 ^ 8 * (2 ^ 16 * 255 + 2 ^ 8 * r + g) := by ring
  rw [UInt32.toNat_or, UInt32.toNat_or, UInt32.toNat_or, halpha, hred, hgreen, hblue,
    ← Nat.two_pow_add_eq_or_of_lt (by omega), hupper, ← Nat.two_pow_add_eq_or_of_lt (by omega),
    hlower, ← Nat.two_pow_add_eq_or_of_lt (by omega)]
  ring

/-- The sums of a window over pixels. -/
def Fits (radius : ℕ) (sums : ℤ × ℤ × ℤ) : Prop :=
  ∀ c : Channel, 0 ≤ c.part sums ∧ c.part sums ≤ (2 * radius + 1) * 255

theorem fits_sum (f : ℤ → UInt32) (i : ℤ) :
    Fits radius (Window.sum (fun k => channels (f k)) radius i) := by
  intro c
  rw [Channel.part_sum]
  simp only [Channel.part_channels]
  exact Window.sum_mem_Icc fun k => Channel.of_mem

/-- The mean of a channel fits into its byte. -/
theorem floor_part (h : Fits radius sums) :
    ⌊(c.part sums : ℚ) * (1 / (radius * 2 + 1))⌋₊ < 256
      ∧ (⌊(c.part sums : ℚ) * (1 / (radius * 2 + 1))⌋₊ : ℤ)
        = ⌊(c.part sums : ℚ) / (2 * radius + 1)⌋ := by
  obtain ⟨hlow, hhigh⟩ := h c
  have hpos : (0 : ℚ) < 2 * radius + 1 := by positivity
  have heq : (c.part sums : ℚ) * (1 / (radius * 2 + 1)) = c.part sums / (2 * radius + 1) := by
    rw [mul_one_div, mul_comm (radius : ℚ)]
  have hbound : (c.part sums : ℚ) / (2 * radius + 1) ≤ (255 : ℕ) := by
    rw [div_le_iff₀ hpos]
    have : (c.part sums : ℚ) ≤ (2 * radius + 1) * 255 := by exact_mod_cast hhigh
    push_cast
    linarith
  rw [heq]
  constructor
  · have := Nat.floor_le_of_le hbound
    omega
  · exact Int.natCast_floor_eq_floor (div_nonneg (by exact_mod_cast hlow) hpos.le)

/-- **The pixel written** has the mean in each channel, and is opaque. -/
theorem pixel_of (h : Fits radius sums) :
    (∀ c : Channel, c.of (pixel (1 / (radius * 2 + 1)) sums) = ⌊(c.part sums : ℚ) / (2 * radius + 1)⌋)
      ∧ pixel (1 / (radius * 2 + 1)) sums >>> 24 = 0xff := by
  have hr := floor_part (c := .red) h
  have hg := floor_part (c := .green) h
  have hb := floor_part (c := .blue) h
  simp only [Channel.part] at hr hg hb
  have hpack := pack_toNat hr.1 hg.1 hb.1
  constructor
  · intro c
    rw [Channel.of_eq, pixel, toWord, toWord, toWord, hpack]
    cases c
    · rw [Channel.part, ← hr.2]
      simp only [Channel.shift]
      omega
    · rw [Channel.part, ← hg.2]
      simp only [Channel.shift]
      omega
    · rw [Channel.part, ← hb.2]
      simp only [Channel.shift]
      omega
  · apply UInt32.toNat_inj.mp
    rw [UInt32.toNat_shiftRight, pixel, toWord, toWord, toWord, hpack, Nat.shiftRight_eq_div_pow]
    have hshift : (24 : UInt32).toNat % 32 = 24 := rfl
    have hopaque : (0xff : UInt32).toNat = 255 := rfl
    rw [hshift, hopaque]
    omega

/-! ### A line -/

section Line

variable {src dst : Array UInt32} {len stride start : ℕ} {inv : ℚ}

/-- The pixel of a line at `k`, or else the one at the nearest end. -/
def onLine (src : Array UInt32) (len stride start : ℕ) (k : ℤ) : UInt32 :=
  src.getD (start + Window.clamp len k * stride).toNat 0

/-- The sums over the window around the pixel at `i`. -/
def sumsAt (src : Array UInt32) (len stride start radius : ℕ) (i : ℤ) : ℤ × ℤ × ℤ :=
  Window.sum (fun k => channels (onLine src len stride start k)) radius i

/-- The line is in the image. -/
def Inside (a : Array UInt32) (len stride start : ℕ) : Prop :=
  ∀ k < len, start + k * stride < a.size

/-- Reading at the place that the code computes, the nearest one on the line. -/
theorem Inside.read_eq (h : Inside src len stride start) (hlen : 0 < len) {k k' : ℤ}
    (hk : k' = Window.clamp len k) :
    read src (start + k' * stride) = some (onLine src len stride start k) := by
  subst hk
  have hlow : 0 ≤ Window.clamp len k := Window.clamp_nonneg
  have hhigh := Window.clamp_lt (k := k) hlen
  rw [onLine]
  generalize Window.clamp len k = k at hlow hhigh ⊢
  obtain ⟨n, rfl⟩ := Int.eq_ofNat_of_zero_le hlow
  have hplace : (start + n * stride : ℤ) = (start + n * stride : ℕ) := by push_cast; rfl
  have hn := h n (by omega)
  rw [hplace, read, if_neg (by omega), Int.toNat_natCast, Array.getD_eq_getD_getElem?,
    Array.getElem?_eq_getElem hn]
  rfl

/-- The first window is summed up over the line with its ends repeated. -/
theorem initialWindow_eq (hlen : 0 < len) (h : Inside src len stride start) :
    initialWindow src len stride start radius
      = some (sumsAt src len stride start radius 0) := by
  obtain ⟨sums, heq, hsums⟩ : ∃ sums, initialWindow src len stride start radius = some sums
      ∧ sums = ∑ m ∈ Finset.range (2 * radius + 1),
        channels (onLine src len stride start (0 - radius + m)) := by
    refine Window.exists_foldlM_range (P := fun j sums => sums = ∑ m ∈ Finset.range j,
      channels (onLine src len stride start (0 - radius + m))) rfl ?_
    rintro j - sums rfl
    refine ⟨_, ?_, (Finset.sum_range_succ _ _).symm⟩
    have hk : (if (-radius + j : ℤ) < 0 then 0 else if (len : ℤ) ≤ -radius + j then (len : ℤ) - 1
        else -radius + j) = Window.clamp len (0 - radius + j) := by
      unfold Window.clamp
      split_ifs <;> omega
    simp only [h.read_eq hlen hk, Option.bind_eq_bind, Option.bind_some, Option.pure_def]
  rw [heq, hsums, sumsAt, Window.sum]

/-- What holds before the pixel at `i` of a line is written. -/
structure Written (src dst : Array UInt32) (len stride start radius : ℕ) (inv : ℚ) (i : ℕ)
    (acc : Array UInt32 × (ℤ × ℤ × ℤ)) : Prop where
  sums : acc.2 = sumsAt src len stride start radius i
  size : acc.1.size = dst.size
  done : ∀ j < i, acc.1[start + j * stride]?
    = some (pixel inv (sumsAt src len stride start radius j))
  frame : ∀ k, (∀ j < i, k ≠ start + j * stride) → acc.1[k]? = dst[k]?

/-- **A pixel is written**, and the window is the one around the next pixel. -/
theorem Written.next {i : ℕ} {acc : Array UInt32 × (ℤ × ℤ × ℤ)} (hi : i < len) (hstride : 0 < stride)
    (hsrc : Inside src len stride start) (hdst : Inside dst len stride start)
    (h : Written src dst len stride start radius inv i acc) :
    ∃ acc', blurPixel src len stride start radius inv acc i = some acc'
      ∧ Written src dst len stride start radius inv (i + 1) acc' := by
  have hin := hdst i hi
  have hlen : 0 < len := by omega
  have hwrite : write acc.1 (start + i * stride) (pixel inv acc.2)
      = some (acc.1.setIfInBounds (start + i * stride) (pixel inv acc.2)) := by
    have hplace : (start + i * stride : ℤ) = (start + i * stride : ℕ) := by push_cast; rfl
    rw [hplace, write, if_pos ⟨by omega, by rw [h.size]; omega⟩, Int.toNat_natCast]
  -- what is added is clamped at the end only, and what is taken away at the beginning only
  have hadd : (if (len : ℤ) ≤ i + radius + 1 then (len : ℤ) - 1 else i + radius + 1)
      = Window.clamp len (i + radius + 1) := by
    unfold Window.clamp
    split_ifs <;> omega
  have hsub : (if (i - radius : ℤ) < 0 then 0 else (i - radius : ℤ))
      = Window.clamp len (i - radius) := by
    unfold Window.clamp
    split_ifs <;> omega
  refine ⟨(acc.1.setIfInBounds (start + i * stride) (pixel inv acc.2),
    acc.2 + (channels (onLine src len stride start (i + radius + 1))
      - channels (onLine src len stride start (i - radius)))), ?_, ?_, ?_, ?_, ?_⟩
  · simp only [blurPixel, hwrite, Option.bind_eq_bind, Option.bind_some, hsrc.read_eq hlen hadd,
      hsrc.read_eq hlen hsub, Option.pure_def]
  · rw [h.sums, sumsAt, sumsAt]
    push_cast
    exact Window.sum_succ.symm
  · simp [h.size]
  · intro j hj
    rw [Array.getElem?_setIfInBounds]
    split
    · next heq =>
      have hij : i = j := by
        have := Nat.add_left_cancel heq
        exact Nat.eq_of_mul_eq_mul_right hstride this
      subst hij
      rw [if_pos (by rw [h.size]; exact hin), h.sums]
    · next hne =>
      have hij : j ≠ i := by
        rintro rfl
        exact hne rfl
      exact h.done j (by omega)
  · intro k hk
    rw [Array.getElem?_setIfInBounds, if_neg fun heq => hk i (by omega) heq.symm]
    exact h.frame k fun j hj => hk j (by omega)

/-- **A line is blurred**: its pixels are written with the means, and no others. -/
theorem exists_blurLine (radius : ℕ) (inv : ℚ) (hlen : 0 < len) (hstride : 0 < stride) (hsrc : Inside src len stride start)
    (hdst : Inside dst len stride start) :
    ∃ out, blurLine src len stride start radius inv dst = some out
      ∧ out.size = dst.size
      ∧ (∀ i < len, out[start + i * stride]?
        = some (pixel inv (sumsAt src len stride start radius i)))
      ∧ ∀ k, (∀ i < len, k ≠ start + i * stride) → out[k]? = dst[k]? := by
  have hfirst : Written src dst len stride start radius inv 0
      (dst, sumsAt src len stride start radius 0) :=
    ⟨rfl, rfl, by simp, fun k _ => rfl⟩
  obtain ⟨acc, heq, hlast⟩ := Window.exists_foldlM_range hfirst fun i hi acc h =>
    h.next hi hstride hsrc hdst
  refine ⟨acc.1, ?_, hlast.size, hlast.done, hlast.frame⟩
  rw [blurLine, initialWindow_eq hlen hsrc]
  simp [heq]

/-- **All lines are blurred**, where no two of them have a place in common. -/
theorem exists_foldlM_blurLine {lines step : ℕ} (radius : ℕ) (inv : ℚ) (hlen : 0 < len) (hstride : 0 < stride)
    (hsrc : ∀ l < lines, Inside src len stride (l * step))
    (hdst : ∀ l < lines, Inside dst len stride (l * step))
    (hapart : ∀ l' < lines, ∀ l < l', ∀ i < len, ∀ i' < len,
      l * step + i * stride ≠ l' * step + i' * stride) :
    ∃ out, (List.range lines).foldlM
        (fun dst line => blurLine src len stride (line * step) radius inv dst) dst = some out
      ∧ out.size = dst.size
      ∧ ∀ l < lines, ∀ i < len, out[l * step + i * stride]?
        = some (pixel inv (sumsAt src len stride (l * step) radius i)) := by
  refine Window.exists_foldlM_range (P := fun l (out : Array UInt32) => out.size = dst.size
    ∧ ∀ l' < l, ∀ i < len, out[l' * step + i * stride]?
      = some (pixel inv (sumsAt src len stride (l' * step) radius i))) ⟨rfl, by simp⟩ ?_
  rintro l hl out ⟨hsize, hdone⟩
  have hout : Inside out len stride (l * step) := by
    intro k hk
    rw [hsize]
    exact hdst l hl k hk
  obtain ⟨out', heq, hsize', hline, hframe⟩ :=
    exists_blurLine radius inv hlen hstride (hsrc l hl) hout
  refine ⟨out', heq, hsize'.trans hsize, fun l' hl' i hi => ?_⟩
  by_cases hll : l' = l
  · subst hll
    exact hline i hi
  · have hlt : l' < l := by omega
    rw [hframe _ fun i' hi' => hapart l hl l' hlt i hi i' hi']
    exact hdone l' hlt i hi

end Line

/-! ### The image -/

section Image

variable {src dst : Array UInt32} {W H : ℕ}

/-- The mean, from the sums over the line. -/
theorem floor_sumsAt {vertical : Bool} {x y : ℕ} (hx : x < W) (hy : y < H) :
    ⌊((c.part (if vertical then sumsAt src H W x radius y else sumsAt src W 1 (y * W) radius x) : ℤ) : ℚ)
      / (2 * radius + 1)⌋ = mean src W H radius vertical c x y := by
  have hclampX : Window.clamp W x = x := Window.clamp_of_mem (by omega) (by omega)
  have hclampY : Window.clamp H y = y := Window.clamp_of_mem (by omega) (by omega)
  cases vertical
  · have hline : ∀ k, onLine src W 1 (y * W) k = nearest src W H k y := by
      intro k
      simp [onLine, nearest, hclampY]
    simp only [Bool.false_eq_true, if_false, sumsAt, mean, Channel.part_sum, Channel.part_channels,
      hline]
    rfl
  · have hline : ∀ k, onLine src H W x k = nearest src W H x k := by
      intro k
      rw [onLine, nearest, hclampX, add_comm]
    simp only [if_true, sumsAt, mean, Channel.part_sum, Channel.part_channels, hline]
    rfl

/-- What is written at a pixel of a line. -/
theorem pixel_sumsAt_of {len stride start : ℕ} {i : ℤ} :
    (∀ c : Channel, c.of (pixel (1 / (radius * 2 + 1)) (sumsAt src len stride start radius i))
        = ⌊(c.part (sumsAt src len stride start radius i) : ℚ) / (2 * radius + 1)⌋)
      ∧ pixel (1 / (radius * 2 + 1)) (sumsAt src len stride start radius i) >>> 24 = 0xff :=
  pixel_of (fits_sum _ _)

/-- The mean in an image of one colour. -/
theorem mean_of_const {vertical : Bool} {x y : ℕ} {colour : UInt32} (hW : 0 < W) (hH : 0 < H)
    (h : ∀ k < W * H, src[k]? = some colour) :
    mean src W H radius vertical c x y = c.of colour := by
  have hnearest : ∀ x y : ℤ, nearest src W H x y = colour := by
    intro x y
    have hx := Window.clamp_lt (k := x) hW
    have hy := Window.clamp_lt (k := y) hH
    have hx' : 0 ≤ Window.clamp W x := Window.clamp_nonneg
    have hy' : 0 ≤ Window.clamp H y := Window.clamp_nonneg
    have hplace : (Window.clamp H y * W + Window.clamp W x).toNat < W * H := by
      have : Window.clamp H y * W + Window.clamp W x < W * H := by nlinarith
      rw [Int.toNat_lt (by positivity)]
      exact_mod_cast this
    rw [nearest, Array.getD_eq_getD_getElem?, h _ hplace]
    rfl
  have hne : (2 * radius + 1 : ℚ) ≠ 0 := by positivity
  simp only [mean, hnearest, ite_self, Finset.sum_const, Finset.card_range, nsmul_eq_mul]
  push_cast
  rw [mul_div_cancel_left₀ _ hne, Int.floor_intCast]

/-- Words with the same bytes are the same. -/
theorem eq_of_channels {a b : UInt32} (h : ∀ c : Channel, c.of a = c.of b)
    (halpha : a >>> 24 = b >>> 24) : a = b := by
  have hr := h .red
  have hg := h .green
  have hb := h .blue
  rw [Channel.of_eq, Channel.of_eq] at hr hg hb
  have htop := congrArg UInt32.toNat halpha
  rw [UInt32.toNat_shiftRight, UInt32.toNat_shiftRight, Nat.shiftRight_eq_div_pow,
    Nat.shiftRight_eq_div_pow] at htop
  have hshift : (24 : UInt32).toNat % 32 = 24 := rfl
  rw [hshift] at htop
  simp only [Channel.shift] at hr hg hb
  apply UInt32.toNat_inj.mp
  omega

/-- A pass writes the means. -/
theorem exists_boxBlurPass_aux (radius : ℕ) (vertical : Bool) (hW : 0 < W) (hH : 0 < H) (hsrc : src.size = W * H)
    (hdst : dst.size = W * H) :
    ∃ out, boxBlurPass src dst W H radius vertical = some out ∧ out.size = W * H
      ∧ ∀ x < W, ∀ y < H, ∃ px, out[y * W + x]? = some px ∧ px >>> 24 = 0xff
        ∧ ∀ c : Channel, c.of px = mean src W H radius vertical c x y := by
  have hbound : ∀ x < W, ∀ y < H, y * W + x < W * H := by
    intro x hx y hy
    calc y * W + x < y * W + W := by omega
      _ = (y + 1) * W := by ring
      _ ≤ H * W := Nat.mul_le_mul_right _ hy
      _ = W * H := mul_comm _ _
  have hinj : ∀ x < W, ∀ x' < W, ∀ y y', y * W + x = y' * W + x' → y = y' := by
    intro x hx x' hx' y y' heq
    have hdiv : ∀ x < W, ∀ y, (y * W + x) / W = y := fun x hx y => by
      rw [Nat.mul_comm, Nat.mul_add_div (by omega), Nat.div_eq_of_lt hx, add_zero]
    rw [← hdiv x hx y, heq, hdiv x' hx' y']
  cases vertical
  · -- the lines are the rows
    have hrow : ∀ a : Array UInt32, a.size = W * H → ∀ l < H, Inside a W 1 (l * W) :=
      fun a ha l hl k hk => by simpa [ha] using hbound k hk l hl
    obtain ⟨out, heq, hsize, hdone⟩ := exists_foldlM_blurLine radius
      (1 / (radius * 2 + 1)) hW one_pos (hrow src hsrc) (hrow dst hdst)
      fun l' _ l hl i hi i' hi' heq => by
        have := hinj i hi i' hi' l l' (by simpa using heq)
        omega
    refine ⟨out, heq, hsize.trans hdst, fun x hx y hy => ?_⟩
    have hpx := hdone y hy x hx
    rw [mul_one] at hpx
    refine ⟨_, hpx, pixel_sumsAt_of.2, fun c => ?_⟩
    rw [pixel_sumsAt_of.1, ← floor_sumsAt hx hy]
    rfl
  · -- the lines are the columns
    have hcolumn : ∀ a : Array UInt32, a.size = W * H → ∀ l < W, Inside a H W (l * 1) :=
      fun a ha l hl k hk => by simpa [ha, add_comm] using hbound l hl k hk
    obtain ⟨out, heq, hsize, hdone⟩ := exists_foldlM_blurLine radius
      (1 / (radius * 2 + 1)) hH hW (hcolumn src hsrc) (hcolumn dst hdst)
      fun l' hl' l hl i hi i' hi' heq => by
        have hrow := hinj l (by omega) l' hl' i i' (by simpa [add_comm] using heq)
        subst hrow
        omega
    refine ⟨out, heq, hsize.trans hdst, fun x hx y hy => ?_⟩
    have hpx := hdone x hx y hy
    rw [mul_one, add_comm] at hpx
    refine ⟨_, hpx, pixel_sumsAt_of.2, fun c => ?_⟩
    rw [pixel_sumsAt_of.1, ← floor_sumsAt hx hy]
    rfl

/-- **The blur by sliding windows is the plain one.** In both directions and with any radius, a pass stays
in the images and writes at every pixel the mean of each channel, which fits into its byte. An image of
one colour keeps it. -/
theorem exists_boxBlurPass (W H radius : ℕ) (vertical : Bool) (src dst : Array UInt32) (hW : 0 < W)
    (hH : 0 < H) (hsrc : src.size = W * H) (hdst : dst.size = W * H) :
    ∃ out, boxBlurPass src dst W H radius vertical = some out
      ∧ out.size = W * H
      ∧ (∀ x < W, ∀ y < H, ∃ px, out[y * W + x]? = some px ∧ px >>> 24 = 0xff
        ∧ ∀ c : Channel, c.of px = mean src W H radius vertical c x y
          ∧ 0 ≤ mean src W H radius vertical c x y ∧ mean src W H radius vertical c x y ≤ 255)
      ∧ ∀ colour : UInt32, (∀ k < W * H, src[k]? = some colour) →
        (∀ k < W * H, ∃ px, out[k]? = some px ∧ channels px = channels colour)
          ∧ (colour >>> 24 = 0xff → out = src) := by
  obtain ⟨out, heq, hsize, hpixel⟩ := exists_boxBlurPass_aux radius vertical hW hH hsrc hdst
  refine ⟨out, heq, hsize, fun x hx y hy => ?_, fun colour hcolour => ?_⟩
  · obtain ⟨px, hpx, halpha, hmean⟩ := hpixel x hx y hy
    exact ⟨px, hpx, halpha, fun c => ⟨hmean c, hmean c ▸ Channel.of_mem⟩⟩
  · have hkeeps : ∀ k < W * H, ∃ px, out[k]? = some px ∧ px >>> 24 = 0xff
        ∧ ∀ c : Channel, c.of px = c.of colour := by
      intro k hk
      have hkW : k % W < W := Nat.mod_lt _ hW
      have hkH : k / W < H := Nat.div_lt_of_lt_mul hk
      obtain ⟨px, hpx, halpha, hmean⟩ := hpixel (k % W) hkW (k / W) hkH
      rw [Nat.div_add_mod'] at hpx
      exact ⟨px, hpx, halpha, fun c => (hmean c).trans (mean_of_const hW hH hcolour)⟩
    constructor
    · intro k hk
      obtain ⟨px, hpx, -, hsame⟩ := hkeeps k hk
      exact ⟨px, hpx, by simp [channels, hsame]⟩
    · intro hopaque
      apply Array.ext_getElem?
      intro k
      by_cases hk : k < W * H
      · obtain ⟨px, hpx, halpha, hsame⟩ := hkeeps k hk
        rw [hpx, hcolour k hk, eq_of_channels hsame (halpha.trans hopaque.symm)]
      · rw [Array.getElem?_eq_none (by omega), Array.getElem?_eq_none (by omega)]

/-- Black and white side by side, with a window wider than the image. -/
theorem exists_boxBlurPass_two : ∃ out : Array UInt32,
    boxBlurPass #[0xff000000, 0xffffffff] #[0, 0] 2 1 3 false = some out ∧ out.size = 2 * 1 :=
  let ⟨out, heq, hsize, _⟩ := exists_boxBlurPass 2 1 3 false #[0xff000000, 0xffffffff] #[0, 0]
    (by decide) (by decide) rfl rfl
  ⟨out, heq, hsize⟩

example : boxBlurPass #[0xff000000, 0xffffffff] #[0, 0] 2 1 3 false
    = some #[0xff6d6d6d, 0xff919191] := by decide +kernel

end Image

end Blur

end I3
