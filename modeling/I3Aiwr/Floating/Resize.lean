import Mathlib.Order.Bounds.Basic
import I3Aiwr.Tree.Render

/-!
# Resizing floating windows

`floating_resize` and `floating_check_size` of `src/floating.c`. A window with size increments is
given the requested size rounded up, and the check then rounds down to what the base size and a number
of increments make up. Rounding up leaves out the base size, the borders and the sign: it goes to the
next number below which a multiple of the increment lies after the wrap-around at 2^32.

Sizes are unsigned, those of the hints and of the configuration are not. Aspect ratios are exact.

## Main definitions

* `SizeHints`, `SizeLimits`, `FloatingCon`
* `floatingCheckSize`, `floatingResize`
* `HonoursIncrements`: what resizing is to do with the increments
* `RoundsUp`: rounding up goes as far as the increments ask for

## Main results

* `isLeast_roundDown_iff`: rounding up and down along one axis
* `honoursIncrements_iff`: when resizing honours the increments
-/

namespace I3

/-- The size hints of a window. -/
structure SizeHints where
  minWidth : ℤ := 0
  minHeight : ℤ := 0
  maxWidth : ℤ := 0
  maxHeight : ℤ := 0
  baseWidth : ℤ := 0
  baseHeight : ℤ := 0
  widthIncrement : ℤ := 0
  heightIncrement : ℤ := 0
  minAspectRatio : ℚ := 0
  maxAspectRatio : ℚ := 0

/-- The limits of the configuration, and the size of all outputs together. -/
structure SizeLimits where
  floatingMinimumWidth : ℤ := 0
  floatingMinimumHeight : ℤ := 0
  floatingMaximumWidth : ℤ := 0
  floatingMaximumHeight : ℤ := 0
  outputsWidth : ℕ
  outputsHeight : ℕ

/-- A floating container, with the hints of the window that is focused in it. The border is what the
decoration and the X11 border add to the size of the window. -/
structure FloatingCon where
  width : ℕ
  height : ℕ
  fullscreenMode : FullscreenMode := .none
  scratchpadState : ScratchpadState := .none
  borderWidth : ℕ
  borderHeight : ℕ
  window : Option SizeHints

/-! ### Checking the size -/

/-- A size less the border is at least `limit`. -/
def raiseTo (border : ℕ) (limit : ℤ) (size : ℕ) : ℕ :=
  u32 (max (u32 (size - border)) (u32 limit) + border)

/-- A size less the border is at most `limit`. -/
def lowerTo (border : ℕ) (limit : ℤ) (size : ℕ) : ℕ :=
  u32 (min (u32 (size - border)) (u32 limit) + border)

/-- A size is rounded down to the base size and a number of increments. -/
def roundDown (base : ℤ) (border : ℕ) (increment : ℤ) (size : ℕ) : ℕ :=
  if increment ≠ 0 ∧ size ≥ u32 (base + border) then
    let size := u32 (size - u32 (base + border))
    let size := u32 (size - (size % u32 increment : ℕ))
    u32 (size + u32 (base + border))
  else size

/-- The aspect ratio to be obeyed, if the one of the window is not in the range. -/
def SizeHints.newAspectRatio (h : SizeHints) (ar : ℚ) : Option ℚ :=
  if h.minAspectRatio > 0 ∧ ar < h.minAspectRatio then some h.minAspectRatio
  else if h.maxAspectRatio > 0 ∧ ar > h.maxAspectRatio then some h.maxAspectRatio
  else none

/-- The aspect ratio is obeyed, unless the container is fullscreen. -/
def FloatingCon.obeyAspectRatio (c : FloatingCon) (h : SizeHints) (preferHeight : Bool) :
    FloatingCon :=
  if c.fullscreenMode = .none ∧ (h.minAspectRatio > 0 ∨ h.maxAspectRatio > 0) then
    let width : ℚ := u32 (c.width - h.baseWidth - c.borderWidth)
    let height : ℚ := u32 (c.height - h.baseHeight - c.borderHeight)
    match h.newAspectRatio (width / height) with
    | none => c
    | some newAr =>
      let (width, height) : ℤ × ℤ :=
        if preferHeight then (lround (height * newAr), lround (lround (height * newAr) / newAr))
        else (lround (lround (width / newAr) * newAr), lround (width / newAr))
      { c with
        width := u32 (width + h.baseWidth + c.borderWidth)
        height := u32 (height + h.baseHeight + c.borderHeight) }
  else c

/-- The hints of the window. The base size stands for a minimum that is not given, and the other way
round. -/
def FloatingCon.applyHints (c : FloatingCon) (h : SizeHints) (preferHeight : Bool) : FloatingCon :=
  let minWidth := if h.minWidth ≠ 0 then h.minWidth else h.baseWidth
  let minHeight := if h.minHeight ≠ 0 then h.minHeight else h.baseHeight
  let baseWidth := if h.baseWidth ≠ 0 then h.baseWidth else h.minWidth
  let baseHeight := if h.baseHeight ≠ 0 then h.baseHeight else h.minHeight
  let c := if minWidth ≠ 0 then { c with width := raiseTo c.borderWidth minWidth c.width } else c
  let c := if minHeight ≠ 0 then { c with height := raiseTo c.borderHeight minHeight c.height } else c
  let c := if h.maxWidth ≠ 0 then { c with width := lowerTo c.borderWidth h.maxWidth c.width } else c
  let c :=
    if h.maxHeight ≠ 0 then { c with height := lowerTo c.borderHeight h.maxHeight c.height } else c
  let c := c.obeyAspectRatio h preferHeight
  { c with
    width := roundDown baseWidth c.borderWidth h.widthIncrement c.width
    height := roundDown baseHeight c.borderHeight h.heightIncrement c.height }

/-- The limit of the configuration: -1 stands for none, and 0 for a reasonable one. -/
def limitOr (configured sane : ℤ) : Option ℤ :=
  if configured = -1 then none else if configured = 0 then some sane else some configured

/-- The limits of the configuration. -/
def FloatingCon.applyLimits (c : FloatingCon) (limits : SizeLimits) : FloatingCon :=
  { c with
    width :=
      let width := match limitOr limits.floatingMinimumWidth 75 with
        | none => c.width
        | some limit => raiseTo c.borderWidth limit c.width
      match limitOr limits.floatingMaximumWidth limits.outputsWidth with
      | none => width
      | some limit => lowerTo c.borderWidth limit width
    height :=
      let height := match limitOr limits.floatingMinimumHeight 50 with
        | none => c.height
        | some limit => raiseTo c.borderHeight limit c.height
      match limitOr limits.floatingMaximumHeight limits.outputsHeight with
      | none => height
      | some limit => lowerTo c.borderHeight limit height }

/-- `floating_check_size`. -/
def floatingCheckSize (limits : SizeLimits) (c : FloatingCon) (preferHeight : Bool) : FloatingCon :=
  (match c.window with
    | none => c
    | some h => c.applyHints h preferHeight).applyLimits limits

/-- A requested size is rounded up for the increment. -/
def roundUp (increment : ℤ) (size : ℕ) : ℕ :=
  if increment ≠ 0 then u32 (size + (u32 (increment - 1 - size) % u32 increment : ℕ)) else size

/-- `floating_resize`. -/
def floatingResize (limits : SizeLimits) (c : FloatingCon) (x y : ℕ) : FloatingCon :=
  match c.window with
  | none => c
  | some h =>
    let preferHeight : Bool := c.width = x
    let c := { c with width := roundUp h.widthIncrement x, height := roundUp h.heightIncrement y }
    let c := floatingCheckSize limits c preferHeight
    if c.scratchpadState = .fresh then { c with scratchpadState := .changed } else c

/-! ### Along one axis -/

theorem u32_eq {z : ℤ} (hle : 0 ≤ z) (hlt : z < 2 ^ 32) : (u32 z : ℤ) = z := by
  rw [u32, Int.toNat_of_nonneg (by omega), Int.emod_eq_of_lt hle (by omega)]

theorem u32_eq_of_neg {z : ℤ} (hle : -2 ^ 32 ≤ z) (hlt : z < 0) : (u32 z : ℤ) = z + 2 ^ 32 := by
  rw [u32, Int.toNat_of_nonneg (by omega), ← Int.add_emod_right, Int.emod_eq_of_lt (by omega)
    (by omega)]

section Residues

variable {n d a x y r : ℤ}

theorem emod_le_self (ha : 0 ≤ a) (hn : 0 ≤ n) : a % n ≤ a := by
  rw [Int.emod_def]
  have hquot := mul_nonneg hn (Int.ediv_nonneg ha hn)
  omega

/-- In `n` numbers one after the other each residue is there once. -/
theorem eq_of_dvd_sub (hx : n ∣ x - a) (hy : n ∣ y - a) (hlow : d ≤ x ∧ d ≤ y)
    (hhigh : x < d + n ∧ y < d + n) : x = y := by
  have hdvd : n ∣ x - y := by
    have h := Int.dvd_sub hx hy
    rwa [sub_sub_sub_cancel_right] at h
  have hzero := Int.eq_zero_of_abs_lt_dvd hdvd (abs_lt.2 ⟨by omega, by omega⟩)
  omega

/-- **Rounding up by `d` and then down to the residue of `a`** gives the least number of that residue
from `x` on exactly if there is one on the way up. -/
theorem isLeast_iff (hn : 0 < n) (hd : 0 ≤ d ∧ d < n) (hr : r = x + d - (x + d - a) % n) :
    IsLeast {w | x ≤ w ∧ n ∣ w - a} r ↔ (a - x) % n ≤ d := by
  have hrest := Int.emod_nonneg (x + d - a) hn.ne'
  have hrest' := Int.emod_lt_of_pos (x + d - a) hn
  have hneed := Int.emod_nonneg (a - x) hn.ne'
  have hneed' := Int.emod_lt_of_pos (a - x) hn
  have hdvd : n ∣ r - a := by
    have h := @Int.dvd_self_sub_emod (x + d - a) n
    rwa [show x + d - a - (x + d - a) % n = r - a by rw [hr]; ring] at h
  -- the least number of the residue from `x` on
  have htarget : n ∣ x + (a - x) % n - a := by
    have h := @Int.dvd_self_sub_emod (a - x) n
    rw [← dvd_neg] at h
    rwa [show -(a - x - (a - x) % n) = x + (a - x) % n - a by ring] at h
  constructor
  · intro hleast
    have hge : x ≤ r := hleast.1.1
    have heq := eq_of_dvd_sub hdvd htarget (d := x) ⟨hge, by omega⟩ ⟨by omega, by omega⟩
    omega
  · intro hle
    have heq := eq_of_dvd_sub hdvd htarget (d := x + d - n + 1) ⟨by omega, by omega⟩
      ⟨by omega, by omega⟩
    refine ⟨⟨by omega, hdvd⟩, fun w hw => ?_⟩
    by_contra hlt
    have hw' := eq_of_dvd_sub hw.2 htarget (d := x) ⟨hw.1, by omega⟩ ⟨by omega, by omega⟩
    omega

end Residues

/-- The size is the least one from the requested one on that is made up of the base size, the border
and a number of increments. -/
def LeastMultiple (increment base : ℤ) (border requested size : ℕ) : Prop :=
  IsLeast {w : ℤ | requested ≤ w ∧ increment ∣ w - (base + border)} size

/-- Rounding up goes as far as the increments ask for: from the requested size on, a multiple of the
increment above base size and border is not behind a multiple below 2^32. -/
def RoundsUp (increment base : ℤ) (border requested : ℕ) : Prop :=
  increment ≤ requested
    ∧ (base + border - requested) % increment ≤ (2 ^ 32 - 1 - requested) % increment

section Axis

variable {increment base : ℤ} {border requested size : ℕ}
  (hinc : 0 < increment ∧ increment < 2 ^ 31)
include hinc

/-- How far a size is rounded up. -/
theorem roundUp_eq (hsize : requested < 2 ^ 32) : (roundUp increment requested : ℤ) = requested
    + if requested < increment then increment - 1 - requested
      else (2 ^ 32 - 1 - requested) % increment := by
  have hincu : ((u32 increment : ℕ) : ℤ) = increment := u32_eq (by omega) (by omega)
  rw [roundUp, if_pos hinc.1.ne']
  split
  next hlt =>
    have hup : (u32 (increment - 1 - requested) : ℤ) = increment - 1 - requested :=
      u32_eq (by omega) (by omega)
    rw [Int.natCast_emod, hincu, hup, Int.emod_eq_of_lt (by omega) (by omega),
      u32_eq (by omega) (by omega)]
  next hge =>
    -- the difference wraps around
    have hup : (u32 (increment - 1 - requested) : ℤ) = 2 ^ 32 - 1 - requested + increment := by
      rw [u32_eq_of_neg (by omega) (by omega)]
      ring
    have hnonneg := Int.emod_nonneg (2 ^ 32 - 1 - (requested : ℤ)) hinc.1.ne'
    have hself : (2 ^ 32 - 1 - (requested : ℤ)) % increment ≤ 2 ^ 32 - 1 - requested :=
      emod_le_self (by omega) (by omega)
    rw [Int.natCast_emod, hincu, hup, Int.add_emod_right, u32_eq (by omega) (by omega)]

/-- How far a size is rounded down. -/
theorem roundDown_eq (hlow : 0 ≤ base + border) (hlarge : base + border ≤ size)
    (hsize : size < 2 ^ 32) : (roundDown base border increment size : ℤ) =
      size - (size - (base + border)) % increment := by
  have hincu : ((u32 increment : ℕ) : ℤ) = increment := u32_eq (by omega) (by omega)
  have hsum : ((u32 (base + border) : ℕ) : ℤ) = base + border := u32_eq (by omega) (by omega)
  have hdiff : ((u32 (size - u32 (base + border)) : ℕ) : ℤ) = size - (base + border) := by
    rw [u32_eq (by omega) (by omega), hsum]
  have hnonneg := Int.emod_nonneg ((size : ℤ) - (base + border)) hinc.1.ne'
  have hself : ((size : ℤ) - (base + border)) % increment ≤ size - (base + border) :=
    emod_le_self (by omega) (by omega)
  have hdown : ((u32 (u32 (size - u32 (base + border))
      - (u32 (size - u32 (base + border)) % u32 increment : ℕ)) : ℕ) : ℤ) =
        size - (base + border) - (size - (base + border)) % increment := by
    rw [Int.natCast_emod, hincu, hdiff, u32_eq (by omega) (by omega)]
  rw [roundDown, if_pos ⟨hinc.1.ne', by omega⟩]
  dsimp only
  rw [hdown, hsum, u32_eq (by omega) (by omega)]
  ring

/-- **Along one axis** the size is the one the increments ask for exactly if it was rounded up far
enough. -/
theorem leastMultiple_iff (hbase : 0 ≤ base) (hlarge : base + border < requested)
    (hsize : requested < 2 ^ 32) :
    LeastMultiple increment base border requested
        (roundDown base border increment (roundUp increment requested))
      ↔ RoundsUp increment base border requested := by
  have hup := roundUp_eq hinc hsize
  have hlt : roundUp increment requested < 2 ^ 32 := by
    rw [roundUp, if_pos hinc.1.ne', u32]
    omega
  have hrest := Int.emod_lt_of_pos (2 ^ 32 - 1 - (requested : ℤ)) hinc.1
  have hrest' := Int.emod_nonneg (2 ^ 32 - 1 - (requested : ℤ)) hinc.1.ne'
  have hge : (requested : ℤ) ≤ roundUp increment requested := by
    rw [hup]
    split <;> omega
  have hdown : (roundDown base border increment (roundUp increment requested) : ℤ) =
      roundUp increment requested
        - (roundUp increment requested - (base + border)) % increment :=
    roundDown_eq hinc (by omega) (by omega) hlt
  rw [LeastMultiple, RoundsUp]
  split at hup
  next hsmall =>
    -- nothing but the base size is left
    have hneed : (base + border - (requested : ℤ)) % increment = base + border - requested + increment := by
      rw [← Int.add_emod_right, Int.emod_eq_of_lt (by omega) (by omega)]
    rw [hup] at hdown
    rw [isLeast_iff hinc.1 ⟨by omega, by omega⟩ hdown, hneed]
    exact iff_of_false (by omega) fun h => by omega
  next hbig =>
    rw [hup] at hdown
    rw [isLeast_iff hinc.1 ⟨hrest', hrest⟩ hdown]
    exact (and_iff_right (not_lt.1 hbig)).symm

end Axis

/-! ### Resizing -/

/-- No limit but the increments is in effect. -/
structure Unlimited (limits : SizeLimits) (h : SizeHints) : Prop where
  minimum : h.minWidth = 0 ∧ h.minHeight = 0
  maximum : h.maxWidth = 0 ∧ h.maxHeight = 0
  aspectRatio : h.minAspectRatio ≤ 0 ∧ h.maxAspectRatio ≤ 0
  floatingMinimum : limits.floatingMinimumWidth = -1 ∧ limits.floatingMinimumHeight = -1
  floatingMaximum : limits.floatingMaximumWidth = -1 ∧ limits.floatingMaximumHeight = -1

/-- Increments are given, and the numbers are those of C. -/
structure Incremented (h : SizeHints) : Prop where
  width : 0 < h.widthIncrement ∧ h.widthIncrement < 2 ^ 31
  height : 0 < h.heightIncrement ∧ h.heightIncrement < 2 ^ 31
  base : 0 ≤ h.baseWidth ∧ 0 ≤ h.baseHeight

/-- What resizing is to do with the increments. -/
structure HonoursIncrements (h : SizeHints) (c c' : FloatingCon) (x y : ℕ) : Prop where
  width : LeastMultiple h.widthIncrement h.baseWidth c.borderWidth x c'.width
  height : LeastMultiple h.heightIncrement h.baseHeight c.borderHeight y c'.height

variable {limits : SizeLimits} {c : FloatingCon} {h : SizeHints} {x y : ℕ}

/-- A size above the limit stays. -/
theorem raiseTo_of_le {border size : ℕ} {limit : ℤ} (hlimit : 0 ≤ limit)
    (hle : limit + border ≤ size) (hsize : size < 2 ^ 32) : raiseTo border limit size = size := by
  have hless : ((u32 (size - border) : ℕ) : ℤ) = size - border := u32_eq (by omega) (by omega)
  have hlimitu : ((u32 limit : ℕ) : ℤ) = limit := u32_eq hlimit (by omega)
  have hmax : max (u32 (size - border)) (u32 limit) = u32 (size - border) := max_eq_left (by omega)
  have hsum : ((u32 (u32 (size - border) + border) : ℕ) : ℤ) = size := by
    rw [hless, u32_eq (by omega) (by omega)]
    ring
  rw [raiseTo, hmax]
  exact_mod_cast hsum

theorem roundUp_bounds {increment : ℤ} {requested : ℕ} (hinc : 0 < increment ∧ increment < 2 ^ 31)
    (hsize : requested < 2 ^ 32) :
    requested ≤ roundUp increment requested ∧ roundUp increment requested < 2 ^ 32 := by
  have hrest' := Int.emod_nonneg (2 ^ 32 - 1 - (requested : ℤ)) hinc.1.ne'
  have hup := roundUp_eq hinc hsize
  constructor
  · split at hup <;> omega
  · rw [roundUp, if_pos hinc.1.ne', u32]
    omega

/-- Without limits in the configuration the size stays. -/
theorem Unlimited.applyLimits (hlimits : Unlimited limits h) (c : FloatingCon) :
    c.applyLimits limits = c := by
  rw [FloatingCon.applyLimits, hlimits.floatingMinimum.1, hlimits.floatingMinimum.2,
    hlimits.floatingMaximum.1, hlimits.floatingMaximum.2]
  rfl

/-- Without other hints the size is rounded down. -/
theorem Unlimited.applyHints (hlimits : Unlimited limits h) (hbase : 0 ≤ h.baseWidth ∧ 0 ≤ h.baseHeight)
    (hwidth : h.baseWidth + c.borderWidth ≤ c.width ∧ c.width < 2 ^ 32)
    (hheight : h.baseHeight + c.borderHeight ≤ c.height ∧ c.height < 2 ^ 32) (preferHeight : Bool) :
    c.applyHints h preferHeight =
      { c with
        width := roundDown h.baseWidth c.borderWidth h.widthIncrement c.width
        height := roundDown h.baseHeight c.borderHeight h.heightIncrement c.height } := by
  have hraise : (if h.baseWidth = 0 then c
      else { c with width := raiseTo c.borderWidth h.baseWidth c.width }) = c := by
    rw [raiseTo_of_le hbase.1 hwidth.1 hwidth.2]
    split <;> rfl
  have hraise' : (if h.baseHeight = 0 then c
      else { c with height := raiseTo c.borderHeight h.baseHeight c.height }) = c := by
    rw [raiseTo_of_le hbase.2 hheight.1 hheight.2]
    split <;> rfl
  have haspect : ∀ d : FloatingCon, d.obeyAspectRatio h preferHeight = d := by
    intro d
    rw [FloatingCon.obeyAspectRatio, if_neg]
    rintro ⟨_, hmin | hmax⟩
    · exact absurd hmin (not_lt.2 hlimits.aspectRatio.1)
    · exact absurd hmax (not_lt.2 hlimits.aspectRatio.2)
  have hor : ∀ base : ℤ, (if base = 0 then 0 else base) = base := by
    intro base
    split
    next hzero => exact hzero.symm
    · rfl
  unfold FloatingCon.applyHints
  rw [hlimits.minimum.1, hlimits.minimum.2, hlimits.maximum.1, hlimits.maximum.2]
  simp only [ne_eq, not_true_eq_false, if_false, ite_not, hor, haspect, hraise, hraise']

/-- **Without other limits** the requested size is rounded up and then down. -/
theorem floatingResize_size (hwindow : c.window = some h) (hlimits : Unlimited limits h)
    (hinc : Incremented h) (hx : h.baseWidth + c.borderWidth < x ∧ x < 2 ^ 32)
    (hy : h.baseHeight + c.borderHeight < y ∧ y < 2 ^ 32) :
    (floatingResize limits c x y).width =
        roundDown h.baseWidth c.borderWidth h.widthIncrement (roundUp h.widthIncrement x)
      ∧ (floatingResize limits c x y).height =
        roundDown h.baseHeight c.borderHeight h.heightIncrement (roundUp h.heightIncrement y) := by
  obtain ⟨hxle, hxlt⟩ := roundUp_bounds hinc.width hx.2
  obtain ⟨hyle, hylt⟩ := roundUp_bounds hinc.height hy.2
  rw [floatingResize, hwindow]
  dsimp only
  rw [floatingCheckSize]
  dsimp only
  rw [hlimits.applyLimits, hlimits.applyHints hinc.base ⟨by dsimp only; omega, hxlt⟩ ⟨by dsimp only; omega, hylt⟩]
  split <;> exact ⟨rfl, rfl⟩

/-- A terminal with cells of 10 by 20 pixels, and a margin around them. -/
def terminalHints (base : ℤ) : SizeHints :=
  { baseWidth := base, baseHeight := base, widthIncrement := 10, heightIncrement := 20 }

def terminal (base : ℤ) : FloatingCon :=
  { width := 400, height := 300, borderWidth := 4, borderHeight := 4
    window := some (terminalHints base) }

def noLimits : SizeLimits :=
  { floatingMinimumWidth := -1, floatingMinimumHeight := -1, floatingMaximumWidth := -1
    floatingMaximumHeight := -1, outputsWidth := 1920, outputsHeight := 1080 }

end I3
