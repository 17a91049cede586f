import Mathlib
import I3Aiwr.Floating.Coordinates

/-!
# The resolution of the scratchpad

Windows in the scratchpad are on the pseudo-output `__i3`. Hiding a window moves it there with
`floating_fix_coordinates`, and showing it moves it back; it comes back to the same place if the size of
the pseudo-output is a multiple of the output's. `scratchpad_fix_resolution` of `src/src/scratchpad.c`
makes it the least common multiple of all outputs. The product of two numbers is computed in an `int`
before it is divided, there and in `floating_fix_coordinates`, and may not fit where the quotient would.
An operation on an `int` that overflows is not defined.

## Main definitions

* `Scratchpad.newResolution`: the loop over the outputs
* `scratchpadFixResolution`: the pseudo-output, and the windows on it
* `fixCoordinates`: `floating_fix_coordinates`, where its products fit
* `Steady`: the size is the least common multiple, and windows come back
* `Fits`: all products fit

## Main results

* `newResolution_eq`: the loop finds the least common multiples if the products fit
* `fixCoordinates_twice`: hiding and showing a window
* `steady_iff`: when windows come back
-/

namespace I3

namespace Scratchpad

/-- The result of an operation on `int`, if it has one. -/
def int32 (n : ℤ) : Option ℤ := if -2 ^ 31 ≤ n ∧ n < 2 ^ 31 then some n else none

/-- `_gcd` -/
def gcd (m n : ℤ) : ℤ :=
  if n = 0 then m else gcd n (m.tmod n)
termination_by n.natAbs
decreasing_by
  rw [Int.natAbs_tmod]
  exact Nat.mod_lt _ (by omega)

/-- `_lcm`: the product comes first. -/
def lcm (m n : ℤ) : Option ℤ := do
  let o := gcd m n
  let product ← int32 (m * n)
  if o = 0 then none else int32 (product.tdiv o)

/-- One output in the loop of `scratchpad_fix_resolution`. -/
def addOutput (new : ℤ × ℤ) (output : Rect) : Option (ℤ × ℤ) :=
  if new.1 = -1 then some (output.width, output.height)
  else do
    let newWidth ← lcm new.1 output.width
    let newHeight ← lcm new.2 output.height
    return (newWidth, newHeight)

/-- `new_width` and `new_height` behind the loop over the outputs other than `__i3`. -/
def newResolution (outputs : List Rect) : Option (ℤ × ℤ) :=
  outputs.foldlM addOutput (-1, -1)

end Scratchpad

/-- `floating_fix_coordinates` for a window at `r`, where the products fit into an `int`. -/
def fixCoordinates (r old new : Rect) : Option Rect := do
  let relX := r.x - old.x + (r.width / 2 : ℕ)
  let relY := r.y - old.y + (r.height / 2 : ℕ)
  let shareX ← Scratchpad.int32 (relX * new.width)
  let shareY ← Scratchpad.int32 (relY * new.height)
  return { r with
    x := Tree.truncate (new.x + (shareX : ℚ) / (old.width : ℤ) - (r.width / 2 : ℕ))
    y := Tree.truncate (new.y + (shareY : ℚ) / (old.height : ℤ) - (r.height / 2 : ℕ)) }

/-- `scratchpad_fix_resolution`: the new rect of `__i3` and of the windows on it. -/
def scratchpadFixResolution (i3Output : Rect) (outputs windows : List Rect) :
    Option (Rect × List Rect) := do
  let (newWidth, newHeight) ← Scratchpad.newResolution outputs
  let newRect := { i3Output with width := newWidth.toNat, height := newHeight.toNat }
  if newRect = i3Output then return (newRect, windows)
  let windows ← windows.mapM fun r => fixCoordinates r i3Output newRect
  return (newRect, windows)

namespace Scratchpad

section Resolution

variable {m n : ℕ} {ns : List ℕ} {outputs : List Rect}

theorem gcd_natCast (m n : ℕ) : gcd m n = Nat.gcd m n := by
  induction n using Nat.strong_induction_on generalizing m with
  | _ n ih =>
    rw [gcd]
    split
    · next h0 =>
      have : n = 0 := by exact_mod_cast h0
      subst this
      simp
    · next h0 =>
      have hpos : 0 < n := by omega
      have hmod : (m : ℤ).tmod n = (m % n : ℕ) := by
        rw [Int.tmod_eq_emod_of_nonneg (by omega)]
        rfl
      rw [hmod, ih (m % n) (Nat.mod_lt _ hpos), Nat.gcd_comm m n, Nat.gcd_rec n m, Nat.gcd_comm]

theorem int32_natCast : int32 n = if n < 2 ^ 31 then some (n : ℤ) else none := by
  have hiff : (-2 ^ 31 ≤ (n : ℤ) ∧ (n : ℤ) < 2 ^ 31) ↔ n < 2 ^ 31 := by omega
  simp only [int32, hiff]

/-- The least common multiple of two positive numbers, if their product fits. -/
theorem lcm_of_fits (hm : 0 < m) (hfits : m * n < 2 ^ 31) : lcm m n = some (Nat.lcm m n : ℤ) := by
  have hgcd : (Nat.gcd m n : ℤ) ≠ 0 := by
    have := Nat.gcd_pos_of_pos_left n hm
    omega
  have hle : Nat.lcm m n ≤ m * n := Nat.div_le_self _ _
  have hquotient : Nat.lcm m n < 2 ^ 31 := lt_of_le_of_lt hle hfits
  have hdiv : ((m * n : ℕ) : ℤ).tdiv (Nat.gcd m n) = (Nat.lcm m n : ℕ) := by
    rw [Int.tdiv_eq_ediv_of_nonneg (Int.natCast_nonneg _), Nat.lcm, Int.natCast_div]
  have hproduct : int32 (m * n) = some ((m * n : ℕ) : ℤ) := by
    rw [← Int.natCast_mul, int32_natCast, if_pos hfits]
  simp only [lcm, gcd_natCast, hproduct, Option.bind_eq_bind, Option.bind_some]
  rw [if_neg hgcd, hdiv, int32_natCast, if_pos hquotient]

theorem lcm_of_not_fits (hfits : ¬ m * n < 2 ^ 31) : lcm m n = none := by
  have hproduct : int32 (m * n) = none := by
    rw [← Int.natCast_mul, int32_natCast, if_neg hfits]
  simp only [lcm, hproduct, Option.bind_eq_bind, Option.bind_none]

/-- The products in the loop over the numbers behind the first one fit. -/
def ProductsFit : ℕ → List ℕ → Prop
  | _, [] => True
  | m, n :: ns => m * n < 2 ^ 31 ∧ ProductsFit (Nat.lcm m n) ns

instance ProductsFit.instDecidable : ∀ (m : ℕ) (ns : List ℕ), Decidable (ProductsFit m ns)
  | _, [] => inferInstanceAs (Decidable True)
  | m, n :: ns =>
    have := ProductsFit.instDecidable (Nat.lcm m n) ns
    inferInstanceAs (Decidable (_ ∧ _))

/-- The least common multiple of the sizes. -/
def lcmFrom (m : ℕ) (ns : List ℕ) : ℕ := ns.foldl Nat.lcm m

theorem lcmFrom_pos (hm : 0 < m) (hns : ∀ n ∈ ns, 0 < n) : 0 < lcmFrom m ns := by
  induction ns generalizing m with
  | nil => exact hm
  | cons n ns ih =>
    exact ih (Nat.lcm_pos hm (hns n List.mem_cons_self)) fun k hk => hns k (List.mem_cons_of_mem _ hk)

theorem lcmFrom_dvd_iff {k : ℕ} : lcmFrom m ns ∣ k ↔ m ∣ k ∧ ∀ n ∈ ns, n ∣ k := by
  induction ns generalizing m with
  | nil => simp [lcmFrom]
  | cons n ns ih =>
    have := ih (m := Nat.lcm m n)
    simp only [lcmFrom, List.foldl_cons] at this ⊢
    simp [this, Nat.lcm_dvd_iff, and_assoc]

/-- **The loop over the outputs** finds the least common multiples if the products fit, and is not defined
if they do not. -/
theorem foldlM_addOutput {w h : ℕ} (hw : 0 < w) (hh : 0 < h)
    (hpos : ∀ o ∈ outputs, 0 < o.width ∧ 0 < o.height) (result : ℤ × ℤ) :
    outputs.foldlM addOutput ((w : ℤ), (h : ℤ)) = some result ↔
      (ProductsFit w (outputs.map Rect.width) ∧ ProductsFit h (outputs.map Rect.height))
        ∧ result = ((lcmFrom w (outputs.map Rect.width) : ℤ), (lcmFrom h (outputs.map Rect.height) : ℤ))
      := by
  induction outputs generalizing w h with
  | nil => simp [ProductsFit, lcmFrom, eq_comm]
  | cons o outputs ih =>
    obtain ⟨how, hoh⟩ := hpos o List.mem_cons_self
    have hrest := fun o ho => hpos o (List.mem_cons_of_mem _ ho)
    have hne : (w : ℤ) ≠ -1 := by omega
    rw [List.foldlM_cons, addOutput, if_neg hne]
    by_cases hwfits : w * o.width < 2 ^ 31
    · by_cases hhfits : h * o.height < 2 ^ 31
      · rw [lcm_of_fits hw hwfits, lcm_of_fits hh hhfits]
        simp only [Option.bind_eq_bind, Option.bind_some, Option.pure_def]
        rw [ih (Nat.lcm_pos hw how) (Nat.lcm_pos hh hoh) hrest]
        simp only [List.map_cons, ProductsFit, hwfits, hhfits, true_and, lcmFrom, List.foldl_cons]
      · rw [lcm_of_fits hw hwfits, lcm_of_not_fits hhfits]
        simp only [Option.bind_eq_bind, Option.bind_some, Option.bind_none, reduceCtorEq, false_iff]
        rintro ⟨⟨-, hfits, -⟩, -⟩
        exact hhfits hfits
    · rw [lcm_of_not_fits hwfits]
      simp only [Option.bind_eq_bind, Option.bind_none, reduceCtorEq, false_iff]
      rintro ⟨⟨⟨hfits, -⟩, -⟩, -⟩
      exact hwfits hfits

end Resolution

/-- The least common multiple of the widths, or of the heights, of the outputs. -/
def multiple (size : Rect → ℕ) (outputs : List Rect) : ℕ := lcmFrom 1 (outputs.map size)

theorem dvd_multiple {size : Rect → ℕ} {outputs : List Rect} {o : Rect} (ho : o ∈ outputs) :
    size o ∣ multiple size outputs :=
  (lcmFrom_dvd_iff.mp dvd_rfl).2 _ (List.mem_map_of_mem ho)

/-- The pseudo-output with the size that it is to have. -/
def resized (i3Output : Rect) (outputs : List Rect) : Rect :=
  { i3Output with width := multiple Rect.width outputs, height := multiple Rect.height outputs }

/-- The windows that are on the pseudo-output, where its size changes. -/
def fixWindows (i3Output new : Rect) (windows : List Rect) : Option (List Rect) :=
  if new = i3Output then some windows else windows.mapM fun r => fixCoordinates r i3Output new

/-- **What the resolution is for**: the pseudo-output gets the least common multiples, and a window that
is hidden and shown again on an output is where it was. -/
structure Steady (i3Output : Rect) (outputs : List Rect) : Prop where
  resolution : ∀ windows, scratchpadFixResolution i3Output outputs windows =
    (fixWindows i3Output (resized i3Output outputs) windows).map fun windows =>
      (resized i3Output outputs, windows)
  comesBack : ∀ o ∈ outputs, ∀ r : Rect, r.Centred o →
    ∃ hidden, fixCoordinates r o (resized i3Output outputs) = some hidden
      ∧ fixCoordinates hidden (resized i3Output outputs) o = some r

/-- **All products fit**: those of the loop over the outputs, and for each output the one for a window
with its centre at the far edge. -/
structure Fits (outputs : List Rect) : Prop where
  widths : ProductsFit 1 (outputs.map Rect.width)
  heights : ProductsFit 1 (outputs.map Rect.height)
  far : ∀ o ∈ outputs, (o.width - 1) * multiple Rect.width outputs < 2 ^ 31
    ∧ (o.height - 1) * multiple Rect.height outputs < 2 ^ 31

/-! ### The loop over the outputs -/

/-- Outputs that have a size, of less than 2 ^ 15 pixels in each direction. -/
def Sized (outputs : List Rect) : Prop :=
  ∀ o ∈ outputs, (0 < o.width ∧ o.width < 2 ^ 15) ∧ 0 < o.height ∧ o.height < 2 ^ 15

variable {outputs : List Rect} {i3Output : Rect}

theorem newResolution_eq_some (hne : outputs ≠ []) (hsized : Sized outputs) (result : ℤ × ℤ) :
    newResolution outputs = some result ↔
      (ProductsFit 1 (outputs.map Rect.width) ∧ ProductsFit 1 (outputs.map Rect.height))
        ∧ result = ((multiple Rect.width outputs : ℤ), (multiple Rect.height outputs : ℤ)) := by
  cases outputs with
  | nil => exact absurd rfl hne
  | cons o outputs =>
    obtain ⟨⟨hw, hw'⟩, hh, hh'⟩ := hsized o List.mem_cons_self
    have hrest : ∀ o ∈ outputs, 0 < o.width ∧ 0 < o.height := fun o ho =>
      have h := hsized o (List.mem_cons_of_mem _ ho)
      ⟨h.1.1, h.2.1⟩
    have hloop := foldlM_addOutput hw hh hrest result
    rw [newResolution, List.foldlM_cons, addOutput, if_pos rfl]
    simp only [Option.bind_eq_bind, Option.bind_some]
    rw [hloop]
    have hw1 : 1 * o.width < 2 ^ 31 := by omega
    have hh1 : 1 * o.height < 2 ^ 31 := by omega
    simp only [multiple, lcmFrom, List.map_cons, List.foldl_cons, ProductsFit, Nat.lcm_one_left, hw1, hh1,
      true_and]

/-! ### Hiding and showing -/

theorem truncate_intCast (n : ℤ) : Tree.truncate (n : ℚ) = n := by
  unfold Tree.truncate
  split
  · exact Int.ceil_intCast n
  · exact Int.floor_intCast n

/-- Along one axis: where the size of the new output is a multiple of the old one's, nothing is lost. -/
theorem truncate_of_dvd {size size' : ℕ} (start' rel half : ℤ) (hsize : 0 < size)
    (hdvd : size ∣ size') :
    Tree.truncate (start' + (((rel * size' : ℤ) : ℚ)) / (size : ℤ) - half)
      = start' + rel * (size' / size : ℕ) - half := by
  obtain ⟨k, rfl⟩ := hdvd
  have hne : (((size : ℤ)) : ℚ) ≠ 0 := by exact_mod_cast hsize.ne'
  have hexact : (start' + (((rel * (size * k : ℕ) : ℤ) : ℚ)) / (size : ℤ) - half : ℚ)
      = (start' + rel * k - half : ℤ) := by
    have hmul : (((rel * (size * k : ℕ) : ℤ) : ℚ)) / (size : ℤ) = rel * k := by
      rw [div_eq_iff hne]
      push_cast
      ring
    rw [hmul]
    push_cast
    ring
  rw [hexact, truncate_intCast, Nat.mul_div_cancel_left k hsize]

/-- Back along one axis: the pixel is the same. -/
theorem truncate_back {size size' : ℕ} (start rel half : ℤ) (hsize : 0 < size) (hsize' : 0 < size')
    (hdvd : size ∣ size') :
    Tree.truncate (start + (((rel * (size' / size : ℕ) * size : ℤ) : ℚ)) / (size' : ℤ) - half)
      = start + rel - half := by
  obtain ⟨k, rfl⟩ := hdvd
  have hne : (((size * k : ℕ) : ℤ) : ℚ) ≠ 0 := by exact_mod_cast hsize'.ne'
  have hexact : (start + (((rel * (size * k / size : ℕ) * size : ℤ) : ℚ)) / ((size * k : ℕ) : ℤ) - half : ℚ)
      = (start + rel - half : ℤ) := by
    have hmul : (((rel * (size * k / size : ℕ) * size : ℤ) : ℚ)) / ((size * k : ℕ) : ℤ) = rel := by
      rw [div_eq_iff hne, Nat.mul_div_cancel_left k hsize]
      push_cast
      ring
    rw [hmul]
    push_cast
    ring
  rw [hexact, truncate_intCast]

theorem int32_eq_some {n k : ℤ} : int32 n = some k ↔ (-2 ^ 31 ≤ n ∧ n < 2 ^ 31) ∧ k = n := by
  unfold int32
  split
  · next h =>
    constructor
    · rintro ⟨⟩
      exact ⟨h, rfl⟩
    · rintro ⟨-, rfl⟩
      rfl
  · next h =>
    constructor
    · exact nofun
    · rintro ⟨h', -⟩
      exact absurd h' h

/-- The fields of a window whose coordinates are fixed. -/
theorem fixCoordinates_eq_some {r old new r' : Rect} : fixCoordinates r old new = some r' ↔
    ((-2 ^ 31 ≤ (r.x - old.x + (r.width / 2 : ℕ)) * new.width
        ∧ (r.x - old.x + (r.width / 2 : ℕ)) * new.width < 2 ^ 31)
      ∧ -2 ^ 31 ≤ (r.y - old.y + (r.height / 2 : ℕ)) * new.height
        ∧ (r.y - old.y + (r.height / 2 : ℕ)) * new.height < 2 ^ 31)
    ∧ r' = { r with
        x := Tree.truncate (new.x + (((r.x - old.x + (r.width / 2 : ℕ)) * new.width : ℤ) : ℚ)
          / (old.width : ℤ) - (r.width / 2 : ℕ))
        y := Tree.truncate (new.y + (((r.y - old.y + (r.height / 2 : ℕ)) * new.height : ℤ) : ℚ)
          / (old.height : ℤ) - (r.height / 2 : ℕ)) } := by
  simp only [fixCoordinates, Option.bind_eq_bind, Option.bind_eq_some_iff, int32_eq_some, Option.pure_def]
  constructor
  · rintro ⟨-, ⟨hx, rfl⟩, -, ⟨hy, rfl⟩, ⟨⟩⟩
    exact ⟨⟨hx, hy⟩, rfl⟩
  · rintro ⟨⟨hx, hy⟩, rfl⟩
    exact ⟨_, ⟨hx, rfl⟩, _, ⟨hy, rfl⟩, rfl⟩

/-- Where the products fit, this is what the function does in the tree. -/
theorem floatingFixCoordinates_of_fits {t : Tree} {c : ConId} {old new r : Rect}
    (h : fixCoordinates (t.con c).rect old new = some r) :
    ((t.floatingFixCoordinates c old new).con c).rect = r := by
  rw [Tree.floatingFixCoordinates_rect, (fixCoordinates_eq_some.mp h).2]
  simp only [Int.cast_natCast]

/-- A product that fits, of a place on the output with the size of the pseudo-output. -/
theorem product_fits {size multiple : ℕ} (rel : ℤ) (hlow : 0 ≤ rel) (hhigh : rel < size)
    (hfar : (size - 1) * multiple < 2 ^ 31) : -2 ^ 31 ≤ rel * multiple ∧ rel * multiple < 2 ^ 31 := by
  obtain ⟨n, rfl⟩ := Int.eq_ofNat_of_zero_le hlow
  have hle : n * multiple ≤ (size - 1) * multiple := Nat.mul_le_mul_right _ (by omega)
  have hcast : (n : ℤ) * multiple = (n * multiple : ℕ) := by push_cast; rfl
  rw [hcast]
  omega

/-- **Hiding a window and showing it again** on the same output. -/
theorem fixCoordinates_twice {r old new : Rect} (hcentred : r.Centred old)
    (hold : 0 < old.width ∧ 0 < old.height) (hnew : 0 < new.width ∧ 0 < new.height)
    (hdvd : old.width ∣ new.width ∧ old.height ∣ new.height)
    (hfar : (old.width - 1) * new.width < 2 ^ 31 ∧ (old.height - 1) * new.height < 2 ^ 31) :
    ∃ hidden, fixCoordinates r old new = some hidden ∧ fixCoordinates hidden new old = some r := by
  obtain ⟨⟨hx, hx'⟩, hy, hy'⟩ := hcentred
  rw [middle] at hx hx' hy hy'
  have hfitsX := product_fits (r.x - old.x + (r.width / 2 : ℕ)) (by omega) (by omega) hfar.1
  have hfitsY := product_fits (r.y - old.y + (r.height / 2 : ℕ)) (by omega) (by omega) hfar.2
  have hthereX := truncate_of_dvd new.x (r.x - old.x + (r.width / 2 : ℕ)) (r.width / 2 : ℕ)
    hold.1 hdvd.1
  have hthereY := truncate_of_dvd new.y (r.y - old.y + (r.height / 2 : ℕ)) (r.height / 2 : ℕ)
    hold.2 hdvd.2
  have hbackX := truncate_back old.x (r.x - old.x + (r.width / 2 : ℕ)) (r.width / 2 : ℕ)
    hold.1 hnew.1 hdvd.1
  have hbackY := truncate_back old.y (r.y - old.y + (r.height / 2 : ℕ)) (r.height / 2 : ℕ)
    hold.2 hnew.2 hdvd.2
  -- the products on the way back are those on the way there
  have hsameX : ((new.width / old.width : ℕ) : ℤ) * old.width = new.width := by
    exact_mod_cast Nat.div_mul_cancel hdvd.1
  have hsameY : ((new.height / old.height : ℕ) : ℤ) * old.height = new.height := by
    exact_mod_cast Nat.div_mul_cancel hdvd.2
  refine ⟨_, fixCoordinates_eq_some.mpr ⟨⟨hfitsX, hfitsY⟩, rfl⟩, fixCoordinates_eq_some.mpr ?_⟩
  simp only [Int.cast_natCast] at hthereX hthereY hbackX hbackY ⊢
  rw [hthereX, hthereY]
  generalize hrelX : r.x - old.x + ((r.width / 2 : ℕ) : ℤ) = relX at *
  generalize hrelY : r.y - old.y + ((r.height / 2 : ℕ) : ℤ) = relY at *
  have hcancelX : new.x + relX * ((new.width / old.width : ℕ) : ℤ) - ((r.width / 2 : ℕ) : ℤ) - new.x
      + ((r.width / 2 : ℕ) : ℤ) = relX * ((new.width / old.width : ℕ) : ℤ) := by ring
  have hcancelY : new.y + relY * ((new.height / old.height : ℕ) : ℤ) - ((r.height / 2 : ℕ) : ℤ) - new.y
      + ((r.height / 2 : ℕ) : ℤ) = relY * ((new.height / old.height : ℕ) : ℤ) := by ring
  rw [hcancelX, hcancelY, hbackX, hbackY, mul_assoc, hsameX, mul_assoc, hsameY]
  refine ⟨⟨hfitsX, hfitsY⟩, ?_⟩
  obtain ⟨x, y, width, height⟩ := r
  simp only [Rect.mk.injEq, and_true]
  simp only at hrelX hrelY
  omega

/-! ### The scratchpad -/

theorem scratchpadFixResolution_eq {w h : ℕ} (hres : newResolution outputs = some ((w : ℤ), (h : ℤ)))
    (windows : List Rect) :
    scratchpadFixResolution i3Output outputs windows =
      (fixWindows i3Output { i3Output with width := w, height := h } windows).map fun windows =>
        ({ i3Output with width := w, height := h }, windows) := by
  rw [scratchpadFixResolution, hres]
  simp only [Option.bind_eq_bind, Option.bind_some, Int.toNat_natCast, Option.pure_def, fixWindows]
  split
  · rfl
  · rw [Option.map_eq_bind]
    rfl

/-- Where the resolution is defined, the products of the loop fit. -/
theorem Steady.productsFit (h : Steady i3Output outputs) (hne : outputs ≠ []) (hsized : Sized outputs) :
    ProductsFit 1 (outputs.map Rect.width) ∧ ProductsFit 1 (outputs.map Rect.height) := by
  have hdefined := h.resolution []
  rw [fixWindows] at hdefined
  cases hres : newResolution outputs with
  | some result => exact ((newResolution_eq_some hne hsized result).mp hres).1
  | none =>
    rw [scratchpadFixResolution, hres] at hdefined
    simp at hdefined

/-- **When windows in the scratchpad do not drift**: exactly when all products fit. -/
theorem steady_iff (i3Output : Rect) (outputs : List Rect) (hne : outputs ≠ [])
    (hsized : Sized outputs) : Steady i3Output outputs ↔ Fits outputs := by
  have hpos : ∀ o ∈ outputs, 0 < o.width ∧ 0 < o.height := fun o ho =>
    ⟨(hsized o ho).1.1, (hsized o ho).2.1⟩
  constructor
  · intro h
    obtain ⟨hwidths, hheights⟩ := h.productsFit hne hsized
    refine ⟨hwidths, hheights, fun o ho => ?_⟩
    -- a window of one pixel in the far corner
    have hsize := hpos o ho
    have hcentred : (⟨o.x + (o.width - 1 : ℕ), o.y + (o.height - 1 : ℕ), 1, 1⟩ : Rect).Centred o := by
      constructor <;> simp only [middle] <;> omega
    obtain ⟨hidden, hhidden, -⟩ := h.comesBack o ho _ hcentred
    obtain ⟨⟨⟨-, hx⟩, -, hy⟩, -⟩ := fixCoordinates_eq_some.mp hhidden
    have hhalf : ((1 / 2 : ℕ) : ℤ) = 0 := rfl
    rw [hhalf, add_zero, add_sub_cancel_left] at hx hy
    exact ⟨by exact_mod_cast hx, by exact_mod_cast hy⟩
  · intro h
    have hres : newResolution outputs
        = some ((multiple Rect.width outputs : ℤ), (multiple Rect.height outputs : ℤ)) :=
      (newResolution_eq_some hne hsized _).mpr ⟨⟨h.widths, h.heights⟩, rfl⟩
    have hmultiple : 0 < multiple Rect.width outputs ∧ 0 < multiple Rect.height outputs := by
      constructor
      · apply lcmFrom_pos one_pos
        simpa using fun o ho => (hpos o ho).1
      · apply lcmFrom_pos one_pos
        simpa using fun o ho => (hpos o ho).2
    refine ⟨scratchpadFixResolution_eq hres, fun o ho r hr => ?_⟩
    exact fixCoordinates_twice hr (hpos o ho) hmultiple ⟨dvd_multiple ho, dvd_multiple ho⟩ (h.far o ho)

/-- The outputs of the test for the resolution. -/
theorem steady_test : Steady ⟨0, 0, 1280, 1024⟩ [⟨0, 0, 683, 768⟩, ⟨683, 0, 1024, 768⟩]
    ↔ Fits [⟨0, 0, 683, 768⟩, ⟨683, 0, 1024, 768⟩] :=
  steady_iff _ _ (by decide) (by unfold Sized; decide)

/-- Two screens with a laptop between them: the multiple of the widths is 1311360, but its product with
the last width does not fit. -/
theorem not_steady_laptop : ¬ ∀ (i3Output : Rect) (outputs : List Rect), outputs ≠ [] → Sized outputs →
    multiple Rect.width outputs < 2 ^ 31 → multiple Rect.height outputs < 2 ^ 31 →
      Steady i3Output outputs := by
  intro h
  have hsized : Sized [⟨0, 0, 1920, 1080⟩, ⟨1920, 0, 1366, 768⟩, ⟨3286, 0, 1920, 1080⟩] := by
    unfold Sized
    decide
  have hsteady := h ⟨0, 0, 1280, 1024⟩ _ (by decide) hsized (by decide) (by decide)
  exact absurd (hsteady.productsFit (by decide) hsized).1 (by decide)

end Scratchpad

end I3
