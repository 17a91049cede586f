import Mathlib.Algebra.Order.Field.Rat
import Mathlib.Tactic.NormNum
import I3Aiwr.Lib.Bisection

/-!
# Evaluating a Bézier curve

`bezier_eval` of `src/aiwr_bezier.c`: the curve goes from (0, 0) to (1, 1), and the value at the
progress `p` is the height where its other coordinate is `p`. That point of the curve is sought with
Newton's method, and by bisection where the steps do not come to an end. The numbers are exact here.

Newton's steps may wander about. The bisection does not depend on them: it starts anew from `p`, the
curve crosses `p` between its ends, and its slope is at most 3.

## Main definitions

* `Bezier`: the control points of a curve
* `bez`, `bezDx`: a coordinate of the curve, and its derivative
* `Bezier.newton`, `Bezier.bisect`, `Bezier.bezierEval`

## Main results

* `slope_bez`: how steep a coordinate is
* `Bezier.bezierEval_solves`: the value belongs to a point of the curve near `p`
-/

namespace I3

/-- `x(t)` and `y(t)`, with (0, 0) and (1, 1) as the first and the last point. -/
def bez (a b t : ℚ) : ℚ :=
  let u := 1 - t
  3 * u * u * t * a + 3 * u * t * t * b + t * t * t

/-- The derivative of `x(t)`. -/
def bezDx (x1 x2 t : ℚ) : ℚ :=
  let u := 1 - t
  3 * u * u * x1 + 6 * u * t * (x2 - x1) + 3 * t * t * (1 - x2)

/-- How near is near enough: `1e-6`. -/
def bezierEpsilon : ℚ := 1 / 1000000

/-- `clamp01`. -/
def clamp01 (v : ℚ) : ℚ := if v < 0 then 0 else if v > 1 then 1 else v

theorem clamp01_mem (v : ℚ) : 0 ≤ clamp01 v ∧ clamp01 v ≤ 1 := by
  rw [clamp01]
  split
  · exact ⟨le_rfl, zero_le_one⟩
  next hneg =>
    split
    · exact ⟨zero_le_one, le_rfl⟩
    next hbig => exact ⟨not_lt.1 hneg, not_lt.1 hbig⟩

/-- The control points of a curve. The first coordinates have to be in [0, 1]; the others are free. -/
structure Bezier where
  x1 : ℚ
  y1 : ℚ
  x2 : ℚ
  y2 : ℚ
  mem_x1 : 0 ≤ x1 ∧ x1 ≤ 1
  mem_x2 : 0 ≤ x2 ∧ x2 ≤ 1

namespace Bezier

/-- `aiwr_curve_define`, once it has found the place of the curve. -/
def define (x1 y1 x2 y2 : ℚ) : Bezier where
  x1 := clamp01 x1
  y1 := y1
  x2 := clamp01 x2
  y2 := y2
  mem_x1 := clamp01_mem x1
  mem_x2 := clamp01_mem x2

variable (c : Bezier) (p : ℚ)

/-- At most `n` steps of Newton's method from `t`, and the value where one of them is near enough. -/
def newton : ℕ → ℚ → Option ℚ
  | 0, _ => none
  | n + 1, t =>
    let x := bez c.x1 c.x2 t - p
    if |x| < bezierEpsilon then some (bez c.y1 c.y2 t)
    else
      let d := bezDx c.x1 c.x2 t
      if |d| < bezierEpsilon then none else newton n (clamp01 (t - x / d))

/-- The bisection, which starts from `p`. -/
def bisect (n : ℕ) : ℚ := Bisection.search (bez c.x1 c.x2) p bezierEpsilon n 0 1 p

/-- `bezier_eval`. -/
def bezierEval : ℚ :=
  match c.newton p 8 p with
  | some y => y
  | none => bez c.y1 c.y2 (c.bisect p 24)

end Bezier

/-! ### The slope -/

theorem bez_zero (a b : ℚ) : bez a b 0 = 0 := by simp [bez]

theorem bez_one (a b : ℚ) : bez a b 1 = 1 := by simp [bez]

/-- The slope between two points of the curve. -/
theorem bez_sub_bez (a b s t : ℚ) : bez a b t - bez a b s =
    (a * (3 * (1 - 2 * (t + s) + (t * t + t * s + s * s)))
      + b * (3 * ((t + s) - (t * t + t * s + s * s))) + (t * t + t * s + s * s)) * (t - s) := by
  rw [bez, bez]
  ring

/-- **A coordinate is nowhere steeper than 3.** The slope is linear in both control points, so that
only the corners of the square need a look. -/
theorem slope_bez {a b : ℚ} (ha : 0 ≤ a ∧ a ≤ 1) (hb : 0 ≤ b ∧ b ≤ 1) :
    Bisection.Slope (bez a b) 3 0 1 := by
  intro s t hs hst ht
  obtain ⟨ha₀, ha₁⟩ := ha
  obtain ⟨hb₀, hb₁⟩ := hb
  have ht₀ : 0 ≤ t := hs.trans hst
  have hs₁ : s ≤ 1 := hst.trans ht
  have htt : t * t ≤ t := mul_le_of_le_one_left ht₀ ht
  have hss : s * s ≤ s := mul_le_of_le_one_left hs hs₁
  have hts : t * s ≤ s := mul_le_of_le_one_left hs ht
  have hst' : t * s ≤ t := mul_le_of_le_one_right ht₀ hs₁
  have hcross : 0 ≤ t * s := mul_nonneg ht₀ hs
  have hsq : 0 ≤ (t + s - 1) * (t + s - 1) := mul_self_nonneg _
  rw [bez_sub_bez]
  apply mul_le_mul_of_nonneg_right _ (sub_nonneg.2 hst)
  generalize hA : 3 * (1 - 2 * (t + s) + (t * t + t * s + s * s)) = A
  generalize hB : 3 * ((t + s) - (t * t + t * s + s * s)) = B
  generalize hC : t * t + t * s + s * s = C at hA hB ⊢
  -- the four corners
  have h₀₀ : 0 ≤ 3 - C := by linarith
  have h₁₀ : 0 ≤ 3 - (A + C) := by linarith
  have h₀₁ : 0 ≤ 3 - (B + C) := by nlinarith
  have h₁₁ : 0 ≤ 3 - (A + B + C) := by linarith
  have hsplit : 3 - (a * A + b * B + C) = (1 - a) * (1 - b) * (3 - C) + a * (1 - b) * (3 - (A + C))
      + (1 - a) * b * (3 - (B + C)) + a * b * (3 - (A + B + C)) := by ring
  have ha' : 0 ≤ 1 - a := sub_nonneg.2 ha₁
  have hb' : 0 ≤ 1 - b := sub_nonneg.2 hb₁
  apply le_of_sub_nonneg
  rw [hsplit]
  positivity

namespace Bezier

variable {c : Bezier} {p : ℚ}

/-- Newton's method returns a value of the curve near `p`, if it returns one. -/
theorem newton_spec {n : ℕ} {t y : ℚ} (h : c.newton p n t = some y) (ht : 0 ≤ t ∧ t ≤ 1) :
    ∃ s, (0 ≤ s ∧ s ≤ 1) ∧ y = bez c.y1 c.y2 s ∧ |bez c.x1 c.x2 s - p| < bezierEpsilon := by
  induction n generalizing t with
  | zero => cases h
  | succ n ih =>
    rw [newton] at h
    split at h
    next hnear =>
      cases h
      exact ⟨t, ht, rfl, hnear⟩
    next =>
      dsimp only at h
      split at h
      · cases h
      -- the next point is clamped
      · exact ih h (clamp01_mem _)

/-- The bisection comes near `p`, whatever Newton's method did. -/
theorem bisect_spec (h₀ : 0 ≤ p) (h₁ : p ≤ 1) :
    (0 ≤ c.bisect p 24 ∧ c.bisect p 24 ≤ 1)
      ∧ |bez c.x1 c.x2 (c.bisect p 24) - p| < bezierEpsilon := by
  have hbrackets : Bisection.Brackets (bez c.x1 c.x2) p 0 1 :=
    ⟨zero_le_one, by rwa [bez_zero], by rwa [bez_one]⟩
  obtain ⟨hl, hr, hnear⟩ :=
    hbrackets.search (slope_bez c.mem_x1 c.mem_x2) (by norm_num) h₀ h₁ bezierEpsilon 23
  refine ⟨⟨hl, hr⟩, ?_⟩
  rcases hnear with hnear | hnear
  · exact hnear
  · -- 24 halvings are enough for the slope
    refine hnear.trans_lt ?_
    norm_num [bezierEpsilon]

/-- **`bezier_eval` solves the curve**: its value belongs to a point of the curve whose first
coordinate is near `p`. -/
theorem bezierEval_solves (c : Bezier) (p : ℚ) (h₀ : 0 ≤ p) (h₁ : p ≤ 1) :
    ∃ t, (0 ≤ t ∧ t ≤ 1) ∧ c.bezierEval p = bez c.y1 c.y2 t
      ∧ |bez c.x1 c.x2 t - p| < 1 / 1000000 := by
  unfold bezierEval
  split
  next y hy =>
    obtain ⟨s, hs, heq, hnear⟩ := newton_spec hy ⟨h₀, h₁⟩
    exact ⟨s, hs, heq, hnear⟩
  next =>
    obtain ⟨hmem, hnear⟩ := bisect_spec h₀ h₁
    exact ⟨_, hmem, rfl, hnear⟩

/-- The preset `overshot`, a quarter of the way. -/
theorem bezierEval_overshot :
    ∃ t, (0 ≤ t ∧ t ≤ 1)
      ∧ (define (1 / 20) (9 / 10) (1 / 10) (11 / 10)).bezierEval (1 / 4) = bez (9 / 10) (11 / 10) t
      ∧ |bez (1 / 20) (1 / 10) t - 1 / 4| < 1 / 1000000 := by
  have h₁ : clamp01 (1 / 20) = 1 / 20 := by norm_num [clamp01]
  have h₂ : clamp01 (1 / 10) = 1 / 10 := by norm_num [clamp01]
  have h := bezierEval_solves (define (1 / 20) (9 / 10) (1 / 10) (11 / 10)) (1 / 4) (by norm_num)
    (by norm_num)
  rwa [show (define (1 / 20) (9 / 10) (1 / 10) (11 / 10)).x1 = 1 / 20 from h₁,
    show (define (1 / 20) (9 / 10) (1 / 10) (11 / 10)).x2 = 1 / 10 from h₂] at h

end Bezier

end I3
