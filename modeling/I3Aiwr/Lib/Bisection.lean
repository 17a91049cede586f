import Mathlib.Algebra.Order.AbsoluteValue.Basic
import Mathlib.Algebra.Order.Field.Basic
import Mathlib.Tactic.FieldSimp
import Mathlib.Tactic.Linarith
import Mathlib.Tactic.Ring

/-!
# Bisection

A search for a point where a function has a given value, in an interval at whose ends the function
is below and above it. The first point may be anywhere in the interval; the others are midpoints.
The search stops early where the value is near enough. Where it does not, a bound on the slope of
the function says how near the value is after some steps.

## Main definitions

* `Bisection.search f p ε n lo hi t`: at most `n` steps of the search
* `Bisection.Brackets f p lo hi`: the value is between the ones at the ends
* `Bisection.Slope f L a b`: between `a` and `b` the function grows at most `L` times as fast

## Main results

* `Bisection.Brackets.search_midpoint`: how near the search comes
* `Bisection.Brackets.search`: the same from any first point
-/

namespace Bisection

variable {K : Type*} [Field K] [LinearOrder K] [IsStrictOrderedRing K] {f : K → K}
  {p ε L a b lo hi t : K}

/-- At most `n` steps of the search in `[lo, hi]`, which looks at `t` next. -/
def search (f : K → K) (p ε : K) : ℕ → K → K → K → K
  | 0, _, _, t => t
  | n + 1, lo, hi, t =>
    if |f t - p| < ε then t
    else if f t < p then search f p ε n t hi ((t + hi) / 2)
    else search f p ε n lo t ((lo + t) / 2)

/-- Between the ends the function passes the value. -/
structure Brackets (f : K → K) (p lo hi : K) : Prop where
  le : lo ≤ hi
  left : f lo ≤ p
  right : p ≤ f hi

/-- The function grows at most `L` times as fast as its argument. -/
def Slope (f : K → K) (L a b : K) : Prop :=
  ∀ s t, a ≤ s → s ≤ t → t ≤ b → f t - f s ≤ L * (t - s)

/-- The midpoint is as near as the slope lets it be. -/
theorem Brackets.abs_midpoint (h : Brackets f p lo hi) (hL : Slope f L a b) (ha : a ≤ lo)
    (hb : hi ≤ b) : |f ((lo + hi) / 2) - p| ≤ L * (hi - lo) / 2 := by
  have hle := h.le
  have hlo := hL lo ((lo + hi) / 2) ha (by linarith) (by linarith)
  have hhi := hL ((lo + hi) / 2) hi (by linarith) (by linarith) hb
  have hleft := h.left
  have hright := h.right
  rw [abs_le]
  constructor
  · have heq : L * (hi - (lo + hi) / 2) = L * (hi - lo) / 2 := by ring
    linarith
  · have heq : L * ((lo + hi) / 2 - lo) = L * (hi - lo) / 2 := by ring
    linarith

omit [LinearOrder K] [IsStrictOrderedRing K] in
/-- Half of the interval, one step later. -/
theorem halved [CharZero K] (L w : K) (n : ℕ) : L * (w / 2) / 2 ^ n = L * w / 2 ^ (n + 1) := by
  rw [pow_succ]
  field_simp

/-- **The search from a midpoint**: it stops near enough, or halves the interval every time. -/
theorem Brackets.search_midpoint (h : Brackets f p lo hi) (hL : Slope f L a b) (ha : a ≤ lo)
    (hb : hi ≤ b) (ε : K) (n : ℕ) :
    lo ≤ search f p ε n lo hi ((lo + hi) / 2) ∧ search f p ε n lo hi ((lo + hi) / 2) ≤ hi
      ∧ (|f (search f p ε n lo hi ((lo + hi) / 2)) - p| < ε
        ∨ |f (search f p ε n lo hi ((lo + hi) / 2)) - p| ≤ L * (hi - lo) / 2 ^ (n + 1)) := by
  induction n generalizing lo hi with
  | zero =>
    rw [search, zero_add, pow_one]
    exact ⟨by linarith [h.le], by linarith [h.le], .inr (h.abs_midpoint hL ha hb)⟩
  | succ n ih =>
    have hlo : lo ≤ (lo + hi) / 2 := by linarith [h.le]
    have hhi : (lo + hi) / 2 ≤ hi := by linarith [h.le]
    rw [search]
    split
    next hnear => exact ⟨hlo, hhi, .inl hnear⟩
    next =>
      split
      next hbelow =>
        have h' : Brackets f p ((lo + hi) / 2) hi := ⟨hhi, hbelow.le, h.right⟩
        obtain ⟨hl, hr, hnear⟩ := ih h' (ha.trans hlo) hb
        refine ⟨hlo.trans hl, hr, hnear.imp_right fun hle => hle.trans_eq ?_⟩
        rw [show hi - (lo + hi) / 2 = (hi - lo) / 2 by ring, halved]
      next hnot =>
        have h' : Brackets f p lo ((lo + hi) / 2) := ⟨hlo, h.left, not_lt.1 hnot⟩
        obtain ⟨hl, hr, hnear⟩ := ih h' ha (hhi.trans hb)
        refine ⟨hl, hr.trans hhi, hnear.imp_right fun hle => hle.trans_eq ?_⟩
        rw [show (lo + hi) / 2 - lo = (hi - lo) / 2 by ring, halved]

/-- **The search from any first point** in the interval. -/
theorem Brackets.search (h : Brackets f p lo hi) (hL : Slope f L lo hi) (hL₀ : 0 ≤ L)
    (hlo : lo ≤ t) (hhi : t ≤ hi) (ε : K) (n : ℕ) :
    lo ≤ Bisection.search f p ε (n + 1) lo hi t ∧ Bisection.search f p ε (n + 1) lo hi t ≤ hi
      ∧ (|f (Bisection.search f p ε (n + 1) lo hi t) - p| < ε
        ∨ |f (Bisection.search f p ε (n + 1) lo hi t) - p| ≤ L * (hi - lo) / 2 ^ (n + 1)) := by
  have hshrink : ∀ w : K, w ≤ hi - lo → L * w / 2 ^ (n + 1) ≤ L * (hi - lo) / 2 ^ (n + 1) :=
    fun w hw => by gcongr
  rw [Bisection.search]
  split
  next hnear => exact ⟨hlo, hhi, .inl hnear⟩
  next =>
    split
    next hbelow =>
      have h' : Brackets f p t hi := ⟨hhi, hbelow.le, h.right⟩
      obtain ⟨hl, hr, hnear⟩ := h'.search_midpoint hL hlo le_rfl ε n
      exact ⟨hlo.trans hl, hr, hnear.imp_right fun hle => hle.trans (hshrink _ (by linarith))⟩
    next hnot =>
      have h' : Brackets f p lo t := ⟨hlo, h.left, not_lt.1 hnot⟩
      obtain ⟨hl, hr, hnear⟩ := h'.search_midpoint hL le_rfl hhi ε n
      exact ⟨hl, hr.trans hhi, hnear.imp_right fun hle => hle.trans (hshrink _ (by linarith))⟩

end Bisection
