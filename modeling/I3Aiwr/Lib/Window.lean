import Mathlib.Algebra.BigOperators.Intervals
import Mathlib.Algebra.Order.BigOperators.Group.Finset
import Mathlib.Algebra.Order.Ring.Int
import Mathlib.Tactic.Ring

/-!
# Sliding windows

A window of radius `r` along a line is summed up at its first position and then kept up to date: what
comes in on the one side is added, and what goes out on the other side is taken away. Beyond the ends of
the line its first and its last element are repeated. The values are in any commutative group, so that
several sums can be kept at once.

A loop that counts up is a fold over a range; where its body may fail, an invariant says that it does not.

## Main definitions

* `Window.clamp len k`: the position on the line that is nearest to `k`
* `Window.sum f r i`: the sum over the window around `i`

## Main results

* `Window.sum_succ`: the next window
* `Window.exists_foldlM_range`: the rule for a counted loop whose body may fail
-/

namespace Window

variable {M σ : Type*}

/-- The position on a line of `len` elements that is nearest to `k`. -/
def clamp (len : ℕ) (k : ℤ) : ℤ := max 0 (min k (len - 1))

section Clamp

variable {len : ℕ} {k : ℤ}

theorem clamp_nonneg : 0 ≤ clamp len k := le_max_left _ _

theorem clamp_lt (hlen : 0 < len) : clamp len k < len := by
  unfold clamp
  omega

/-- On the line the position itself is the nearest. -/
theorem clamp_of_mem (hlow : 0 ≤ k) (hhigh : k < len) : clamp len k = k := by
  unfold clamp
  omega

end Clamp

variable [AddCommGroup M] {f : ℤ → M} {r : ℕ} {i : ℤ}

/-- The sum over the window of radius `r` around `i`. -/
def sum (f : ℤ → M) (r : ℕ) (i : ℤ) : M := ∑ j ∈ Finset.range (2 * r + 1), f (i - r + j)

/-- **The window moves on.** What comes in is added, and what goes out is taken away. -/
theorem sum_succ : sum f r (i + 1) = sum f r i + (f (i + r + 1) - f (i - r)) := by
  -- both windows are parts of the one with an element more
  have hshift : sum f r (i + 1) = ∑ j ∈ Finset.range (2 * r + 1), f (i - r + (j + 1 : ℕ)) := by
    refine Finset.sum_congr rfl fun j _ => ?_
    congr 1
    push_cast
    ring
  have hfirst := Finset.sum_range_succ' (fun j : ℕ => f (i - r + j)) (2 * r + 1)
  rw [Finset.sum_range_succ] at hfirst
  have hnew : i - r + (2 * r + 1 : ℕ) = i + r + 1 := by omega
  have hold : i - r + (0 : ℕ) = i - r := by omega
  rw [← hshift, hnew, hold] at hfirst
  calc sum f r (i + 1)
      = sum f r (i + 1) + f (i - r) - f (i - r) := (add_sub_cancel_right _ _).symm
    _ = sum f r i + f (i + r + 1) - f (i - r) := by rw [← hfirst, sum]
    _ = sum f r i + (f (i + r + 1) - f (i - r)) := add_sub_assoc _ _ _

/-- A window over one value. -/
theorem sum_const (x : M) : sum (fun _ => x) r i = (2 * r + 1) • x := by
  rw [sum, Finset.sum_const, Finset.card_range]

/-- Where all values are between two bounds, so is their mean. -/
theorem sum_mem_Icc {f : ℤ → ℤ} {b : ℤ} (h : ∀ k, 0 ≤ f k ∧ f k ≤ b) :
    0 ≤ sum f r i ∧ sum f r i ≤ (2 * r + 1) * b := by
  constructor
  · exact Finset.sum_nonneg fun k _ => (h _).1
  · calc sum f r i ≤ sum (fun _ => b) r i := Finset.sum_le_sum fun k _ => (h _).2
      _ = (2 * r + 1) * b := by
        rw [sum_const, nsmul_eq_mul]
        push_cast
        rfl

/-- **A counted loop whose body may fail** does not fail if an invariant says so for each round. -/
theorem exists_foldlM_range {P : ℕ → σ → Prop} {body : σ → ℕ → Option σ} {s : σ} {n : ℕ} (h : P 0 s)
    (hstep : ∀ i < n, ∀ s, P i s → ∃ s', body s i = some s' ∧ P (i + 1) s') :
    ∃ s', (List.range n).foldlM body s = some s' ∧ P n s' := by
  induction n with
  | zero => exact ⟨s, rfl, h⟩
  | succ n ih =>
    obtain ⟨s', hs', hP⟩ := ih fun i hi => hstep i (by omega)
    obtain ⟨s'', hs'', hP'⟩ := hstep n (by omega) s' hP
    refine ⟨s'', ?_, hP'⟩
    rw [List.range_succ, List.foldlM_append, hs']
    simp [hs'']

end Window
