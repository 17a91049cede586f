import Mathlib.Algebra.Order.Round
import Mathlib.Algebra.Order.BigOperators.Group.List
import Mathlib.Tactic.Linarith
import Mathlib.Tactic.NormNum
import Mathlib.Tactic.Ring

/-!
# Apportionment by rounding

A whole number is divided into given shares. Each share is rounded to the nearest integer, and what the
rounded shares have too much or too little is taken from the first of them, or given to them, one by one.
There is never more to correct than there are shares, so one pass over them is enough, and no share is
off by more than three halves; but a share of one that rounds to one can lose it.

## Main definitions

* `handOut δ n l`: the list `l` with `δ` added to its first `n` elements
* `apportion total shares`: the shares, rounded and corrected

## Main results

* `sum_apportion`, `apportion_near`
* `forall_one_le_apportion`: when each share keeps at least one
-/

namespace Apportion

/-- The list with `δ` added to its first `n` elements. -/
def handOut (δ : ℤ) : ℕ → List ℤ → List ℤ
  | n + 1, s :: l => (s + δ) :: handOut δ n l
  | 0, l => l
  | _ + 1, [] => []

section HandOut

variable {δ s : ℤ} {n k : ℕ} {l : List ℤ}

@[simp] theorem handOut_zero : handOut δ 0 l = l := by cases l <;> rfl

@[simp] theorem handOut_nil : handOut δ n [] = [] := by cases n <;> rfl

theorem handOut_succ_cons : handOut δ (n + 1) (s :: l) = (s + δ) :: handOut δ n l := rfl

theorem sum_handOut (h : n ≤ l.length) : (handOut δ n l).sum = l.sum + n * δ := by
  induction l generalizing n with
  | nil =>
    obtain rfl : n = 0 := Nat.le_zero.mp h
    simp
  | cons s l ih =>
    cases n with
    | zero => simp
    | succ n =>
      rw [handOut_succ_cons, List.sum_cons, List.sum_cons, ih (Nat.le_of_succ_le_succ h)]
      push_cast
      ring

theorem getElem?_handOut :
    (handOut δ n l)[k]? = (l[k]?).map fun s => if k < n then s + δ else s := by
  induction l generalizing n k with
  | nil => simp
  | cons s l ih =>
    cases n with
    | zero => simp
    | succ n =>
      rw [handOut_succ_cons]
      cases k with
      | zero => simp
      | succ k => simp only [List.getElem?_cons_succ, ih, Nat.add_lt_add_iff_right]

end HandOut

section Shares

variable {α : Type*} [Field α] [LinearOrder α] [IsStrictOrderedRing α] [FloorRing α]

/-- The rounded shares, with the difference from `total` given to the first of them or taken from them. -/
def apportion (total : ℤ) (shares : List α) : List ℤ :=
  handOut (if (shares.map round).sum < total then 1 else -1) ((shares.map round).sum - total).natAbs
    (shares.map round)

variable {total δ : ℤ} {shares : List α} {q : α} {n : ℕ}

theorem abs_sum_sub_sum_round_le (shares : List α) :
    |shares.sum - (shares.map round).sum| ≤ shares.length / 2 := by
  induction shares with
  | nil => simp
  | cons q shares ih =>
    have hround := abs_sub_round q
    rw [abs_le] at hround ih ⊢
    rw [List.map_cons, List.sum_cons, List.sum_cons, List.length_cons, Int.cast_add, Nat.cast_succ]
    constructor <;> linarith [hround.1, hround.2, ih.1, ih.2]

/-- **What there is to correct** is at most half the number of shares. -/
theorem two_mul_natAbs_le (hsum : shares.sum = total) :
    2 * ((shares.map round).sum - total).natAbs ≤ shares.length := by
  have hle := abs_sum_sub_sum_round_le shares
  rw [hsum, ← Int.cast_sub, ← Int.cast_abs, abs_sub_comm, Int.abs_eq_natAbs, Int.cast_natCast] at hle
  have htwo : (2 * ((shares.map round).sum - total).natAbs : α) ≤ shares.length := by linarith
  exact_mod_cast htwo

theorem sum_apportion (hsum : shares.sum = total) : (apportion total shares).sum = total := by
  have hle := two_mul_natAbs_le hsum
  rw [apportion, sum_handOut (by rw [List.length_map]; omega)]
  split <;> omega

theorem forall₂_handOut (hδ : |δ| ≤ 1) :
    List.Forall₂ (fun (q : α) (s : ℤ) => |q - s| ≤ 3 / 2) shares (handOut δ n (shares.map round)) := by
  have hcast : |(δ : α)| ≤ 1 := by exact_mod_cast hδ
  rw [abs_le] at hcast
  induction shares generalizing n with
  | nil => simp
  | cons q shares ih =>
    have hround := abs_le.mp (abs_sub_round q)
    rw [List.map_cons]
    cases n with
    | zero =>
      rw [handOut_zero]
      refine .cons (abs_le.mpr ⟨by linarith [hround.1], by linarith [hround.2]⟩) ?_
      simpa using ih (n := 0)
    | succ n =>
      rw [handOut_succ_cons]
      refine .cons (abs_le.mpr ?_) ih
      push_cast
      constructor <;> linarith [hround.1, hround.2, hcast.1, hcast.2]

/-- **No share is off** by more than three halves. -/
theorem apportion_near (total : ℤ) (shares : List α) :
    List.Forall₂ (fun (q : α) (s : ℤ) => |q - s| ≤ 3 / 2) shares (apportion total shares) := by
  refine forall₂_handOut ?_
  split <;> simp

theorem two_le_round_iff : 2 ≤ round q ↔ 3 / 2 ≤ q := by
  rw [round_eq, Int.le_floor]
  push_cast
  constructor <;> intro h <;> linarith

theorem one_le_round (hq : 1 ≤ q) : 1 ≤ round q := by
  rw [round_eq, Int.le_floor]
  push_cast
  linarith

/-- **When each share keeps one**: a share that rounds to one is behind all those that lose one. -/
theorem forall_one_le_apportion (total : ℤ) (hone : ∀ q ∈ shares, 1 ≤ q) :
    (∀ s ∈ apportion total shares, 1 ≤ s) ↔
      ∀ (k : ℕ) (q : α), shares[k]? = some q → q < 3 / 2 → (shares.map round).sum ≤ total + k := by
  have hmem : (∀ s ∈ apportion total shares, 1 ≤ s) ↔ ∀ (k : ℕ) (q : α), shares[k]? = some q →
      1 ≤ if k < ((shares.map round).sum - total).natAbs
        then round q + (if (shares.map round).sum < total then 1 else -1) else round q := by
    simp only [List.mem_iff_getElem?, apportion, getElem?_handOut, List.getElem?_map, Option.map_map,
      Option.map_eq_some_iff, Function.comp_apply]
    constructor
    · intro h k q hq
      exact h _ ⟨k, q, hq, rfl⟩
    · rintro h s ⟨k, q, hq, rfl⟩
      exact h k q hq
  rw [hmem]
  refine forall_congr' fun k => forall_congr' fun q => forall_congr' fun hq => ?_
  have hround : 1 ≤ round q := one_le_round (hone q (List.mem_of_getElem? hq))
  have htwo : 2 ≤ round q ↔ 3 / 2 ≤ q := two_le_round_iff
  rw [← not_le (a := 3 / 2), ← htwo]
  split_ifs <;> omega

end Shares

end Apportion
