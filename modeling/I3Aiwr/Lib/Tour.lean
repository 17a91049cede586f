import Mathlib.Data.Finset.Card
import Mathlib.Logic.Function.Iterate

/-!
# Going round a finite order

A finite set with a strict linear order has a tour: from every element to the least one beyond it,
and from the greatest one to the least of all. The tour backwards is the tour of the opposite
order. A function that takes each element to the next one of the tour visits all of them, and
comes back after as many steps as there are elements.

## Main definitions

* `Tour.Linear R S`: `R` is a strict linear order on `S`
* `Tour.Next R S u v`: `v` comes after `u`
* `Tour.Classes R S P`: the elements in `P` stand before or after the others
* `Tour.rank R S u`: how many elements there are before `u`

## Main results

* `Tour.Linear.next_flip`: the tour backwards
* `Tour.Linear.next_unique`: the next element is determined
* `Tour.Linear.next_of_same`, `Tour.Linear.next_of_other`, `Tour.Linear.next_of_alone`: the next
  element by classes
* `Tour.Linear.visits`, `Tour.Linear.returns`, `Tour.Linear.not_returns`: iterating a function that
  goes round
-/

namespace Tour

variable {α : Type*} {R : α → α → Prop} {S : Finset α} {u v x y : α}

/-- A strict linear order on a finite set. -/
structure Linear (R : α → α → Prop) (S : Finset α) : Prop where
  irrefl : ∀ x ∈ S, ¬ R x x
  trans : ∀ x ∈ S, ∀ y ∈ S, ∀ z ∈ S, R x y → R y z → R x z
  total : ∀ x ∈ S, ∀ y ∈ S, x = y ∨ R x y ∨ R y x

/-- `v` is the least of the elements beyond `u`. -/
def Above (R : α → α → Prop) (S : Finset α) (u v : α) : Prop :=
  R u v ∧ ∀ x ∈ S, R u x → x = v ∨ R v x

/-- `v` is the least element. -/
def Least (R : α → α → Prop) (S : Finset α) (v : α) : Prop := ∀ x ∈ S, x = v ∨ R v x

/-- `v` comes after `u`: it is the least beyond `u`, or the least of all if nothing is beyond `u`. -/
def Next (R : α → α → Prop) (S : Finset α) (u v : α) : Prop :=
  Above R S u v ∨ (∀ x ∈ S, ¬ R u x) ∧ Least R S v

/-- The elements in `P` come before the others, or after them. -/
def Classes (R : α → α → Prop) (S : Finset α) (P : α → Prop) : Prop :=
  (∀ x ∈ S, ∀ y ∈ S, P x → ¬ P y → R x y) ∨ ∀ x ∈ S, ∀ y ∈ S, P x → ¬ P y → R y x

namespace Linear

theorem asymm (h : Linear R S) (hx : x ∈ S) (hy : y ∈ S) (hxy : R x y) : ¬ R y x :=
  fun hyx => h.irrefl x hx (h.trans x hx y hy x hx hxy hyx)

theorem flip (h : Linear R S) : Linear (fun x y => R y x) S where
  irrefl := h.irrefl
  trans x hx y hy z hz hxy hyz := h.trans z hz y hy x hx hyz hxy
  total x hx y hy := (h.total x hx y hy).imp id Or.symm

/-- The tour backwards is the tour of the opposite order. -/
theorem next_flip (h : Linear R S) (hu : u ∈ S) (hv : v ∈ S) (hnext : Next R S u v) :
    Next (fun x y => R y x) S v u := by
  rcases hnext with ⟨huv, hleast⟩ | ⟨hmax, hmin⟩
  · refine .inl ⟨huv, fun x hx hxv => ?_⟩
    rcases h.total x hx u hu with rfl | hxu | hux
    · exact .inl rfl
    · exact .inr hxu
    · rcases hleast x hx hux with rfl | hvx
      · exact absurd hxv (h.irrefl _ hx)
      · exact absurd hvx (h.asymm hx hv hxv)
  · refine .inr ⟨fun x hx hxv => ?_, fun x hx => ?_⟩
    · rcases hmin x hx with rfl | hvx
      · exact h.irrefl _ hx hxv
      · exact h.asymm hx hv hxv hvx
    · exact (h.total x hx u hu).imp id fun hor => hor.resolve_right (hmax x hx)

/-- There is one next element. -/
theorem next_unique (h : Linear R S) (hx : x ∈ S) (hy : y ∈ S) (hux : Next R S u x)
    (huy : Next R S u y) : x = y := by
  rcases hux with ⟨hux, hx'⟩ | ⟨hmax, hx'⟩ <;> rcases huy with ⟨huy, hy'⟩ | ⟨hmax', hy'⟩
  · exact (hy' x hx hux).resolve_right fun hyx =>
      (hx' y hy huy).elim (fun heq => h.irrefl x hx (heq ▸ hyx)) (h.asymm hy hx hyx)
  · exact absurd hux (hmax' x hx)
  · exact absurd huy (hmax y hy)
  · exact (hy' x hx).resolve_right fun hyx =>
      (hx' y hy).elim (fun heq => h.irrefl x hx (heq ▸ hyx)) (h.asymm hy hx hyx)

/-! ### Two classes -/

section Classes

variable {P : α → Prop} (h : Linear R S) (hP : Classes R S P) (hu : u ∈ S) (hv : v ∈ S) (hPu : P u)
include h hP hu hv hPu

/-- The next element is the least one beyond `u` in its class, if there is one. -/
theorem next_of_same (hPv : P v) (huv : R u v) (hleast : ∀ x ∈ S, P x → R u x → x = v ∨ R v x) :
    Next R S u v := by
  refine .inl ⟨huv, fun x hx hux => ?_⟩
  by_cases hPx : P x
  · exact hleast x hx hPx hux
  · rcases hP with hfst | hsnd
    · exact .inr (hfst v hv x hx hPv hPx)
    · exact absurd hux (h.asymm hx hu (hsnd u hu x hx hPu hPx))

/-- Otherwise it is the least element of the other class, if there is one. -/
theorem next_of_other (hPv : ¬ P v) (hnone : ∀ x ∈ S, P x → ¬ R u x)
    (hleast : ∀ x ∈ S, ¬ P x → x = v ∨ R v x) : Next R S u v := by
  rcases hP with hfst | hsnd
  · refine .inl ⟨hfst u hu v hv hPu hPv, fun x hx hux => ?_⟩
    exact hleast x hx fun hPx => hnone x hx hPx hux
  · refine .inr ⟨fun x hx hux => ?_, fun x hx => ?_⟩
    · by_cases hPx : P x
      · exact hnone x hx hPx hux
      · exact h.asymm hu hx hux (hsnd u hu x hx hPu hPx)
    · by_cases hPx : P x
      · exact .inr (hsnd x hx v hv hPx hPv)
      · exact hleast x hx hPx

omit h hP hu hv hPu in
/-- And if there is no other class, the least element of all. -/
theorem next_of_alone (halone : ∀ x ∈ S, P x) (hnone : ∀ x ∈ S, P x → ¬ R u x)
    (hleast : ∀ x ∈ S, P x → x = v ∨ R v x) : Next R S u v :=
  .inr ⟨fun x hx => hnone x hx (halone x hx), fun x hx => hleast x hx (halone x hx)⟩

end Classes

end Linear

/-! ### Counting -/

section Rank

open Classical

/-- How many elements there are before `u`. -/
noncomputable def rank (R : α → α → Prop) (S : Finset α) (u : α) : ℕ := (S.filter fun x => R x u).card

namespace Linear

variable (h : Linear R S)
include h

theorem rank_lt (hu : u ∈ S) : rank R S u < S.card :=
  Finset.card_lt_card (Finset.filter_ssubset.mpr ⟨u, hu, h.irrefl u hu⟩)

theorem rank_lt_rank (hu : u ∈ S) (hv : v ∈ S) (huv : R u v) : rank R S u < rank R S v := by
  refine Finset.card_lt_card ⟨fun x hx => ?_, fun hsub => ?_⟩
  · obtain ⟨hx, hxu⟩ := Finset.mem_filter.mp hx
    exact Finset.mem_filter.mpr ⟨hx, h.trans x hx u hu v hv hxu huv⟩
  · exact h.irrefl u hu (Finset.mem_filter.mp (hsub (Finset.mem_filter.mpr ⟨hu, huv⟩))).2

theorem rank_inj (hu : u ∈ S) (hv : v ∈ S) (heq : rank R S u = rank R S v) : u = v := by
  rcases h.total u hu v hv with rfl | huv | hvu
  · rfl
  · exact absurd heq (h.rank_lt_rank hu hv huv).ne
  · exact absurd heq (h.rank_lt_rank hv hu hvu).ne'

/-- The next element has the next rank. -/
theorem rank_next (hu : u ∈ S) (hv : v ∈ S) (hnext : Next R S u v) :
    rank R S v = (rank R S u + 1) % S.card := by
  rcases hnext with ⟨huv, hleast⟩ | ⟨hmax, hmin⟩
  · have hset : (S.filter fun x => R x v) = insert u (S.filter fun x => R x u) := by
      ext x
      simp only [Finset.mem_filter, Finset.mem_insert]
      constructor
      · rintro ⟨hx, hxv⟩
        rcases h.total x hx u hu with rfl | hxu | hux
        · exact .inl rfl
        · exact .inr ⟨hx, hxu⟩
        · rcases hleast x hx hux with rfl | hvx
          · exact absurd hxv (h.irrefl _ hx)
          · exact absurd hvx (h.asymm hx hv hxv)
      · rintro (rfl | ⟨hx, hxu⟩)
        · exact ⟨hu, huv⟩
        · exact ⟨hx, h.trans x hx u hu v hv hxu huv⟩
    have hrank : rank R S v = rank R S u + 1 := by
      rw [rank, hset, Finset.card_insert_of_notMem (by simp [h.irrefl u hu])]
      rfl
    rw [Nat.mod_eq_of_lt (hrank ▸ h.rank_lt hv), hrank]
  · have hlast : rank R S u + 1 = S.card := by
      have hset : (S.filter fun x => R x u) = S.erase u := by
        ext x
        simp only [Finset.mem_filter, Finset.mem_erase]
        constructor
        · rintro ⟨hx, hxu⟩
          exact ⟨fun heq => h.irrefl u hu (heq ▸ hxu), hx⟩
        · rintro ⟨hne, hx⟩
          exact ⟨hx, ((h.total x hx u hu).resolve_left hne).resolve_right (hmax x hx)⟩
      rw [rank, hset, Finset.card_erase_add_one hu]
    have hfirst : rank R S v = 0 := by
      rw [rank, Finset.card_eq_zero, Finset.filter_eq_empty_iff]
      intro x hx hxv
      rcases hmin x hx with rfl | hvx
      · exact h.irrefl _ hx hxv
      · exact h.asymm hx hv hxv hvx
    rw [hlast, Nat.mod_self, hfirst]

/-! ### Iterating -/

variable {next : α → α} (hmem : ∀ x ∈ S, next x ∈ S) (hnext : ∀ x ∈ S, Next R S x (next x))
include hmem hnext

omit h hnext in
theorem iterate_mem (hu : u ∈ S) (k : ℕ) : next^[k] u ∈ S := by
  induction k with
  | zero => exact hu
  | succ k ih => exact Function.iterate_succ_apply' next k u ▸ hmem _ ih

theorem rank_iterate (hu : u ∈ S) (k : ℕ) :
    rank R S (next^[k] u) = (rank R S u + k) % S.card := by
  induction k with
  | zero => exact (Nat.mod_eq_of_lt (h.rank_lt hu)).symm
  | succ k ih =>
    have hk := iterate_mem hmem hu k
    rw [Function.iterate_succ_apply', h.rank_next hk (hmem _ hk) (hnext _ hk), ih,
      Nat.mod_add_mod, Nat.add_assoc]

/-- **The tour visits every element.** -/
theorem visits (hu : u ∈ S) (hv : v ∈ S) : ∃ k < S.card, next^[k] u = v := by
  have hpos : 0 < S.card := Finset.card_pos.mpr ⟨u, hu⟩
  refine ⟨(rank R S v + (S.card - rank R S u)) % S.card, Nat.mod_lt _ hpos, ?_⟩
  refine h.rank_inj (iterate_mem hmem hu _) hv ?_
  have hlt := h.rank_lt hu
  rw [h.rank_iterate hmem hnext hu, Nat.add_mod_mod,
    show rank R S u + (rank R S v + (S.card - rank R S u)) = rank R S v + S.card by omega,
    Nat.add_mod_right, Nat.mod_eq_of_lt (h.rank_lt hv)]

/-- **The tour comes back** after as many steps as there are elements. -/
theorem returns (hu : u ∈ S) : next^[S.card] u = u := by
  refine h.rank_inj (iterate_mem hmem hu _) hu ?_
  rw [h.rank_iterate hmem hnext hu, Nat.add_mod_right, Nat.mod_eq_of_lt (h.rank_lt hu)]

/-- The tour does not come back earlier. -/
theorem not_returns (hu : u ∈ S) {k : ℕ} (hpos : 0 < k) (hlt : k < S.card) : next^[k] u ≠ u := by
  intro heq
  have hrank := h.rank_iterate hmem hnext hu k
  rw [heq] at hrank
  have hr := h.rank_lt hu
  by_cases hle : rank R S u + k < S.card
  · rw [Nat.mod_eq_of_lt hle] at hrank
    omega
  · rw [Nat.mod_eq_sub_mod (by omega), Nat.mod_eq_of_lt (by omega)] at hrank
    omega

end Linear

end Rank

end Tour
