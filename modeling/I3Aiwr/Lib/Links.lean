import Mathlib.Logic.Relation
import Mathlib.Data.Nat.Find
import Mathlib.Data.List.Range
import Mathlib.Data.List.Nodup
import Mathlib.Data.List.Perm.Subperm

/-!
# Following links

Each node may have a link to another one, and the links may lead in a circle. Following them from a node
one comes to a mark after some links, or never. Among finitely many nodes fewer links than there are nodes
are enough, since a way that comes to a node twice can be cut short.

## Main definitions

* `Links.After next p n a`: following `n` links from `a` one is at a node with `p`
* `Links.walk next a n`: where one is after `n` links

## Main results

* `Links.exists_after_iff`
* `Links.exists_after_lt_length`: the number of nodes bounds the links
-/

namespace Links

open Relation

variable {α : Type*} {next : α → Option α} {p : α → Prop} {a b : α} {n : ℕ}

/-- Following `n` links from `a` one is at a node with `p`. -/
def After (next : α → Option α) (p : α → Prop) : ℕ → α → Prop
  | 0, a => p a
  | n + 1, a => ∃ b ∈ next a, After next p n b

theorem exists_after_iff :
    (∃ n, After next p n a) ↔ ∃ b, ReflTransGen (fun a b => b ∈ next a) a b ∧ p b := by
  constructor
  · rintro ⟨n, h⟩
    induction n generalizing a with
    | zero => exact ⟨a, .refl, h⟩
    | succ n ih =>
      obtain ⟨b, hb, h⟩ := h
      obtain ⟨c, hbc, hc⟩ := ih h
      exact ⟨c, .head hb hbc, hc⟩
  · rintro ⟨b, hab, hb⟩
    induction hab using ReflTransGen.head_induction_on with
    | refl => exact ⟨0, hb⟩
    | head hac _ ih =>
      obtain ⟨n, h⟩ := ih
      exact ⟨n + 1, _, hac, h⟩

/-- A node that is linked to itself leads nowhere else. -/
theorem not_after_of_self (ha : a ∈ next a) (hp : ¬ p a) (n : ℕ) : ¬ After next p n a := by
  induction n with
  | zero => exact hp
  | succ n ih =>
    rintro ⟨b, hb, h⟩
    obtain rfl : a = b := Option.mem_unique ha hb
    exact ih h

theorem not_after_of_none (ha : next a = none) (hp : ¬ p a) (n : ℕ) : ¬ After next p n a := by
  cases n with
  | zero => exact hp
  | succ n =>
    rintro ⟨b, hb, -⟩
    rw [ha] at hb
    cases hb

theorem exists_after_le_zero : (∃ m ≤ 0, After next p m a) ↔ p a := by
  simp only [Nat.le_zero, exists_eq_left, After]

/-- With one more link one comes as far as without it from the next node. -/
theorem exists_after_le_succ (hp : ¬ p a) (hb : b ∈ next a) :
    (∃ m ≤ n + 1, After next p m a) ↔ ∃ m ≤ n, After next p m b := by
  constructor
  · rintro ⟨m, hm, h⟩
    cases m with
    | zero => exact absurd h hp
    | succ m =>
      obtain ⟨c, hc, h⟩ := h
      obtain rfl : b = c := Option.mem_unique hb hc
      exact ⟨m, Nat.le_of_succ_le_succ hm, h⟩
  · rintro ⟨m, hm, h⟩
    exact ⟨m + 1, Nat.succ_le_succ hm, b, hb, h⟩

/-- Where one is after some links. -/
def walk (next : α → Option α) (a : α) : ℕ → Option α
  | 0 => some a
  | n + 1 => (walk next a n).bind next

theorem After.exists_walk {i : ℕ} (h : After next p n a) (hi : i ≤ n) :
    ∃ b ∈ walk next a i, After next p (n - i) b := by
  induction i with
  | zero => exact ⟨a, rfl, h⟩
  | succ i ih =>
    obtain ⟨b, hb, h⟩ := ih (Nat.le_of_succ_le hi)
    rw [show n - i = (n - (i + 1)) + 1 by omega] at h
    obtain ⟨c, hc, h⟩ := h
    exact ⟨c, Option.mem_bind_iff.mpr ⟨b, hb, hc⟩, h⟩

theorem After.of_walk {i : ℕ} (hb : b ∈ walk next a i) (h : After next p n b) :
    After next p (i + n) a := by
  induction i generalizing b n with
  | zero =>
    obtain rfl : a = b := Option.some.inj hb
    rwa [Nat.zero_add]
  | succ i ih =>
    obtain ⟨c, hc, hb⟩ := Option.mem_bind_iff.mp hb
    rw [show i + 1 + n = i + (n + 1) by omega]
    exact ih hc ⟨b, hb, h⟩

theorem walk_mem {l : List α} (ha : a ∈ l) (hl : ∀ x ∈ l, ∀ y ∈ next x, y ∈ l) (hb : b ∈ walk next a n) :
    b ∈ l := by
  induction n generalizing b with
  | zero =>
    obtain rfl : a = b := Option.some.inj hb
    exact ha
  | succ n ih =>
    obtain ⟨c, hc, hb⟩ := Option.mem_bind_iff.mp hb
    exact hl c (ih hc) b hb

/-- **The number of nodes bounds the links** one has to follow: on a shortest way no node comes twice. -/
theorem exists_after_lt_length {l : List α} (ha : a ∈ l) (hl : ∀ x ∈ l, ∀ y ∈ next x, y ∈ l)
    (h : ∃ n, After next p n a) : ∃ n < l.length, After next p n a := by
  classical
  have hshort := Nat.find_spec h
  have hmin : ∀ m < Nat.find h, ¬ After next p m a := fun m hm => Nat.find_min h hm
  generalize Nat.find h = n at hshort hmin
  refine ⟨n, ?_, hshort⟩
  have hnodup : ((List.range (n + 1)).map (walk next a)).Nodup := by
    apply List.Nodup.map_on _ List.nodup_range
    intro i hi j hj hij
    rw [List.mem_range] at hi hj
    -- the way between two visits of a node can be left out
    have hcut : ∀ i j, i < j → j ≤ n → walk next a i ≠ walk next a j := by
      intro i j hij hj heq
      obtain ⟨b, hb, h⟩ := hshort.exists_walk hj
      rw [← heq] at hb
      exact hmin (i + (n - j)) (by omega) (.of_walk hb h)
    rcases Nat.lt_trichotomy i j with hlt | heq | hlt
    · exact absurd hij (hcut i j hlt (by omega))
    · exact heq
    · exact absurd hij.symm (hcut j i hlt (by omega))
  have hsub : (List.range (n + 1)).map (walk next a) ⊆ l.map some := by
    intro x hx
    obtain ⟨i, hi, rfl⟩ := List.mem_map.mp hx
    obtain ⟨b, hb, -⟩ := hshort.exists_walk (i := i) (by have := List.mem_range.mp hi; omega)
    exact List.mem_map.mpr ⟨b, walk_mem ha hl hb, hb.symm⟩
  have hle := (List.subperm_of_subset hnodup hsub).length_le
  rw [List.length_map, List.length_map, List.length_range] at hle
  omega

end Links
