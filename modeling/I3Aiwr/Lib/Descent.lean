import Mathlib.Logic.Relation
import Mathlib.Logic.Equiv.Basic
import Mathlib.Data.List.Chain
import Mathlib.Data.List.Range
import Mathlib.Data.List.Perm.Subperm
import Mathlib.Data.List.Nodup

/-!
# Descending through lists of children

A forest given by a function `children` to lists. `Below p x` says that one reaches `x` from `p`
by at least one step down; the forest is acyclic when nothing is below itself. In an acyclic forest
whose nodes are numbers below `n` a path has at most `n` nodes, so that a search level by level
meets everything below its start within `n` levels, and so does a climb along parent pointers.

## Main definitions

* `Descent.Below children p x`, `Descent.Within children p x`: `x` is (equal to or) below `p`
* `Descent.Acyclic children`
* `Descent.search children p n level`: the first node with `p` in breadth-first order

## Main results

* `Descent.search_sound`, `Descent.exists_search`: what the search returns, and that it is complete
* `Descent.path_length_le`: the bound on paths
* `Descent.Acyclic.fuel_induction`: the induction rule for recursions into the children
* `Descent.below_of_insert`: what is below what after an edge was added
* `Descent.below_of_exchange`: the same after two subtrees changed places
* `Descent.Acyclic.separate`: the children of one node have nothing below them in common
* `Descent.Acyclic.between`: the way down to a node is unique
-/

namespace Descent

open Relation

variable {α : Type*} {children children' : α → List α} {p q x y : α}

/-- `x` is below `p`, by at least one step. -/
def Below (children : α → List α) : α → α → Prop := TransGen fun p x => x ∈ children p

/-- `x` is `p` or below it. -/
def Within (children : α → List α) : α → α → Prop := ReflTransGen fun p x => x ∈ children p

def Acyclic (children : α → List α) : Prop := ∀ x, ¬ Below children x x

theorem Below.single (h : x ∈ children p) : Below children p x := TransGen.single h

theorem Below.within (h : Below children p x) : Within children p x := h.to_reflTransGen

theorem Below.trans (h : Below children p x) (h' : Below children x y) : Below children p y :=
  TransGen.trans h h'

theorem Below.trans_within (h : Below children p x) (h' : Within children x y) :
    Below children p y :=
  TransGen.trans_left h h'

@[refl] theorem Within.refl (p : α) : Within children p p := ReflTransGen.refl

theorem Within.trans (h : Within children p x) (h' : Within children x y) : Within children p y :=
  ReflTransGen.trans h h'

theorem Within.trans_below (h : Within children p x) (h' : Below children x y) :
    Below children p y :=
  TransGen.trans_right h h'

theorem Within.tail (h : Within children p x) (h' : y ∈ children x) : Below children p y :=
  TransGen.tail' h h'

theorem within_iff : Within children p x ↔ x = p ∨ Below children p x :=
  reflTransGen_iff_eq_or_transGen

/-- The last step of a descent. -/
theorem below_iff_exists : Below children p x ↔ ∃ q, Within children p q ∧ x ∈ children q :=
  TransGen.tail'_iff

/-- The first step of a descent. -/
theorem below_iff_head : Below children p x ↔ ∃ q, q ∈ children p ∧ Within children q x :=
  TransGen.head'_iff

theorem Below.mono (hsub : ∀ p, children p ⊆ children' p) (h : Below children p x) :
    Below children' p x :=
  TransGen.mono (fun p _ hx => hsub p hx) _ _ h

theorem Within.mono (hsub : ∀ p, children p ⊆ children' p) (h : Within children p x) :
    Within children' p x :=
  ReflTransGen.mono (fun p _ hx => hsub p hx) _ _ h

theorem Acyclic.mono (hsub : ∀ p, children' p ⊆ children p) (h : Acyclic children) :
    Acyclic children' :=
  fun x hx => h x (hx.mono hsub)

/-- Where every child is larger than its parent, so is all that is below. -/
theorem lt_of_below {children : ℕ → List ℕ} (h : ∀ p, ∀ x ∈ children p, p < x) {p x : ℕ}
    (hx : Below children p x) : p < x := by
  induction hx with
  | single hx => exact h _ _ hx
  | tail _ hx ih => exact ih.trans (h _ _ hx)

/-- Nothing is below itself then. -/
theorem acyclic_of_lt {children : ℕ → List ℕ} (h : ∀ p, ∀ x ∈ children p, p < x) :
    Acyclic children := fun x hx => lt_irrefl x (lt_of_below h hx)

theorem Acyclic.ne (h : Acyclic children) (hx : Below children p x) : x ≠ p := by
  rintro rfl
  exact h _ hx

theorem Acyclic.not_within (h : Acyclic children) (hx : Below children p x) :
    ¬ Within children x p :=
  fun hp => h p (hx.trans_within hp)

/-! ### Adding an edge -/

/-- Every step of `children'` is one of `children` or the step from `q` down to `y`. -/
def Inserts (children children' : α → List α) (q y : α) : Prop :=
  ∀ p, ∀ x ∈ children' p, x ∈ children p ∨ p = q ∧ x = y

/-- **What is below what after an edge was added**, when its lower end is not above its upper
one: nothing new, or what is below the lower end below what is above the upper one. -/
theorem below_of_insert (hins : Inserts children children' q y) (hy : ¬ Within children y q)
    (h : Below children' p x) :
    Below children p x ∨ Within children p q ∧ Within children y x := by
  induction h with
  | single hx =>
    rcases hins _ _ hx with hx | ⟨rfl, rfl⟩
    · exact .inl (.single hx)
    · exact .inr ⟨.refl _, .refl _⟩
  | tail _ hx ih =>
    rcases hins _ _ hx with hx | ⟨rfl, rfl⟩
    · exact ih.imp (fun h => h.trans (.single hx)) fun h => ⟨h.1, h.2.trans (Below.single hx).within⟩
    · rcases ih with ih | ⟨_, ih⟩
      · exact .inr ⟨ih.within, .refl _⟩
      · exact absurd ih hy

theorem within_of_insert (hins : Inserts children children' q y) (hy : ¬ Within children y q)
    (h : Within children' p x) :
    Within children p x ∨ Within children p q ∧ Within children y x := by
  rcases within_iff.mp h with rfl | h
  · exact .inl (.refl _)
  · exact (below_of_insert hins hy h).imp_left Below.within

theorem Acyclic.insert (hac : Acyclic children) (hins : Inserts children children' q y)
    (hy : ¬ Within children y q) : Acyclic children' := by
  intro x hx
  rcases below_of_insert hins hy hx with hx | ⟨hxq, hyx⟩
  · exact hac x hx
  · exact hy (hyx.trans hxq)

/-! ### Unique parents -/

/-- With one parent for each child, what is above a node is its parent or above that. -/
theorem within_parent {parent : α → Option α} (hup : ∀ p, ∀ x ∈ children p, parent x = some p)
    (h : Below children p x) (hq : parent x = some q) : Within children p q := by
  obtain ⟨r, hr, hx⟩ := below_iff_exists.mp h
  have : r = q := by simpa [hup r x hx] using hq
  exact this ▸ hr

/-- Two nodes above a third are one above the other. -/
theorem within_total {parent : α → Option α} (hup : ∀ p, ∀ x ∈ children p, parent x = some p)
    (hp : Within children p x) (hq : Within children q x) :
    Within children p q ∨ Within children q p := by
  induction hp with
  | refl => exact .inr hq
  | tail hr hx ih =>
    rcases within_iff.mp hq with rfl | hq
    · exact .inl (hr.tail hx)
    · exact ih (within_parent hup hq (hup _ _ hx))

/-- Two children of one node have nothing below them in common. -/
theorem Acyclic.separate {parent : α → Option α} (hac : Acyclic children)
    (hup : ∀ p, ∀ x ∈ children p, parent x = some p) {u : α} (hx : x ∈ children p)
    (hy : y ∈ children p) (hne : x ≠ y) (hxu : Within children x u) : ¬ Within children y u := by
  have not_above : ∀ {a b : α}, a ∈ children p → b ∈ children p → a ≠ b → ¬ Within children a b := by
    intro a b ha hb hab hwithin
    have hbelow : Below children a b := (within_iff.mp hwithin).resolve_left (Ne.symm hab)
    exact hac.not_within (.single ha) (within_parent hup hbelow (hup p b hb))
  intro hyu
  rcases within_total hup hxu hyu with h | h
  · exact not_above hx hy hne h
  · exact not_above hy hx hne.symm h

/-- Two children of one node above a third one are the same. -/
theorem Acyclic.eq_of_within {parent : α → Option α} (hac : Acyclic children)
    (hup : ∀ p, ∀ x ∈ children p, parent x = some p) {u : α} (hx : x ∈ children p)
    (hy : y ∈ children p) (hxu : Within children x u) (hyu : Within children y u) : x = y := by
  by_contra hne
  exact hac.separate hup hx hy hne hxu hyu

/-- **A descent by some of the children** leads through everything that is in between. -/
theorem Acyclic.between {parent : α → Option α} (hac : Acyclic children)
    (hup : ∀ p, ∀ x ∈ children p, parent x = some p) (hsub : ∀ p, children' p ⊆ children p)
    (h : Within children' p x) (hq : Within children p q) (hx : Within children q x) :
    Within children' p q ∧ Within children' q x := by
  induction h using ReflTransGen.head_induction_on with
  | refl =>
    rcases within_iff.mp hq with rfl | hq
    · exact ⟨.refl _, .refl _⟩
    · exact absurd hx (hac.not_within hq)
  | @head p y hy hyx ih =>
    rcases within_iff.mp hq with rfl | hq
    · exact ⟨.refl _, .head hy hyx⟩
    · -- the way to `q` starts with the same child
      obtain ⟨z, hz, hzq⟩ := below_iff_head.mp hq
      obtain rfl := hac.eq_of_within hup (hsub p hy) hz (Within.mono hsub hyx) (hzq.trans hx)
      obtain ⟨hyq, hqx⟩ := ih hzq
      exact ⟨.head hy hyq, hqx⟩

/-- The same descent in other lists. -/
theorem Within.transfer (h : Within children p x)
    (hstep : ∀ q y, Within children p q → y ∈ children q → Within children y x → y ∈ children' q) :
    Within children' p x := by
  induction h using ReflTransGen.head_induction_on with
  | refl => exact .refl _
  | @head p y hy hyx ih =>
    refine ReflTransGen.head (hstep p y (.refl _) hy hyx) (ih fun q z hq hz hzx => ?_)
    exact hstep q z (ReflTransGen.head hy hq) hz hzx

/-! ### Exchanging two subtrees -/

section Exchange

variable [DecidableEq α] {parent : α → Option α} {a b : α}

/-- Every step of `children'` is one of `children` with `a` and `b` exchanged as lower ends. -/
def Exchanges (children children' : α → List α) (a b : α) : Prop :=
  ∀ p, ∀ x ∈ children' p, Equiv.swap a b x ∈ children p

theorem Exchanges.symm (h : Exchanges children children' a b) : Exchanges children children' b a := by
  intro p x hx
  rw [Equiv.swap_comm]
  exact h p x hx

/-- A step after the exchange leads to `a` from the place of `b`, to `b` from that of `a`, or is one
from before. -/
theorem Exchanges.cases (h : Exchanges children children' a b) (hx : x ∈ children' p) :
    x = a ∧ b ∈ children p ∨ x = b ∧ a ∈ children p ∨ x ≠ a ∧ x ≠ b ∧ x ∈ children p := by
  have hmem := h p x hx
  by_cases hxa : x = a
  · subst hxa
    exact .inl ⟨rfl, by simpa using hmem⟩
  · by_cases hxb : x = b
    · subst hxb
      exact .inr (.inl ⟨rfl, by simpa using hmem⟩)
    · rw [Equiv.swap_apply_of_ne_of_ne hxa hxb] at hmem
      exact .inr (.inr ⟨hxa, hxb, hmem⟩)

variable (hac : Acyclic children) (hex : Exchanges children children' a b)
include hac hex

/-- Nothing changes below `a`. -/
theorem below_of_exchange_within (hab : ¬ Within children a b) (hq : Within children a q)
    (h : Below children' q x) : Below children q x := by
  have hstep : ∀ {p x}, Within children a p → x ∈ children' p → x ∈ children p := by
    intro p x hp hx
    rcases hex.cases hx with ⟨rfl, hmem⟩ | ⟨rfl, hmem⟩ | ⟨_, _, hmem⟩
    · exact absurd (hp.tail hmem).within hab
    · exact absurd (hp.tail hmem) (hac _)
    · exact hmem
  induction h with
  | single hx => exact .single (hstep hq hx)
  | tail _ hx ih => exact ih.trans (.single (hstep (hq.trans ih.within) hx))

variable (hup : ∀ p, ∀ x ∈ children p, parent x = some p) (hab : ¬ Within children a b)
  (hba : ¬ Within children b a)
include hup hab hba

/-- **What is below a node outside of both after the exchange**: what was there before, but for the
two subtrees, which changed places. -/
theorem below_of_exchange (hqa : ¬ Within children a q) (hqb : ¬ Within children b q)
    (h : Below children' q x) :
    (Below children q x ∧ ¬ Within children a x ∧ ¬ Within children b x)
      ∨ (Below children q a ∧ Within children b x) ∨ (Below children q b ∧ Within children a x) := by
  -- a step from a node outside
  have hout : ∀ {p x}, ¬ Within children a p → ¬ Within children b p → x ∈ children p → x ≠ a →
      x ≠ b → ¬ Within children a x ∧ ¬ Within children b x := by
    intro p x hpa hpb hx hxa hxb
    refine ⟨fun h => hpa ?_, fun h => hpb ?_⟩
    · exact within_parent hup ((within_iff.mp h).resolve_left hxa) (hup p x hx)
    · exact within_parent hup ((within_iff.mp h).resolve_left hxb) (hup p x hx)
  induction h with
  | single hx =>
    rcases hex.cases hx with ⟨rfl, hmem⟩ | ⟨rfl, hmem⟩ | ⟨hxa, hxb, hmem⟩
    · exact .inr (.inr ⟨.single hmem, .refl _⟩)
    · exact .inr (.inl ⟨.single hmem, .refl _⟩)
    · exact .inl ⟨.single hmem, hout hqa hqb hmem hxa hxb⟩
  | tail _ hx ih =>
    rcases ih with ⟨hy, hya, hyb⟩ | ⟨hqa', hby⟩ | ⟨hqb', hay⟩
    · rcases hex.cases hx with ⟨rfl, hmem⟩ | ⟨rfl, hmem⟩ | ⟨hxa, hxb, hmem⟩
      · exact .inr (.inr ⟨hy.trans (.single hmem), .refl _⟩)
      · exact .inr (.inl ⟨hy.trans (.single hmem), .refl _⟩)
      · exact .inl ⟨hy.trans (.single hmem), hout hya hyb hmem hxa hxb⟩
    · exact .inr (.inl ⟨hqa', hby.trans
        (below_of_exchange_within hac hex.symm hba hby (.single hx)).within⟩)
    · exact .inr (.inr ⟨hqb', hay.trans
        (below_of_exchange_within hac hex hab hay (.single hx)).within⟩)

omit hac hex hup hab hba in
/-- A path that enters neither subtree stays. -/
theorem below_exchange_of_outside (hex : ∀ p x, Equiv.swap a b x ∈ children p → x ∈ children' p)
    (hxa : ¬ Within children a x) (hxb : ¬ Within children b x) (h : Below children q x) :
    Below children' q x := by
  have hstep : ∀ {p y}, y ∈ children p → ¬ Within children a y → ¬ Within children b y →
      y ∈ children' p := by
    intro p y hy hya hyb
    apply hex
    rw [Equiv.swap_apply_of_ne_of_ne]
    · exact hy
    · rintro rfl
      exact hya (.refl _)
    · rintro rfl
      exact hyb (.refl _)
  induction h with
  | single hx => exact .single (hstep hx hxa hxb)
  | tail hy hx ih =>
    refine (ih (fun h => hxa ?_) fun h => hxb ?_).trans (.single (hstep hx hxa hxb))
    · exact (h.tail hx).within
    · exact (h.tail hx).within

omit hup hba in
/-- A path within `a` stays. -/
theorem within_exchange_within (hex' : ∀ p x, Equiv.swap a b x ∈ children p → x ∈ children' p)
    (h : Within children a x) : Within children' a x := by
  induction h with
  | refl => exact .refl _
  | tail hy hx ih =>
    refine (Within.tail ih (hex' _ _ ?_)).within
    rw [Equiv.swap_apply_of_ne_of_ne]
    · exact hx
    · exact hac.ne (Within.tail hy hx)
    · rintro rfl
      exact hab (Within.tail hy hx).within

theorem Acyclic.exchange : Acyclic children' := by
  intro x hx
  by_cases hxa : Within children a x
  · exact hac x (below_of_exchange_within hac hex hab hxa hx)
  by_cases hxb : Within children b x
  · exact hac x (below_of_exchange_within hac hex.symm hba hxb hx)
  rcases below_of_exchange hac hex hup hab hba hxa hxb hx with ⟨h, _⟩ | ⟨_, h⟩ | ⟨_, h⟩
  · exact hac x h
  · exact hxb h
  · exact hxa h

end Exchange

/-! ### The bound on paths -/

/-- The nodes of a path are distinct. -/
theorem Acyclic.nodup_of_isChain (hac : Acyclic children) {l : List α}
    (h : l.IsChain fun p x => x ∈ children p) : l.Nodup := by
  have : IsTrans α (Below children) := ⟨fun _ _ _ => Below.trans⟩
  have hpair : l.Pairwise (Below children) :=
    (h.imp fun _ _ hx => Below.single hx).pairwise
  exact hpair.imp fun h => (hac.ne h).symm

/-- **A path through numbers below `n` has at most `n` nodes.** -/
theorem path_length_le {children : ℕ → List ℕ} (hac : Acyclic children) {l : List ℕ} {n : ℕ}
    (h : l.IsChain fun p x => x ∈ children p) (hn : ∀ x ∈ l, x < n) : l.length ≤ n := by
  have hsub : l ⊆ List.range n := fun x hx => List.mem_range.mpr (hn x hx)
  simpa using (List.subperm_of_subset (hac.nodup_of_isChain h) hsub).length_le

/-- **Induction on the fuel of a recursion into the children**: what holds of a node whenever it
holds of its children with one unit of fuel less, holds of every node with as much fuel as there are
numbers. -/
theorem Acyclic.fuel_induction {children : ℕ → List ℕ} (hac : Acyclic children) {n : ℕ}
    (hlt : ∀ p, ∀ x ∈ children p, x < n) {P : ℕ → ℕ → Prop}
    (step : ∀ k p, (∀ x ∈ children p, P k x) → P (k + 1) p) {p : ℕ} (hp : p < n) : P n p := by
  -- the fuel that is left and the nodes on the path so far are more than `n` together
  have key : ∀ (k : ℕ) (l : List ℕ) (p : ℕ), (l ++ [p]).IsChain (fun p x => x ∈ children p) →
      (∀ x ∈ l ++ [p], x < n) → l.length + k = n → P k p := by
    intro k
    induction k with
    | zero =>
      intro l p hl hmem hlen
      have hle := path_length_le hac hl hmem
      rw [List.length_append, List.length_singleton] at hle
      omega
    | succ k ih =>
      intro l p hl hmem hlen
      apply step
      intro x hx
      refine ih (l ++ [p]) x ?_ ?_ (by simp; omega)
      · rw [List.append_assoc]
        refine List.isChain_split.mpr ⟨hl, ?_⟩
        simpa using hx
      · intro y hy
        rcases List.mem_append.mp hy with hy | hy
        · exact hmem y hy
        · exact List.mem_singleton.mp hy ▸ hlt p x hx
  exact key n [] p (List.isChain_singleton p) (by simpa using hp) (Nat.zero_add n)

/-! ### Searching level by level -/

section Search

variable (children) (f : α → Bool)

/-- The first node with `f` in breadth-first order from a level, at most `n` levels down. -/
def search : ℕ → List α → Option α
  | 0, _ => none
  | n + 1, level => match level.find? f with
    | some x => some x
    | none => search n (level.flatMap children)

variable {children f}

theorem search_sound {n : ℕ} {level : List α} (h : search children f n level = some x) :
    f x = true ∧ ∃ p ∈ level, Within children p x := by
  induction n generalizing level with
  | zero => cases h
  | succ n ih =>
    rw [search] at h
    split at h
    · next y hy =>
      cases h
      exact ⟨List.find?_some hy, _, List.mem_of_find?_eq_some hy, .refl _⟩
    · obtain ⟨hf, q, hq, hx⟩ := ih h
      obtain ⟨p, hp, hq⟩ := List.mem_flatMap.mp hq
      exact ⟨hf, p, hp, (Below.single hq).within.trans hx⟩

/-- The search finds something when a path no longer than its levels leads to a node with `f`. -/
theorem exists_search_of_path {l : List α} {n : ℕ} {level : List α}
    (hl : (p :: l).IsChain fun p x => x ∈ children p) (hp : p ∈ level) (hn : l.length < n)
    (hf : f ((p :: l).getLast (by simp)) = true) : ∃ x, search children f n level = some x := by
  induction n generalizing p l level with
  | zero => omega
  | succ n ih =>
    rw [search]
    cases hfind : level.find? f with
    | some x => exact ⟨x, rfl⟩
    | none =>
      have hnone := List.find?_eq_none.mp hfind
      cases l with
      | nil => exact absurd hf (hnone p hp)
      | cons q l =>
        obtain ⟨hq, hl⟩ := List.isChain_cons_cons.mp hl
        apply ih hl (List.mem_flatMap.mpr ⟨p, hp, hq⟩) (by simpa using hn)
        simpa using hf

end Search

/-- **The search is complete** in an acyclic forest of numbers below `n`. -/
theorem exists_search {children : ℕ → List ℕ} {f : ℕ → Bool} {n p x : ℕ} {level : List ℕ}
    (hac : Acyclic children) (hlt : ∀ p, ∀ x ∈ children p, x < n) (hp : p ∈ level)
    (hx : Within children p x) (hf : f x = true) :
    ∃ y, search children f (n + 1) level = some y := by
  obtain ⟨l, hl, hlast⟩ := List.exists_isChain_cons_of_relationReflTransGen hx
  have hmem : ∀ y ∈ l, y < n := by
    intro y hy
    obtain ⟨a, b, rfl⟩ := List.append_of_mem hy
    have hstep := (List.isChain_split.mp (by simpa using hl :
      ((p :: a) ++ y :: b).IsChain fun p x => x ∈ children p)).1
    obtain ⟨z, -, hz⟩ : ∃ z ∈ p :: a, y ∈ children z := by
      refine ⟨(p :: a).getLast (by simp), List.getLast_mem _, ?_⟩
      rw [← List.dropLast_append_getLast (l := p :: a) (by simp), List.append_assoc,
        List.singleton_append] at hstep
      exact (List.isChain_cons_cons.mp (List.isChain_split.mp hstep).2).1
    exact hlt z y hz
  have hlen : l.length ≤ n := path_length_le hac (List.isChain_cons.mp hl).2 hmem
  apply exists_search_of_path hl hp (by omega)
  rw [hlast, hf]

end Descent
