import Mathlib.Data.Finset.Card
import Mathlib.Data.List.Flatten
import I3Aiwr.Lib.Descent

/-!
# Walking an ordered forest

A depth-first walk collects the leaves of a forest whose children are ordered: of two leaves the one
comes first that is below the earlier child of the node where their paths part. A second walk visits
some children of a node again, after all of them. It stays the first one exactly as far as no leaf
is there to be visited again.

## Main definitions

* `Walk.leaves children leaf n p`: the leaves at or below `p`, in depth-first order
* `Walk.visits children again leaf n p`: the walk that visits `again q` after the children of `q`
* `Walk.Ahead children x y`: the walk comes to `x` and what is below it before `y`
* `Walk.AtLeast m P`: there are `m` elements with `P`

## Main results

* `Walk.mem_leaves`, `Walk.pairwise_leaves`, `Walk.nodup_leaves`: what the walk collects
* `Walk.le_idxOf_leaves_iff`: how many leaves the walk comes to before a given one
* `Walk.nodup_take_visits_iff`: how long the second walk does not repeat itself
-/

namespace Walk

open Descent

/-! ### Counting -/

section AtLeast

variable {α : Type*} {P Q : α → Prop} {l : List α} {m : ℕ}

/-- There are `m` elements with `P`. -/
def AtLeast (m : ℕ) (P : α → Prop) : Prop := ∃ s : Finset α, s.card = m ∧ ∀ x ∈ s, P x

theorem AtLeast.mono (h : AtLeast m P) (himp : ∀ x, P x → Q x) : AtLeast m Q := by
  obtain ⟨s, hs, hP⟩ := h
  exact ⟨s, hs, fun x hx => himp x (hP x hx)⟩

/-- Counting in a list without duplicates. -/
theorem atLeast_iff_countP [DecidableEq α] [DecidablePred P] (hl : l.Nodup) :
    AtLeast m (fun x => x ∈ l ∧ P x) ↔ m ≤ l.countP fun x => P x := by
  have hnodup := hl.filter fun x => decide (P x)
  rw [List.countP_eq_length_filter, ← List.toFinset_card_of_nodup hnodup]
  constructor
  · rintro ⟨s, rfl, hs⟩
    refine Finset.card_le_card fun x hx => ?_
    simpa using hs x hx
  · intro h
    obtain ⟨s, hsub, hcard⟩ := Finset.exists_subset_card_eq h
    refine ⟨s, hcard, fun x hx => ?_⟩
    simpa using hsub hx

end AtLeast

/-! ### A list in the order of a relation -/

section Pairwise

variable {α : Type*} [DecidableEq α] {R : α → α → Prop} {l : List α} {x : α}

/-- In a list ordered by `R` as many elements stand before `x` as are in relation to it. -/
theorem countP_eq_idxOf [DecidableRel R] (hl : l.Pairwise R) (hasymm : ∀ a ∈ l, ∀ b ∈ l, R a b → ¬ R b a)
    (hirrefl : ∀ a ∈ l, ¬ R a a) (hx : x ∈ l) : l.countP (fun a => R a x) = l.idxOf x := by
  obtain ⟨pre, post, rfl, hpre⟩ := List.eq_append_cons_of_mem hx
  obtain ⟨-, hpost, hcross⟩ := List.pairwise_append.mp hl
  have hbefore : pre.countP (fun a => R a x) = pre.length :=
    List.countP_eq_length.mpr fun a ha => by simpa using hcross a ha x List.mem_cons_self
  have hafter : (x :: post).countP (fun a => R a x) = 0 := by
    refine List.countP_eq_zero.mpr fun a ha => ?_
    rcases List.mem_cons.mp ha with rfl | ha'
    · simpa using hirrefl a hx
    · simpa using hasymm x hx a (List.mem_append_right pre ha) ((List.pairwise_cons.mp hpost).1 a ha')
  rw [List.countP_append, hbefore, hafter, List.idxOf_append_of_notMem hpre, List.idxOf_cons_self]

omit [DecidableEq α] in
theorem pair_asymm {a b : α} (hl : l.Nodup) (h : [a, b].Sublist l) : ¬ [b, a].Sublist l := by
  have hmem : ∀ {a b : α} {l : List α}, [a, b].Sublist l → b ∈ l := fun h => h.subset (by simp)
  induction l with
  | nil => cases h
  | cons c l ih =>
    obtain ⟨hc, hl⟩ := List.nodup_cons.mp hl
    intro h'
    cases h with
    | cons _ h =>
      cases h' with
      | cons _ h' => exact ih hl h h'
      | cons_cons _ h' => exact hc (hmem h)
    | cons_cons _ h =>
      cases h' with
      | cons _ h' => exact hc (hmem h')
      | cons_cons _ h' => exact hc (by simpa using h)

end Pairwise

/-! ### The walks -/

section Defs

variable {α : Type*} (children again : α → List α) (leaf : α → Bool)

/-- The leaves at or below a node in depth-first order, at most `n` levels down. -/
def leaves : ℕ → α → List α
  | 0, _ => []
  | n + 1, p => if leaf p then [p] else (children p).flatMap (leaves n)

/-- The walk that visits the nodes `again p` after the children of `p`. -/
def visits : ℕ → α → List α
  | 0, _ => []
  | n + 1, p =>
    if leaf p then [p] else (children p).flatMap (visits n) ++ (again p).flatMap (visits n)

/-- The walk comes to `x` and what is below it before `y`: where their paths part, that to `x` takes
the earlier child. -/
def Ahead (x y : α) : Prop :=
  ∃ p a b, [a, b].Sublist (children p) ∧ Within children a x ∧ Within children b y

end Defs

section Walks

variable {children again : ℕ → List ℕ} {leaf : ℕ → Bool} {n p q x y a b : ℕ}

/-! ### More levels make no difference -/

section Fuel

variable (hac : Acyclic children) (hlt : ∀ p, ∀ x ∈ children p, x < n)
include hac hlt

/-- What holds of a node whenever it holds of its children holds of every node. -/
theorem induction {P : ℕ → Prop} (step : ∀ p < n, (∀ x ∈ children p, P x) → P p) (hp : p < n) :
    P p :=
  hac.fuel_induction hlt (P := fun _ p => p < n → P p)
    (fun _ p h hp => step p hp fun x hx => h x hx (hlt p x hx)) hp hp

theorem leaves_eq (hp : p < n) :
    leaves children leaf n p
      = if leaf p then [p] else (children p).flatMap (leaves children leaf n) := by
  have hstable : ∀ j, n ≤ j → leaves children leaf j p = leaves children leaf n p := by
    refine hac.fuel_induction hlt
      (P := fun k p => ∀ j, k ≤ j → leaves children leaf j p = leaves children leaf k p) ?_ hp
    intro k p ih j hj
    obtain ⟨j, rfl⟩ : ∃ i, j = i + 1 := ⟨j - 1, by omega⟩
    rw [leaves, leaves, List.flatMap_congr fun x hx => ih x hx j (by omega)]
  rw [← hstable (n + 1) (Nat.le_succ n), leaves]

theorem visits_eq (hagain : ∀ p, again p ⊆ children p) (hp : p < n) :
    visits children again leaf n p = if leaf p then [p] else
      (children p).flatMap (visits children again leaf n)
        ++ (again p).flatMap (visits children again leaf n) := by
  have hstable : ∀ j, n ≤ j → visits children again leaf j p = visits children again leaf n p := by
    refine hac.fuel_induction hlt
      (P := fun k p => ∀ j, k ≤ j →
        visits children again leaf j p = visits children again leaf k p) ?_ hp
    intro k p ih j hj
    obtain ⟨j, rfl⟩ : ∃ i, j = i + 1 := ⟨j - 1, by omega⟩
    rw [visits, visits, List.flatMap_congr fun x hx => ih x hx j (by omega),
      List.flatMap_congr fun x hx => ih x (hagain p hx) j (by omega)]
  rw [← hstable (n + 1) (Nat.le_succ n), visits]

end Fuel

/-! ### What comes before what -/

section Order

variable {parent : ℕ → Option ℕ} (hac : Acyclic children)
  (hup : ∀ p, ∀ x ∈ children p, parent x = some p) (hnodup : ∀ p, (children p).Nodup)
include hac hup

/-- Below the node where two paths part no node is above both ends. -/
theorem not_below_part (ha : a ∈ children p) (hb : b ∈ children p) (hne : a ≠ b)
    (hax : Within children a x) (hby : Within children b y) (hqx : Within children q x)
    (hqy : Within children q y) : ¬ Below children p q := by
  intro hpq
  obtain ⟨e, he, heq⟩ := below_iff_head.mp hpq
  by_cases hea : e = a
  · exact hac.separate hup hb he (hea ▸ hne.symm) hby (heq.trans hqy)
  · exact hac.separate hup ha he (Ne.symm hea) hax (heq.trans hqx)

include hnodup

theorem Ahead.not_within (h : Ahead children x y) : ¬ Within children x y := by
  obtain ⟨p, a, b, hab, hax, hby⟩ := h
  have hne : a ≠ b := by simpa using (hnodup p).sublist hab
  intro hxy
  exact hac.separate hup (hab.subset (by simp)) (hab.subset (by simp)) hne (hax.trans hxy) hby

/-- The paths to two nodes part once only. -/
theorem Ahead.asymm (h : Ahead children x y) : ¬ Ahead children y x := by
  obtain ⟨p, a, b, hab, hax, hby⟩ := h
  rintro ⟨q, c, d, hcd, hcy, hdx⟩
  have ha : a ∈ children p := hab.subset (by simp)
  have hb : b ∈ children p := hab.subset (by simp)
  have hc : c ∈ children q := hcd.subset (by simp)
  have hd : d ∈ children q := hcd.subset (by simp)
  have hne : a ≠ b := by simpa using (hnodup p).sublist hab
  have hne' : d ≠ c := Ne.symm (by simpa using (hnodup q).sublist hcd)
  have above : ∀ {p a x : ℕ}, a ∈ children p → Within children a x → Within children p x :=
    fun hmem h => ((Within.refl _).tail hmem).within.trans h
  -- they part at the same node
  have hpq : p = q := by
    rcases within_total hup (above ha hax) (above hd hdx) with h | h
    · refine ((within_iff.mp h).resolve_right ?_).symm
      exact not_below_part hac hup ha hb hne hax hby (above hd hdx) (above hc hcy)
    · refine (within_iff.mp h).resolve_right ?_
      exact not_below_part hac hup hd hc hne' hdx hcy (above ha hax) (above hb hby)
  subst hpq
  -- and at the same children
  have hda : d = a := by_contra fun hda => hac.separate hup hd ha hda hdx hax
  have hcb : c = b := by_contra fun hcb => hac.separate hup hc hb hcb hcy hby
  subst hda hcb
  exact pair_asymm (hnodup p) hab hcd

end Order

/-! ### What the first walk collects -/

section Leaves

variable (hac : Acyclic children) (hlt : ∀ p, ∀ x ∈ children p, x < n)
  (hleaf : ∀ p, leaf p → children p = [])
include hac hlt hleaf

/-- **The walk collects the leaves** at or below the node. -/
theorem mem_leaves (hp : p < n) :
    x ∈ leaves children leaf n p ↔ leaf x ∧ Within children p x := by
  refine induction hac hlt (P := fun p => x ∈ leaves children leaf n p ↔
    leaf x ∧ Within children p x) ?_ hp
  intro p hp ih
  rw [leaves_eq hac hlt hp, within_iff, below_iff_head]
  split
  · next h => simpa [hleaf p h] using fun heq : x = p => heq ▸ h
  · next h =>
    rw [List.mem_flatMap]
    constructor
    · rintro ⟨c, hc, hx⟩
      obtain ⟨hx, hcx⟩ := (ih c hc).mp hx
      exact ⟨hx, .inr ⟨c, hc, hcx⟩⟩
    · rintro ⟨hx, rfl | ⟨c, hc, hcx⟩⟩
      · exact absurd hx h
      · exact ⟨c, hc, (ih c hc).mpr ⟨hx, hcx⟩⟩

/-- **The leaves are collected in the order of the forest.** -/
theorem pairwise_leaves (hp : p < n) : (leaves children leaf n p).Pairwise (Ahead children) := by
  refine induction hac hlt (P := fun p => (leaves children leaf n p).Pairwise (Ahead children)) ?_ hp
  intro p hp ih
  rw [leaves_eq hac hlt hp]
  split
  · exact List.pairwise_singleton _ p
  · refine List.pairwise_flatMap.mpr ⟨ih, ?_⟩
    -- the leaves below an earlier child come before those below a later one
    rw [List.pairwise_iff_forall_sublist]
    intro a b hab x hx y hy
    have hmem := hab.subset
    have hax := (mem_leaves hac hlt hleaf (hlt p a (hmem (by simp)))).mp hx
    have hby := (mem_leaves hac hlt hleaf (hlt p b (hmem (by simp)))).mp hy
    exact ⟨p, a, b, hab, hax.2, hby.2⟩

variable {parent : ℕ → Option ℕ} (hup : ∀ p, ∀ x ∈ children p, parent x = some p)
  (hnodup : ∀ p, (children p).Nodup)
include hup hnodup

theorem nodup_leaves (hp : p < n) : (leaves children leaf n p).Nodup := by
  refine (pairwise_leaves hac hlt hleaf hp).imp ?_
  rintro a b h rfl
  exact h.not_within hac hup hnodup (.refl a)

open Classical in
/-- **The place of a leaf** is the number of leaves that come before it. -/
theorem le_idxOf_leaves_iff {m : ℕ} (hp : p < n) (hx : x ∈ leaves children leaf n p) :
    m ≤ (leaves children leaf n p).idxOf x ↔
      AtLeast m fun y => y ∈ leaves children leaf n p ∧ Ahead children y x := by
  rw [atLeast_iff_countP (nodup_leaves hac hlt hleaf hup hnodup hp),
    countP_eq_idxOf (pairwise_leaves hac hlt hleaf hp)
      (fun _ _ _ _ h => h.asymm hac hup hnodup)
      (fun _ _ h => h.not_within hac hup hnodup (.refl _)) hx]

end Leaves

/-! ### How far the second walk is the first one -/

section Visits

/-- Two lists that agree up to a place that one of them does not reach are the same. -/
theorem eq_of_take_eq {α : Type*} {l l' : List α} {m : ℕ} (h : l.take m = l'.take m)
    (hlen : l'.length < m) : l = l' := by
  have hl' : l'.take m = l' := List.take_of_length_le hlen.le
  have hlt : l.length < m := by
    have := congrArg List.length (h.trans hl')
    rw [List.length_take] at this
    omega
  rw [← hl', ← h, List.take_of_length_le hlt.le]

/-- The list `d` repeats nothing among its first `m` entries just where `full` holds, and is the
list `e` that far. -/
structure Follows (d e : List ℕ) (m : ℕ) (full : Prop) : Prop where
  iff : (d.take m).Nodup ↔ full
  eq : full → d.take m = e.take m

namespace Follows

variable {d e d' e' : List ℕ} {m : ℕ} {full full' : Prop}

theorem not_nodup (h : Follows d e m full) (hfull : ¬ full) : ¬ ((d ++ d').take m).Nodup := by
  intro hnodup
  refine hfull (h.iff.mp (hnodup.sublist ?_))
  rw [List.take_append]
  exact List.sublist_append_left ..

/-- As long as the first list lasts, what comes after it makes no difference. -/
theorem take_append (h : Follows d e m full) (hfull : full) (hle : m ≤ e.length) :
    (d ++ d').take m = d.take m := by
  refine List.take_append_of_le_length ?_
  have := congrArg List.length (h.eq hfull)
  rw [List.length_take, List.length_take] at this
  omega

/-- One walk after another one that meets other leaves. -/
theorem append (h : Follows d e m full) (h' : Follows d' e' (m - e.length) full')
    (hdisj : ∀ x ∈ e, x ∉ d') : Follows (d ++ d') (e ++ e') m (full ∧ full') := by
  by_cases hfull : full
  · rcases Nat.lt_or_ge e.length m with hlt | hle
    · obtain rfl := eq_of_take_eq (h.eq hfull) hlt
      have hd : d.Nodup := by
        have := h.iff.mpr hfull
        rwa [List.take_of_length_le hlt.le] at this
      have htake : ∀ l : List ℕ, (d ++ l).take m = d ++ l.take (m - d.length) := fun l => by
        rw [List.take_append, List.take_of_length_le hlt.le]
      refine ⟨?_, fun hboth => by rw [htake, htake, h'.eq hboth.2]⟩
      rw [htake, List.nodup_append', ← h'.iff]
      refine ⟨fun hnodup => ⟨hfull, hnodup.2.1⟩, fun hboth => ⟨hd, hboth.2, ?_⟩⟩
      exact fun x hx hx' => hdisj x hx (List.mem_of_mem_take hx')
    · have hfull' : full' := h'.iff.mp (by simp [Nat.sub_eq_zero_of_le hle])
      rw [show full ∧ full' ↔ full from and_iff_left hfull']
      refine ⟨by rw [h.take_append hfull hle]; exact h.iff, fun _ => ?_⟩
      rw [h.take_append hfull hle, h.eq hfull, List.take_append_of_le_length hle]
  · exact ⟨⟨fun hnodup => absurd hnodup (h.not_nodup hfull), fun hboth => absurd hboth.1 hfull⟩,
      fun hboth => absurd hboth.1 hfull⟩

/-- A walk, and then one that only meets its leaves again. -/
theorem revisit (h : Follows d e m full) (hsub : d' ⊆ e) :
    Follows (d ++ d') e m (full ∧ (d' ≠ [] → m ≤ e.length)) := by
  by_cases hfull : full
  · rcases Nat.lt_or_ge e.length m with hlt | hle
    · obtain rfl := eq_of_take_eq (h.eq hfull) hlt
      cases d' with
      | nil =>
        rw [List.append_nil]
        exact ⟨⟨fun hnodup => ⟨hfull, fun h => absurd rfl h⟩, fun _ => h.iff.mpr hfull⟩,
          fun _ => h.eq hfull⟩
      | cons x d' =>
        have hm : ¬ m ≤ d.length := hlt.not_ge
        refine ⟨⟨fun hnodup => ?_, fun hboth => absurd (hboth.2 (by simp)) hm⟩,
          fun hboth => absurd (hboth.2 (by simp)) hm⟩
        -- the first entry of the rest is a repetition
        obtain ⟨k, hk⟩ := Nat.exists_eq_succ_of_ne_zero (Nat.sub_pos_of_lt hlt).ne'
        rw [List.take_append, List.take_of_length_le hlt.le, hk, List.take_succ_cons] at hnodup
        exact absurd (hsub List.mem_cons_self)
          fun hx => (List.nodup_append'.mp hnodup).2.2 hx List.mem_cons_self
    · rw [show full ∧ (d' ≠ [] → m ≤ e.length) ↔ full from and_iff_left fun _ => hle]
      refine ⟨by rw [h.take_append hfull hle]; exact h.iff, fun _ => ?_⟩
      rw [h.take_append hfull hle, h.eq hfull]
  · exact ⟨⟨fun hnodup => absurd hnodup (h.not_nodup hfull), fun hboth => absurd hboth.1 hfull⟩,
      fun hboth => absurd hboth.1 hfull⟩

theorem congr (h : Follows d e m full) (hiff : full ↔ full') : Follows d e m full' :=
  ⟨h.iff.trans hiff, fun hfull => h.eq (hiff.mpr hfull)⟩

end Follows

/-- What holds of the walks of the children holds of one after the other. -/
theorem follows_flatMap {l : List ℕ} {d e : ℕ → List ℕ} {full : ℕ → ℕ → Prop}
    (h : ∀ a ∈ l, ∀ m, Follows (d a) (e a) m (full m a)) (hsub : ∀ a ∈ l, d a ⊆ e a)
    (hnodup : (l.flatMap e).Nodup) (m : ℕ) :
    Follows (l.flatMap d) (l.flatMap e) m
      (∀ pre a post, l = pre ++ a :: post → full (m - (pre.flatMap e).length) a) := by
  induction l generalizing m with
  | nil => exact ⟨by simp, by simp⟩
  | cons a l ih =>
    obtain ⟨-, hrest, hdisj⟩ := List.nodup_append'.mp (List.flatMap_cons ▸ hnodup)
    have hl := ih (fun b hb => h b (List.mem_cons_of_mem a hb))
      (fun b hb => hsub b (List.mem_cons_of_mem a hb)) hrest (m - (e a).length)
    rw [List.flatMap_cons, List.flatMap_cons]
    refine ((h a List.mem_cons_self m).append hl fun x hx hxd => ?_).congr ⟨?_, ?_⟩
    · obtain ⟨b, hb, hx'⟩ := List.mem_flatMap.mp hxd
      exact hdisj hx (List.mem_flatMap.mpr ⟨b, hb, hsub b (List.mem_cons_of_mem a hb) hx'⟩)
    · rintro ⟨ha, hl⟩ pre b post heq
      cases pre with
      | nil =>
        cases heq
        simpa using ha
      | cons c pre =>
        cases heq
        rw [List.flatMap_cons, List.length_append, ← Nat.sub_sub]
        exact hl pre b post rfl
    · intro hall
      refine ⟨by simpa using hall [] a l rfl, fun pre b post heq => ?_⟩
      rw [Nat.sub_sub, ← List.length_append, ← List.flatMap_cons]
      exact hall (a :: pre) b post (by rw [heq, List.cons_append])

variable (again leaf) in
/-- A leaf is there to be visited again. -/
def Revisits (children : ℕ → List ℕ) (q : ℕ) : Prop :=
  ∃ f ∈ again q, ∃ x, leaf x ∧ Within children f x

variable (hac : Acyclic children) (hlt : ∀ p, ∀ x ∈ children p, x < n)
  (hagain : ∀ p, again p ⊆ children p)
include hac hlt hagain

theorem mem_visits (hp : p < n) :
    x ∈ visits children again leaf n p ↔ x ∈ leaves children leaf n p := by
  refine induction hac hlt (P := fun p => x ∈ visits children again leaf n p ↔
    x ∈ leaves children leaf n p) ?_ hp
  intro p hp ih
  rw [visits_eq hac hlt hagain hp, leaves_eq hac hlt hp]
  split
  · rfl
  · rw [List.mem_append, List.mem_flatMap, List.mem_flatMap, List.mem_flatMap]
    constructor
    · rintro (⟨c, hc, hx⟩ | ⟨c, hc, hx⟩)
      · exact ⟨c, hc, (ih c hc).mp hx⟩
      · exact ⟨c, hagain p hc, (ih c (hagain p hc)).mp hx⟩
    · rintro ⟨c, hc, hx⟩
      exact .inl ⟨c, hc, (ih c hc).mpr hx⟩

variable (hleaf : ∀ p, leaf p → children p = [])
include hleaf

theorem revisits_iff :
    Revisits again leaf children p ↔ (again p).flatMap (visits children again leaf n) ≠ [] := by
  have hmem : ∀ f ∈ again p, ∀ x, x ∈ visits children again leaf n f ↔ leaf x ∧ Within children f x :=
    fun f hf x => by
      have hlt' := hlt p f (hagain p hf)
      rw [mem_visits hac hlt hagain hlt', mem_leaves hac hlt hleaf hlt']
  constructor
  · rintro ⟨f, hf, x, hx⟩
    exact List.ne_nil_of_mem (List.mem_flatMap.mpr ⟨f, hf, (hmem f hf x).mpr hx⟩)
  · intro hne
    obtain ⟨x, hx⟩ := List.exists_mem_of_ne_nil _ hne
    obtain ⟨f, hf, hx⟩ := List.mem_flatMap.mp hx
    exact ⟨f, hf, x, (hmem f hf x).mp hx⟩

variable {parent : ℕ → Option ℕ} (hup : ∀ p, ∀ x ∈ children p, parent x = some p)
  (hnodup : ∀ p, (children p).Nodup)
include hup hnodup

open Classical in
omit hagain in
/-- Among the leaves below a node, those within or ahead of a node below the child `a` are the ones
below the earlier children and some of those below `a`. -/
theorem countP_child {pre post : List ℕ} (hpost : children p = pre ++ a :: post)
    (hq : Within children a q) :
    ((children p).flatMap (leaves children leaf n)).countP
        (fun x => Within children q x ∨ Ahead children x q)
      = (pre.flatMap (leaves children leaf n)).length
        + (leaves children leaf n a).countP fun x => Within children q x ∨ Ahead children x q := by
  have hwithin : ∀ b ∈ children p, ∀ x ∈ leaves children leaf n b, Within children b x :=
    fun b hb x hx => ((mem_leaves hac hlt hleaf (hlt p b hb)).mp hx).2
  have hbefore : (pre.flatMap (leaves children leaf n)).countP
      (fun x => Within children q x ∨ Ahead children x q)
        = (pre.flatMap (leaves children leaf n)).length := by
    refine List.countP_eq_length.mpr fun x hx => ?_
    obtain ⟨b, hb, hx⟩ := List.mem_flatMap.mp hx
    have hab : [b, a].Sublist (children p) := by
      rw [hpost]
      exact (List.singleton_sublist.mpr hb).append (List.singleton_sublist.mpr List.mem_cons_self)
    exact decide_eq_true (.inr ⟨p, b, a, hab, hwithin b (hab.subset (by simp)) x hx, hq⟩)
  have hafter : (post.flatMap (leaves children leaf n)).countP
      (fun x => Within children q x ∨ Ahead children x q) = 0 := by
    refine List.countP_eq_zero.mpr fun x hx => ?_
    obtain ⟨b, hb, hx⟩ := List.mem_flatMap.mp hx
    have hab : [a, b].Sublist (children p) := by
      rw [hpost]
      exact ((List.singleton_sublist.mpr hb).cons_cons a).trans (List.sublist_append_right ..)
    have hahead : Ahead children q x :=
      ⟨p, a, b, hab, hq, hwithin b (hab.subset (by simp)) x hx⟩
    rw [decide_eq_true_eq]
    rintro (h | h)
    · exact hahead.not_within hac hup hnodup h
    · exact hahead.asymm hac hup hnodup h
  rw [hpost, List.flatMap_append, List.flatMap_cons, List.countP_append, List.countP_append, hbefore,
    hafter, Nat.add_zero]

open Classical in
/-- **How far the second walk is the first one**: up to the first place where it visits a leaf
again. -/
theorem follows_visits (hp : p < n) (m : ℕ) :
    Follows (visits children again leaf n p) (leaves children leaf n p) m
      (∀ q, Within children p q → Revisits again leaf children q →
        m ≤ (leaves children leaf n p).countP fun x => Within children q x ∨ Ahead children x q) := by
  refine induction hac hlt (P := fun p => ∀ m,
    Follows (visits children again leaf n p) (leaves children leaf n p) m
      (∀ q, Within children p q → Revisits again leaf children q →
        m ≤ (leaves children leaf n p).countP fun x => Within children q x ∨ Ahead children x q))
    ?_ hp m
  intro p hp ih m
  rw [visits_eq hac hlt hagain hp, leaves_eq hac hlt hp]
  split
  · next h =>
    -- below a leaf there is nothing to visit
    have hone : ([p].take m).Nodup := (List.nodup_singleton p).sublist (List.take_sublist m _)
    refine ⟨⟨fun _ q hq hrevisits => ?_, fun _ => hone⟩, fun _ => rfl⟩
    obtain rfl : q = p := (within_iff.mp hq).resolve_right fun hbelow => by
      obtain ⟨c, hc, -⟩ := below_iff_head.mp hbelow
      simp [hleaf p h] at hc
    obtain ⟨f, hf, -⟩ := hrevisits
    simpa [hleaf q h] using hagain q hf
  · next h =>
    have heq : leaves children leaf n p = (children p).flatMap (leaves children leaf n) := by
      rw [leaves_eq hac hlt hp, if_neg h]
    have hflat := follows_flatMap (fun c hc => ih c hc)
      (fun c hc x hx => (mem_visits hac hlt hagain (hlt p c hc)).mp hx)
      (heq ▸ nodup_leaves hac hlt hleaf hup hnodup hp) m
    have hsub : (again p).flatMap (visits children again leaf n)
        ⊆ (children p).flatMap (leaves children leaf n) := by
      intro x hx
      obtain ⟨f, hf, hx⟩ := List.mem_flatMap.mp hx
      have hf' := hagain p hf
      exact List.mem_flatMap.mpr ⟨f, hf', (mem_visits hac hlt hagain (hlt p f hf')).mp hx⟩
    refine (hflat.revisit hsub).congr ?_
    rw [← revisits_iff hac hlt hagain hleaf]
    constructor
    · rintro ⟨hchildren, hself⟩ q hq hrevisits
      rcases within_iff.mp hq with rfl | hq
      · refine (hself hrevisits).trans_eq (List.countP_eq_length.mpr fun x hx => ?_).symm
        rw [← heq, mem_leaves hac hlt hleaf hp] at hx
        exact decide_eq_true (.inl hx.2)
      · obtain ⟨a, ha, haq⟩ := below_iff_head.mp hq
        obtain ⟨pre, post, hpost⟩ := List.append_of_mem ha
        have := hchildren pre a post hpost q haq hrevisits
        rw [countP_child hac hlt hleaf hup hnodup hpost haq]
        omega
    · intro hall
      refine ⟨fun pre a post hpost q haq hrevisits => ?_, fun hrevisits =>
        (hall p (.refl p) hrevisits).trans List.countP_le_length⟩
      have ha : a ∈ children p := by simp [hpost]
      have := hall q (((Within.refl p).tail ha).within.trans haq) hrevisits
      rw [countP_child hac hlt hleaf hup hnodup hpost haq] at this
      omega

/-- **The second walk repeats nothing among its first `m` leaves** as long as wherever it visits a
leaf again, `m` leaves are below the node or come before it. -/
theorem nodup_take_visits_iff (hp : p < n) {m : ℕ} :
    ((visits children again leaf n p).take m).Nodup ↔
      ∀ q, Within children p q → Revisits again leaf children q →
        AtLeast m fun x => x ∈ leaves children leaf n p
          ∧ (Within children q x ∨ Ahead children x q) := by
  classical
  rw [(follows_visits hac hlt hagain hleaf hup hnodup hp m).iff]
  simp only [atLeast_iff_countP (nodup_leaves hac hlt hleaf hup hnodup hp)]

/-- As long as it repeats nothing, the second walk is the first one. -/
theorem take_visits_eq (hp : p < n) {m : ℕ}
    (h : ((visits children again leaf n p).take m).Nodup) :
    (visits children again leaf n p).take m = (leaves children leaf n p).take m :=
  have hfollows := follows_visits hac hlt hagain hleaf hup hnodup hp m
  hfollows.eq (hfollows.iff.mp h)

end Visits

end Walks

end Walk
