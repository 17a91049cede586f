import Mathlib.Data.List.Nodup
import Mathlib.Data.Nat.Basic
import Mathlib.Logic.Relation
import Mathlib.Order.Nat

/-!
# Depth-first traversal of a graph that unfolds on the way

A node is entered once. What is done there is a list of steps, which may depend on a state: to change
the state, or to visit another node. A visit of a node that was entered before does nothing.

The traversal has a bound on its depth. Where the nodes visited are among finitely many it needs no
more depth than there are nodes.

## Main definitions

* `Depth.Graph`: the nodes that references lead to, and the steps at each
* `Depth.Walk`: the state of a traversal, with the nodes entered so far and where they lead
* `Depth.Graph.run`, `Depth.Graph.visit`: the traversal
* `Depth.Explored`: what a traversal adds

## Main results

* `Depth.Graph.explored_visit`: a traversal enters each node once, those it reaches and no others
* `Depth.Graph.exists_visit`: finitely many nodes bound the depth
-/

namespace Depth

variable {ν α σ : Type*}

/-- A step at a node: a change of the state, or a visit of another node. -/
inductive Step (ν σ : Type*)
  | act (f : σ → σ)
  | visit (v : ν)

/-- References and the nodes they lead to, and the steps at the node a reference leads to. -/
structure Graph (ν α σ : Type*) where
  node : ν → α
  body : ν → σ → List (Step ν σ)

/-- The nodes entered, in order, each with the nodes it leads to. -/
structure Walk (α σ : Type*) where
  state : σ
  visited : List (α × List α)

namespace Walk

variable {w w' : Walk α σ}

def nodes (w : Walk α σ) : List α := w.visited.map Prod.fst

/-- A node leads to another. -/
def Leads (w : Walk α σ) (a b : α) : Prop := ∃ p ∈ w.visited, p.1 = a ∧ b ∈ p.2

theorem Leads.mono (h : w.visited <+: w'.visited) {a b : α} (hab : w.Leads a b) : w'.Leads a b :=
  let ⟨p, hp, hpab⟩ := hab
  ⟨p, h.subset hp, hpab⟩

theorem nodes_mono (h : w.visited <+: w'.visited) : w.nodes <+: w'.nodes := h.map Prod.fst

end Walk

namespace Graph

variable {G : Graph ν α σ} {v : ν} {w w' w₁ w₂ : Walk α σ} {l : List (Step ν σ)}

/-- The nodes that steps lead to. -/
def targets (G : Graph ν α σ) (l : List (Step ν σ)) : List α := l.filterMap fun
  | .act _ => none
  | .visit v => some (G.node v)

@[simp] theorem targets_nil : G.targets [] = [] := rfl
@[simp] theorem targets_act (f : σ → σ) : G.targets (.act f :: l) = G.targets l := rfl
@[simp] theorem targets_visit : G.targets (.visit v :: l) = G.node v :: G.targets l := rfl

theorem targets_append (l l' : List (Step ν σ)) :
    G.targets (l ++ l') = G.targets l ++ G.targets l' :=
  List.filterMap_append

def enter (G : Graph ν α σ) (v : ν) (w : Walk α σ) : Walk α σ :=
  { w with visited := w.visited ++ [(G.node v, G.targets (G.body v w.state))] }

theorem nodes_enter : (G.enter v w).nodes = w.nodes ++ [G.node v] := List.map_append

section Run

variable [DecidableEq α]

/-- Steps one after another. -/
def run (G : Graph ν α σ) (next : ν → Walk α σ → Option (Walk α σ)) :
    List (Step ν σ) → Walk α σ → Option (Walk α σ)
  | [], w => some w
  | .act f :: l, w => G.run next l { w with state := f w.state }
  | .visit v :: l, w => if G.node v ∈ w.nodes then G.run next l w else (next v w).bind (G.run next l)

/-- The traversal from a node that is entered now. -/
def visit (G : Graph ν α σ) : ℕ → ν → Walk α σ → Option (Walk α σ)
  | 0, _, _ => none
  | fuel + 1, v, w => G.run (G.visit fuel) (G.body v w.state) (G.enter v w)

end Run

/-! ### What a traversal adds -/

/-- The traversal from `w` to `w'` that visits the nodes of a list. -/
structure Explored (w w' : Walk α σ) (l : List α) : Prop where
  nodup : w.nodes.Nodup → w'.nodes.Nodup
  mono : w.visited <+: w'.visited
  closed : ∀ p ∈ w'.visited, p ∈ w.visited ∨ p.2 ⊆ w'.nodes
  targets : l ⊆ w'.nodes
  reached : ∀ a ∈ w'.nodes, a ∈ w.nodes ∨ ∃ b ∈ l, Relation.ReflTransGen w'.Leads b a

namespace Explored

theorem refl (w : Walk α σ) : Explored w w [] where
  nodup := id
  mono := List.prefix_rfl
  closed _ hp := .inl hp
  targets := List.nil_subset _
  reached _ ha := .inl ha

theorem cons {a : α} {l : List α} (h₁ : Explored w w₁ [a]) (h₂ : Explored w₁ w₂ l) :
    Explored w w₂ (a :: l) where
  nodup hw := h₂.nodup (h₁.nodup hw)
  mono := h₁.mono.trans h₂.mono
  closed p hp := by
    rcases h₂.closed p hp with hp | hp
    · exact (h₁.closed p hp).imp_right fun h => List.Subset.trans h (Walk.nodes_mono h₂.mono).subset
    · exact .inr hp
  targets := List.cons_subset.mpr
    ⟨(Walk.nodes_mono h₂.mono).subset (h₁.targets (List.mem_cons_self ..)), h₂.targets⟩
  reached b hb := by
    rcases h₂.reached b hb with hb | ⟨c, hc, hcb⟩
    · refine (h₁.reached b hb).imp_right fun ⟨c, hc, hcb⟩ => ⟨c, ?_, ?_⟩
      · exact List.mem_singleton.mp hc ▸ List.mem_cons_self ..
      · exact Relation.ReflTransGen.mono (fun x y => Walk.Leads.mono h₂.mono) c b hcb
    · exact .inr ⟨c, List.mem_cons_of_mem _ hc, hcb⟩

/-- A node that was entered before. -/
theorem skip {a : α} (ha : a ∈ w.nodes) : Explored w w [a] :=
  ⟨id, List.prefix_rfl, fun _ hp => .inl hp, by simpa using ha, fun _ hb => .inl hb⟩

end Explored

theorem explored_enter (hv : G.node v ∉ w.nodes)
    (h : Explored (G.enter v w) w' (G.targets (G.body v w.state))) : Explored w w' [G.node v] where
  nodup hw := by
    apply h.nodup
    rw [nodes_enter, List.nodup_append]
    exact ⟨hw, List.pairwise_singleton .., fun a ha b hb => by
      rw [List.mem_singleton.mp hb]
      rintro rfl
      exact hv ha⟩
  mono := (List.prefix_append ..).trans h.mono
  closed p hp := by
    rcases h.closed p hp with hp | hp
    · rcases List.mem_append.mp hp with hp | hp
      · exact .inl hp
      · rw [List.mem_singleton.mp hp]
        exact .inr h.targets
    · exact .inr hp
  targets := by
    have hmem : G.node v ∈ (G.enter v w).nodes := by simp [nodes_enter]
    simpa using (Walk.nodes_mono h.mono).subset hmem
  reached a ha := by
    rcases h.reached a ha with ha | ⟨b, hb, hba⟩
    · rw [nodes_enter, List.mem_append] at ha
      exact ha.imp_right fun ha => ⟨a, ha, .refl⟩
    · have hlead : w'.Leads (G.node v) b :=
        ⟨(G.node v, G.targets (G.body v w.state)), h.mono.subset (by simp [enter]), rfl, hb⟩
      exact .inr ⟨_, List.mem_singleton_self _, .head hlead hba⟩

section Run

variable [DecidableEq α]

theorem explored_run {next : ν → Walk α σ → Option (Walk α σ)}
    (hnext : ∀ v w w', G.node v ∉ w.nodes → next v w = some w' → Explored w w' [G.node v])
    (h : G.run next l w = some w') : Explored w w' (G.targets l) := by
  induction l generalizing w with
  | nil =>
    obtain rfl : w = w' := Option.some.inj h
    exact .refl w
  | cons step l ih =>
    cases step with
    | act f =>
      have := ih (w := { w with state := f w.state }) h
      exact ⟨this.nodup, this.mono, this.closed, this.targets, this.reached⟩
    | visit v =>
      rw [run] at h
      rw [targets_visit]
      split at h
      · next hv => exact (Explored.skip hv).cons (ih h)
      · next hv =>
        obtain ⟨w₁, hw₁, hrest⟩ := Option.bind_eq_some_iff.mp h
        exact (hnext v w w₁ hv hw₁).cons (ih hrest)

/-- **A traversal** enters each node once, and leads to all nodes it reaches. -/
theorem explored_visit {fuel : ℕ} (hv : G.node v ∉ w.nodes) (h : G.visit fuel v w = some w') :
    Explored w w' [G.node v] := by
  induction fuel generalizing v w w' with
  | zero => cases h
  | succ fuel ih => exact explored_enter hv (explored_run (fun v w w' hv h => ih hv h) h)

theorem run_append {next : ν → Walk α σ → Option (Walk α σ)} (l l' : List (Step ν σ)) (w : Walk α σ) :
    G.run next (l ++ l') w = (G.run next l w).bind (G.run next l') := by
  induction l generalizing w with
  | nil => rfl
  | cons step l ih =>
    cases step with
    | act f => exact ih _
    | visit v =>
      rw [List.cons_append, run, run]
      split
      · exact ih w
      · rw [Option.bind_assoc]
        exact congrArg _ (funext ih)

section Rel

variable {R : σ → σ → Prop} (hrefl : ∀ s, R s s) (htrans : ∀ s s' s'', R s s' → R s' s'' → R s s'')

include hrefl htrans

theorem rel_run {next : ν → Walk α σ → Option (Walk α σ)}
    (hnext : ∀ v w w', next v w = some w' → R w.state w'.state) (hl : ∀ f, .act f ∈ l → ∀ s, R s (f s))
    (h : G.run next l w = some w') : R w.state w'.state := by
  induction l generalizing w with
  | nil =>
    obtain rfl : w = w' := Option.some.inj h
    exact hrefl _
  | cons step l ih =>
    have hl' : ∀ f, .act f ∈ l → ∀ s, R s (f s) := fun f hf => hl f (List.mem_cons_of_mem _ hf)
    cases step with
    | act f => exact htrans _ _ _ (hl f (List.mem_cons_self ..) _) (ih hl' h)
    | visit v =>
      rw [run] at h
      split at h
      · exact ih hl' h
      · obtain ⟨w₁, hw₁, hrest⟩ := Option.bind_eq_some_iff.mp h
        exact htrans _ _ _ (hnext v w w₁ hw₁) (ih hl' hrest)

/-- What every change of the state respects, a traversal respects. -/
theorem rel_visit (hbody : ∀ v s f, .act f ∈ G.body v s → ∀ s, R s (f s)) {fuel : ℕ}
    (h : G.visit fuel v w = some w') : R w.state w'.state := by
  induction fuel generalizing v w w' with
  | zero => cases h
  | succ fuel ih =>
    have hrun : G.run (G.visit fuel) (G.body v w.state) (G.enter v w) = some w' := h
    have hnext : ∀ v w w', G.visit fuel v w = some w' → R w.state w'.state := fun v w w' h => ih h
    have hrel := rel_run hrefl htrans hnext (hbody v w.state) hrun
    exact hrel

end Rel

end Run

end Graph

/-! ### The depth -/

/-- The elements of a list that are not in another. -/
def missing [DecidableEq α] (all some : List α) : ℕ := (all.filter (· ∉ some)).length

section Missing

variable [DecidableEq α] {all l l' : List α} {a : α}

theorem missing_le_length (all l : List α) : missing all l ≤ all.length := List.length_filter_le ..

theorem missing_mono (h : l ⊆ l') : missing all l' ≤ missing all l :=
  (List.monotone_filter_right all fun a ha => by
    have := of_decide_eq_true ha
    exact decide_eq_true fun hl => this (h hl)).length_le

theorem missing_concat_lt (hall : a ∈ all) (ha : a ∉ l) : missing all (l ++ [a]) < missing all l := by
  have hsub : (all.filter (· ∉ l ++ [a])).Sublist (all.filter (· ∉ l)) :=
    List.monotone_filter_right all fun b hb => by
      have := of_decide_eq_true hb
      exact decide_eq_true fun hl => this (List.mem_append_left _ hl)
  refine lt_of_le_of_ne hsub.length_le fun heq => ?_
  have hmem : a ∈ all.filter (· ∉ l) := List.mem_filter.mpr ⟨hall, decide_eq_true ha⟩
  rw [← hsub.eq_of_length heq] at hmem
  have := of_decide_eq_true (List.mem_filter.mp hmem).2
  exact this (by simp)

end Missing

namespace Graph

variable [DecidableEq α] {G : Graph ν α σ} {v : ν} {w w' : Walk α σ} {all : List α}

theorem exists_run {next : ν → Walk α σ → Option (Walk α σ)} {l : List (Step ν σ)} {bound : ℕ}
    (hexp : ∀ v w w', next v w = some w' → w.nodes ⊆ w'.nodes)
    (hnext : ∀ v w, G.node v ∈ all → G.node v ∉ w.nodes → missing all w.nodes ≤ bound →
      ∃ w', next v w = some w')
    (hall : G.targets l ⊆ all) (hw : missing all w.nodes ≤ bound) : ∃ w', G.run next l w = some w' := by
  induction l generalizing w with
  | nil => exact ⟨w, rfl⟩
  | cons step l ih =>
    cases step with
    | act f => exact ih (w := { w with state := f w.state }) hall hw
    | visit v =>
      rw [targets_visit, List.cons_subset] at hall
      rw [run]
      split
      · exact ih hall.2 hw
      · next hv =>
        obtain ⟨w₁, hw₁⟩ := hnext v w hall.1 hv hw
        rw [hw₁]
        exact ih hall.2 ((missing_mono (hexp v w w₁ hw₁)).trans hw)

theorem subset_run {next : ν → Walk α σ → Option (Walk α σ)} {l : List (Step ν σ)}
    (hexp : ∀ v w w', next v w = some w' → w.nodes ⊆ w'.nodes) (h : G.run next l w = some w') :
    w.nodes ⊆ w'.nodes := by
  induction l generalizing w with
  | nil =>
    obtain rfl : w = w' := Option.some.inj h
    exact List.Subset.refl _
  | cons step l ih =>
    cases step with
    | act f => exact ih (w := { w with state := f w.state }) h
    | visit v =>
      rw [run] at h
      split at h
      · exact ih h
      · obtain ⟨w₁, hw₁, hrest⟩ := Option.bind_eq_some_iff.mp h
        exact List.Subset.trans (hexp v w w₁ hw₁) (ih hrest)

theorem subset_visit {fuel : ℕ} (h : G.visit fuel v w = some w') : w.nodes ⊆ w'.nodes := by
  induction fuel generalizing v w w' with
  | zero => cases h
  | succ fuel ih =>
    have hsub := subset_run (fun v w w' h => ih h) h
    rw [nodes_enter] at hsub
    exact List.Subset.trans (List.subset_append_left ..) hsub

/-- **The depth is bounded** by the number of nodes there are to enter. -/
theorem exists_visit (all : List α) (hall : ∀ v s, G.targets (G.body v s) ⊆ all) {fuel : ℕ}
    (hfuel : missing all (G.enter v w).nodes < fuel) : ∃ w', G.visit fuel v w = some w' := by
  induction fuel generalizing v w with
  | zero => cases hfuel
  | succ fuel ih =>
    refine exists_run (fun v w w' h => subset_visit h) (fun v' w₁ hv' hnew hw₁ => ?_) (hall ..)
      (Nat.lt_succ_iff.mp hfuel)
    apply ih
    rw [nodes_enter]
    exact (missing_concat_lt hv' hnew).trans_le hw₁

end Graph

end Depth
