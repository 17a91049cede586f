import Mathlib.Data.Finset.Card
import I3Aiwr.Tree.Foremost

/-!
# Closing comes to its end

Every call of `tree_close_internal` that kills no windows, and every call of `con_on_remove_child`,
returns within `Tree.closeSteps` steps: a container is opened once, since the calls on the stack are for
containers above it, and what is left to do of a call takes less steps than the containers that are not
opened yet allow for. Such a call is never aborted, so that what was opened is freed.

## Main definitions

* `Closing.Certain s`: no call on the stack is aborted
* `Closing.opened todo`: the containers that the stack is about to close
* `Closing.fresh s`: the containers in `all_cons` that are not opened
* `Closing.cost s`: a bound on the steps left

## Main results

* `Closing.cost_step`: every step makes the cost smaller
* `Closing.run_ends`: after that many steps nothing is left to do
* `Tree.treeCloseInternal_ends`, `Tree.onRemoveChild_ends`
-/

namespace I3

namespace CloseAction

/-- The container that the action closes. -/
def subject : CloseAction → Option ConId
  | .close c _ _ | .child c _ _ _ _ | .childClosed c _ _ _ _ | .free c => some c
  | .activate _ | .removeChild _ | .returnTrue => none

/-- The steps for the action alone. The loop over the children of `con` is paid for by these, which
are not opened yet. -/
def weight : CloseAction → ℕ
  | .close _ _ _ | .childClosed _ _ _ _ _ => 6
  | .child _ _ _ _ _ => 5
  | .free _ | .activate _ | .removeChild _ | .returnTrue => 1

/-- The action kills no window, and no child was left over. -/
def Certain : CloseAction → Prop
  | .close _ kill _ => kill = .dontKillWindow
  | .child _ kill _ _ abortKill | .childClosed _ kill _ _ abortKill =>
    kill = .dontKillWindow ∧ abortKill = false
  | .free _ | .activate _ | .removeChild _ | .returnTrue => True

end CloseAction

namespace Tree

theorem closeDetach_allCons {cfg : Config} (t : Tree) (c : ConId) (dontKillParent : Bool) :
    (t.closeDetach cfg c dontKillParent).allCons = t.allCons := by
  rw [(links_closeDetach c dontKillParent).allCons, conDetach_allCons]

end Tree

namespace Closing

open I3.Tree

variable {cfg : Config} {t t' : Tree} {rest todo : List CloseAction} {killed : Bool}

/-- The containers that the actions close. -/
def opened (todo : List CloseAction) : List ConId := todo.filterMap CloseAction.subject

/-- The containers that may still be opened. -/
def fresh (s : Closing) : Finset ConId :=
  (Finset.range s.tree.nextCon).filter fun x => x ∈ s.tree.allCons ∧ x ∉ opened s.todo

def cost (s : Closing) : ℕ := 8 * s.fresh.card + (s.todo.map CloseAction.weight).sum

theorem mem_fresh {s : Closing} {x : ConId} :
    x ∈ s.fresh ↔ x < s.tree.nextCon ∧ x ∈ s.tree.allCons ∧ x ∉ opened s.todo := by
  rw [fresh, Finset.mem_filter, Finset.mem_range]

theorem opened_of_forall (h : ∀ a ∈ todo, a = .returnTrue) : opened todo = [] := by
  rw [opened, List.filterMap_eq_nil_iff]
  intro a ha
  rw [h a ha]
  rfl

/-! ### Calls that are not aborted -/

/-- No call on the stack is aborted, and none was. -/
structure Certain (s : Closing) : Prop where
  killed : s.killed = true
  todo : ∀ a ∈ s.todo, a.Certain

/-- The last step of a call that is not aborted. -/
theorem step_last (t : Tree) (c : ConId) (dontKillParent : Bool) (rest : List CloseAction) (killed : Bool) :
    step cfg ⟨t, .child c .dontKillWindow dontKillParent none false :: rest, killed⟩
      = finish cfg t c dontKillParent rest killed := by
  rw [step]
  exact if_neg (by simp)

theorem certain_finish (t : Tree) (c : ConId) (dontKillParent : Bool) (hkilled : killed = true)
    (hrest : ∀ a ∈ rest, a.Certain) : Certain (finish cfg t c dontKillParent rest killed) := by
  refine ⟨hkilled, fun a ha => ?_⟩
  simp only [finish, List.mem_cons, List.mem_append, Option.mem_toList, Option.map_eq_some_iff] at ha
  rcases ha with rfl | (⟨n, -, rfl⟩ | ⟨p, -, rfl⟩) | rfl | ha
  · trivial
  · trivial
  · trivial
  · trivial
  · exact hrest a ha

theorem certain_removeChild (t : Tree) (c : ConId) (hkilled : killed = true)
    (hrest : ∀ a ∈ rest, a.Certain) : Certain (removeChild t c rest killed) := by
  have hclose : ∀ a ∈ CloseAction.close c .dontKillWindow false :: rest, a.Certain :=
    List.forall_mem_cons.mpr ⟨rfl, hrest⟩
  rw [removeChild]
  split
  · exact ⟨hkilled, hrest⟩
  split
  · split
    · exact ⟨hkilled, hclose⟩
    · exact ⟨hkilled, hrest⟩
  · dsimp only
    split
    · exact ⟨hkilled, hclose⟩
    · exact ⟨hkilled, hrest⟩

theorem Certain.step {s : Closing} (h : Certain s) : Certain (s.step cfg) := by
  obtain ⟨t, todo, killed⟩ := s
  obtain ⟨hkilled, htodo⟩ := h
  match todo with
  | [] => exact ⟨hkilled, htodo⟩
  | .close c kill dontKillParent :: rest =>
    obtain ⟨hkill, hrest⟩ := List.forall_mem_cons.mp htodo
    exact ⟨hkilled, List.forall_mem_cons.mpr ⟨⟨hkill, rfl⟩, hrest⟩⟩
  | .child c kill dontKillParent (some d) abortKill :: rest =>
    obtain ⟨hc, hrest⟩ := List.forall_mem_cons.mp htodo
    exact ⟨hkilled, List.forall_mem_cons.mpr ⟨hc.1, List.forall_mem_cons.mpr ⟨hc, hrest⟩⟩⟩
  | .childClosed c kill dontKillParent next abortKill :: rest =>
    obtain ⟨⟨hkill, habort⟩, hrest⟩ := List.forall_mem_cons.mp htodo
    have hnot : (abortKill || !killed) = false := by
      cases hkilled
      simp [habort]
    exact ⟨hkilled, List.forall_mem_cons.mpr ⟨⟨hkill, hnot⟩, hrest⟩⟩
  | .child c kill dontKillParent none abortKill :: rest =>
    obtain ⟨⟨rfl, rfl⟩, hrest⟩ := List.forall_mem_cons.mp htodo
    rw [step_last]
    exact certain_finish t c dontKillParent hkilled hrest
  | .free c :: rest | .activate n :: rest => exact ⟨hkilled, (List.forall_mem_cons.mp htodo).2⟩
  | .removeChild c :: rest => exact certain_removeChild t c hkilled (List.forall_mem_cons.mp htodo).2
  | .returnTrue :: rest => exact ⟨rfl, (List.forall_mem_cons.mp htodo).2⟩

/-! ### The stack leads down -/

/-- The calls below the one for `c` are for containers above it. -/
theorem below_of_under {c x : ConId} {dontKillParent : Bool} (h : Under t c dontKillParent rest)
    (hx : x ∈ opened rest) : Descent.Below t.children x c := by
  induction rest generalizing c dontKillParent with
  | nil => cases hx
  | cons a rest ih =>
    cases dontKillParent with
    | false =>
      rw [opened_of_forall (under_false.mp h)] at hx
      cases hx
    | true =>
      cases a with
      | childClosed p kill dkp next abort =>
        obtain ⟨-, hc, -, hrest⟩ := h
        have hpc : Descent.Below t.children p c := .single (List.mem_append_left _ hc)
        rcases List.mem_cons.mp (show x ∈ p :: opened rest from hx) with rfl | hx
        · exact hpc
        · exact (ih hrest hx).trans hpc
      | _ => exact h.elim

/-- A child of the container that is being closed is not opened. -/
theorem notMem_opened_child (ht : Rooted t) {c d : ConId} {dontKillParent : Bool}
    (h : Under t c dontKillParent rest) (hd : d ∈ t.children c) : d ∉ c :: opened rest := by
  intro hmem
  have hcd : Descent.Below t.children c d := .single hd
  rcases List.mem_cons.mp hmem with rfl | hmem
  · exact ht.acyclic d hcd
  · exact ht.acyclic d ((below_of_under h hmem).trans hcd)

/-! ### Every step costs something -/

theorem fresh_card_le {s s' : Closing} (hnext : s'.tree.nextCon = s.tree.nextCon)
    (hsub : ∀ x ∈ s'.tree.allCons, x ∉ opened s'.todo → x ∈ s.tree.allCons ∧ x ∉ opened s.todo) :
    s'.fresh.card ≤ s.fresh.card := by
  refine Finset.card_le_card fun x hx => ?_
  rw [mem_fresh, hnext] at hx
  obtain ⟨hlt, hall, hopened⟩ := hx
  exact mem_fresh.mpr ⟨hlt, hsub x hall hopened⟩

/-- Opening a container makes one less. -/
theorem fresh_card_lt {s s' : Closing} {c : ConId} (ht : Rooted s.tree) (hc : s.tree.Sits c)
    (hnew : c ∉ opened s.todo) (hnext : s'.tree.nextCon = s.tree.nextCon)
    (hall : s'.tree.allCons = s.tree.allCons) (hopened : ∀ x, x ∈ opened s'.todo ↔ x = c ∨ x ∈ opened s.todo) :
    s'.fresh.card < s.fresh.card := by
  have hfresh : c ∈ s.fresh := mem_fresh.mpr ⟨ht.lt_nextCon hc.1, ht.alive c hc.1, hnew⟩
  refine Finset.card_lt_card (Finset.ssubset_iff_of_subset (fun x hx => ?_) |>.mpr ⟨c, hfresh, fun h => ?_⟩)
  · rw [mem_fresh, hnext, hall, hopened] at hx
    exact mem_fresh.mpr ⟨hx.1, hx.2.1, fun h => hx.2.2 (.inr h)⟩
  · rw [mem_fresh, hopened] at h
    exact h.2.2 (.inl rfl)

theorem cost_lt_of_le {s s' : Closing} (hfresh : s'.fresh.card ≤ s.fresh.card)
    (hweight : (s'.todo.map CloseAction.weight).sum < (s.todo.map CloseAction.weight).sum) :
    s'.cost < s.cost := by
  unfold cost
  omega

theorem cost_lt_of_lt {s s' : Closing} (hfresh : s'.fresh.card < s.fresh.card)
    (hweight : (s'.todo.map CloseAction.weight).sum < (s.todo.map CloseAction.weight).sum + 8) :
    s'.cost < s.cost := by
  unfold cost
  omega

/-- What the end of a call leaves to do. -/
theorem opened_rest (c : ConId) (next parent : Option ConId) :
    opened (.free c :: ((next.map CloseAction.activate).toList ++ (parent.map CloseAction.removeChild).toList
      ++ .returnTrue :: rest)) = c :: opened rest := by
  cases next <;> cases parent <;> rfl

theorem weight_rest (c : ConId) (next parent : Option ConId) :
    ((.free c :: ((next.map CloseAction.activate).toList ++ (parent.map CloseAction.removeChild).toList
      ++ .returnTrue :: rest)).map CloseAction.weight).sum ≤ 4 + (rest.map CloseAction.weight).sum := by
  cases next <;> cases parent <;> simp [CloseAction.weight] <;> omega

theorem cost_finish (t : Tree) (c : ConId) (kill : KillWindow) (dontKillParent abortKill : Bool)
    (rest : List CloseAction) (killed : Bool) :
    (finish cfg t c dontKillParent rest killed).cost
      < cost ⟨t, .child c kill dontKillParent none abortKill :: rest, killed⟩ := by
  have hdetach : ((t.setWindow c none).closeDetach cfg c dontKillParent).nextCon = t.nextCon := by
    rw [(links_closeDetach c dontKillParent).nextCon, conDetach_nextCon]
    rfl
  apply cost_lt_of_le
  · refine fresh_card_le hdetach fun x hall hnot => ?_
    have hall' : x ∈ ((t.setWindow c none).closeDetach cfg c dontKillParent).allCons := hall
    rw [closeDetach_allCons] at hall'
    rw [finish, opened_rest] at hnot
    exact ⟨hall', hnot⟩
  · have hweight := @weight_rest rest c
    refine (hweight _ _).trans_lt ?_
    simp only [List.map_cons, List.sum_cons, CloseAction.weight]
    omega

theorem cost_removeChild (ht : Rooted t) {c : ConId} (hc : t.Reach c)
    (hrest : ∀ a ∈ rest, a = .returnTrue) :
    (removeChild t c rest killed).cost < cost ⟨t, .removeChild c :: rest, killed⟩ := by
  have hopened : opened rest = [] := opened_of_forall hrest
  -- the container is closed, or it is not
  have hstay : ∀ s : Tree, Links t s → cost ⟨s, rest, killed⟩ < cost ⟨t, .removeChild c :: rest, killed⟩ := by
    intro s hl
    apply cost_lt_of_le
    · refine fresh_card_le hl.nextCon fun x hall hnot => ?_
      exact ⟨hl.allCons ▸ hall, hnot⟩
    · simp [CloseAction.weight]
  have hclose : ∀ s : Tree, Links t s → t.Sits c → cost ⟨s, .close c .dontKillWindow false :: rest, killed⟩
      < cost ⟨t, .removeChild c :: rest, killed⟩ := by
    intro s hl hsits
    have hnew : c ∉ opened (.removeChild c :: rest) := by
      change c ∉ opened rest
      simp [hopened]
    apply cost_lt_of_lt
    · refine fresh_card_lt ht hsits hnew hl.nextCon hl.allCons fun x => ?_
      exact List.mem_cons
    · simp only [List.map_cons, List.sum_cons, CloseAction.weight]
      omega
  rw [removeChild]
  split
  · exact hstay t (.refl t)
  · next htype =>
    have hsits : t.Sits c := ⟨hc, fun h => htype (.inr (.inl (h ▸ ht.typeRoot)))⟩
    split
    · split
      · exact hclose t (.refl t) hsits
      · exact hstay t (.refl t)
    · have hl := ((stirs_setUrgent t c (t.hasUrgentChild c)).trans
        (stirs_updateParentsUrgency _ c)).links
      dsimp only
      split
      · exact hclose _ hl hsits
      · exact hstay _ hl

/-- **Every step makes the cost smaller**, as long as there is something left to do. -/
theorem cost_step {s : Closing} (h : Sound s) (hcertain : Certain s) (hnodup : s.tree.allCons.Nodup)
    (htodo : s.todo ≠ []) : (s.step cfg).cost < s.cost := by
  obtain ⟨t, todo, killed⟩ := s
  obtain ⟨ht, hok⟩ := h
  -- the stack gets lighter, and nothing but the stack changes
  have hless : ∀ {s : Tree} {todo' : List CloseAction} {killed' : Bool}, Links t s →
      (∀ x, x ∈ opened todo → x ∈ opened todo') →
      (todo'.map CloseAction.weight).sum < (todo.map CloseAction.weight).sum →
      cost ⟨s, todo', killed'⟩ < cost ⟨t, todo, killed⟩ := by
    intro s todo' killed' hl hopened hweight
    refine cost_lt_of_le (fresh_card_le hl.nextCon fun x hall hnot => ?_) hweight
    exact ⟨hl.allCons ▸ hall, fun h => hnot (hopened x h)⟩
  match todo with
  | [] => exact absurd rfl htodo
  | .close c kill dontKillParent :: rest =>
    have hl : Links t (if (t.con c).urgent then t.clearUrgency c else t) := by
      split
      · exact (stirs_clearUrgency t c).links
      · exact .refl t
    refine hless hl (fun x hx => hx) ?_
    simp [CloseAction.weight]
  | .child c kill dontKillParent (some d) abortKill :: rest =>
    obtain ⟨hc, hd, hrest⟩ := hok
    have hmem : d ∈ t.children c := List.mem_append_left _ (hd d rfl)
    have hnew : d ∉ opened (.child c kill dontKillParent (some d) abortKill :: rest) :=
      notMem_opened_child ht hrest hmem
    apply cost_lt_of_lt
    · refine fresh_card_lt ht (ht.sits_of_mem hc.1 hmem) hnew rfl rfl fun x => ?_
      exact List.mem_cons
    · simp only [step, List.map_cons, List.sum_cons, CloseAction.weight]
      omega
  | .childClosed c kill dontKillParent next abortKill :: rest =>
    refine hless (.refl t) (fun x hx => hx) ?_
    simp [CloseAction.weight]
  | .child c kill dontKillParent none abortKill :: rest =>
    obtain ⟨rfl, rfl⟩ := (List.forall_mem_cons.mp hcertain.todo).1
    rw [step_last]
    exact cost_finish t c _ dontKillParent _ rest killed
  | .free c :: rest =>
    apply cost_lt_of_le
    · refine fresh_card_le (conFree_nextCon c) fun x hall hnot => ?_
      rw [step, conFree_allCons, hnodup.mem_erase_iff] at hall
      refine ⟨hall.2, fun hx => ?_⟩
      rcases List.mem_cons.mp (show x ∈ c :: opened rest from hx) with rfl | hx
      · exact hall.1 rfl
      · exact hnot hx
    · simp [step, CloseAction.weight]
  | .activate n :: rest =>
    refine hless (stirs_conActivate cfg t n).links (fun x hx => hx) ?_
    simp [CloseAction.weight]
  | .removeChild c :: rest => exact cost_removeChild ht hok.1 hok.2
  | .returnTrue :: rest =>
    refine hless (.refl t) (fun x hx => hx) ?_
    simp [CloseAction.weight]

/-! ### The run -/

/-- A step frees at most one container. -/
theorem nodup_step {s : Closing} (hnodup : s.tree.allCons.Nodup) : (s.step cfg).tree.allCons.Nodup := by
  have hlinks : ∀ {t' : Tree}, Links s.tree t' → t'.allCons.Nodup := fun hl => by rwa [hl.allCons]
  unfold step
  split
  · exact hnodup
  · dsimp only
    split
    · exact hlinks (stirs_clearUrgency s.tree _).links
    · exact hnodup
  · exact hnodup
  · exact hnodup
  · split
    · exact hnodup
    · rw [finish]
      dsimp only
      rw [closeDetach_allCons]
      exact hnodup
  · dsimp only
    rw [conFree_allCons]
    exact hnodup.erase _
  · exact hlinks (stirs_conActivate cfg s.tree _).links
  · next c _ _ =>
    have hl := ((stirs_setUrgent s.tree c (s.tree.hasUrgentChild c)).trans
      (stirs_updateParentsUrgency _ c)).links
    unfold removeChild
    split
    · exact hnodup
    · split
      · split
        · exact hnodup
        · exact hnodup
      · dsimp only
        split
        · exact hlinks hl
        · exact hlinks hl
  · exact hnodup

theorem run_succ (n : ℕ) (s : Closing) : s.run cfg (n + 1) = (s.step cfg).run cfg n := rfl

/-- **The run comes to its end** within as many steps as it costs. -/
theorem run_ends {s : Closing} (h : Sound s) (hcertain : Certain s) (hnodup : s.tree.allCons.Nodup)
    {n : ℕ} (hn : s.cost ≤ n) : (s.run cfg n).todo = [] := by
  induction n generalizing s with
  | zero =>
    by_contra htodo
    have hless := @cost_step cfg s h hcertain hnodup htodo
    omega
  | succ n ih =>
    rw [run_succ]
    by_cases htodo : s.todo = []
    · -- nothing happens any more
      obtain ⟨t, todo, killed⟩ := s
      cases htodo
      change (run cfg n ⟨t, [], killed⟩).todo = []
      rw [run_nil]
    · have hless := @cost_step cfg s h hcertain hnodup htodo
      exact ih h.step hcertain.step (nodup_step hnodup) (by omega)

theorem fresh_card_le_nextCon (s : Closing) : s.fresh.card ≤ s.tree.nextCon := by
  have hle := Finset.card_filter_le (Finset.range s.tree.nextCon)
    fun x => x ∈ s.tree.allCons ∧ x ∉ opened s.todo
  rwa [Finset.card_range] at hle

end Closing

namespace Tree

open Closing

variable {cfg : Config} {t : Tree} {c : ConId}

/-- **`tree_close_internal` returns** when it kills no windows. -/
theorem treeCloseInternal_ends (ht : Rooted t) (hnodup : t.allCons.Nodup) (hc : t.Sits c)
    (dontKillParent : Bool) :
    (Closing.run cfg t.closeSteps ⟨t, [.close c .dontKillWindow dontKillParent], true⟩).todo = [] := by
  have hunder : Under t c dontKillParent [] := by
    cases dontKillParent
    · exact under_false.mpr nofun
    · trivial
  apply run_ends (s := ⟨t, [.close c .dontKillWindow dontKillParent], true⟩) ⟨ht, hc, hunder⟩
  · exact ⟨rfl, List.forall_mem_singleton.mpr rfl⟩
  · exact hnodup
  · have hle := fresh_card_le_nextCon ⟨t, [.close c .dontKillWindow dontKillParent], true⟩
    simp only [cost, closeSteps, List.map_cons, List.map_nil, List.sum_cons, List.sum_nil, CloseAction.weight]
    dsimp only at hle
    omega

/-- **`con_on_remove_child` returns.** -/
theorem onRemoveChild_ends (ht : Rooted t) (hnodup : t.allCons.Nodup) (hc : t.Reach c) :
    (Closing.run cfg t.closeSteps ⟨t, [.removeChild c], true⟩).todo = [] := by
  apply run_ends (s := ⟨t, [.removeChild c], true⟩) ⟨ht, hc, nofun⟩
  · exact ⟨rfl, List.forall_mem_singleton.mpr trivial⟩
  · exact hnodup
  · have hle := fresh_card_le_nextCon ⟨t, [.removeChild c], true⟩
    simp only [cost, closeSteps, List.map_cons, List.map_nil, List.sum_cons, List.sum_nil, CloseAction.weight]
    dsimp only at hle
    omega

end Tree

end I3
