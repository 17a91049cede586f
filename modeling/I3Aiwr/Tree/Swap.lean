import I3Aiwr.Tree.Calm
import I3Aiwr.Tree.Fullscreen

/-!
# What swapping two containers does to the tree

The queues of the parents get each container in the place of the other one. So a step down in the
new tree is one in the old tree with the two containers exchanged, and the tree stays healthy.

## Main definitions

* `Tree.Swappable t a b p q`: the containers `a` and `b` below `p` and `q` may be swapped

## Main results

* `Tree.Swappable.rooted`, `Tree.Swappable.layered`: the tree stays healthy
* `Tree.Swappable.below`: what is below a container that is in neither of the two
-/

namespace I3

namespace Tree

variable {t : Tree} {a b p q : ConId}

/-! ### The fields -/

@[simp] theorem takePlaceOf_type (c : ConId) (e : Con) (d : ConId) :
    ((t.takePlaceOf c e).con d).type = (t.con d).type := by
  rw [takePlaceOf, modify_con]
  split <;> rfl
@[simp] theorem takePlaceOf_fullscreenMode (c : ConId) (e : Con) (d : ConId) :
    ((t.takePlaceOf c e).con d).fullscreenMode = (t.con d).fullscreenMode := by
  rw [takePlaceOf, modify_con]
  split <;> rfl
@[simp] theorem takePlaceOf_parent (c : ConId) (e : Con) (d : ConId) :
    ((t.takePlaceOf c e).con d).parent = if d = c then e.parent else (t.con d).parent := by
  rw [takePlaceOf, modify_con]
  split <;> rfl
@[simp] theorem takePlaceOf_nodesHead (c : ConId) (e : Con) (d : ConId) :
    ((t.takePlaceOf c e).con d).nodesHead = (t.con d).nodesHead := by
  rw [takePlaceOf, modify_con]
  split <;> rfl
@[simp] theorem takePlaceOf_floatingHead (c : ConId) (e : Con) (d : ConId) :
    ((t.takePlaceOf c e).con d).floatingHead = (t.con d).floatingHead := by
  rw [takePlaceOf, modify_con]
  split <;> rfl
@[simp] theorem takePlaceOf_focusHead (c : ConId) (e : Con) (d : ConId) :
    ((t.takePlaceOf c e).con d).focusHead = (t.con d).focusHead := by
  rw [takePlaceOf, modify_con]
  split <;> rfl

/-- The containers `a` and `b`, which `p` and `q` list, are none above the other one. -/
structure Swappable (t : Tree) (a b p q : ConId) : Prop where
  typeFst : (t.con a).type = .con
  typeSnd : (t.con b).type = .con
  ne : a ≠ b
  notWithin : ¬ Descent.Within t.children a b
  notWithin' : ¬ Descent.Within t.children b a
  memFst : a ∈ t.children p
  memSnd : b ∈ t.children q

theorem swapInTree_globals : (t.swapInTree a b p q).allCons = t.allCons
    ∧ (t.swapInTree a b p q).croot = t.croot ∧ (t.swapInTree a b p q).nextCon = t.nextCon := by
  rw [swapInTree]
  by_cases hpq : p = q <;> simp [hpq, exchangeEntries, takePlaceOf, editNodes, editFocus]

namespace Swappable

variable (ht : Rooted t) (h : Swappable t a b p q)

theorem type (d : ConId) : ((t.swapInTree a b p q).con d).type = (t.con d).type := by
  rw [swapInTree]
  by_cases hpq : p = q <;> simp [hpq, exchangeEntries]

theorem fullscreenMode (d : ConId) :
    ((t.swapInTree a b p q).con d).fullscreenMode = (t.con d).fullscreenMode := by
  rw [swapInTree]
  by_cases hpq : p = q <;> simp [hpq, exchangeEntries]

theorem floatingHead (d : ConId) :
    ((t.swapInTree a b p q).con d).floatingHead = (t.con d).floatingHead := by
  rw [swapInTree]
  by_cases hpq : p = q <;> simp [hpq, exchangeEntries]

theorem parent (d : ConId) : ((t.swapInTree a b p q).con d).parent =
    if d = b then (t.con a).parent else if d = a then (t.con b).parent else (t.con d).parent := by
  rw [swapInTree]
  by_cases hpq : p = q <;> simp [hpq, exchangeEntries]

include ht h

/-- The queue of any container is the old one with the containers exchanged. -/
theorem nodesHead (d : ConId) :
    ((t.swapInTree a b p q).con d).nodesHead = Queue.exchange a b (t.con d).nodesHead := by
  have hnot : ∀ c ∈ [a, b], ∀ r, c ∈ t.children r → d ≠ r → c ∉ (t.con d).nodesHead := by
    intro c _ r hr hne hmem
    have := ht.parent d c (List.mem_append_left _ hmem)
    rw [ht.parent r c hr] at this
    cases this
    exact hne rfl
  have hother : d ≠ p → d ≠ q →
      Queue.exchange a b (t.con d).nodesHead = (t.con d).nodesHead := fun hp hq =>
    Queue.exchange_of_notMem (hnot a (by simp) p h.memFst hp) (hnot b (by simp) q h.memSnd hq)
  rw [swapInTree]
  by_cases hpq : p = q
  · subst hpq
    by_cases hd : d = p
    · simp [hd, exchangeEntries]
    · simp [hd, exchangeEntries, hother hd hd]
  · by_cases hdp : d = p
    · subst hdp
      simp [hpq, exchangeEntries]
    · by_cases hdq : d = q
      · subst hdq
        simp [hpq, Ne.symm hpq, exchangeEntries]
      · simp [hpq, hdp, hdq, exchangeEntries, hother hdp hdq]

theorem focusHead (d : ConId) :
    ((t.swapInTree a b p q).con d).focusHead = Queue.exchange a b (t.con d).focusHead := by
  have hnot : ∀ c ∈ [a, b], ∀ r, c ∈ t.children r → d ≠ r → c ∉ (t.con d).focusHead := by
    intro c _ r hr hne hmem
    have := ht.parent d c (ht.focus d c hmem)
    rw [ht.parent r c hr] at this
    cases this
    exact hne rfl
  have hother : d ≠ p → d ≠ q →
      Queue.exchange a b (t.con d).focusHead = (t.con d).focusHead := fun hp hq =>
    Queue.exchange_of_notMem (hnot a (by simp) p h.memFst hp) (hnot b (by simp) q h.memSnd hq)
  rw [swapInTree]
  by_cases hpq : p = q
  · subst hpq
    by_cases hd : d = p
    · simp [hd, exchangeEntries]
    · simp [hd, exchangeEntries, hother hd hd]
  · by_cases hdp : d = p
    · subst hdp
      simp [hpq, exchangeEntries]
    · by_cases hdq : d = q
      · subst hdq
        simp [hpq, Ne.symm hpq, exchangeEntries]
      · simp [hpq, hdp, hdq, exchangeEntries, hother hdp hdq]

theorem mem_nodesHead {x d : ConId} :
    x ∈ ((t.swapInTree a b p q).con d).nodesHead ↔ Equiv.swap a b x ∈ (t.con d).nodesHead := by
  rw [h.nodesHead ht, Queue.mem_exchange]

/-- Floating containers are not exchanged. -/
theorem mem_floatingHead {x d : ConId} :
    x ∈ ((t.swapInTree a b p q).con d).floatingHead
      ↔ Equiv.swap a b x ∈ (t.con d).floatingHead := by
  have hnot : ∀ c ∈ [a, b], c ∉ (t.con d).floatingHead := by
    intro c hc hmem
    have hcon : (t.con c).type = .con := by
      rcases List.mem_cons.mp hc with rfl | hc
      · exact h.typeFst
      · obtain rfl := List.mem_singleton.mp hc
        exact h.typeSnd
    rw [ht.typeFloating d c hmem] at hcon
    cases hcon
  rw [floatingHead, ← Queue.mem_exchange,
    Queue.exchange_of_notMem (hnot a (by simp)) (hnot b (by simp))]

/-- **A step down** in the new tree is one in the old tree with the containers exchanged. -/
theorem mem_children {x d : ConId} :
    x ∈ (t.swapInTree a b p q).children d ↔ Equiv.swap a b x ∈ t.children d := by
  rw [children, children, List.mem_append, List.mem_append, h.mem_nodesHead ht,
    h.mem_floatingHead ht]

theorem exchanges :
    Descent.Exchanges t.children (t.swapInTree a b p q).children a b :=
  fun _ _ hx => (h.mem_children ht).mp hx

omit ht in
theorem parent_swap {x d : ConId} (hp : (t.con (Equiv.swap a b x)).parent = some d) :
    ((t.swapInTree a b p q).con x).parent = some d := by
  rw [parent]
  by_cases hxb : x = b
  · subst hxb
    simpa using hp
  · by_cases hxa : x = a
    · subst hxa
      simpa [hxb] using hp
    · rw [if_neg hxb, if_neg hxa]
      rwa [Equiv.swap_apply_of_ne_of_ne hxa hxb] at hp

theorem acyclic : Descent.Acyclic (t.swapInTree a b p q).children :=
  ht.acyclic.exchange (h.exchanges ht) ht.parent h.notWithin h.notWithin'

/-- **What is below a container outside of both**: the two subtrees changed places. -/
theorem below {d x : ConId} (hda : ¬ Descent.Within t.children a d)
    (hdb : ¬ Descent.Within t.children b d)
    (hx : Descent.Below (t.swapInTree a b p q).children d x) :
    (Descent.Below t.children d x ∧ ¬ Descent.Within t.children a x
        ∧ ¬ Descent.Within t.children b x)
      ∨ (Descent.Below t.children d a ∧ Descent.Within t.children b x)
      ∨ (Descent.Below t.children d b ∧ Descent.Within t.children a x) :=
  Descent.below_of_exchange ht.acyclic (h.exchanges ht) ht.parent h.notWithin h.notWithin' hda hdb
    hx

/-- What is outside of both stays where it is. -/
theorem below_outside {d x : ConId} (hxa : ¬ Descent.Within t.children a x)
    (hxb : ¬ Descent.Within t.children b x) (hx : Descent.Below t.children d x) :
    Descent.Below (t.swapInTree a b p q).children d x :=
  Descent.below_exchange_of_outside (fun _ _ hx => (h.mem_children ht).mpr hx) hxa hxb hx

theorem within_fst {x : ConId} (hx : Descent.Within t.children a x) :
    Descent.Within (t.swapInTree a b p q).children a x :=
  Descent.within_exchange_within ht.acyclic (h.exchanges ht) h.notWithin
    (fun _ _ hx => (h.mem_children ht).mpr hx) hx

/-- The second container is below what the first one was below. -/
theorem below_fst {d : ConId} (hd : Descent.Below t.children d a) :
    Descent.Below (t.swapInTree a b p q).children d b := by
  have hdp : Descent.Within t.children d p :=
    Descent.within_parent ht.parent hd (ht.parent p a h.memFst)
  have hb : b ∈ (t.swapInTree a b p q).children p := by
    rw [h.mem_children ht, Equiv.swap_apply_right]
    exact h.memFst
  rcases Descent.within_iff.mp hdp with rfl | hdp
  · exact .single hb
  · refine (h.below_outside ht ?_ ?_ hdp).trans (.single hb)
    · exact ht.acyclic.not_within (.single h.memFst)
    · exact fun hbp => h.notWithin' (hbp.tail h.memFst).within

theorem below_snd {d : ConId} (hd : Descent.Below t.children d b) :
    Descent.Below (t.swapInTree a b p q).children d a := by
  have hdq : Descent.Within t.children d q :=
    Descent.within_parent ht.parent hd (ht.parent q b h.memSnd)
  have ha : a ∈ (t.swapInTree a b p q).children q := by
    rw [h.mem_children ht, Equiv.swap_apply_left]
    exact h.memSnd
  rcases Descent.within_iff.mp hdq with rfl | hdq
  · exact .single ha
  · refine (h.below_outside ht ?_ ?_ hdq).trans (.single ha)
    · exact fun haq => h.notWithin (haq.tail h.memSnd).within
    · exact ht.acyclic.not_within (.single h.memSnd)

/-- The root is in neither of the two. -/
theorem not_within_croot : ¬ Descent.Within t.children a t.croot
    ∧ ¬ Descent.Within t.children b t.croot := by
  have hnot : ∀ {c r}, c ∈ t.children r → ¬ Descent.Within t.children c t.croot := by
    intro c r hc hw
    rcases Descent.within_iff.mp hw with hroot | hw
    · exact ht.ne_croot_of_mem hc hroot.symm
    · obtain ⟨s, _, hs⟩ := Descent.below_iff_exists.mp hw
      exact ht.notMem_children_croot hs
  exact ⟨hnot h.memFst, hnot h.memSnd⟩

theorem reach (hp : t.Reach p) (hq : t.Reach q) {x : ConId} (hx : (t.swapInTree a b p q).Reach x) :
    t.Reach x := by
  rw [Reach, swapInTree_globals.2.1] at hx
  rcases Descent.within_iff.mp hx with rfl | hx
  · exact .refl _
  · rcases h.below ht (h.not_within_croot ht).1 (h.not_within_croot ht).2 hx with
      ⟨hx, _⟩ | ⟨_, hx⟩ | ⟨_, hx⟩
    · exact hx.within
    · exact (hq.tail h.memSnd).within.trans hx
    · exact (hp.tail h.memFst).within.trans hx

/-- **Swapping keeps the tree healthy.** -/
theorem rooted (hp : t.Reach p) (hq : t.Reach q) : Rooted (t.swapInTree a b p q) := by
  obtain ⟨hcons, hcroot, hnext⟩ := swapInTree_globals (t := t) (a := a) (b := b) (p := p) (q := q)
  have hroot : t.croot ≠ a ∧ t.croot ≠ b :=
    ⟨(ht.ne_croot_of_mem h.memFst).symm, (ht.ne_croot_of_mem h.memSnd).symm⟩
  have hswap : ∀ x, (t.con (Equiv.swap a b x)).type = (t.con x).type := by
    intro x
    by_cases hxa : x = a
    · subst hxa
      rw [Equiv.swap_apply_left, h.typeFst, h.typeSnd]
    · by_cases hxb : x = b
      · subst hxb
        rw [Equiv.swap_apply_right, h.typeFst, h.typeSnd]
      · rw [Equiv.swap_apply_of_ne_of_ne hxa hxb]
  exact {
    typeRoot := by rw [hcroot, type, ht.typeRoot]
    parentRoot := by
      rw [hcroot, parent, if_neg hroot.2, if_neg hroot.1, ht.parentRoot]
    parent := by
      intro d x hx
      exact h.parent_swap (ht.parent d _ ((h.mem_children ht).mp hx))
    acyclic := h.acyclic ht
    nodupNodes := by
      intro d
      rw [h.nodesHead ht]
      exact Queue.nodup_exchange (ht.nodupNodes d)
    nodupFloating := by
      intro d
      rw [floatingHead]
      exact ht.nodupFloating d
    nodupFocus := by
      intro d
      rw [h.focusHead ht]
      exact Queue.nodup_exchange (ht.nodupFocus d)
    typeNodes := by
      intro d x hx
      rw [type, ← hswap]
      exact ht.typeNodes d _ ((h.mem_nodesHead ht).mp hx)
    typeFloating := by
      intro d x hx
      rw [type]
      rw [floatingHead] at hx
      exact ht.typeFloating d x hx
    focus := by
      intro d x hx
      rw [h.focusHead ht, Queue.mem_exchange] at hx
      exact (h.mem_children ht).mpr (ht.focus d _ hx)
    bounded := by
      intro d x hx
      rw [hnext]
      -- both containers are below the bound
      have hx := (h.mem_children ht).mp hx
      by_cases hxa : x = a
      · subst hxa
        exact ht.bounded _ _ h.memFst
      · by_cases hxb : x = b
        · subst hxb
          exact ht.bounded _ _ h.memSnd
        · rw [Equiv.swap_apply_of_ne_of_ne hxa hxb] at hx
          exact ht.bounded _ _ hx
    boundedRoot := by rw [hcroot, hnext]; exact ht.boundedRoot
    alive := by
      intro x hx
      rw [Alive, hcons]
      exact ht.alive x (h.reach ht hp hq hx) }

/-- On workspaces, swapping keeps the layers. -/
theorem layered (hl : Layered t) {u v : ConId} (hu : (t.con u).type = .workspace)
    (hv : (t.con v).type = .workspace) (hua : Descent.Below t.children u a)
    (hvb : Descent.Below t.children v b) : Layered (t.swapInTree a b p q) where
  workspace w hw x hx := by
    rw [type] at hw ⊢
    have hout : ∀ {c s}, (t.con s).type = .workspace → Descent.Below t.children s c →
        ∀ y, Descent.Within t.children c y → (t.con y).type ≠ .workspace :=
      fun hs hsc y hy => hl.workspace _ hs y (hsc.trans_within hy)
    have hwa : ¬ Descent.Within t.children a w := fun hw' => hout hu hua w hw' hw
    have hwb : ¬ Descent.Within t.children b w := fun hw' => hout hv hvb w hw' hw
    rcases h.below ht hwa hwb hx with ⟨hx, _⟩ | ⟨_, hx⟩ | ⟨_, hx⟩
    · exact hl.workspace w hw x hx
    · exact hout hv hvb x hx
    · exact hout hu hua x hx
  floating d x hx := by
    rw [type]
    rw [floatingHead] at hx
    exact hl.floating d x hx

end Swappable

end Tree

end I3
