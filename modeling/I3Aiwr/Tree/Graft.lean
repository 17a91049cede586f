import I3Aiwr.Tree.Rooted

/-!
# Attaching containers, and looking up

Attaching a detached container adds one link. A healthy tree stays healthy when the container is
alive with all below it, and not above the place it goes to. In a healthy tree the loops along parent
pointers and the breadth-first search are exact: `con_get_workspace` returns the workspace a
container is on, and the search meets everything below its start.

## Main definitions

* `Tree.Attaches t t' c p`: `t'` is `t` with `c` attached to `p`
* `Tree.Layered t`: no workspace is below a workspace, and floating windows are on workspaces

## Main results

* `Tree.Rooted.attaches`, `Tree.Layered.attaches`
* `Tree.Rooted.mem_chain`, `Tree.Rooted.getWorkspace_eq`, `Tree.Rooted.hasParent_iff`
* `Tree.getFullscreenCon_spec`, `Tree.Rooted.getFullscreenCon_eq_none`
-/

namespace I3

namespace Tree

/-- The tree `t'` is `t` with `c` attached to `p`, up to order. -/
structure Attaches (t t' : Tree) (c p : ConId) : Prop where
  allCons : t'.allCons = t.allCons
  croot : t'.croot = t.croot
  nextCon : t'.nextCon = t.nextCon
  type : ∀ d, (t'.con d).type = (t.con d).type
  fullscreenMode : ∀ d, (t'.con d).fullscreenMode = (t.con d).fullscreenMode
  sticky : ∀ d, (t'.con d).sticky = (t.con d).sticky
  parent : ∀ d, (t'.con d).parent = if d = c then some p else (t.con d).parent
  nodesHead : ∀ q, (t'.con q).nodesHead.Perm
    (if q = p ∧ (t.con c).type ≠ .floatingCon then c :: (t.con q).nodesHead
      else (t.con q).nodesHead)
  floatingHead : ∀ q, (t'.con q).floatingHead.Perm
    (if q = p ∧ (t.con c).type = .floatingCon then c :: (t.con q).floatingHead
      else (t.con q).floatingHead)
  focusHead : ∀ q, (t'.con q).focusHead.Perm
    (if q = p then c :: (t.con q).focusHead else (t.con q).focusHead)

variable {t t' s s' : Tree} {c p : ConId}

namespace Attaches

/-- Attaching between changes of other things. -/
theorem trans_links (h : Attaches s s' c p) (hl : Links t s) (hl' : Links s' t') :
    Attaches t t' c p where
  allCons := by rw [hl'.allCons, h.allCons, hl.allCons]
  croot := by rw [hl'.croot, h.croot, hl.croot]
  nextCon := by rw [hl'.nextCon, h.nextCon, hl.nextCon]
  type d := by rw [hl'.type, h.type, hl.type]
  fullscreenMode d := by rw [hl'.fullscreenMode, h.fullscreenMode, hl.fullscreenMode]
  sticky d := by rw [hl'.sticky, h.sticky, hl.sticky]
  parent d := by rw [hl'.parent, h.parent, hl.parent]
  nodesHead q := by
    rw [hl'.nodesHead, ← hl.nodesHead, ← hl.type]
    exact h.nodesHead q
  floatingHead q := by
    refine ((hl'.floatingHead q).trans (h.floatingHead q)).trans ?_
    rw [hl.type]
    split
    · exact (hl.floatingHead q).cons c
    · exact hl.floatingHead q
  focusHead q := by
    refine ((hl'.focusHead q).trans (h.focusHead q)).trans ?_
    split
    · exact (hl.focusHead q).cons c
    · exact hl.focusHead q

theorem mem_nodesHead (h : Attaches t t' c p) {x q : ConId} :
    x ∈ (t'.con q).nodesHead ↔
      x ∈ (t.con q).nodesHead ∨ (q = p ∧ x = c) ∧ (t.con c).type ≠ .floatingCon := by
  rw [(h.nodesHead q).mem_iff]
  split
  · next hq => simp [hq.1, hq.2, or_comm]
  · next hq =>
    refine (or_iff_left ?_).symm
    rintro ⟨⟨rfl, rfl⟩, htype⟩
    exact hq ⟨rfl, htype⟩

theorem mem_floatingHead (h : Attaches t t' c p) {x q : ConId} :
    x ∈ (t'.con q).floatingHead ↔
      x ∈ (t.con q).floatingHead ∨ (q = p ∧ x = c) ∧ (t.con c).type = .floatingCon := by
  rw [(h.floatingHead q).mem_iff]
  split
  · next hq => simp [hq.1, hq.2, or_comm]
  · next hq =>
    refine (or_iff_left ?_).symm
    rintro ⟨⟨rfl, rfl⟩, htype⟩
    exact hq ⟨rfl, htype⟩

theorem mem_focusHead (h : Attaches t t' c p) {x q : ConId} :
    x ∈ (t'.con q).focusHead ↔ x ∈ (t.con q).focusHead ∨ q = p ∧ x = c := by
  rw [(h.focusHead q).mem_iff]
  split
  · next hq => simp [hq, or_comm]
  · next hq => simp [hq]

theorem mem_children (h : Attaches t t' c p) {x q : ConId} :
    x ∈ t'.children q ↔ x ∈ t.children q ∨ q = p ∧ x = c := by
  simp only [children, List.mem_append, h.mem_nodesHead, h.mem_floatingHead]
  by_cases htype : (t.con c).type = .floatingCon <;> simp [htype] <;> tauto

theorem inserts (h : Attaches t t' c p) : Descent.Inserts t.children t'.children p c :=
  fun _ _ hx => h.mem_children.mp hx

theorem within_mono (h : Attaches t t' c p) {q x : ConId} (hx : Descent.Within t.children q x) :
    Descent.Within t'.children q x :=
  hx.mono fun _ _ hx => h.mem_children.mpr (.inl hx)

/-- What the root reaches afterwards. -/
theorem reach (h : Attaches t t' c p) (hp : ¬ Descent.Within t.children c p) {x : ConId}
    (hx : t'.Reach x) : t.Reach x ∨ Descent.Within t.children c x := by
  rw [Reach, h.croot] at hx
  exact (Descent.within_of_insert h.inserts hp hx).imp_right And.right

end Attaches

/-- **Attaching keeps the tree healthy.** -/
theorem Rooted.attaches (ht : Rooted t) (h : Attaches t t' c p) (hc : ∀ q, c ∉ t.children q)
    (hp : ¬ Descent.Within t.children c p)
    (halive : ∀ x, Descent.Within t.children c x → t.Alive x) (hlt : c < t.nextCon)
    (hroot : c ≠ t.croot) : Rooted t' := by
  have hnodes : ∀ q, c ∉ (t.con q).nodesHead := fun q hq => hc q (List.mem_append_left _ hq)
  have hfloating : ∀ q, c ∉ (t.con q).floatingHead := fun q hq => hc q (List.mem_append_right _ hq)
  have hfocus : ∀ q, c ∉ (t.con q).focusHead := fun q hq => hc q (ht.focus q c hq)
  exact {
    typeRoot := by rw [h.croot, h.type, ht.typeRoot]
    parentRoot := by rw [h.croot, h.parent, if_neg hroot.symm, ht.parentRoot]
    parent := by
      intro q x hx
      rw [h.parent]
      rcases h.mem_children.mp hx with hx | ⟨rfl, rfl⟩
      · rw [if_neg (fun hxc : x = c => hc q (hxc ▸ hx)), ht.parent q x hx]
      · rw [if_pos rfl]
    acyclic := ht.acyclic.insert h.inserts hp
    nodupNodes := by
      intro q
      rw [(h.nodesHead q).nodup_iff]
      split
      · exact List.nodup_cons.mpr ⟨hnodes q, ht.nodupNodes q⟩
      · exact ht.nodupNodes q
    nodupFloating := by
      intro q
      rw [(h.floatingHead q).nodup_iff]
      split
      · exact List.nodup_cons.mpr ⟨hfloating q, ht.nodupFloating q⟩
      · exact ht.nodupFloating q
    nodupFocus := by
      intro q
      rw [(h.focusHead q).nodup_iff]
      split
      · exact List.nodup_cons.mpr ⟨hfocus q, ht.nodupFocus q⟩
      · exact ht.nodupFocus q
    typeNodes := by
      intro q x hx
      rw [h.type]
      rcases h.mem_nodesHead.mp hx with hx | ⟨⟨_, rfl⟩, htype⟩
      · exact ht.typeNodes q x hx
      · exact htype
    typeFloating := by
      intro q x hx
      rw [h.type]
      rcases h.mem_floatingHead.mp hx with hx | ⟨⟨_, rfl⟩, htype⟩
      · exact ht.typeFloating q x hx
      · exact htype
    focus := by
      intro q x hx
      exact h.mem_children.mpr ((h.mem_focusHead.mp hx).imp_left (ht.focus q x))
    bounded := by
      intro q x hx
      rw [h.nextCon]
      rcases h.mem_children.mp hx with hx | ⟨_, rfl⟩
      · exact ht.bounded q x hx
      · exact hlt
    boundedRoot := by rw [h.croot, h.nextCon]; exact ht.boundedRoot
    alive := by
      intro x hx
      rw [Alive, h.allCons]
      rcases h.reach hp hx with hx | hx
      · exact ht.alive x hx
      · exact halive x hx }

/-! ### Layers -/

/-- No workspace is below a workspace, and floating windows are on workspaces. -/
structure Layered (t : Tree) : Prop where
  workspace : ∀ w, (t.con w).type = .workspace → ∀ x, Descent.Below t.children w x →
    (t.con x).type ≠ .workspace
  floating : ∀ p, ∀ c ∈ (t.con p).floatingHead, (t.con p).type = .workspace

namespace Layered

theorem links (ht : Layered t) (h : Links t t') : Layered t' where
  workspace w hw x hx := by
    rw [h.type] at hw ⊢
    exact ht.workspace w hw x (hx.mono fun _ _ => h.mem_children.mp)
  floating p c hc := by
    rw [h.type]
    exact ht.floating p c ((h.floatingHead p).mem_iff.mp hc)

theorem conDetach (ht : Layered t) (c : ConId) : Layered (t.conDetach c) where
  workspace w hw x hx := by
    rw [conDetach_type] at hw ⊢
    exact ht.workspace w hw x (hx.mono (conDetach_children_subset c))
  floating p x hx := by
    rw [conDetach_type]
    exact ht.floating p x ((conDetach_floatingHead_sublist c p).subset hx)

theorem conFree (ht : Layered t) (c : ConId) : Layered (t.conFree c) where
  workspace w hw x hx := by
    rw [conFree_con] at hw ⊢
    rw [conFree_children] at hx
    exact ht.workspace w hw x hx
  floating p x hx := by
    rw [conFree_con] at hx ⊢
    exact ht.floating p x hx

/-- Attaching a container with no workspace in it, or one outside of all workspaces. -/
theorem attaches (ht : Layered t) (h : Attaches t t' c p) (hp : ¬ Descent.Within t.children c p)
    (hws : ∀ w, (t.con w).type = .workspace → Descent.Within t.children w p →
      ∀ x, Descent.Within t.children c x → (t.con x).type ≠ .workspace)
    (hfloating : (t.con c).type = .floatingCon → (t.con p).type = .workspace) : Layered t' where
  workspace w hw x hx := by
    rw [h.type] at hw ⊢
    rcases Descent.below_of_insert h.inserts hp hx with hx | ⟨hwp, hcx⟩
    · exact ht.workspace w hw x hx
    · exact hws w hw hwp x hcx
  floating q x hx := by
    rw [h.type]
    rcases h.mem_floatingHead.mp hx with hx | ⟨⟨rfl, rfl⟩, htype⟩
    · exact ht.floating q x hx
    · exact hfloating htype

/-- Nothing is floating on a container that is no workspace. -/
theorem floatingHead_eq_nil (ht : Layered t) (hp : (t.con p).type ≠ .workspace) : (t.con p).floatingHead = [] :=
  List.eq_nil_iff_forall_not_mem.mpr fun x hx => hp (ht.floating p x hx)

theorem children_eq (ht : Layered t) (hp : (t.con p).type ≠ .workspace) : t.children p = (t.con p).nodesHead := by
  rw [children, ht.floatingHead_eq_nil hp, List.append_nil]

/-- Two workspaces above one container are the same. -/
theorem unique (ht : Layered t) (hr : Rooted t) {v w x : ConId} (hv : (t.con v).type = .workspace)
    (hw : (t.con w).type = .workspace) (hvx : Descent.Within t.children v x)
    (hwx : Descent.Within t.children w x) : v = w := by
  by_contra hne
  rcases Descent.within_total hr.parent hvx hwx with h | h
  · exact ht.workspace v hv w ((Descent.within_iff.mp h).resolve_left (Ne.symm hne)) hw
  · exact ht.workspace w hw v ((Descent.within_iff.mp h).resolve_left hne) hv

end Layered

/-! ### Along the parent pointers -/

theorem chainN_eq_take (t : Tree) (n k : ℕ) (x : ConId) :
    t.chainN n x = (t.chainN (n + k) x).take n := by
  induction n generalizing x with
  | zero => simp [chainN]
  | succ n ih =>
    rw [Nat.succ_add, chainN, chainN, List.take_succ_cons]
    split
    · simp
    · rw [← ih]

namespace Rooted

variable (ht : Rooted t)
include ht

theorem lt_nextCon {x : ConId} (hx : t.Reach x) : x < t.nextCon := by
  rcases Descent.within_iff.mp hx with rfl | hx
  · exact ht.boundedRoot
  · obtain ⟨p, _, hp⟩ := Descent.below_iff_exists.mp hx
    exact ht.bounded p x hp

theorem mem_children_of_parent {x q : ConId} (hx : t.Reach x) (hq : (t.con x).parent = some q) :
    x ∈ t.children q := by
  have hne : x ≠ t.croot := by
    rintro rfl
    rw [ht.parentRoot] at hq
    cases hq
  obtain ⟨p, hp, _, hmem⟩ := ht.exists_parent ⟨hx, hne⟩
  rw [hp] at hq
  cases hq
  exact hmem

theorem within_of_mem_chainN {n : ℕ} {x y : ConId} (hx : t.Reach x) (hy : y ∈ t.chainN n x) :
    Descent.Within t.children y x := by
  induction n generalizing x with
  | zero => cases hy
  | succ n ih =>
    rw [chainN] at hy
    rcases List.mem_cons.mp hy with rfl | hy
    · exact .refl _
    · split at hy
      · cases hy
      · next q hq =>
        exact ((ih (ht.reach_parent hx hq) hy).tail (ht.mem_children_of_parent hx hq)).within

/-- The parent pointers lead along a path of the tree. -/
theorem isChain_chainN (n : ℕ) {x : ConId} (hx : t.Reach x) :
    (t.chainN n x).IsChain fun y p => y ∈ t.children p := by
  induction n generalizing x with
  | zero => exact List.isChain_nil
  | succ n ih =>
    rw [chainN]
    split
    · exact List.isChain_singleton _
    · next q hq =>
      have hmem := ht.mem_children_of_parent hx hq
      have hrest := ih (ht.reach_parent hx hq)
      cases n with
      | zero => exact List.isChain_singleton _
      | succ n =>
        rw [chainN] at hrest ⊢
        exact List.isChain_cons_cons.mpr ⟨hmem, hrest⟩

theorem length_chainN_le (n : ℕ) {x : ConId} (hx : t.Reach x) :
    (t.chainN n x).length ≤ t.nextCon := by
  rw [← List.length_reverse]
  refine Descent.path_length_le ht.acyclic ?_ fun y hy => ?_
  · rw [List.isChain_reverse]
    exact ht.isChain_chainN n hx
  · have hyx := ht.within_of_mem_chainN hx (List.mem_reverse.mp hy)
    rcases Descent.within_total ht.parent hyx hx with h | h
    · rcases Descent.within_iff.mp h with rfl | h
      · exact ht.boundedRoot
      · obtain ⟨p, _, hp⟩ := Descent.below_iff_exists.mp h
        exact absurd hp ht.notMem_children_croot
    · exact ht.lt_nextCon h

/-- **The loop along the parent pointers** goes through the containers above. -/
theorem mem_chain {x y : ConId} (hx : t.Reach x) :
    y ∈ t.chain x ↔ Descent.Within t.children y x := by
  refine ⟨ht.within_of_mem_chainN hx, fun h => ?_⟩
  -- enough steps lead to `y`, and there are no more than `nextCon` of them
  have hex : ∃ n, y ∈ t.chainN n x := by
    clear hx
    induction h with
    | refl => exact ⟨1, by simp [chainN]⟩
    | tail _ hx ih =>
      obtain ⟨n, hn⟩ := ih
      refine ⟨n + 1, ?_⟩
      rw [chainN, ht.parent _ _ hx]
      exact List.mem_cons_of_mem _ hn
  obtain ⟨n, hn⟩ := hex
  have hmem : y ∈ t.chainN (t.nextCon + n) x := by
    rw [chainN_eq_take t n t.nextCon x] at hn
    rw [Nat.add_comm]
    exact List.mem_of_mem_take hn
  rw [chain, chainN_eq_take t t.nextCon n x, List.take_of_length_le (ht.length_chainN_le _ hx)]
  exact hmem

/-- What is found first on the way up. -/
theorem find?_chain {x y : ConId} {f : ConId → Bool} (hx : t.Reach x)
    (hy : Descent.Within t.children y x) (hfy : f y = true)
    (hfirst : ∀ z, Descent.Below t.children y z → Descent.Within t.children z x → f z = false) :
    (t.chain x).find? f = some y := by
  have : IsTrans ConId fun a b => Descent.Below t.children b a := ⟨fun _ _ _ h h' => h'.trans h⟩
  have hpair : (t.chain x).Pairwise fun a b => Descent.Below t.children b a :=
    ((ht.isChain_chainN t.nextCon hx).imp fun _ _ h => Descent.Below.single h).pairwise
  obtain ⟨l, l', hl⟩ := List.append_of_mem ((ht.mem_chain hx).mpr hy)
  rw [hl] at hpair ⊢
  rw [List.find?_append, List.find?_eq_none.mpr, Option.none_or, List.find?_cons, hfy]
  intro z hz
  have hbelow : Descent.Below t.children y z :=
    (List.pairwise_append.mp hpair).2.2 z hz y List.mem_cons_self
  have hmem : z ∈ t.chain x := by
    rw [hl]
    exact List.mem_append_left _ hz
  rw [hfirst z hbelow ((ht.mem_chain hx).mp hmem)]
  exact Bool.false_ne_true

theorem nodup_chain {x : ConId} (hx : t.Reach x) : (t.chain x).Nodup := by
  rw [← List.nodup_reverse]
  apply ht.acyclic.nodup_of_isChain
  rw [List.isChain_reverse]
  exact ht.isChain_chainN _ hx

/-- `con_has_parent`. -/
theorem hasParent_iff {x y : ConId} (hx : t.Reach x) :
    t.hasParent x y = true ↔ Descent.Below t.children y x := by
  have hpos : t.nextCon ≠ 0 := (Nat.zero_lt_of_lt ht.boundedRoot).ne'
  obtain ⟨n, hn⟩ := Nat.exists_eq_succ_of_ne_zero hpos
  obtain ⟨l, hl⟩ : ∃ l, t.chain x = x :: l := by
    rw [chain, hn, chainN]
    exact ⟨_, rfl⟩
  have hnodup := ht.nodup_chain hx
  rw [hl] at hnodup
  rw [hasParent, hl, List.tail_cons, List.contains_iff_mem]
  have hmem : y ∈ t.chain x ↔ _ := ht.mem_chain hx
  rw [hl, List.mem_cons, Descent.within_iff] at hmem
  constructor
  · intro hy
    refine (hmem.mp (.inr hy)).resolve_left ?_
    rintro rfl
    exact (List.nodup_cons.mp hnodup).1 hy
  · intro hy
    exact (hmem.mpr (.inr hy)).resolve_left (ht.acyclic.ne hy).symm

/-- The workspace found is one, and above the container. -/
theorem getWorkspace_spec {x w : ConId} (hx : t.Reach x) (h : t.getWorkspace x = some w) :
    (t.con w).type = .workspace ∧ Descent.Within t.children w x := by
  refine ⟨?_, (ht.mem_chain hx).mp (List.mem_of_find?_eq_some h)⟩
  simpa using List.find?_some h

/-- **The workspace above a container is found.** -/
theorem getWorkspace_eq (hl : Layered t) {x w : ConId} (hx : t.Reach x)
    (hw : (t.con w).type = .workspace) (hwx : Descent.Within t.children w x) :
    t.getWorkspace x = some w := by
  cases hget : t.getWorkspace x with
  | none =>
    have hnone := List.find?_eq_none.mp hget w ((ht.mem_chain hx).mpr hwx)
    exact absurd hw (by simpa using hnone)
  | some v =>
    obtain ⟨hv, hvx⟩ := ht.getWorkspace_spec hx hget
    rw [hl.unique ht hv hw hvx hwx]

theorem reach_of_within {x y : ConId} (hy : t.Reach y) (h : Descent.Within t.children x y) :
    t.Reach x := by
  rcases Descent.within_total ht.parent h hy with h | h
  · rcases Descent.within_iff.mp h with rfl | h
    · exact .refl _
    · obtain ⟨p, _, hp⟩ := Descent.below_iff_exists.mp h
      exact absurd hp ht.notMem_children_croot
  · exact h

end Rooted

/-! ### Breadth first -/

theorem getFullscreenCon_spec {mode : FullscreenMode} {f : ConId}
    (h : t.getFullscreenCon c mode = some f) :
    (t.con f).fullscreenMode = mode ∧ Descent.Below t.children c f := by
  obtain ⟨hf, p, hp, hpf⟩ := Descent.search_sound h
  obtain ⟨hne, hmode⟩ : f ≠ c ∧ (t.con f).fullscreenMode = mode := by simpa using hf
  obtain rfl := List.mem_singleton.mp hp
  exact ⟨hmode, (Descent.within_iff.mp hpf).resolve_left hne⟩

/-- **The search is complete.** -/
theorem Rooted.getFullscreenCon_eq_none (ht : Rooted t) {mode : FullscreenMode}
    (h : t.getFullscreenCon c mode = none) {x : ConId} (hx : Descent.Below t.children c x) :
    (t.con x).fullscreenMode ≠ mode := by
  intro hmode
  obtain ⟨y, hy⟩ : ∃ y, Descent.search t.children
      (fun x => decide (x ≠ c ∧ (t.con x).fullscreenMode = mode)) (t.nextCon + 1) [c] = some y :=
    Descent.exists_search ht.acyclic ht.bounded (List.mem_singleton_self c) hx.within
      (by simp [ht.acyclic.ne hx, hmode])
  rw [getFullscreenCon, hy] at h
  cases h

theorem Rooted.inTree_iff (ht : Rooted t) {x : ConId} : t.inTree x = true ↔ t.Reach x := by
  constructor
  · intro h
    obtain ⟨y, hy⟩ := Option.isSome_iff_exists.mp h
    obtain ⟨hyx, p, hp, hpy⟩ := Descent.search_sound hy
    obtain rfl := List.mem_singleton.mp hp
    obtain rfl : y = x := by simpa using hyx
    exact hpy
  · intro h
    exact Option.isSome_iff_exists.mpr (Descent.exists_search ht.acyclic ht.bounded
      (List.mem_singleton_self _) h (by simp))

theorem Rooted.exists_getFullscreenCon (ht : Rooted t) {mode : FullscreenMode} {x : ConId}
    (hx : Descent.Below t.children c x) (hmode : (t.con x).fullscreenMode = mode) :
    ∃ f, t.getFullscreenCon c mode = some f := by
  cases h : t.getFullscreenCon c mode with
  | none => exact absurd hmode (ht.getFullscreenCon_eq_none h hx)
  | some f => exact ⟨f, rfl⟩

end Tree

end I3
