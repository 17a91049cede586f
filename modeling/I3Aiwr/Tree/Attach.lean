import I3Aiwr.Tree.Graft

/-!
# What `_con_attach` does

The queue operations of `_con_attach` put the container somewhere into the queue, if the container
to insert after is in it. A window that goes to a workspace with a `workspace_layout` gets a new
split container first: a container is created, attached to the workspace, and the window to it.

## Main definitions

* `Tree.Creates t t' c`: `t'` has one new container; the detached `c` may have been touched
* `Tree.AnchorOk`: what to insert after is in the queue

## Main results

* `Tree.Rooted.creates`, `Tree.Layered.creates`
* `Tree.attaches_attachPlain`, `Tree.conAttachAt_cases`
-/

namespace I3

namespace Tree

variable {cfg : Config} {t t' : Tree} {c p : ConId}

/-! ### The queue operations -/

theorem insertWorkspace_perm (t : Tree) (c : ConId) (l : List ConId) :
    (t.insertWorkspace c l).Perm (c :: l) := by
  rw [insertWorkspace]
  split
  · exact List.perm_append_singleton c l
  · refine List.perm_middle.trans ?_
    rw [List.takeWhile_append_dropWhile]

theorem insertDock_perm (t : Tree) (c : ConId) (l : List ConId) :
    (t.insertDock c l).Perm (c :: l) := by
  rw [insertDock]
  split
  · next d hd => exact Queue.insertBefore_perm (List.mem_of_find?_eq_some hd)
  · exact List.perm_append_singleton c l

theorem attaches_editNodes (f : List ConId → List ConId) (htype : (t.con c).type ≠ .floatingCon)
    (hf : (f (t.con p).nodesHead).Perm (c :: (t.con p).nodesHead)) :
    Attaches t (((t.setParent c p).editNodes p f).editFocus p (· ++ [c])) c p where
  allCons := rfl
  croot := rfl
  nextCon := rfl
  type d := by simp
  fullscreenMode d := by simp
  sticky d := by simp
  parent d := by simp
  nodesHead d := by
    by_cases hd : d = p
    · subst hd
      simpa [htype] using hf
    · simp [hd]
  floatingHead d := by simp [htype]
  focusHead d := by
    by_cases hd : d = p
    · subst hd
      simp
    · simp [hd]

theorem attaches_editFloating (htype : (t.con c).type = .floatingCon) :
    Attaches t (((t.setParent c p).editFloating p (· ++ [c])).editFocus p (· ++ [c])) c p where
  allCons := rfl
  croot := rfl
  nextCon := rfl
  type d := by simp
  fullscreenMode d := by simp
  sticky d := by simp
  parent d := by simp
  nodesHead d := by simp [htype]
  floatingHead d := by
    by_cases hd : d = p
    · subst hd
      simp [htype]
    · simp [hd]
  focusHead d := by
    by_cases hd : d = p
    · subst hd
      simp
    · simp [hd]

/-- What to insert after, if anything, is in the queue. -/
def AnchorOk (t : Tree) (p : ConId) (previous : Option ConId) (ignoreFocus : Bool) : Prop :=
  ∀ d, (if ignoreFocus then previous else (t.focusedTiling p).or previous) = some d →
    (t.con p).type = .output ∨ d ∈ (t.con p).nodesHead

/-- The first tiling container of the focus stack is a tiling child. -/
theorem Rooted.mem_focusedTiling (ht : Rooted t) {d : ConId} (h : t.focusedTiling p = some d) :
    d ∈ (t.con p).nodesHead := by
  have htype : (t.con d).type ≠ .floatingCon := by simpa using List.find?_some h
  rcases List.mem_append.mp (ht.focus p d (List.mem_of_find?_eq_some h)) with hd | hd
  · exact hd
  · exact absurd (ht.typeFloating p d hd) htype

theorem Rooted.anchorOk (ht : Rooted t) (p : ConId) : AnchorOk t p none false := by
  intro d hd
  exact .inr (ht.mem_focusedTiling (by simpa using hd))

/-- **Attaching without a new split container** adds the container to the queues of its parent. -/
theorem attaches_attachPlain {previous : Option ConId} {ignoreFocus : Bool}
    (hdock : (t.con p).type = .dockarea → (t.con c).type ≠ .floatingCon)
    (hanchor : (t.con c).type ≠ .floatingCon → AnchorOk t p previous ignoreFocus) :
    Attaches t (t.attachPlain c p previous ignoreFocus) c p := by
  have hfocused : (t.setParent c p).focusedTiling p = t.focusedTiling p := by
    simp [focusedTiling]
  rw [attachPlain]
  simp only [setParent_type]
  split
  · next htype =>
    exact attaches_editNodes _ (by simp [htype]) (insertWorkspace_perm _ c _)
  · split
    · next hp => exact attaches_editNodes _ (hdock hp) (insertDock_perm _ c _)
    · split
      · next htype => exact attaches_editFloating htype
      · next htype =>
        rw [hfocused]
        split
        · next d hd =>
          split
          · exact attaches_editNodes _ htype (List.perm_append_singleton c _)
          · next hout =>
            exact attaches_editNodes _ htype
              (Queue.insertAfter_perm ((hanchor htype d hd).resolve_left hout))
        · exact attaches_editNodes _ htype (List.perm_append_singleton c _)

/-! ### Creating -/

/-- The tree `t'` is `t` with a new container, which is a split container without children. The
parent pointer of `c`, which is listed nowhere, may have changed. -/
structure Creates (t t' : Tree) (c : ConId) : Prop where
  allCons : t'.allCons = t.allCons ++ [t.nextCon]
  croot : t'.croot = t.croot
  nextCon : t'.nextCon = t.nextCon + 1
  new : (t'.con t.nextCon).type = .con ∧ (t'.con t.nextCon).fullscreenMode = .none
    ∧ (t'.con t.nextCon).sticky = false ∧ (t'.con t.nextCon).nodesHead = []
    ∧ (t'.con t.nextCon).floatingHead = [] ∧ (t'.con t.nextCon).focusHead = []
  type : ∀ d ≠ t.nextCon, (t'.con d).type = (t.con d).type
  fullscreenMode : ∀ d ≠ t.nextCon, (t'.con d).fullscreenMode = (t.con d).fullscreenMode
  sticky : ∀ d ≠ t.nextCon, (t'.con d).sticky = (t.con d).sticky
  parent : ∀ d ≠ t.nextCon, d ≠ c → (t'.con d).parent = (t.con d).parent
  nodesHead : ∀ d ≠ t.nextCon, (t'.con d).nodesHead = (t.con d).nodesHead
  floatingHead : ∀ d ≠ t.nextCon, (t'.con d).floatingHead = (t.con d).floatingHead
  focusHead : ∀ d ≠ t.nextCon, (t'.con d).focusHead = (t.con d).focusHead

theorem Creates.children_subset (h : Creates t t' c) (q : ConId) : t'.children q ⊆ t.children q := by
  intro x hx
  by_cases hq : q = t.nextCon
  · subst hq
    simp [children, h.new] at hx
  · simpa [children, h.nodesHead q hq, h.floatingHead q hq] using hx

theorem Creates.children_new (h : Creates t t' c) : t'.children t.nextCon = [] := by
  simp [children, h.new]

theorem Creates.within_mono (h : Creates t t' c) {q x : ConId}
    (hx : Descent.Within t'.children q x) : Descent.Within t.children q x :=
  hx.mono h.children_subset

/-- A new container is not listed yet. -/
theorem Rooted.notMem_children_nextCon (ht : Rooted t) (q : ConId) : t.nextCon ∉ t.children q :=
  fun h => lt_irrefl _ (ht.bounded q _ h)

theorem Rooted.creates (ht : Rooted t) (h : Creates t t' c) (hc : ∀ q, c ∉ t.children q)
    (hroot : c ≠ t.croot) : Rooted t' := by
  have hne : t.croot ≠ t.nextCon := ht.boundedRoot.ne
  have hx : ∀ q, ∀ x ∈ t'.children q, x ∈ t.children q ∧ x ≠ t.nextCon ∧ x ≠ c := by
    intro q x hx
    have hx := h.children_subset q hx
    exact ⟨hx, (ht.bounded q x hx).ne, fun hxc => hc q (hxc ▸ hx)⟩
  have hlist : ∀ (P : ConId → List ConId → Prop) (l : Tree → ConId → List ConId),
      (∀ q ≠ t.nextCon, l t' q = l t q) → l t' t.nextCon = [] → (∀ q, P q []) →
      (∀ q, P q (l t q)) → ∀ q, P q (l t' q) := by
    intro P l hl hnew hnil hold q
    by_cases hq : q = t.nextCon
    · rw [hq, hnew]
      exact hnil _
    · rw [hl q hq]
      exact hold q
  exact {
    typeRoot := by rw [h.croot, h.type _ hne, ht.typeRoot]
    parentRoot := by rw [h.croot, h.parent _ hne hroot.symm, ht.parentRoot]
    parent := by
      intro q x hmem
      obtain ⟨hx, hnew, hxc⟩ := hx q x hmem
      rw [h.parent x hnew hxc, ht.parent q x hx]
    acyclic := ht.acyclic.mono h.children_subset
    nodupNodes := hlist (fun _ l => l.Nodup) (fun t q => (t.con q).nodesHead) h.nodesHead
      h.new.2.2.2.1 (by simp) ht.nodupNodes
    nodupFloating := hlist (fun _ l => l.Nodup) (fun t q => (t.con q).floatingHead) h.floatingHead
      h.new.2.2.2.2.1 (by simp) ht.nodupFloating
    nodupFocus := hlist (fun _ l => l.Nodup) (fun t q => (t.con q).focusHead) h.focusHead
      h.new.2.2.2.2.2 (by simp) ht.nodupFocus
    typeNodes := by
      intro q x hmem
      have hq : q ≠ t.nextCon := by
        rintro rfl
        simp [h.new] at hmem
      rw [h.type x (hx q x (List.mem_append_left _ hmem)).2.1]
      exact ht.typeNodes q x (by rwa [h.nodesHead q hq] at hmem)
    typeFloating := by
      intro q x hmem
      have hq : q ≠ t.nextCon := by
        rintro rfl
        simp [h.new] at hmem
      rw [h.type x (hx q x (List.mem_append_right _ hmem)).2.1]
      exact ht.typeFloating q x (by rwa [h.floatingHead q hq] at hmem)
    focus := by
      intro q x hmem
      have hq : q ≠ t.nextCon := by
        rintro rfl
        simp [h.new] at hmem
      rw [h.focusHead q hq] at hmem
      rw [children, h.nodesHead q hq, h.floatingHead q hq]
      exact ht.focus q x hmem
    bounded := by
      intro q x hmem
      rw [h.nextCon]
      exact (ht.bounded q x (h.children_subset q hmem)).trans (Nat.lt_succ_self _)
    boundedRoot := by
      rw [h.croot, h.nextCon]
      exact ht.boundedRoot.trans (Nat.lt_succ_self _)
    alive := by
      intro x hmem
      rw [Alive, h.allCons]
      rw [Reach, h.croot] at hmem
      exact List.mem_append_left _ (ht.alive x (h.within_mono hmem)) }

theorem Layered.creates (hl : Layered t) (ht : Rooted t) (h : Creates t t' c) : Layered t' where
  workspace w hw x hx := by
    have hwne : w ≠ t.nextCon := by
      rintro rfl
      rw [h.new.1] at hw
      cases hw
    have hx := hx.mono h.children_subset
    have hxne : x ≠ t.nextCon := by
      obtain ⟨q, _, hq⟩ := Descent.below_iff_exists.mp hx
      exact (ht.bounded q x hq).ne
    rw [h.type w hwne] at hw
    rw [h.type x hxne]
    exact hl.workspace w hw x hx
  floating q x hx := by
    have hq : q ≠ t.nextCon := by
      rintro rfl
      simp [h.new] at hx
    rw [h.type q hq]
    exact hl.floating q x (by rwa [h.floatingHead q hq] at hx)

/-- A new container with its parent pointer and its layout set. -/
theorem creates_conNew (t : Tree) (window : Option Window) (q : ConId) (layout : Layout) :
    Creates t (((t.conNew cfg window).1.setParent t.nextCon q).setLayout t.nextCon layout) c where
  allCons := rfl
  croot := rfl
  nextCon := rfl
  new := by simp [conNew, setLayout, setParent]
  type d hd := by simp [conNew, setLayout, setParent, hd]
  fullscreenMode d hd := by simp [conNew, setLayout, setParent, hd]
  sticky d hd := by simp [conNew, setLayout, setParent, hd]
  parent d hd _ := by simp [conNew, setLayout, setParent, hd]
  nodesHead d hd := by simp [conNew, setLayout, setParent, hd]
  floatingHead d hd := by simp [conNew, setLayout, setParent, hd]
  focusHead d hd := by simp [conNew, setLayout, setParent, hd]

theorem Creates.of_setParent {q : ConId} (h : Creates (t.setParent c q) t' c) : Creates t t' c where
  allCons := h.allCons
  croot := h.croot
  nextCon := h.nextCon
  new := h.new
  type d hd := by rw [h.type d hd, setParent_type]
  fullscreenMode d hd := by rw [h.fullscreenMode d hd, setParent_fullscreenMode]
  sticky d hd := by rw [h.sticky d hd, setParent_sticky]
  parent d hd hdc := by rw [h.parent d hd hdc, setParent_parent, if_neg hdc]
  nodesHead d hd := by rw [h.nodesHead d hd, setParent_nodesHead]
  floatingHead d hd := by rw [h.floatingHead d hd, setParent_floatingHead]
  focusHead d hd := by rw [h.focusHead d hd, setParent_focusHead]

/-- A new container is below nothing, and nothing is below it. -/
theorem Creates.eq_of_within_new (h : Creates t t' c) {x : ConId}
    (hx : Descent.Within t'.children t.nextCon x) : x = t.nextCon := by
  rcases Descent.within_iff.mp hx with hx | hx
  · exact hx
  · obtain ⟨q, hq, _⟩ := Descent.below_iff_head.mp hx
    rw [h.children_new] at hq
    cases hq

theorem Creates.eq_of_within (h : Creates t t' c) (ht : Rooted t) {x : ConId}
    (hx : Descent.Within t'.children x t.nextCon) : x = t.nextCon := by
  rcases Descent.within_iff.mp hx with hx | hx
  · exact hx.symm
  · obtain ⟨q, _, hq⟩ := Descent.below_iff_exists.mp hx
    exact absurd (h.children_subset q hq) (ht.notMem_children_nextCon q)

/-- **`_con_attach` adds one link, or two with a new split container in between.** -/
theorem conAttachAt_cases (ht : Rooted t) (hc : ∀ q, c ∉ t.children q) (hroot : c ≠ t.croot)
    (hlt : c < t.nextCon)
    (hdock : (t.con p).type = .dockarea → (t.con c).type ≠ .floatingCon)
    {previous : Option ConId} {ignoreFocus : Bool}
    (hanchor : (t.con c).type ≠ .floatingCon → AnchorOk t p previous ignoreFocus) :
    Attaches t (t.conAttachAt cfg c p previous ignoreFocus) c p ∨
      t.followsWorkspaceLayout c p ∧ ∃ t₁ t₂, Creates t t₁ c ∧ Attaches t₁ t₂ t.nextCon p
        ∧ Attaches t₂ (t.conAttachAt cfg c p previous ignoreFocus) c t.nextCon := by
  rw [conAttachAt]
  split
  · next hfollows =>
    obtain ⟨_, hptype, hctype, _, hlayout⟩ := id hfollows
    have hpl : ((t.setParent c p).con p).workspaceLayout ≠ .default := by
      rw [setParent, modify_con]
      split <;> exact hlayout
    refine .inr ⟨hfollows, ?_⟩
    rw [workspaceAttachTo, if_neg hpl]
    dsimp only
    set t₁ := (((t.setParent c p).conNew cfg none).1.setParent t.nextCon p).setLayout t.nextCon
      (((t.setParent c p).conNew cfg none).1.con p).workspaceLayout with ht₁
    have hcreates : Creates t t₁ c := (creates_conNew (t.setParent c p) none p _).of_setParent
    have hrooted : Rooted t₁ := ht.creates hcreates hc hroot
    have hattach : Attaches t₁ (t₁.attachPlain t.nextCon p none false) t.nextCon p := by
      refine attaches_attachPlain (fun h => ?_) fun _ => hrooted.anchorOk p
      rw [hcreates.new.1]
      simp
    refine ⟨t₁, _, hcreates, hattach, ?_⟩
    refine (attaches_editNodes _ ?_ (List.perm_append_singleton c _)).trans_links
      (links_conFixPercent _ p) (.refl _)
    rw [(links_conFixPercent _ p).type, hattach.type, hcreates.type c hlt.ne]
    exact hctype
  · exact .inl (attaches_attachPlain hdock hanchor)

/-- What comes of attaching the detached container `c` to `p`: a healthy tree, in which the only
new thing below an old container is what is below `c`, and a split container. -/
structure Joins (t t' : Tree) (c p : ConId) : Prop where
  rooted : Rooted t'
  layered : Layered t'
  croot : t'.croot = t.croot
  nextCon : t.nextCon ≤ t'.nextCon
  type : ∀ d < t.nextCon, (t'.con d).type = (t.con d).type
  fullscreenMode : ∀ d < t.nextCon, (t'.con d).fullscreenMode = (t.con d).fullscreenMode
  sticky : ∀ d < t.nextCon, (t'.con d).sticky = (t.con d).sticky
  new : ∀ d, t.nextCon ≤ d → d < t'.nextCon → (t'.con d).type = .con
    ∧ (t'.con d).fullscreenMode = .none ∧ (t'.con d).sticky = false
  below : ∀ q < t.nextCon, ∀ x < t.nextCon, Descent.Below t'.children q x →
    Descent.Below t.children q x ∨ Descent.Within t.children q p ∧ Descent.Within t.children c x

theorem Joins.links {s' : Tree} (h : Joins t t' c p) (hl : Links t' s') : Joins t s' c p where
  rooted := h.rooted.links hl
  layered := h.layered.links hl
  croot := hl.croot.trans h.croot
  nextCon := h.nextCon.trans_eq hl.nextCon.symm
  type d hd := (hl.type d).trans (h.type d hd)
  fullscreenMode d hd := (hl.fullscreenMode d).trans (h.fullscreenMode d hd)
  sticky d hd := (hl.sticky d).trans (h.sticky d hd)
  new d hd hd' := by
    rw [hl.type, hl.fullscreenMode, hl.sticky]
    exact h.new d hd (hl.nextCon ▸ hd')
  below q hq x hx hbelow := h.below q hq x hx (hbelow.mono fun _ _ => hl.mem_children.mp)

section Join

variable (ht : Rooted t) (hl : Layered t) (hc : ∀ q, c ∉ t.children q) (hroot : c ≠ t.croot)
  (hlt : c < t.nextCon) (hp : ¬ Descent.Within t.children c p)
  (halive : ∀ x, Descent.Within t.children c x → t.Alive x)
  (hws : ∀ w, (t.con w).type = .workspace → Descent.Within t.children w p →
    ∀ x, Descent.Within t.children c x → (t.con x).type ≠ .workspace)
  (hfloating : (t.con c).type = .floatingCon → (t.con p).type = .workspace)
include ht hl hc hroot hlt hp halive hws hfloating

theorem Attaches.joins (h : Attaches t t' c p) : Joins t t' c p where
  rooted := ht.attaches h hc hp halive hlt hroot
  layered := hl.attaches h hp hws hfloating
  croot := h.croot
  nextCon := h.nextCon.ge
  type d _ := h.type d
  fullscreenMode d _ := h.fullscreenMode d
  sticky d _ := h.sticky d
  new _ hd hd' := absurd (h.nextCon ▸ hd') hd.not_gt
  below _ _ _ _ hx := Descent.below_of_insert h.inserts hp hx

omit hfloating in
/-- The same with a new split container between `p` and `c`. -/
theorem Creates.joins {t₁ t₂ : Tree} (hplt : p < t.nextCon) (h₁ : Creates t t₁ c)
    (h₂ : Attaches t₁ t₂ t.nextCon p) (h₃ : Attaches t₂ t' c t.nextCon)
    (hctype : (t.con c).type ≠ .floatingCon) : Joins t t' c p := by
  have hr₁ : Rooted t₁ := ht.creates h₁ hc hroot
  have hnew : ¬ Descent.Within t₁.children t.nextCon p := fun h =>
    hplt.ne (h₁.eq_of_within_new h)
  have hunlisted : ∀ q, t.nextCon ∉ t₁.children q := fun q h =>
    ht.notMem_children_nextCon q (h₁.children_subset q h)
  have hr₂ : Rooted t₂ := by
    refine hr₁.attaches h₂ hunlisted hnew (fun x hx => ?_) ?_ ?_
    · rw [h₁.eq_of_within_new hx, Alive, h₁.allCons]
      simp
    · rw [h₁.nextCon]
      exact Nat.lt_succ_self _
    · rw [h₁.croot]
      exact ht.boundedRoot.ne'
  have hl₂ : Layered t₂ := by
    refine (hl.creates ht h₁).attaches h₂ hnew (fun w _ _ x hx => ?_) fun h => ?_
    · rw [h₁.eq_of_within_new hx, h₁.new.1]
      simp
    · rw [h₁.new.1] at h
      cases h
  -- above and below the new container
  have habove : ∀ q ≠ t.nextCon, Descent.Within t₂.children q t.nextCon →
      Descent.Within t.children q p := by
    intro q hq h
    rcases Descent.within_of_insert h₂.inserts hnew h with h | ⟨h, _⟩
    · exact absurd (h₁.eq_of_within ht h) hq
    · exact h₁.within_mono h
  have hbelow₂ : ∀ q, ∀ x ≠ t.nextCon, Descent.Below t₂.children q x →
      Descent.Below t.children q x := by
    intro q x hx h
    rcases Descent.below_of_insert h₂.inserts hnew h with h | ⟨_, h⟩
    · exact h.mono h₁.children_subset
    · exact absurd (h₁.eq_of_within_new h) hx
  have hcnew : ¬ Descent.Within t₂.children c t.nextCon := fun h => hp (habove c hlt.ne h)
  have hwithin_c : ∀ x, Descent.Within t₂.children c x → Descent.Within t.children c x := by
    intro x h
    rcases Descent.within_of_insert h₂.inserts hnew h with h | ⟨h, _⟩
    · exact h₁.within_mono h
    · exact absurd (h₁.within_mono h) hp
  have hc₂ : ∀ q, c ∉ t₂.children q := by
    intro q h
    rcases h₂.mem_children.mp h with h | ⟨_, h⟩
    · exact hc q (h₁.children_subset q h)
    · exact hlt.ne h
  have htype₂ : ∀ d ≠ t.nextCon, (t₂.con d).type = (t.con d).type := fun d hd => by
    rw [h₂.type, h₁.type d hd]
  have hnext₂ : t₂.nextCon = t.nextCon + 1 := by rw [h₂.nextCon, h₁.nextCon]
  have hr₃ : Rooted t' := by
    refine hr₂.attaches h₃ hc₂ hcnew (fun x hx => ?_) (hnext₂ ▸ hlt.trans (Nat.lt_succ_self _)) ?_
    · rw [Alive, h₂.allCons, h₁.allCons]
      exact List.mem_append_left _ (halive x (hwithin_c x hx))
    · rw [h₂.croot, h₁.croot]
      exact hroot
  have hl₃ : Layered t' := by
    refine hl₂.attaches h₃ hcnew (fun w hw hwn x hx => ?_) fun h => ?_
    · have hwne : w ≠ t.nextCon := by
        rintro rfl
        rw [h₂.type, h₁.new.1] at hw
        cases hw
      have hxne : x ≠ t.nextCon := by
        rintro rfl
        exact hcnew hx
      rw [htype₂ w hwne] at hw
      rw [htype₂ x hxne]
      exact hws w hw (habove w hwne hwn) x (hwithin_c x hx)
    · rw [htype₂ c hlt.ne] at h
      exact absurd h hctype
  exact {
    rooted := hr₃
    layered := hl₃
    croot := by rw [h₃.croot, h₂.croot, h₁.croot]
    nextCon := by rw [h₃.nextCon, hnext₂]; exact Nat.le_succ _
    type := fun d hd => by rw [h₃.type, htype₂ d hd.ne]
    fullscreenMode := fun d hd => by
      rw [h₃.fullscreenMode, h₂.fullscreenMode, h₁.fullscreenMode d hd.ne]
    sticky := fun d hd => by rw [h₃.sticky, h₂.sticky, h₁.sticky d hd.ne]
    new := by
      intro d hd hd'
      rw [h₃.nextCon, hnext₂] at hd'
      obtain rfl : d = t.nextCon := le_antisymm (Nat.lt_succ_iff.mp hd') hd
      rw [h₃.type, h₂.type, h₃.fullscreenMode, h₂.fullscreenMode, h₃.sticky, h₂.sticky]
      exact ⟨h₁.new.1, h₁.new.2.1, h₁.new.2.2.1⟩
    below := by
      intro q hq x hx h
      rcases Descent.below_of_insert h₃.inserts hcnew h with h | ⟨hqn, hcx⟩
      · exact .inl (hbelow₂ q x hx.ne h)
      · exact .inr ⟨habove q hq.ne hqn, hwithin_c x hcx⟩ }

/-- **Attaching a detached container** keeps the tree healthy. -/
theorem joins_conAttachAt (hplt : p < t.nextCon)
    (hdock : (t.con p).type = .dockarea → (t.con c).type ≠ .floatingCon)
    {previous : Option ConId} {ignoreFocus : Bool}
    (hanchor : (t.con c).type ≠ .floatingCon → AnchorOk t p previous ignoreFocus) :
    Joins t (t.conAttachAt cfg c p previous ignoreFocus) c p := by
  rcases conAttachAt_cases ht hc hroot hlt hdock hanchor with h | ⟨hfollows, t₁, t₂, h₁, h₂, h₃⟩
  · exact h.joins ht hl hc hroot hlt hp halive hws hfloating
  · exact h₁.joins ht hl hc hroot hlt hp halive hws hplt h₂ h₃ hfollows.2.2.1

end Join

end Tree

end I3
