import I3Aiwr.Tree.Insert
import I3Aiwr.Tree.Intact

/-!
# Moving in a direction keeps the tree intact

What `tree_move` does in the end, `attach_to_workspace`, `insert_con_into` and `move_to_output_directed`,
detaches the container and attaches it somewhere else, and the tree is flattened after that.

## Main definitions

* `Tree.Brought t t' c p`: the container `c` was brought to `p`
* `Tree.Connected t outputs`: the outputs have workspaces in their contents

## Main results

* `Tree.intact_treeFlatten`
* `Tree.brought_insertConInto`, `Tree.brought_attachToWorkspace`, `Tree.moveToOutputDirected_cases`
-/

namespace I3

namespace Tree

variable {cfg : Config} {t t' t'' : Tree} {c p q w x y ws target : ConId} {direction : Direction}

/-- **Flattening** keeps the tree intact. -/
theorem intact_treeFlatten (ht : Intact t) (hc : t.Reach c) : Intact (t.treeFlatten cfg c) := by
  have h : Flattens t (t.treeFlatten cfg c) c := flattens_treeFlatten ht.healthy hc
  exact ⟨h.calm.healthy, h.stacked ht.stacked⟩

/-! ### Bringing a container to another place -/

/-- The tree `t'` is `t` with `c` brought to `p`. What is below an old container was below it before, but for
what came to `p` with `c`, and no workspace is new. -/
structure Brought (t t' : Tree) (c p : ConId) : Prop where
  intact : Intact t'
  croot : t'.croot = t.croot
  nextCon : t.nextCon ≤ t'.nextCon
  type : ∀ d < t.nextCon, (t'.con d).type = (t.con d).type
  new : ∀ d, t.nextCon ≤ d → t'.Reach d → (t'.con d).type ≠ .workspace
  below : ∀ q < t.nextCon, ∀ x < t.nextCon, Descent.Below t'.children q x →
    Descent.Below t.children q x ∨ Descent.Within t.children q p ∧ Descent.Within t.children c x

namespace Brought

variable (h : Brought t t' c p)
include h

/-- A calm change follows. -/
theorem then_calm (hcalm : Calm t' t'') (hs : Stacked t'') : Brought t t'' c p where
  intact := ⟨hcalm.healthy, hs⟩
  croot := hcalm.croot.trans h.croot
  nextCon := h.nextCon.trans hcalm.nextCon
  type d hd := (hcalm.type d (hd.trans_le h.nextCon)).trans (h.type d hd)
  new d hd hreach := by
    by_cases hlt : d < t'.nextCon
    · rw [hcalm.type d hlt]
      exact h.new d hd (hcalm.reach h.intact.healthy.rooted hlt hreach)
    · rw [(hcalm.new d (not_lt.mp hlt) (hcalm.healthy.rooted.lt_nextCon hreach)).1]
      nofun
  below q hq x hx hbelow :=
    h.below q hq x hx (hcalm.below q (hq.trans_le h.nextCon) x (hx.trans_le h.nextCon) hbelow)

theorem then_links (hl : Links t' t'') : Brought t t'' c p :=
  h.then_calm (.of_links h.intact.healthy hl) (h.intact.stacked.links hl)

/-- The old parent is asked whether it is empty, and the tree is flattened. -/
theorem onRemoveChild (old : ConId) : Brought t (t'.onRemoveChild cfg old) c p :=
  h.then_calm (calm_onRemoveChild h.intact.healthy old) (intact_onRemoveChild h.intact old).stacked

theorem treeFlatten : Brought t (t'.treeFlatten cfg t'.croot) c p :=
  h.then_calm (flattens_treeFlatten h.intact.healthy (.refl _)).calm
    (intact_treeFlatten h.intact (.refl _)).stacked

theorem of_links {s : Tree} (hl : Links s t) : Brought s t' c p where
  intact := h.intact
  croot := h.croot.trans hl.croot
  nextCon := hl.nextCon ▸ h.nextCon
  type d hd := (h.type d (hl.nextCon ▸ hd)).trans (hl.type d)
  new d hd := h.new d (hl.nextCon ▸ hd)
  below q hq x hx hbelow := by
    rw [← hl.within, ← hl.within]
    refine (h.below q (hl.nextCon ▸ hq) x (hl.nextCon ▸ hx) hbelow).imp_left fun h' => ?_
    exact h'.mono fun _ _ => hl.mem_children.mp

/-- **The workspace of what was brought** is the one of the new place. -/
theorem workspace_eq (ht : Healthy t) (hc : t.Reach c) (hcw : Descent.Within t.children w c)
    (hwtype : (t.con w).type = .workspace) (hwp : Descent.Within t.children w p) (hreach : t'.Reach c)
    (htype : (t'.con x).type = .workspace) (hx : Descent.Within t'.children x c) : x = w := by
  have hr' := h.intact.healthy.rooted
  have hxr : t'.Reach x := hr'.reach_of_within hreach hx
  have hlt : x < t.nextCon := by
    by_contra hnot
    exact h.new x (not_lt.mp hnot) hxr htype
  rw [h.type x hlt] at htype
  rcases Descent.within_iff.mp hx with rfl | hx
  · exact ht.layered.unique ht.rooted htype hwtype (.refl _) hcw
  rcases h.below x hlt c (ht.rooted.lt_nextCon hc) hx with hx | ⟨hx, -⟩
  · exact ht.layered.unique ht.rooted htype hwtype hx.within hcw
  · exact ht.layered.unique ht.rooted htype hwtype hx hwp

end Brought

/-- What comes of attaching the detached container. -/
theorem Joins.brought (ht : Healthy t) (h : Joins (t.conDetach c) t' c p) (hs : Stacked t') :
    Brought t t' c p where
  intact := ⟨h.healthy ht, hs⟩
  croot := by rw [h.croot, conDetach_croot]
  nextCon := by simpa using h.nextCon
  type d hd := by rw [h.type d (by rwa [conDetach_nextCon]), conDetach_type]
  new d hd hreach := by
    rw [(h.new d (by rwa [conDetach_nextCon]) (h.rooted.lt_nextCon hreach)).1]
    nofun
  below q hq x hx hbelow := by
    have hsub := conDetach_children_subset (t := t) c
    rcases h.below q (by rwa [conDetach_nextCon]) x (by rwa [conDetach_nextCon]) hbelow with h' | ⟨h₁, h₂⟩
    · exact .inl (h'.mono hsub)
    · exact .inr ⟨h₁.mono hsub, h₂.mono hsub⟩

section Bring

variable (ht : Intact t) (hc : t.Sits c) (hcp : ¬ Descent.Within t.children c p)
  (hinner : ∀ y, Descent.Within t.children c y → (t.con y).type ≠ .workspace)
include ht hc hcp hinner

/-- A detached container that is put into the queues of `p`. -/
theorem brought_of_attaches (htype : (t.con c).type ≠ .floatingCon) (h : Attaches (t.conDetach c) t' c p) :
    Brought t t' c p := by
  have hr := ht.healthy.rooted
  have hsub := conDetach_children_subset (t := t) c
  have hjoins : Joins (t.conDetach c) t' c p := by
    apply h.joins (hr.conDetach c) (ht.healthy.layered.conDetach c) (hr.notMem_children_conDetach c)
    · simpa using hc.2
    · simpa using hr.lt_nextCon hc.1
    · exact fun hw => hcp (hw.mono hsub)
    · intro y hy
      rw [Alive, conDetach_allCons]
      exact hr.alive y (hc.1.trans (hy.mono hsub))
    · intro _ _ _ y hy
      rw [conDetach_type]
      exact hinner y (hy.mono hsub)
    · intro hf
      rw [conDetach_type] at hf
      exact absurd hf htype
  exact hjoins.brought ht.healthy ((ht.stacked.conDetach hr c).attaches h)

end Bring

/-! ### Next to a container -/

namespace Inserted

variable (h : Inserted t t' c p x) (hr : Rooted t) (hcp : ¬ Descent.Within t.children c p)
include h hr hcp

/-- What is below an old container was below it before, or came with the one that was moved. -/
theorem within (hq : q < t.nextCon) (hqy : Descent.Within t'.children q y) :
    ((y = x → x = c) → Descent.Within t.children q y
        ∨ Descent.Within t.children q p ∧ Descent.Within t.children c y)
      ∧ (y = x → x ≠ c → Descent.Within t.children q p) := by
  induction hqy with
  | refl => exact ⟨fun _ => .inl (.refl _), fun heq hne => absurd (h.eq_of_lt hq heq) hne⟩
  | @tail y z _ hz ih =>
    by_cases hy : y = x ∧ x ≠ c
    · -- in the new container is what was moved
      obtain ⟨rfl, hne⟩ := hy
      rw [(h.new hne).2.1, List.mem_singleton] at hz
      subst hz
      exact ⟨fun _ => .inr ⟨ih.2 rfl hne, .refl _⟩, fun heq => absurd heq.symm hne⟩
    have hold : y = x → x = c := fun heq => not_not.mp fun hne => hy ⟨heq, hne⟩
    rcases (h.mem_children y hold z).mp hz with ⟨hz, -⟩ | ⟨rfl, rfl⟩
    · refine ⟨fun _ => (ih.1 hold).imp ?_ (And.imp_right ?_), fun heq hne => ?_⟩
      · exact fun hqy => (hqy.tail hz).within
      · exact fun hcy => (hcy.tail hz).within
      · exact absurd (heq ▸ hr.bounded y z hz) (h.new hne).1.ge.not_gt
    · have hqp : Descent.Within t.children q y := (ih.1 hold).elim id And.left
      exact ⟨fun heq => .inr ⟨hqp, heq rfl ▸ .refl _⟩, fun _ _ => hqp⟩

/-- **The container is brought to its new parent.** -/
theorem brought (hs : Stacked t) (hc : t.Reach c) (hp : t.Reach p)
    (hw : (t.con w).type = .workspace) (hwp : Descent.Within t.children w p) : Brought t t' c p where
  intact := ⟨h.healthy, h.stacked hs⟩
  croot := h.croot
  nextCon := h.nextCon
  type := h.type
  new d hd hreach := by
    have hwr := hr.reach_of_within hp hwp
    have hplt := hr.lt_nextCon hp
    -- what is new is the container around what was moved, on the workspace
    have hbelow : Descent.Below t'.children t'.croot d := by
      refine (Descent.within_iff.mp hreach).resolve_left fun heq => ?_
      rw [heq, h.croot] at hd
      exact hr.boundedRoot.not_ge hd
    obtain ⟨q, -, hq⟩ := Descent.below_iff_exists.mp hbelow
    obtain rfl : d = x := by
      by_cases hqx : q = x ∧ x ≠ c
      · obtain ⟨rfl, hne⟩ := hqx
        rw [(h.new hne).2.1, List.mem_singleton] at hq
        exact absurd (hq ▸ hr.lt_nextCon hc) hd.not_gt
      · rcases (h.mem_children q (fun heq => not_not.mp fun hne => hqx ⟨heq, hne⟩) d).mp hq with ⟨hq, -⟩ | ⟨-, hdx⟩
        · exact absurd (hr.bounded q d hq) hd.not_gt
        · exact hdx
    refine h.healthy.layered.workspace w ((h.type w (hr.lt_nextCon hwr)).trans hw) d ?_
    exact (h.within_of_within hr hwr hcp hwp).tail (h.mem hplt)
  below q hq y hy hqy := by
    have hyx : y = x → x = c := fun heq => h.eq_of_lt hy heq
    rcases (h.within hr hcp hq hqy.within).1 hyx with hw | hw
    · rcases Descent.within_iff.mp hw with rfl | hw
      · exact absurd (.refl _) (h.healthy.rooted.acyclic.not_within hqy)
      · exact .inl hw
    · exact .inr hw

end Inserted

theorem Brought.refl (ht : Intact t) (c p : ConId) : Brought t t c p where
  intact := ht
  croot := rfl
  nextCon := le_rfl
  type _ _ := rfl
  new _ hd hreach := absurd (ht.healthy.rooted.lt_nextCon hreach) hd.not_gt
  below _ _ _ _ h := .inl h

/-- The branch of the target is put in front of the one of the container that comes before it. -/
theorem bringBefore_perm {l : List ConId} (hl : l.Nodup) (hx : x ∈ l) (hy : y ∈ l)
    (hfirst : x ≠ y → (l.find? fun z => z = x ∨ z = y) = some x) : (bringBefore x y l).Perm l := by
  by_cases hxy : x = y
  · subst hxy
    rw [bringBefore_self hx hl]
  rw [bringBefore]
  split
  · next place hplace =>
    obtain ⟨-, l₁, l₂, rfl, hnot⟩ := List.find?_eq_some_iff_append.mp (hfirst hxy)
    have hx₂ : x ∉ l₂ := (List.nodup_cons.mp (List.nodup_append'.mp hl).2.1).1
    rw [Queue.prev_append_self hx₂] at hplace
    have hmem : place ∈ l₁ := List.mem_of_getLast? hplace
    have hne : place ≠ y := by
      rintro rfl
      simpa using hnot place hmem
    refine (Queue.insertAfter_perm ?_).trans (List.perm_cons_erase hy).symm
    exact (List.mem_erase_of_ne hne).mpr (List.mem_append_left _ hmem)
  · exact (List.perm_cons_erase hy).symm

/-- **`insert_con_into`** brings the container to the parent of the target. -/
theorem brought_insertConInto (ht : Intact t) (hc : t.Sits c) (htype : (t.con c).type ≠ .floatingCon)
    (hinner : ∀ y, Descent.Within t.children c y → (t.con y).type ≠ .workspace) (hp : t.Reach p)
    (hw : (t.con w).type = .workspace) (hwp : Descent.Within t.children w p)
    (htarget : target ∈ (t.con p).nodesHead) (hne : target ≠ c) (position : Position) :
    Brought t (t.insertConInto cfg c target position) c p := by
  have hr := ht.healthy.rooted
  have hmem : target ∈ t.children p := List.mem_append_left _ htarget
  have hreach : t.Reach target := hp.trans (Descent.Below.single hmem).within
  obtain ⟨old, hold, hreachold, hco⟩ := hr.exists_parent hc
  simp only [insertConInto, hr.parent p target hmem, hold]
  split
  · exact .refl ht c p
  next lca hlca =>
  split_ifs with hself
  · exact .refl ht c p
  split
  swap
  · exact .refl ht c p
  next a b ha hb =>
  have hcp : ¬ Descent.Within t.children c p := by
    intro hw
    have hc' : t.lowestCommonAncestor c p = some c :=
      hr.lowestCommonAncestor_eq hc.1 hp (.refl _) hw fun y hy hyc => absurd hyc (hr.acyclic.not_within hy)
    exact hself (Option.some_inj.mp (hlca.symm.trans hc'))
  have hac := (hr.towards_eq_some hc.1).mp ha
  have hbt := (hr.towards_eq_some hreach).mp hb
  generalize hbefore : t.focusBefore lca a b (t.isFocusedDescendant c a) = before
  -- only the order of a focus stack changes before the container is detached
  have hl : Links t (if (t.isFocusedDescendant c a = true ∧ before = true) then
      t.editFocus lca (bringBefore a b) else t) := by
    split_ifs with hmoves
    · refine (Stirs.of_modify t lca _ rfl ?_ (.refl _)).links
      refine bringBefore_perm (hr.nodupFocus lca) (ht.stacked lca hac.1) (ht.stacked lca hbt.1) fun hab => ?_
      rw [hmoves.2, focusBefore, if_neg hab, decide_eq_true_eq] at hbefore
      exact hbefore
    · exact .refl t
  generalize (if (t.isFocusedDescendant c a = true ∧ before = true) then
      t.editFocus lca (bringBefore a b) else t) = s at hl ⊢
  have hs : Intact s := ht.links hl
  obtain ⟨x, hin, -⟩ := @inserted_insertBeside cfg s c p target old lca hs.healthy hs.stacked
    ⟨hl.reach.mpr hc.1, hl.croot ▸ hc.2⟩ (hl.reach.mpr hp) (fun h => hcp (hl.within.mp h))
    (fun y hy => by rw [hl.type]; exact hinner y (hl.within.mp hy)) (by rwa [hl.type])
    (by rwa [hl.nodesHead]) hne before position
  apply Brought.of_links (t := s) _ hl
  apply Brought.onRemoveChild
  exact hin.brought hs.healthy.rooted (fun h => hcp (hl.within.mp h)) hs.stacked (hl.reach.mpr hc.1)
    (hl.reach.mpr hp) ((hl.type w).trans hw) (hl.within.mpr hwp)

/-! ### Onto a workspace -/

/-- A container that is put at an end of the children of a workspace. -/
theorem attaches_ends (htype : (t.con c).type ≠ .floatingCon) (direction : Direction) :
    Attaches t (((t.setParent c ws).editNodes ws (if direction = .right ∨ direction = .down then (c :: ·)
      else (· ++ [c]))).editFocus ws (· ++ [c])) c ws := by
  apply attaches_editNodes _ htype
  split
  · exact .refl _
  · exact List.perm_append_singleton c _

/-- **Attaching to a workspace** brings the container there. -/
theorem brought_attachToWorkspace (ht : Intact t) (hc : t.Sits c) (htype : (t.con c).type ≠ .floatingCon)
    (hinner : ∀ y, Descent.Within t.children c y → (t.con y).type ≠ .workspace)
    (hcws : ¬ Descent.Within t.children c ws) (direction : Direction) :
    Brought t (t.attachToWorkspace cfg c ws direction) c ws := by
  obtain ⟨old, hold, -⟩ := ht.healthy.rooted.exists_parent hc
  have hends := brought_of_attaches ht hc hcws hinner htype
    (attaches_ends (t := t.conDetach c) (by rwa [conDetach_type]) direction)
  rw [attachToWorkspace, hold]
  dsimp only
  apply Brought.onRemoveChild
  exact hends.then_links (((links_setPercent _ c 0).trans (links_conFixPercent _ ws)).trans
    (links_conFixPercent _ old))

/-! ### To another output -/

/-- What is in the contents of the outputs are workspaces. -/
def Connected (t : Tree) (outputs : List Output) : Prop :=
  ∀ output ∈ outputs, ∀ w ∈ t.workspacesOf output.con, (t.con w).type = .workspace

theorem getOutputNext_mem {outputs : List Output} {direction : Direction} {current output : Output}
    {closeFar : CloseFar} (h : getOutputNext outputs direction current closeFar = some output) :
    output ∈ outputs := by
  have hfold : ∀ {f : Option Output → Output → Option Output},
      (∀ best o, (∀ b ∈ best, b ∈ outputs) → o ∈ outputs → ∀ b ∈ f best o, b ∈ outputs) →
      ∀ (l : List Output) (best : Option Output), (∀ b ∈ best, b ∈ outputs) → l ⊆ outputs →
        ∀ b ∈ l.foldl f best, b ∈ outputs := by
    intro f hf l
    induction l with
    | nil => exact fun _ hbest _ => hbest
    | cons o l ih =>
      intro best hbest hl
      obtain ⟨ho, hl⟩ := List.cons_subset.mp hl
      exact ih _ (hf best o hbest ho) hl
  refine hfold (fun best o hbest ho => ?_) outputs none (by rintro b ⟨⟩) (List.Subset.refl _) output h
  have hsome : ∀ b ∈ some o, b ∈ outputs := fun b hb => Option.mem_some.mp hb ▸ ho
  split
  · exact hbest
  · split
    · exact hsome
    · split
      · exact hsome
      · exact hbest

/-- The workspace on the output in a direction. -/
theorem Connected.workspaceInDirection {outputs : List Output} (h : t.Connected outputs)
    (hws : t.workspaceInDirection outputs c direction = some ws) : (t.con ws).type = .workspace := by
  obtain ⟨current, -, hws⟩ := Option.bind_eq_some_iff.mp hws
  obtain ⟨output, houtput, hws⟩ := Option.bind_eq_some_iff.mp hws
  exact h output (getOutputNext_mem houtput) ws (List.mem_of_find?_eq_some hws)

/-- **What is focused is foremost** below everything above it. -/
theorem foremost_conFocus (ht : Intact t) (hc : t.Reach c) (hqc : Descent.Within t.children q c) :
    (t.conFocus cfg c).Foremost q c := by
  refine Descent.Within.transfer hqc fun r y _ hy hyc => ?_
  have hmem := ht.stacked r hy
  rw [mem_heads, ht.healthy.rooted.conFocus_focusHead hc, (ht.healthy.rooted.towards_eq_some hc).mpr ⟨hy, hyc⟩,
    Recent.bring, Queue.toFront, if_pos hmem]
  rfl

section ToOutput

variable {outputs : List Output} (ht : Intact t) (houtputs : t.Connected outputs) (hc : t.Sits c)
  (htype : (t.con c).type ≠ .floatingCon)
  (hinner : ∀ y, Descent.Within t.children c y → (t.con y).type ≠ .workspace)
include ht houtputs hc htype hinner

/-- **Moving to another output** is attaching to a workspace, and focusing and flattening after that. -/
theorem moveToOutputDirected_cases (cfg : Config) (direction : Direction) :
    t.workspaceInDirection outputs c direction = none
        ∧ t.moveToOutputDirected cfg outputs c direction = t
      ∨ ∃ s ws, Brought t s c ws ∧ t.moveToOutputDirected cfg outputs c direction
          = (if t.focused = some c then
              (((s.conFocus cfg c).setFocused (t.getWorkspace c)).workspaceShow cfg ws).conFocus cfg c
            else s).treeFlatten cfg
            (if t.focused = some c then
              (((s.conFocus cfg c).setFocused (t.getWorkspace c)).workspaceShow cfg ws).conFocus cfg c
            else s).croot := by
  rw [moveToOutputDirected]
  split
  · next hnone => exact .inl ⟨hnone, rfl⟩
  · next ws hws =>
    have hwstype := houtputs.workspaceInDirection hws
    refine .inr ⟨_, ws, brought_attachToWorkspace ht hc htype hinner (fun h => ?_) direction, rfl⟩
    exact hinner ws h hwstype

end ToOutput

end Tree

end I3
