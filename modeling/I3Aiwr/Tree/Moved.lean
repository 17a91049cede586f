import I3Aiwr.Tree.Calm

/-!
# Moving a container to another place

`_con_move_to_con` puts a container beside its target, and a fullscreen container on the target's
workspace gives way to one that comes along. Together with calm changes this is all that happens to
the fullscreen containers when containers are moved and workspaces shown: `Edits` is the closure of
the two.

## Main definitions

* `Tree.Moved t t' c p w`: `c` was moved to `p`, which is on the workspace `w`
* `Tree.Edits pushes t t'`: calm changes and moves lead from `t` to `t'`. With `pushes` only
  floating containers with something sticky in them are moved

## Main results

* `Tree.moveTarget_spec`: the place a container is moved to is on the workspace of the target
* `Tree.moved_moveReattach`
* `Tree.edits_moveCon`, `Tree.edits_workspaceShow`: moving and showing are edits
-/

namespace I3

namespace Tree

variable {cfg : Config} {t t' t'' : Tree} {c p w : ConId}

/-! ### What moving a container does -/

/-- The container is below a workspace. -/
def Placed (t : Tree) (c : ConId) : Prop :=
  ∃ u, (t.con u).type = .workspace ∧ Descent.Below t.children u c

/-- The tree `t'` is `t` with the container `c` moved to `p`, on the workspace `w`. -/
structure Moved (t t' : Tree) (c p w : ConId) : Prop where
  healthy : Healthy t'
  croot : t'.croot = t.croot
  nextCon : t.nextCon ≤ t'.nextCon
  type : ∀ d < t.nextCon, (t'.con d).type = (t.con d).type
  fullscreenMode : ∀ d < t.nextCon, (t'.con d).fullscreenMode = (t.con d).fullscreenMode
    ∨ (t'.con d).fullscreenMode = .none
  sticky : ∀ d < t.nextCon, (t'.con d).sticky = (t.con d).sticky
  new : ∀ d, t.nextCon ≤ d → d < t'.nextCon → (t'.con d).type = .con
    ∧ (t'.con d).fullscreenMode = .none ∧ (t'.con d).sticky = false
  below : ∀ q < t.nextCon, ∀ x < t.nextCon, Descent.Below t'.children q x →
    Descent.Below t.children q x ∨ Descent.Within t.children q p ∧ Descent.Within t.children c x
  reach : t.Reach c
  placed : t.Placed c
  reachTarget : t.Reach p
  workspace : (t.con w).type = .workspace ∧ Descent.Within t.children w p
  floating : (t.con c).type = .floatingCon → (t.con p).type = .workspace
  /-- A fullscreen container on `w` gives way to one in `c`. -/
  exclusive : (∀ x, Descent.Within t.children c x → (t.con x).fullscreenMode ≠ .output)
    ∨ (∀ x, Descent.Below t.children w x → (t.con x).fullscreenMode ≠ .output)
    ∨ ∃ f, Descent.Below t.children w f ∧ (t.con f).fullscreenMode = .output
      ∧ (t'.con f).fullscreenMode = .none

/-- What is on a workspace contains none. -/
theorem Healthy.type_ne_workspace (ht : Healthy t) (hc : t.Placed c) {x : ConId}
    (hx : Descent.Within t.children c x) : (t.con x).type ≠ .workspace := by
  obtain ⟨u, hu, huc⟩ := hc
  exact ht.layered.workspace u hu x (huc.trans_within hx)

/-- The tree `s` is `t` with the fullscreen container on `w` out of the way of what is in `c`. -/
structure GaveWay (t s : Tree) (c w : ConId) : Prop where
  calm : Calm t s
  nextCon : s.nextCon = t.nextCon
  children : s.children = t.children
  nodesHead : ∀ d, (s.con d).nodesHead = (t.con d).nodesHead
  fullscreenMode : ∀ d, (s.con d).fullscreenMode = (t.con d).fullscreenMode
    ∨ (s.con d).fullscreenMode = .none
  exclusive : (∀ x, Descent.Within t.children c x → (t.con x).fullscreenMode ≠ .output)
    ∨ (∀ x, Descent.Below t.children w x → (t.con x).fullscreenMode ≠ .output)
    ∨ ∃ f, Descent.Below t.children w f ∧ (t.con f).fullscreenMode = .output
      ∧ (s.con f).fullscreenMode = .none

theorem GaveWay.of_eq (ht : Healthy t)
    (h : (∀ x, Descent.Within t.children c x → (t.con x).fullscreenMode ≠ .output)
      ∨ ∀ x, Descent.Below t.children w x → (t.con x).fullscreenMode ≠ .output) :
    GaveWay t t c w :=
  ⟨.refl ht, rfl, rfl, fun _ => rfl, fun _ => .inl rfl, h.imp_right .inl⟩

theorem gaveWay_moveFullscreen (ht : Healthy t) (hw : (t.con w).type = .workspace) :
    GaveWay t (t.moveFullscreen c w).1 c w := by
  rw [moveFullscreen]
  split
  · next hnone =>
    exact .of_eq ht (.inr fun x hx => ht.rooted.getFullscreenCon_eq_none hnone hx)
  · next f hf =>
    obtain ⟨hmode, hbelow⟩ := getFullscreenCon_spec hf
    split
    · rw [conDisableFullscreen, if_neg (ht.layered.workspace w hw f hbelow), if_neg (by simp [hmode])]
      exact {
        calm := calm_setFullscreenMode ht (.inl rfl)
        nextCon := rfl
        children := setFullscreenMode_children ..
        nodesHead := fun d => by rw [setFullscreenMode_con]
        fullscreenMode := by
          intro d
          rw [setFullscreenMode_fullscreenMode]
          split
          · exact .inr rfl
          · exact .inl rfl
        exclusive := by
          refine .inr (.inr ⟨f, hbelow, hmode, ?_⟩)
          rw [setFullscreenMode_fullscreenMode, if_pos rfl] }
    · -- nothing in `c` is fullscreen
      next hfull =>
      refine .of_eq ht (.inl fun x hx hout => hfull ?_)
      rw [hasFullscreen, Bool.or_eq_true, Bool.or_eq_true]
      rcases Descent.within_iff.mp hx with rfl | hx
      · exact .inl (.inl (by simp [hout]))
      · obtain ⟨g, hg⟩ := ht.rooted.exists_getFullscreenCon hx hout
        exact .inr (by simp [hg])

section Reattach

variable {s : Tree} (ht : Healthy t) (hs : GaveWay t s c w) (hc : t.Reach c) (hplaced : t.Placed c)
  (hp : t.Reach p) (hcp : ¬ Descent.Within t.children c p)
  (hfloating : (t.con c).type = .floatingCon → (t.con p).type = .workspace)
  {anchor : Option ConId} {behindFocused : Bool}
  (hanchor : behindFocused = false → (t.con c).type ≠ .floatingCon →
    ∃ d, anchor = some d ∧ d ∈ (t.con p).nodesHead ∧ d ≠ c)
include ht hs hc hplaced hp hcp hfloating hanchor

omit hplaced hp hcp hfloating in
/-- What the container is attached after is still in its place. -/
theorem anchorOk_conDetach (hf : ((s.conDetach c).con c).type ≠ .floatingCon) :
    AnchorOk (s.conDetach c) p (if behindFocused then none else anchor) (!behindFocused) := by
  have hsr : Rooted s := hs.calm.healthy.rooted
  rw [conDetach_type, hs.calm.type c (ht.rooted.lt_nextCon hc)] at hf
  cases behindFocused
  · obtain ⟨d, rfl, hd, hdc⟩ := hanchor rfl hf
    intro e he
    obtain rfl : d = e := by simpa using he
    refine .inr ((hsr.mem_nodesHead_conDetach c).mpr ⟨?_, hdc⟩)
    rwa [hs.nodesHead]
  · exact (hsr.conDetach c).anchorOk p

omit hplaced hcp hanchor in
theorem not_dockarea_conDetach (hdock : ((s.conDetach c).con p).type = .dockarea) :
    ((s.conDetach c).con c).type ≠ .floatingCon := by
  rw [conDetach_type, hs.calm.type p (ht.rooted.lt_nextCon hp)] at hdock
  rw [conDetach_type, hs.calm.type c (ht.rooted.lt_nextCon hc)]
  intro hf
  rw [hfloating hf] at hdock
  cases hdock

theorem joins_moveReattach (fixPercentage : Bool) : Joins (s.conDetach c)
    (s.moveReattach cfg c p anchor behindFocused fixPercentage) c p := by
  have hsr : Rooted s := hs.calm.healthy.rooted
  have hcroot : s.croot = t.croot := hs.calm.croot
  have hsub : ∀ {x}, Descent.Within (s.conDetach c).children c x →
      Descent.Within t.children c x := by
    intro x hx
    rw [← hs.children]
    exact hx.mono (conDetach_children_subset c)
  have htype : ∀ {x}, t.Reach x → ((s.conDetach c).con x).type = (t.con x).type := by
    intro x hx
    rw [conDetach_type, hs.calm.type x (ht.rooted.lt_nextCon hx)]
  have hnext : (s.conDetach c).nextCon = t.nextCon := by rw [conDetach_nextCon, hs.nextCon]
  have hjoins : Joins (s.conDetach c)
      ((s.conDetach c).conAttachAt cfg c p (if behindFocused then none else anchor)
        (!behindFocused)) c p := by
    apply joins_conAttachAt (hsr.conDetach c) (hs.calm.healthy.layered.conDetach c)
      (hsr.notMem_children_conDetach c)
    · rw [conDetach_croot, hcroot]
      obtain ⟨u, _, hu⟩ := hplaced
      obtain ⟨q, _, hq⟩ := Descent.below_iff_exists.mp hu
      exact ht.rooted.ne_croot_of_mem hq
    · rw [hnext]
      exact ht.rooted.lt_nextCon hc
    · exact fun h => hcp (hsub h)
    · intro x hx
      rw [Alive, conDetach_allCons]
      apply hsr.alive x
      rw [Reach, hs.children, hcroot]
      exact hc.trans (hsub hx)
    · intro v _ _ x hx
      rw [htype (hc.trans (hsub hx))]
      exact ht.type_ne_workspace hplaced (hsub hx)
    · rw [htype hc, htype hp]
      exact hfloating
    · rw [hnext]
      exact ht.rooted.lt_nextCon hp
    · exact not_dockarea_conDetach ht hs hc hp hfloating
    · exact anchorOk_conDetach ht hs hc hanchor
  -- distributing the space changes no links
  rw [moveReattach]
  generalize (s.conDetach c).conAttachAt cfg c p (if behindFocused then none else anchor)
    (!behindFocused) = u at hjoins ⊢
  split
  · refine hjoins.links (Links.trans ?_ ((links_setPercent _ c 0).trans (links_conFixPercent _ p)))
    split
    · exact .refl _
    · exact links_conFixPercent _ _
  · exact hjoins

/-- **Detaching and attaching moves the container.** -/
theorem moved_moveReattach (hw : (t.con w).type = .workspace) (hwp : Descent.Within t.children w p)
    (fixPercentage : Bool) :
    Moved t (s.moveReattach cfg c p anchor behindFocused fixPercentage) c p w := by
  have hjoins : Joins (s.conDetach c) (s.moveReattach cfg c p anchor behindFocused fixPercentage)
      c p := joins_moveReattach ht hs hc hplaced hp hcp hfloating hanchor fixPercentage
  have hnext : (s.conDetach c).nextCon = t.nextCon := by rw [conDetach_nextCon, hs.nextCon]
  have hcroot : (s.moveReattach cfg c p anchor behindFocused fixPercentage).croot = t.croot := by
    rw [hjoins.croot, conDetach_croot, hs.calm.croot]
  have hsub : ∀ {q x}, Descent.Within (s.conDetach c).children q x →
      Descent.Within t.children q x := by
    intro q x hx
    rw [← hs.children]
    exact hx.mono (conDetach_children_subset c)
  have hmode : ∀ d < t.nextCon,
      ((s.moveReattach cfg c p anchor behindFocused fixPercentage).con d).fullscreenMode
        = (s.con d).fullscreenMode := by
    intro d hd
    rw [hjoins.fullscreenMode d (hnext ▸ hd), conDetach_fullscreenMode]
  have htype : ∀ d < t.nextCon,
      ((s.moveReattach cfg c p anchor behindFocused fixPercentage).con d).type
        = (t.con d).type := by
    intro d hd
    rw [hjoins.type d (hnext ▸ hd), conDetach_type, hs.calm.type d hd]
  exact {
    healthy := by
      refine ⟨hjoins.rooted, hjoins.layered, fun v hv hvw => ?_⟩
      by_cases hlt : v < t.nextCon
      · rw [htype v hlt, hcroot] at hvw
        rw [hmode v hlt]
        rcases hs.fullscreenMode v with h | h
        · rw [h]
          exact ht.global v hlt hvw
        · rw [h]
          simp
      · rw [(hjoins.new v (hnext ▸ not_lt.mp hlt) hv).2.1]
        simp
    croot := hcroot
    nextCon := hnext ▸ hjoins.nextCon
    type := htype
    fullscreenMode := by
      intro d hd
      rw [hmode d hd]
      exact hs.fullscreenMode d
    sticky := by
      intro d hd
      rw [hjoins.sticky d (hnext ▸ hd), conDetach_sticky, hs.calm.sticky d hd]
    new := by
      intro d hd hd'
      exact hjoins.new d (hnext ▸ hd) hd'
    below := by
      intro q hq x hx hbelow
      rcases hjoins.below q (hnext ▸ hq) x (hnext ▸ hx) hbelow with h | ⟨hqp, hcx⟩
      · left
        rw [← hs.children]
        exact h.mono (conDetach_children_subset c)
      · exact .inr ⟨hsub hqp, hsub hcx⟩
    reach := hc
    placed := hplaced
    reachTarget := hp
    workspace := ⟨hw, hwp⟩
    floating := hfloating
    exclusive := by
      refine hs.exclusive.imp_right (Or.imp_right ?_)
      rintro ⟨f, hf, hout, hnone⟩
      have hreach : t.Reach f := (ht.rooted.reach_of_within hp hwp).trans hf.within
      refine ⟨f, hf, hout, ?_⟩
      rw [hmode f (ht.rooted.lt_nextCon hreach), hnone] }

end Reattach

/-! ### The place -/

/-- **The place a container is moved to** is on the workspace of the target, and above it. -/
theorem moveTarget_spec (ht : Healthy t) {target anchor : ConId} (htarget : t.Reach target)
    (hw : t.getWorkspace target = some w) (h : t.moveTarget c target = some (anchor, p)) :
    Descent.Within t.children w p ∧ Descent.Within t.children p target
      ∧ ((t.con c).type = .floatingCon → (t.con p).type = .workspace) := by
  obtain ⟨hwtype, hwtarget⟩ := ht.rooted.getWorkspace_spec htarget hw
  -- up to the parent, then past a floating container
  obtain ⟨q, hq, h⟩ := Option.bind_eq_some_iff.mp h
  obtain ⟨⟨a, r⟩, hr, h⟩ := Option.bind_eq_some_iff.mp h
  have hwq : Descent.Within t.children w q ∧ Descent.Within t.children q target := by
    rw [moveParent] at hq
    split at hq
    · next htype =>
      cases hq
      exact ⟨hwtarget, .refl _⟩
    · next htype =>
      have hbelow : Descent.Below t.children w target := by
        refine (Descent.within_iff.mp hwtarget).resolve_left ?_
        rintro rfl
        exact htype hwtype
      have hmem := ht.rooted.mem_children_of_parent htarget hq
      exact ⟨Descent.within_parent ht.rooted.parent hbelow hq, (Descent.Below.single hmem).within⟩
  have hqreach : t.Reach q := ht.rooted.reach_of_within htarget hwq.2
  have hwr : Descent.Within t.children w r ∧ Descent.Within t.children r target := by
    rw [moveBeside] at hr
    split at hr
    · next hfloat =>
      obtain ⟨r', hr', hpair⟩ := Option.map_eq_some_iff.mp hr
      cases hpair
      have hbelow : Descent.Below t.children w q := by
        refine (Descent.within_iff.mp hwq.1).resolve_left ?_
        rintro rfl
        rw [hwtype] at hfloat
        cases hfloat
      have hmem := ht.rooted.mem_children_of_parent hqreach hr'
      exact ⟨Descent.within_parent ht.rooted.parent hbelow hr',
        (Descent.Below.single hmem).within.trans hwq.2⟩
    · cases hr
      exact hwq
  have hrreach : t.Reach r := ht.rooted.reach_of_within htarget hwr.2
  dsimp only at h
  split at h
  · obtain ⟨v, hv, hpair⟩ := Option.map_eq_some_iff.mp h
    cases hpair
    obtain ⟨hvtype, hvr⟩ := ht.rooted.getWorkspace_spec hrreach hv
    obtain rfl : p = w := ht.layered.unique ht.rooted hvtype hwtype hvr hwr.1
    exact ⟨.refl _, hwtarget, fun _ => hwtype⟩
  · next hfloat =>
    cases h
    exact ⟨hwr.1, hwr.2, fun hf => absurd hf hfloat⟩

/-- Beside a tiling container, that is what to insert after. -/
theorem moveTarget_tiling {target anchor : ConId} (ht : Healthy t) (htarget : t.Reach target)
    (htype : (t.con target).type ≠ .workspace) (hfloat : (t.con target).type ≠ .floatingCon)
    (hparent : ∀ q, (t.con target).parent = some q → (t.con q).type ≠ .floatingCon)
    (hc : (t.con c).type ≠ .floatingCon) (h : t.moveTarget c target = some (anchor, p)) :
    anchor = target ∧ target ∈ (t.con p).nodesHead := by
  obtain ⟨q, hq, h⟩ := Option.bind_eq_some_iff.mp h
  obtain ⟨⟨a, r⟩, hr, h⟩ := Option.bind_eq_some_iff.mp h
  rw [moveParent, if_neg htype] at hq
  rw [moveBeside, if_neg (hparent q hq)] at hr
  cases hr
  dsimp only at h
  rw [if_neg hc] at h
  cases h
  refine ⟨rfl, ?_⟩
  rcases List.mem_append.mp (ht.rooted.mem_children_of_parent htarget hq) with hmem | hmem
  · exact hmem
  · exact absurd (ht.rooted.typeFloating _ _ hmem) hfloat

end Tree

end I3
