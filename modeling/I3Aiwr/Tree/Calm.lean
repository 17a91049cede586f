import I3Aiwr.Tree.Attach
import I3Aiwr.Tree.Show

/-!
# Changes that make nothing fullscreen

Most of what happens while containers are moved and workspaces are shown is calm: no container
comes below another one it was not below before, and no container but a workspace becomes
fullscreen. Calm are the changes that leave the links alone, detaching, freeing, closing any
container but the root, and showing a workspace in place of another one.

## Main definitions

* `Tree.Healthy t`: the tree is rooted and layered, and neither a workspace nor the root is globally
  fullscreen
* `Tree.Calm t t'`: `t'` is healthy, and comes from `t` by a calm change
* `Tree.Tame t todo`: the closing actions `todo` leave the root alone

## Main results

* `Tree.calm_treeCloseInternal`, `Tree.calm_onRemoveChild`: closing is calm
* `Tree.calm_flagWorkspace`
-/

namespace I3

namespace Tree

/-- A healthy tree, in which neither a workspace nor the root is globally fullscreen. -/
structure Healthy (t : Tree) : Prop where
  rooted : Rooted t
  layered : Layered t
  global : ∀ w < t.nextCon, (t.con w).type = .workspace ∨ w = t.croot →
    (t.con w).fullscreenMode ≠ .global

/-- The change from `t` to `t'` is calm. -/
structure Calm (t t' : Tree) : Prop where
  healthy : Healthy t'
  croot : t'.croot = t.croot
  nextCon : t.nextCon ≤ t'.nextCon
  type : ∀ d < t.nextCon, (t'.con d).type = (t.con d).type
  fullscreenMode : ∀ d < t.nextCon, (t'.con d).fullscreenMode = (t.con d).fullscreenMode
    ∨ (t'.con d).fullscreenMode = .none ∨ (t.con d).type = .workspace
  sticky : ∀ d < t.nextCon, (t'.con d).sticky = (t.con d).sticky
  new : ∀ d, t.nextCon ≤ d → d < t'.nextCon → (t'.con d).type = .con
    ∧ (t'.con d).fullscreenMode = .none ∧ (t'.con d).sticky = false
  below : ∀ q < t.nextCon, ∀ x < t.nextCon, Descent.Below t'.children q x →
    Descent.Below t.children q x

variable {cfg : Config} {t t' t'' : Tree}

theorem Healthy.links (ht : Healthy t) (h : Links t t') : Healthy t' where
  rooted := ht.rooted.links h
  layered := ht.layered.links h
  global w hlt hw := by
    rw [h.type, h.croot] at hw
    rw [h.fullscreenMode]
    exact ht.global w (h.nextCon ▸ hlt) hw

namespace Calm

theorem trans (h : Calm t t') (h' : Calm t' t'') : Calm t t'' where
  healthy := h'.healthy
  croot := h'.croot.trans h.croot
  nextCon := h.nextCon.trans h'.nextCon
  type d hd := (h'.type d (hd.trans_le h.nextCon)).trans (h.type d hd)
  fullscreenMode d hd := by
    have htype := h.type d hd
    rcases h'.fullscreenMode d (hd.trans_le h.nextCon) with h'' | h'' | h''
    · rw [h'']
      exact h.fullscreenMode d hd
    · exact .inr (.inl h'')
    · exact .inr (.inr (htype ▸ h''))
  sticky d hd := (h'.sticky d (hd.trans_le h.nextCon)).trans (h.sticky d hd)
  new d hd hd' := by
    by_cases hlt : d < t'.nextCon
    · -- created first: the second change leaves it a plain split container
      obtain ⟨htype, hmode, hsticky⟩ := h.new d hd hlt
      refine ⟨(h'.type d hlt).trans htype, ?_, (h'.sticky d hlt).trans hsticky⟩
      rcases h'.fullscreenMode d hlt with h'' | h'' | h''
      · rw [h'', hmode]
      · exact h''
      · rw [htype] at h''
        cases h''
    · exact h'.new d (not_lt.mp hlt) hd'
  below q hq x hx hbelow :=
    h.below q hq x hx (h'.below q (hq.trans_le h.nextCon) x (hx.trans_le h.nextCon) hbelow)

theorem of_links (ht : Healthy t) (h : Links t t') : Calm t t' where
  healthy := ht.links h
  croot := h.croot
  nextCon := h.nextCon.ge
  type d _ := h.type d
  fullscreenMode d _ := .inl (h.fullscreenMode d)
  sticky d _ := h.sticky d
  new _ hd hd' := absurd (h.nextCon ▸ hd') hd.not_gt
  below _ _ _ _ hx := hx.mono fun _ _ => h.mem_children.mp

theorem refl (ht : Healthy t) : Calm t t := of_links ht (.refl t)

/-- More links after a calm change. -/
theorem trans_links (h : Calm t t') (hl : Links t' t'') : Calm t t'' :=
  h.trans (of_links h.healthy hl)

theorem reach (h : Calm t t') (ht : Rooted t) {x : ConId} (hx : x < t.nextCon) (hr : t'.Reach x) :
    t.Reach x := by
  rw [Reach, h.croot] at hr
  rcases Descent.within_iff.mp hr with rfl | hr
  · exact .refl _
  · exact (h.below _ ht.boundedRoot x hx hr).within

theorem within (h : Calm t t') {q x : ConId} (hq : q < t.nextCon) (hx : x < t.nextCon)
    (hr : Descent.Within t'.children q x) : Descent.Within t.children q x := by
  rcases Descent.within_iff.mp hr with rfl | hr
  · exact .refl _
  · exact (h.below q hq x hx hr).within

end Calm

/-! ### Fullscreen modes -/

section Modes

variable (c : ConId) (mode : FullscreenMode)

theorem setFullscreenMode_fullscreenMode (t : Tree) (d : ConId) :
    ((t.setFullscreenMode c mode).con d).fullscreenMode =
      if d = c then mode else (t.con d).fullscreenMode := by
  rw [setFullscreenMode, modify_con]
  split <;> rfl

/-- The links are left alone, but for the mode. -/
theorem setFullscreenMode_con (t : Tree) (d : ConId) :
    ((t.setFullscreenMode c mode).con d) =
      { t.con d with fullscreenMode := if d = c then mode else (t.con d).fullscreenMode } := by
  rw [setFullscreenMode, modify_con]
  split <;> rfl

theorem setFullscreenMode_children (t : Tree) :
    (t.setFullscreenMode c mode).children = t.children := by
  funext q
  simp [children, setFullscreenMode_con]

theorem Rooted.setFullscreenMode (ht : Rooted t) : Rooted (t.setFullscreenMode c mode) where
  typeRoot := by rw [setFullscreenMode_con]; exact ht.typeRoot
  parentRoot := by rw [setFullscreenMode_con]; exact ht.parentRoot
  parent p d hd := by
    rw [setFullscreenMode_children] at hd
    simpa [setFullscreenMode_con] using ht.parent p d hd
  acyclic := by rw [setFullscreenMode_children]; exact ht.acyclic
  nodupNodes p := by simpa [setFullscreenMode_con] using ht.nodupNodes p
  nodupFloating p := by simpa [setFullscreenMode_con] using ht.nodupFloating p
  nodupFocus p := by simpa [setFullscreenMode_con] using ht.nodupFocus p
  typeNodes p d hd := by
    rw [setFullscreenMode_con] at hd ⊢
    exact ht.typeNodes p d hd
  typeFloating p d hd := by
    rw [setFullscreenMode_con] at hd ⊢
    exact ht.typeFloating p d hd
  focus p d hd := by
    rw [setFullscreenMode_con] at hd
    rw [setFullscreenMode_children]
    exact ht.focus p d hd
  bounded p d hd := by
    rw [setFullscreenMode_children] at hd
    exact ht.bounded p d hd
  boundedRoot := ht.boundedRoot
  alive d hd := by
    rw [Reach, setFullscreenMode_children] at hd
    exact ht.alive d hd

theorem Layered.setFullscreenMode (ht : Layered t) : Layered (t.setFullscreenMode c mode) where
  workspace w hw x hx := by
    rw [setFullscreenMode_con] at hw ⊢
    rw [setFullscreenMode_children] at hx
    exact ht.workspace w hw x hx
  floating p d hd := by
    rw [setFullscreenMode_con] at hd ⊢
    exact ht.floating p d hd

variable {c mode}

theorem Healthy.setFullscreenMode (ht : Healthy t)
    (hmode : (t.con c).type = .workspace ∨ c = t.croot → mode ≠ .global) :
    Healthy (t.setFullscreenMode c mode) where
  rooted := ht.rooted.setFullscreenMode c mode
  layered := ht.layered.setFullscreenMode c mode
  global w hlt hw := by
    rw [setFullscreenMode_con] at hw ⊢
    dsimp only at hw ⊢
    split
    · next hwc => exact hmode (hwc ▸ hw)
    · exact ht.global w hlt hw

/-- A container is not fullscreen any more, or a workspace becomes visible. -/
theorem calm_setFullscreenMode (ht : Healthy t)
    (hmode : mode = .none ∨ (t.con c).type = .workspace ∧ mode = .output) :
    Calm t (t.setFullscreenMode c mode) where
  healthy := by
    refine ht.setFullscreenMode fun _ => ?_
    rcases hmode with rfl | ⟨_, rfl⟩ <;> simp
  croot := rfl
  nextCon := le_rfl
  type d _ := by rw [setFullscreenMode_con]
  fullscreenMode d _ := by
    rw [setFullscreenMode_fullscreenMode]
    split
    · next hd =>
      subst hd
      rcases hmode with rfl | ⟨hw, rfl⟩
      · exact .inr (.inl rfl)
      · exact .inr (.inr hw)
    · exact .inl rfl
  sticky d _ := by rw [setFullscreenMode_con]
  new _ hd hd' := absurd hd' hd.not_gt
  below q _ x _ hx := by rwa [setFullscreenMode_children] at hx

end Modes

theorem calm_conDisableFullscreen (ht : Healthy t) (c : ConId) :
    Calm t (t.conDisableFullscreen c) := by
  rw [conDisableFullscreen]
  split
  · exact .refl ht
  · split
    · exact .refl ht
    · exact calm_setFullscreenMode ht (.inl rfl)

/-- **Showing a workspace in place of another one is calm.** -/
theorem calm_flagWorkspace (ht : Healthy t) {ws : ConId} (content : ConId)
    (hws : (t.con ws).type = .workspace) : Calm t (t.flagWorkspace ws content) := by
  have hfold : ∀ (l : List ConId) {s : Tree}, Calm t s →
      Calm t (l.foldl (fun t c => t.setFullscreenMode c .none) s)
        ∧ (∀ d, ((l.foldl (fun t c => t.setFullscreenMode c .none) s).con d).type
          = (s.con d).type) := by
    intro l
    induction l with
    | nil => exact fun hs => ⟨hs, fun _ => rfl⟩
    | cons c l ih =>
      intro s hs
      obtain ⟨hcalm, htype⟩ := ih (hs.trans (calm_setFullscreenMode hs.healthy (c := c) (.inl rfl)))
      refine ⟨hcalm, fun d => ?_⟩
      rw [List.foldl_cons, htype, setFullscreenMode_con]
  obtain ⟨hcalm, htype⟩ := hfold (t.con content).nodesHead (.refl ht)
  rw [flagWorkspace]
  exact hcalm.trans (calm_setFullscreenMode hcalm.healthy (.inr ⟨(htype ws).trans hws, rfl⟩))

/-! ### Detaching and freeing -/

theorem Healthy.conDetach (ht : Healthy t) (c : ConId) : Healthy (t.conDetach c) where
  rooted := ht.rooted.conDetach c
  layered := ht.layered.conDetach c
  global w hlt hw := by
    rw [conDetach_type, conDetach_croot] at hw
    rw [conDetach_fullscreenMode]
    exact ht.global w (conDetach_nextCon (t := t) c ▸ hlt) hw

theorem calm_conDetach (ht : Healthy t) (c : ConId) : Calm t (t.conDetach c) where
  healthy := ht.conDetach c
  croot := conDetach_croot c
  nextCon := (conDetach_nextCon c).ge
  type d _ := conDetach_type c d
  fullscreenMode d _ := .inl (conDetach_fullscreenMode c d)
  sticky d _ := conDetach_sticky c d
  new _ hd hd' := absurd (conDetach_nextCon (t := t) c ▸ hd') hd.not_gt
  below _ _ _ _ hx := hx.mono (conDetach_children_subset c)

theorem calm_conFree (ht : Healthy t) {c : ConId} (hc : ∀ p, c ∉ t.children p) (hroot : c ≠ t.croot) :
    Calm t (t.conFree c) where
  healthy := by
    refine ⟨ht.rooted.conFree c hc hroot, ht.layered.conFree c, fun w hlt hw => ?_⟩
    rw [conFree_nextCon] at hlt
    rw [conFree_con, conFree_croot] at hw
    rw [conFree_con]
    exact ht.global w hlt hw
  croot := conFree_croot c
  nextCon := (conFree_nextCon c).ge
  type d _ := by rw [conFree_con]
  fullscreenMode d _ := by rw [conFree_con]; exact .inl rfl
  sticky d _ := by rw [conFree_con]
  new _ hd hd' := absurd (conFree_nextCon (t := t) c ▸ hd') hd.not_gt
  below q _ x _ hx := by rwa [conFree_children] at hx

end Tree

/-! ### Closing -/

/-- The action is about another container than the root, and frees none. -/
def CloseAction.OffRoot (root : ConId) : CloseAction → Prop
  | .close c _ _ => c ≠ root
  | .child c _ _ d _ | .childClosed c _ _ d _ => c ≠ root ∧ ∀ x ∈ d, x ≠ root
  | .free _ => False
  | .activate _ | .removeChild _ | .returnTrue => True

namespace Tree

/-- The actions leave the root alone. What is freed next, if anything, is listed nowhere. -/
def Tame (t : Tree) : List CloseAction → Prop
  | .free c :: rest => (∀ p, c ∉ t.children p) ∧ c ≠ t.croot ∧ ∀ a ∈ rest, a.OffRoot t.croot
  | todo => ∀ a ∈ todo, a.OffRoot t.croot

theorem tame_of_forall {t : Tree} {todo : List CloseAction}
    (h : ∀ a ∈ todo, a.OffRoot t.croot) : Tame t todo := by
  match todo with
  | [] | .close .. :: _ | .child .. :: _ | .childClosed .. :: _ | .activate .. :: _
  | .removeChild .. :: _ | .returnTrue :: _ => exact h
  | .free c :: _ => exact (h (.free c) (by simp)).elim

end Tree

namespace Closing

open I3.Tree

variable {cfg : Config} {t : Tree}

theorem calm_finish (ht : Healthy t) {c : ConId} (hc : c ≠ t.croot) (dontKillParent : Bool)
    {rest : List CloseAction} (hrest : ∀ a ∈ rest, a.OffRoot t.croot) (killed : Bool) :
    Calm t (finish cfg t c dontKillParent rest killed).tree
      ∧ Tame (finish cfg t c dontKillParent rest killed).tree
        (finish cfg t c dontKillParent rest killed).todo := by
  have hwindow := links_setWindow t c none
  have hclose := @links_closeDetach cfg (t.setWindow c none) c dontKillParent
  have hwt := ht.links hwindow
  refine ⟨((Calm.of_links ht hwindow).trans (calm_conDetach hwt c)).trans_links hclose, ?_⟩
  have hroot : ((t.setWindow c none).closeDetach cfg c dontKillParent).croot = t.croot := by
    rw [hclose.croot, conDetach_croot]
    rfl
  refine ⟨fun p hp => ?_, by rw [finish, hroot]; exact hc, fun a ha => ?_⟩
  · exact hwt.rooted.notMem_children_conDetach c p (hclose.mem_children.mp hp)
  · rw [finish, hroot]
    simp only [List.mem_append, Option.mem_toList, Option.map_eq_some_iff, List.mem_cons] at ha
    rcases ha with (⟨_, _, rfl⟩ | ⟨_, _, rfl⟩) | rfl | ha
    · trivial
    · trivial
    · trivial
    · exact hrest a ha

theorem calm_removeChild (ht : Healthy t) (c : ConId) {rest : List CloseAction}
    (hrest : ∀ a ∈ rest, a.OffRoot t.croot) (killed : Bool) :
    Calm t (removeChild t c rest killed).tree
      ∧ Tame (removeChild t c rest killed).tree (removeChild t c rest killed).todo := by
  rw [removeChild]
  split
  · exact ⟨.refl ht, tame_of_forall hrest⟩
  · next htype =>
    have hc : c ≠ t.croot := fun h => htype (.inr (.inl (h ▸ ht.rooted.typeRoot)))
    have hclose : ∀ a ∈ CloseAction.close c .dontKillWindow false :: rest, a.OffRoot t.croot := by
      intro a ha
      rcases List.mem_cons.mp ha with rfl | ha
      · exact hc
      · exact hrest a ha
    split
    · split
      · exact ⟨.refl ht, hclose⟩
      · exact ⟨.refl ht, tame_of_forall hrest⟩
    · have hl := ((stirs_setUrgent t c (t.hasUrgentChild c)).trans
        (stirs_updateParentsUrgency _ c)).links
      dsimp only
      split
      · refine ⟨.of_links ht hl, tame_of_forall ?_⟩
        rw [hl.croot]
        exact hclose
      · refine ⟨.of_links ht hl, tame_of_forall ?_⟩
        rw [hl.croot]
        exact hrest

/-- **A step of closing is calm.** -/
theorem calm_step (ht : Healthy t) {todo : List CloseAction} (htodo : Tame t todo) (killed : Bool) :
    Calm t (step cfg ⟨t, todo, killed⟩).tree
      ∧ Tame (step cfg ⟨t, todo, killed⟩).tree (step cfg ⟨t, todo, killed⟩).todo := by
  match todo with
  | [] => exact ⟨.refl ht, htodo⟩
  | .close c kill dontKillParent :: rest =>
    obtain ⟨hc, hrest⟩ := List.forall_mem_cons.mp htodo
    have hl : Links t (if (t.con c).urgent then t.clearUrgency c else t) := by
      split
      · exact (stirs_clearUrgency t c).links
      · exact .refl t
    refine ⟨.of_links ht hl, tame_of_forall ?_⟩
    rw [step]
    dsimp only
    rw [hl.croot]
    refine List.forall_mem_cons.mpr ⟨⟨hc, fun x hx => ?_⟩, hrest⟩
    exact hl.croot ▸ (ht.rooted.links hl).ne_croot_of_mem
      (List.mem_append_left _ (List.mem_of_mem_head? hx))
  | .child c kill dontKillParent (some d) abortKill :: rest =>
    obtain ⟨⟨hc, hd⟩, hrest⟩ := List.forall_mem_cons.mp htodo
    refine ⟨.refl ht, tame_of_forall (List.forall_mem_cons.mpr ⟨hd d rfl, ?_⟩)⟩
    refine List.forall_mem_cons.mpr ⟨⟨hc, fun x hx => ?_⟩, hrest⟩
    exact ht.rooted.ne_croot_of_mem (List.mem_append_left _ (Queue.mem_of_next hx))
  | .childClosed c kill dontKillParent next abortKill :: rest =>
    obtain ⟨hc, hrest⟩ := List.forall_mem_cons.mp htodo
    exact ⟨.refl ht, tame_of_forall (List.forall_mem_cons.mpr ⟨hc, hrest⟩)⟩
  | .child c kill dontKillParent none abortKill :: rest =>
    obtain ⟨⟨hc, _⟩, hrest⟩ := List.forall_mem_cons.mp htodo
    rw [step]
    dsimp only
    split
    · exact ⟨.refl ht, tame_of_forall hrest⟩
    · exact calm_finish ht hc dontKillParent hrest killed
  | .free c :: rest =>
    refine ⟨calm_conFree ht htodo.1 htodo.2.1, tame_of_forall ?_⟩
    rw [step]
    dsimp only
    rw [conFree_croot]
    exact htodo.2.2
  | .activate n :: rest =>
    have hl := (stirs_conActivate cfg t n).links
    refine ⟨.of_links ht hl, tame_of_forall ?_⟩
    rw [step]
    dsimp only
    rw [hl.croot]
    exact (List.forall_mem_cons.mp htodo).2
  | .removeChild c :: rest =>
    exact calm_removeChild ht c (List.forall_mem_cons.mp htodo).2 killed
  | .returnTrue :: rest =>
    exact ⟨.refl ht, tame_of_forall (List.forall_mem_cons.mp htodo).2⟩

theorem calm_run {s : Closing} (ht : Healthy s.tree) (htodo : Tame s.tree s.todo) (n : ℕ) :
    Calm s.tree (s.run cfg n).tree := by
  induction n generalizing s with
  | zero => exact .refl ht
  | succ n ih =>
    obtain ⟨hcalm, htame⟩ := calm_step ht htodo s.killed
    exact hcalm.trans (ih hcalm.healthy htame)

end Closing

namespace Tree

variable {cfg : Config} {t : Tree}

/-- **Closing a container is calm.** -/
theorem calm_treeCloseInternal (ht : Healthy t) {c : ConId} (hc : c ≠ t.croot) (kill : KillWindow)
    (dontKillParent : Bool) : Calm t (t.treeCloseInternal cfg c kill dontKillParent) :=
  Closing.calm_run (s := ⟨t, [.close c kill dontKillParent], true⟩) ht
    (tame_of_forall (by simpa [CloseAction.OffRoot] using hc)) t.closeSteps

theorem calm_onRemoveChild (ht : Healthy t) (c : ConId) : Calm t (t.onRemoveChild cfg c) :=
  Closing.calm_run (s := ⟨t, [.removeChild c], true⟩) ht
    (tame_of_forall (by simp [CloseAction.OffRoot])) t.closeSteps

/-- A list of containers makes a healthy tree, where `inner` holds of what is below its workspaces. -/
theorem healthy_ofList {l : List Con} {focused : Option ConId} (inner : ConId → Prop)
    (ht : Rooted (ofList l focused))
    (hlist : ∀ p < l.length, (∀ c ∈ (ofList l focused).children p, (l.getD p {}).type = .workspace ∨ inner p →
        inner c ∧ (l.getD c {}).type ≠ .workspace)
      ∧ ((l.getD p {}).floatingHead ≠ [] → (l.getD p {}).type = .workspace)
      ∧ ((l.getD p {}).type = .workspace ∨ p = 0 → (l.getD p {}).fullscreenMode ≠ .global)) :
    Healthy (ofList l focused) := by
  have hstep : ∀ p, ∀ c ∈ (ofList l focused).children p, ((ofList l focused).con p).type = .workspace ∨ inner p →
      inner c ∧ ((ofList l focused).con c).type ≠ .workspace := by
    intro p c hc
    by_cases hp : p < l.length
    · exact (hlist p hp).1 c hc
    · rw [children, ofList_con hp] at hc
      cases hc
  refine ⟨ht, ⟨fun w hw x hx => ?_, fun p c hc => ?_⟩, fun w hlt hw => ?_⟩
  · -- from child to child down from the workspace
    have hall : inner x ∧ ((ofList l focused).con x).type ≠ .workspace := by
      induction hx with
      | single hx => exact hstep w _ hx (.inl hw)
      | tail _ hz ih => exact hstep _ _ hz (.inr ih.1)
    exact hall.2
  · by_cases hp : p < l.length
    · exact (hlist p hp).2.1 (List.ne_nil_of_mem hc)
    · rw [ofList_con hp] at hc
      cases hc
  · exact (hlist w hlt).2.2 hw

end Tree

end I3
