import I3Aiwr.Tree.Alters
import I3Aiwr.Tree.Edits
import I3Aiwr.Tree.Insert

/-!
# What a workspace holds

`output_push_sticky_windows` moves sticky windows to the visible workspace of their output. It takes
nothing away from a workspace if no other one in the same content container is visible. What is on such a
workspace stays on it while sticky windows come from elsewhere, and while the workspaces that get empty
are closed.

## Main definitions

* `Tree.Held K w x`: `x` is on the workspace `w`, and no other workspace in `K` is visible
* `Tree.Relocates t t' c p`: the floating container `c` is on the workspace `p` now
* `Tree.HeldAll S`: what is to stay on its workspace

## Main results

* `Tree.Held.onRemoveChild`: closing another workspace
* `Tree.relocates_movedOver`, `Tree.shifts_moveCon`: moving a floating container
* `Tree.HeldAll.outputPushStickyWindows`: pushing the sticky windows of all outputs
-/

namespace I3

/-! ### Closing keeps the fullscreen modes -/

namespace Closing

open I3.Tree

variable {cfg : Config}

theorem step_fullscreenMode (s : Closing) (d : ConId) :
    ((s.step cfg).tree.con d).fullscreenMode = (s.tree.con d).fullscreenMode := by
  obtain ⟨t, todo, killed⟩ := s
  match todo with
  | [] => rfl
  | .close c kill dontKillParent :: rest =>
    rw [step]
    dsimp only
    split
    · exact (stirs_clearUrgency t c).links.fullscreenMode d
    · rfl
  | .child c kill dontKillParent (some e) abortKill :: rest => rfl
  | .childClosed c kill dontKillParent next abortKill :: rest => rfl
  | .child c kill dontKillParent none abortKill :: rest =>
    rw [step]
    dsimp only
    split
    · rfl
    · -- detached, and nothing else
      calc (((t.setWindow c none).closeDetach cfg c dontKillParent).con d).fullscreenMode
          = (((t.setWindow c none).conDetach c).con d).fullscreenMode :=
            (links_closeDetach c dontKillParent).fullscreenMode d
        _ = ((t.setWindow c none).con d).fullscreenMode := conDetach_fullscreenMode c d
        _ = (t.con d).fullscreenMode := (links_setWindow t c none).fullscreenMode d
  | .free c :: rest =>
    rw [step]
    exact congrArg Con.fullscreenMode (congrFun (conFree_con ..) d)
  | .activate c :: rest => exact (stirs_conActivate cfg t c).links.fullscreenMode d
  | .removeChild c :: rest =>
    have hl := ((stirs_setUrgent t c (t.hasUrgentChild c)).trans
      (stirs_updateParentsUrgency _ c)).links
    rw [step]
    dsimp only
    unfold removeChild
    split
    · rfl
    · split
      · split
        · rfl
        · rfl
      · dsimp only
        split
        · exact hl.fullscreenMode d
        · exact hl.fullscreenMode d
  | .returnTrue :: rest => rfl

theorem run_fullscreenMode (n : ℕ) (s : Closing) (d : ConId) :
    ((s.run cfg n).tree.con d).fullscreenMode = (s.tree.con d).fullscreenMode := by
  induction n generalizing s with
  | zero => rfl
  | succ n ih => rw [run, ih, step_fullscreenMode]

end Closing

namespace Tree

variable {cfg : Config} {t t' : Tree} {K c d f p q u v w x y : ConId}

theorem onRemoveChild_fullscreenMode (t : Tree) (c d : ConId) :
    ((t.onRemoveChild cfg c).con d).fullscreenMode = (t.con d).fullscreenMode :=
  Closing.run_fullscreenMode _ _ d

/-! ### What stays -/

/-- The container `x` is on the workspace `w`, and no other workspace in the content container `K` is
visible. -/
structure Held (t : Tree) (K w x : ConId) : Prop where
  healthy : Healthy t
  stacked : Stacked t
  workspace : (t.con w).type = .workspace
  reach : t.Reach w
  mem : w ∈ t.children K
  sole : ∀ y ∈ t.children K, y ≠ w → (t.con y).fullscreenMode ≠ .output
  within : Descent.Within t.children w x

namespace Held

theorem reach_of (h : Held t K w x) : t.Reach x := h.reach.trans h.within

theorem getWorkspace_eq (h : Held t K w x) : t.getWorkspace x = some w :=
  h.healthy.rooted.getWorkspace_eq h.healthy.layered h.reach_of h.workspace h.within

theorem sits (h : Held t K w x) : t.Sits x := by
  refine ⟨h.reach_of, ?_⟩
  rcases Descent.within_iff.mp h.within with rfl | hbelow
  · exact h.healthy.rooted.ne_croot_of_mem h.mem
  · obtain ⟨p, -, hmem⟩ := Descent.below_iff_exists.mp hbelow
    exact h.healthy.rooted.ne_croot_of_mem hmem

theorem links (h : Held t K w x) (hl : Links t t') : Held t' K w x where
  healthy := h.healthy.links hl
  stacked := h.stacked.links hl
  workspace := (hl.type w).trans h.workspace
  reach := hl.reach.mpr h.reach
  mem := hl.mem_children.mpr h.mem
  sole y hy hne := by
    rw [hl.fullscreenMode]
    exact h.sole y (hl.mem_children.mp hy) hne
  within := hl.within.mpr h.within

/-- The container that the workspaces are in is none. -/
theorem content_type (h : Held t K w x) : (t.con K).type ≠ .workspace ∧ (t.con K).type ≠ .floatingCon := by
  have hK : t.Reach K := h.healthy.rooted.reach_of_within h.reach (Descent.Below.single h.mem).within
  constructor
  · intro hK'
    exact h.healthy.layered.workspace K hK' w (.single h.mem) h.workspace
  · intro hfloat
    obtain ⟨q, -, hq, -, hmem⟩ := h.healthy.floating_parent hK hfloat
    exact h.healthy.layered.workspace q hq w ((Descent.Below.single hmem).tail h.mem) h.workspace

/-- Another workspace is not above what is on this one. -/
theorem not_within (h : Held t K w x) (hu : (t.con u).type = .workspace) (hne : u ≠ w) :
    ¬ Descent.Within t.children u x := fun hux =>
  hne (h.healthy.layered.unique h.healthy.rooted hu h.workspace hux h.within)

/-- A workspace is not above another one. -/
theorem not_within_workspace (h : Held t K w x) (hu : (t.con u).type = .workspace) (hne : u ≠ w) :
    ¬ Descent.Within t.children w u := by
  intro hwu
  rcases Descent.within_iff.mp hwu with rfl | hbelow
  · exact hne rfl
  · exact h.healthy.layered.workspace w h.workspace u hbelow hu

/-- A change of the fullscreen modes. -/
theorem of_modes (h : Held t K w x) (ht' : Healthy t') (hcon : ∀ y, ∃ mode,
      t'.con y = { t.con y with fullscreenMode := mode }) (hroot : t'.croot = t.croot)
    (hmode : ∀ y ∈ t.children K, y ≠ w → (t.con y).fullscreenMode ≠ .output →
      (t'.con y).fullscreenMode ≠ .output) : Held t' K w x := by
  have hchildren : t'.children = t.children := by
    ext1 q
    obtain ⟨mode, hq⟩ := hcon q
    rw [children, children, hq]
  refine ⟨ht', fun q y hy => ?_, ?_, ?_, ?_, fun y hy hne => ?_, ?_⟩
  · obtain ⟨mode, hq⟩ := hcon q
    rw [hchildren] at hy
    rw [hq]
    exact h.stacked q hy
  · obtain ⟨mode, hw⟩ := hcon w
    rw [hw]
    exact h.workspace
  · rw [Reach, hchildren, hroot]
    exact h.reach
  · rw [hchildren]
    exact h.mem
  · rw [hchildren] at hy
    exact hmode y hy hne (h.sole y hy hne)
  · rw [hchildren]
    exact h.within

theorem setFullscreenMode_none (h : Held t K w x) (c : ConId) : Held (t.setFullscreenMode c .none) K w x := by
  refine h.of_modes (h.healthy.setFullscreenMode fun _ => by simp)
    (fun y => ⟨_, setFullscreenMode_con c .none t y⟩) rfl fun y _ _ hy => ?_
  rw [setFullscreenMode_fullscreenMode]
  split
  · simp
  · exact hy

theorem conDisableFullscreen (h : Held t K w x) (c : ConId) : Held (t.conDisableFullscreen c) K w x := by
  unfold Tree.conDisableFullscreen
  split
  · exact h
  · split
    · exact h
    · exact h.setFullscreenMode_none c

theorem moveFullscreen (h : Held t K w x) (c v : ConId) : Held (t.moveFullscreen c v).1 K w x := by
  unfold Tree.moveFullscreen
  split
  · exact h
  · split
    · exact h.conDisableFullscreen _
    · exact h

/-! ### Closing -/

/-- Nothing is closed on the way to what stays. -/
theorem keeps {D : ConId → Prop} (h : Held t K w x) (hk : Keeps D t t') (ht' : Healthy t')
    (hs' : Stacked t') (hroot : t'.croot = t.croot) (htype : (t'.con w).type = (t.con w).type)
    (hmode : ∀ y, (t'.con y).fullscreenMode = (t.con y).fullscreenMode)
    (hD : ∀ d, D d → ¬ Descent.Within t.children d x) : Held t' K w x where
  healthy := ht'
  stacked := hs'
  workspace := htype.trans h.workspace
  reach := by
    rw [Reach, hroot]
    exact hk.within (fun d hd hdw => hD d hd (hdw.trans h.within)) h.reach
  mem := hk.kept K w h.mem fun hd => hD w hd h.within
  sole y hy hne := by
    rw [hmode]
    exact h.sole y (hk.subset K hy) hne
  within := hk.within hD h.within

variable (h : Held t K w x) (hu : (t.con u).type = .workspace) (hne : u ≠ w)
include h hu hne

/-- Nothing above another workspace alone is above what stays. -/
theorem not_aboveOnly (hd : t.AboveOnly u w d) : ¬ Descent.Within t.children d x := by
  intro hdx
  rcases Descent.within_total h.healthy.rooted.parent hdx h.within with hdw | hwd
  · exact hd.2 hdw
  · exact h.not_within_workspace hu hne (hwd.trans hd.1)

/-- **Asking another workspace whether it is empty** leaves everything on this one. -/
theorem onRemoveChild (hreach : t.Reach u) : Held (t.onRemoveChild cfg u) K w x := by
  obtain ⟨hk, hs, hh⟩ := @keeps_onRemoveChild cfg t u w h.healthy h.stacked hreach
    (h.not_within_workspace hu hne)
  have hcalm : Calm t (t.onRemoveChild cfg u) := calm_onRemoveChild h.healthy u
  refine h.keeps hk hh hs hcalm.croot ?_ (fun y => onRemoveChild_fullscreenMode t u y)
    fun d hd => h.not_aboveOnly hu hne hd
  exact hcalm.type w (h.healthy.rooted.lt_nextCon h.reach)

/-- The focus stays where it is. -/
theorem focused_onRemoveChild (hreach : t.Reach u) (hf : t.focused = some x) :
    (t.onRemoveChild cfg u).focused = some x := by
  obtain ⟨hk, -, -⟩ := @keeps_onRemoveChild cfg t u w h.healthy h.stacked hreach
    (h.not_within_workspace hu hne)
  rw [hk.focused fun f hf' hD => ?_, hf]
  obtain rfl : x = f := by simpa [hf] using hf'
  exact h.not_aboveOnly hu hne hD (.refl _)

end Held

/-! ### Moving a floating container -/

/-- **Detaching and attaching a floating container** moves one link. -/
theorem attaches_moveReattach (hc : (t.con c).type = .floatingCon) (hp : (t.con p).type ≠ .dockarea)
    (anchor : Option ConId) (behindFocused fixPercentage : Bool) :
    Attaches (t.conDetach c) (t.moveReattach cfg c p anchor behindFocused fixPercentage) c p := by
  have hattach : Attaches (t.conDetach c)
      ((t.conDetach c).conAttachAt cfg c p (if behindFocused then none else anchor) (!behindFocused)) c p := by
    have htype : ((t.conDetach c).con c).type = .floatingCon := (conDetach_type c c).trans hc
    rw [conAttachAt, if_neg fun hfollows => hfollows.2.2.1 htype]
    exact attaches_attachPlain (fun hdock => absurd ((conDetach_type c p).symm.trans hdock) hp)
      fun h => absurd htype h
  rw [moveReattach]
  generalize (t.conDetach c).conAttachAt cfg c p (if behindFocused then none else anchor)
    (!behindFocused) = u at hattach ⊢
  split
  · refine hattach.trans_links (.refl _) (Links.trans ?_
      ((links_setPercent _ c 0).trans (links_conFixPercent _ p)))
    split
    · exact .refl _
    · exact links_conFixPercent _ _
  · exact hattach

theorem moveReattach_floating (hc : (t.con c).type = .floatingCon) (anchor : Option ConId)
    (behindFocused fixPercentage : Bool) (d : ConId) :
    ((t.moveReattach cfg c p anchor behindFocused fixPercentage).con d).floating = (t.con d).floating := by
  -- what the places of containers are does not matter here
  let Any : ConId → Prop := fun _ => True
  have hdetach : Alters Any Any Any t (t.conDetach c) := .conDetach fun _ _ => trivial
  have hfix : ∀ (u : Tree) (q : ConId), Alters Any Any Any u (u.conFixPercent q) := fun u q =>
    .conFixPercent (.inr fun _ _ => trivial)
  have hattach : Alters Any Any Any (t.conDetach c)
      ((t.conDetach c).conAttachAt cfg c p (if behindFocused then none else anchor) (!behindFocused)) := by
    have htype : ((t.conDetach c).con c).type = .floatingCon := (conDetach_type c c).trans hc
    rw [conAttachAt, if_neg fun hfollows => hfollows.2.2.1 htype, attachPlain]
    have hparent : Alters Any Any Any (t.conDetach c) ((t.conDetach c).setParent c p) := .setParent trivial p
    refine hparent.trans (.trans ?_ (.editFocus p _))
    dsimp only
    rw [hparent.type, htype, if_neg (by rintro ⟨⟩), if_pos rfl]
    split_ifs
    · exact .editNodes trivial _
    · exact .editFloating p _
  rw [moveReattach]
  generalize (t.conDetach c).conAttachAt cfg c p (if behindFocused then none else anchor)
    (!behindFocused) = u at hattach ⊢
  have hparent : ∀ {v : Tree}, Alters Any Any Any u v →
      ((if fixPercentage then (v.setPercent c 0).conFixPercent p else u).con d).floating = (t.con d).floating := by
    intro v hv
    split
    · exact (((hdetach.trans hattach).trans hv).trans ((Alters.setPercent trivial 0).trans (hfix _ p))).floating d
    · exact (hdetach.trans hattach).floating d
  refine hparent ?_
  split
  · exact .refl u
  · exact hfix u _

theorem moveReattach_focus (ht : Rooted t) (hc : (t.con c).type = .floatingCon) (anchor : Option ConId)
    (behindFocused fixPercentage : Bool) :
    (t.moveReattach cfg c p anchor behindFocused fixPercentage).focused = t.focused
      ∧ ∀ q, ((t.moveReattach cfg c p anchor behindFocused fixPercentage).con q).focusHead =
        if q = p then (t.con q).focusHead.erase c ++ [c] else (t.con q).focusHead.erase c := by
  have hattach : ((t.conDetach c).conAttachAt cfg c p (if behindFocused then none else anchor)
        (!behindFocused)).focused = t.focused
      ∧ ∀ q, (((t.conDetach c).conAttachAt cfg c p (if behindFocused then none else anchor)
        (!behindFocused)).con q).focusHead
          = if q = p then (t.con q).focusHead.erase c ++ [c] else (t.con q).focusHead.erase c := by
    rw [conAttachAt, if_neg fun hfollows => hfollows.2.2.1 ((conDetach_type c c).trans hc)]
    refine ⟨by rw [attachPlain_focused, conDetach_focused], fun q => ?_⟩
    rw [attachPlain_focusHead, ht.conDetach_focusHead]
  rw [moveReattach]
  generalize (t.conDetach c).conAttachAt cfg c p (if behindFocused then none else anchor)
    (!behindFocused) = u at hattach ⊢
  have hfixed : ∀ {v : Tree}, SameFocus u v → SameFocus u ((v.setPercent c 0).conFixPercent p) := fun hv =>
    (hv.trans (sameFocus_setPercent _ c 0)).trans (sameFocus_conFixPercent _ p)
  have hsame : ∀ {v : Tree}, SameFocus u v → v.focused = t.focused ∧ ∀ q, (v.con q).focusHead =
      if q = p then (t.con q).focusHead.erase c ++ [c] else (t.con q).focusHead.erase c := fun hv =>
    ⟨hv.focused.trans hattach.1, fun q => (hv.focusHead q).trans (hattach.2 q)⟩
  split
  · refine hsame (hfixed ?_)
    split
    · exact .refl u
    · exact sameFocus_conFixPercent u _
  · exact hattach

/-- The tree `t'` is `t` with the floating container `c` on the workspace `p`. -/
structure Relocates (t t' : Tree) (c p : ConId) : Prop where
  healthy : Healthy t'
  stacked : Stacked t → Stacked t'
  croot : t'.croot = t.croot
  nextCon : t'.nextCon = t.nextCon
  type : ∀ d, (t'.con d).type = (t.con d).type
  floating : ∀ d, (t'.con d).floating = (t.con d).floating
  sticky : ∀ d, (t'.con d).sticky = (t.con d).sticky
  mem_children : ∀ {q x}, x ∈ t'.children q ↔ x ∈ t.children q ∧ x ≠ c ∨ q = p ∧ x = c
  fullscreenMode : ∀ d, (t'.con d).fullscreenMode = (t.con d).fullscreenMode
    ∨ (t.con d).type ≠ .workspace ∧ (t'.con d).fullscreenMode = .none
  focused : t'.focused = t.focused
  focusHead : ∀ q, (t'.con q).focusHead =
    if q = p then (t.con q).focusHead.erase c ++ [c] else (t.con q).focusHead.erase c

theorem relocates_moveReattach (ht : Healthy t) (hc : t.Reach c) (hfloat : (t.con c).type = .floatingCon)
    (hpw : (t.con p).type = .workspace) (anchor : ConId) (fixPercentage : Bool) :
    Relocates t (t.moveReattach cfg c p (some anchor) true fixPercentage) c p := by
  obtain ⟨q, hq, hqw, -, hmem⟩ := ht.floating_parent hc hfloat
  have hattach := @attaches_moveReattach cfg t c p hfloat (by simp [hpw]) (some anchor) true fixPercentage
  have hcp : ¬ Descent.Within t.children c p := by
    intro h
    exact ht.layered.workspace q hqw p ((Descent.Below.single hmem).trans_within h) hpw
  have hsub : ∀ x, Descent.Within (t.conDetach c).children c x → Descent.Within t.children c x :=
    fun x hx => hx.mono (conDetach_children_subset c)
  have hroot : c ≠ t.croot := ht.rooted.ne_croot_of_mem hmem
  have hrooted : Rooted (t.moveReattach cfg c p (some anchor) true fixPercentage) := by
    apply (ht.rooted.conDetach c).attaches hattach (ht.rooted.notMem_children_conDetach c)
    · exact fun h => hcp (hsub p h)
    · intro x hx
      rw [Alive, conDetach_allCons]
      exact ht.rooted.alive x (hc.trans (hsub x hx))
    · rw [conDetach_nextCon]
      exact ht.rooted.lt_nextCon hc
    · rwa [conDetach_croot]
  have hlayered : Layered (t.moveReattach cfg c p (some anchor) true fixPercentage) := by
    apply (ht.layered.conDetach c).attaches hattach (fun h => hcp (hsub p h))
    · -- nothing below the old workspace is one
      intro v _ _ x hx
      rw [conDetach_type]
      exact ht.layered.workspace q hqw x ((Descent.Below.single hmem).trans_within (hsub x hx))
    · rw [conDetach_type, conDetach_type]
      exact fun _ => hpw
  refine ⟨⟨hrooted, hlayered, fun v hv hvw => ?_⟩, fun hs => (hs.conDetach ht.rooted c).attaches hattach, ?_, ?_,
    fun d => ?_, moveReattach_floating hfloat (some anchor) true fixPercentage, fun d => ?_, ?_, fun d => ?_,
    (moveReattach_focus ht.rooted hfloat (some anchor) true fixPercentage).1,
    (moveReattach_focus ht.rooted hfloat (some anchor) true fixPercentage).2⟩
  · rw [hattach.type, conDetach_type, hattach.croot, conDetach_croot] at hvw
    rw [hattach.fullscreenMode, conDetach_fullscreenMode]
    rw [hattach.nextCon, conDetach_nextCon] at hv
    exact ht.global v hv hvw
  · rw [hattach.croot, conDetach_croot]
  · rw [hattach.nextCon, conDetach_nextCon]
  · rw [hattach.type, conDetach_type]
  · rw [hattach.sticky, conDetach_sticky]
  · intro r x
    rw [hattach.mem_children, ht.rooted.mem_children_conDetach c]
  · rw [hattach.fullscreenMode, conDetach_fullscreenMode]
    exact .inl rfl

namespace Relocates

theorem of_stirs {s : Tree} (hs : Stirs t s) (hf : SameFocus t s) (h : Relocates s t' c p) :
    Relocates t t' c p where
  healthy := h.healthy
  stacked ht := h.stacked (ht.links hs.links)
  croot := h.croot.trans hs.croot
  nextCon := h.nextCon.trans hs.nextCon
  type d := (h.type d).trans (hs.type d)
  floating d := (h.floating d).trans (hs.floating d)
  sticky d := (h.sticky d).trans (hs.links.sticky d)
  mem_children := by
    intro q x
    rw [h.mem_children, hs.links.mem_children]
  fullscreenMode d := by
    rw [← hs.links.fullscreenMode, ← hs.type]
    exact h.fullscreenMode d
  focused := h.focused.trans hf.focused
  focusHead q := by
    rw [h.focusHead, hf.focusHead]

/-- A container that is no workspace gave way before. -/
theorem of_setFullscreenMode {fs : ConId} (hfs : (t.con fs).type ≠ .workspace)
    (h : Relocates (t.setFullscreenMode fs .none) t' c p) : Relocates t t' c p where
  healthy := h.healthy
  stacked hs := h.stacked fun q x hx => by
    rw [setFullscreenMode_con]
    exact hs q (by rwa [setFullscreenMode_children] at hx)
  croot := h.croot
  nextCon := h.nextCon
  type d := by rw [h.type, setFullscreenMode_con]
  floating d := by rw [h.floating, setFullscreenMode_con]
  sticky d := by rw [h.sticky, setFullscreenMode_con]
  mem_children := by
    intro q x
    rw [h.mem_children, setFullscreenMode_children]
  fullscreenMode d := by
    have hd := h.fullscreenMode d
    rw [setFullscreenMode_fullscreenMode, setFullscreenMode_con] at hd
    split at hd
    · next hdfs => exact .inr ⟨hdfs ▸ hfs, hd.elim id And.right⟩
    · exact hd
  focused := h.focused
  focusHead q := by
    rw [h.focusHead, setFullscreenMode_con]

variable (ht : Healthy t) (h : Relocates t t' c p)
include ht h

/-- What is not in the container stays where it is. -/
theorem within_of (hx : Descent.Within t.children q x) (hc : ¬ Descent.Within t.children c x) :
    Descent.Within t'.children q x :=
  (ht.rooted.within_conDetach c hx hc).mono fun _ _ hy =>
    h.mem_children.mpr (.inl ((ht.rooted.mem_children_conDetach c).mp hy))

theorem reach_of (hx : t.Reach x) (hc : ¬ Descent.Within t.children c x) : t'.Reach x := by
  rw [Reach, h.croot]
  exact h.within_of ht hx hc

/-- What is on another workspace stays there. -/
theorem held (hheld : Held t K w x) (hp : (t.con p).type = .workspace)
    (hc : ¬ Descent.Within t.children c x) : Held t' K w x where
  healthy := h.healthy
  stacked := h.stacked hheld.stacked
  workspace := (h.type w).trans hheld.workspace
  reach := h.reach_of ht hheld.reach fun hcw => hc (hcw.trans hheld.within)
  mem := by
    refine h.mem_children.mpr (.inl ⟨hheld.mem, ?_⟩)
    rintro rfl
    exact hc hheld.within
  sole y hy hne := by
    rcases h.mem_children.mp hy with ⟨hy, -⟩ | ⟨rfl, -⟩
    · rcases h.fullscreenMode y with hmode | ⟨-, hmode⟩
      · rw [hmode]
        exact hheld.sole y hy hne
      · simp [hmode]
    · exact absurd hp hheld.content_type.1
  within := h.within_of ht hheld.within hc

/-- The container is on its new workspace. -/
theorem held_self (hheld : Held t K p x) (hx : ¬ Descent.Within t.children c x) : Held t' K p c :=
  { h.held ht hheld hheld.workspace hx with
    within := (Descent.Below.single (h.mem_children.mpr (.inr ⟨rfl, rfl⟩))).within }

end Relocates

section Front

variable (cfg t c) in
/-- What `_con_move_to_con` does up to the attaching. -/
def movedOver (w p anchor : ConId) (fixCoordinates fixPercentage : Bool) : Tree :=
  ((t.moveFixCoordinates c (t.getOutput w) fixCoordinates).moveFullscreen c w).1.moveReattach cfg c p
    (some anchor) true fixPercentage

theorem sameFocus_moveFixCoordinates (t : Tree) (c : ConId) (dest : Option ConId) (fix : Bool) :
    SameFocus t (t.moveFixCoordinates c dest fix) := by
  unfold moveFixCoordinates
  split
  · split
    · rw [floatingFixCoordinates]
      exact .of_modify t c _ rfl
    · exact .refl t
  · exact .refl t

/-- **A floating container lands** on the workspace it is moved to. -/
theorem relocates_movedOver (ht : Healthy t) (hc : t.Reach c) (hfloat : (t.con c).type = .floatingCon)
    (hw : (t.con w).type = .workspace) (anchor : ConId) (fixCoordinates fixPercentage : Bool) :
    Relocates t (t.movedOver cfg c w w anchor fixCoordinates fixPercentage) c w := by
  have hstirs := stirs_moveFixCoordinates t c (t.getOutput w) fixCoordinates
  have hf := sameFocus_moveFixCoordinates t c (t.getOutput w) fixCoordinates
  unfold movedOver
  generalize t.moveFixCoordinates c (t.getOutput w) fixCoordinates = s at hstirs hf ⊢
  refine .of_stirs hstirs hf ?_
  have hl := hstirs.links
  have hs := ht.links hl
  have hcs := hl.reach.mpr hc
  have hfloats := (hl.type c).trans hfloat
  have hws := (hl.type w).trans hw
  unfold moveFullscreen
  split
  · exact relocates_moveReattach hs hcs hfloats hws _ _
  · next fs hfs =>
    obtain ⟨hmode, hbelow⟩ := getFullscreenCon_spec hfs
    have htype := hs.layered.workspace w hws fs hbelow
    split
    · rw [conDisableFullscreen, if_neg htype, if_neg (by simp [hmode])]
      refine .of_setFullscreenMode htype
        (relocates_moveReattach (hs.setFullscreenMode fun _ => by simp) ?_ ?_ ?_ _ _)
      · rwa [Reach, setFullscreenMode_children]
      · rwa [setFullscreenMode_con]
      · rwa [setFullscreenMode_con]
    · exact relocates_moveReattach hs hcs hfloats hws _ _

theorem moveFullscreen_parent (t : Tree) (c w d : ConId) :
    ((t.moveFullscreen c w).1.con d).parent = (t.con d).parent := by
  unfold moveFullscreen conDisableFullscreen
  split
  · rfl
  · split
    · dsimp only
      split_ifs
      · rfl
      · rfl
      · rw [setFullscreenMode_con]
    · rfl

end Front

/-! ### Pushing a sticky window -/

/-- At the end of a move the old workspace may be closed. -/
structure Vacates (t t' : Tree) (u : ConId) : Prop where
  healthy : Healthy t'
  stacked : Stacked t'
  held : ∀ {K w x}, Held t K w x → u ≠ w → Held t' K w x
  subset : ∀ q, t'.children q ⊆ t.children q

theorem vacates_moveEnd (ht : Healthy t) (hs : Stacked t) (hu : (t.con u).type = .workspace)
    (hreach : t.Reach u) (hd : ¬ Descent.Within t.children d u) (c : ConId) (urgent : Bool)
    (sourceWs : Option ConId) : Vacates t (t.moveEnd cfg c urgent sourceWs (some u)) u := by
  have hl := (stirs_moveUrgent t c urgent sourceWs).links
  obtain ⟨hk, hstacked, hhealthy⟩ := @keeps_onRemoveChild cfg _ u d (ht.links hl) (hs.links hl)
    (hl.reach.mpr hreach) fun h => hd (hl.within.mp h)
  refine ⟨hhealthy, hstacked, fun hheld hne => ?_, fun q x hx => hl.mem_children.mp (hk.subset q hx)⟩
  exact (hheld.links hl).onRemoveChild ((hl.type u).trans hu) hne (hl.reach.mpr hreach)

/-- What pushing the floating container `c` does to the others. -/
structure Shifts (t t' : Tree) (c : ConId) : Prop where
  healthy : Healthy t'
  stacked : Stacked t'
  held : ∀ {K w x}, Held t K w x → c ∉ t.children w → Held t' K w x
  subset : ∀ q, ∀ x ∈ t'.children q, x ∈ t.children q ∨ x = c

theorem Shifts.refl (ht : Healthy t) (hs : Stacked t) : Shifts t t c :=
  ⟨ht, hs, fun h _ => h, fun _ _ hx => .inl hx⟩

section Shift

variable {showWorkspace : Tree → ConId → Tree} {target : ConId} (ht : Healthy t) (hc : t.Reach c)
  (hfloat : (t.con c).type = .floatingCon)
include ht hfloat

/-- **Moving a floating container with the focus ignored**: what is done up to the attaching, and the end. -/
theorem moveCon_ignoring (htarget : t.Reach target) (hw : t.getWorkspace target = some w)
    (fixCoordinates fixPercentage : Bool) :
    t.moveCon cfg showWorkspace c target w true fixCoordinates true fixPercentage = t
      ∨ ∃ anchor, t.moveCon cfg showWorkspace c target w true fixCoordinates true fixPercentage
        = (t.movedOver cfg c w w anchor fixCoordinates fixPercentage).moveEnd cfg c (t.con c).urgent
          (t.getWorkspace c) (t.con c).parent := by
  obtain ⟨hwtype, -⟩ := ht.rooted.getWorkspace_spec htarget hw
  have hnext : t.moveFocusNext c w true = none := by
    unfold moveFocusNext
    split
    · rw [if_neg (by simp)]
    · rfl
  unfold moveCon
  dsimp only
  split
  · exact .inl rfl
  · next anchor p hp =>
    obtain ⟨hwp, -, hpw⟩ := moveTarget_spec ht htarget hw hp
    obtain rfl : p = w := by
      rcases Descent.within_iff.mp hwp with rfl | hbelow
      · rfl
      · exact absurd (hpw hfloat) (ht.layered.workspace w hwtype p hbelow)
    have hparent : (((t.moveFixCoordinates c (t.getOutput p) fixCoordinates).moveFullscreen c p).1.con c).parent
        = (t.con c).parent := by
      rw [moveFullscreen_parent, (stirs_moveFixCoordinates t c _ fixCoordinates).links.parent]
    refine .inr ⟨anchor, ?_⟩
    simp only [not_true_eq_false, false_and, if_false, if_true, hnext, moveFocusBack, hparent]
    rfl

include hc in
/-- **Moving a floating container with the focus ignored** takes nothing away from the workspaces it was
not on. -/
theorem shifts_moveCon (hs : Stacked t) (htarget : t.Reach target) (hw : t.getWorkspace target = some w)
    (fixCoordinates fixPercentage : Bool) :
    Shifts t (t.moveCon cfg showWorkspace c target w true fixCoordinates true fixPercentage) c := by
  obtain ⟨u, hu, huw, hureach, hmem⟩ := ht.floating_parent hc hfloat
  obtain ⟨hwtype, -⟩ := ht.rooted.getWorkspace_spec htarget hw
  rcases @moveCon_ignoring cfg t c w showWorkspace target ht hfloat htarget hw fixCoordinates fixPercentage
    with heq | ⟨anchor, heq⟩
  · rw [heq]
    exact .refl ht hs
  · rw [heq, hu]
    have hrelocates := @relocates_movedOver cfg t c w ht hc hfloat hwtype anchor fixCoordinates fixPercentage
    generalize t.movedOver cfg c w w anchor fixCoordinates fixPercentage = s at hrelocates ⊢
    have hucon : ¬ Descent.Within t.children c u := ht.rooted.acyclic.not_within (.single hmem)
    have hus := hrelocates.reach_of ht hureach hucon
    have hutype := (hrelocates.type u).trans huw
    -- below the container there is no workspace
    have hcu : ¬ Descent.Within s.children c u := by
      intro h
      have hcw : c ∈ s.children w := hrelocates.mem_children.mpr (.inr ⟨rfl, rfl⟩)
      have hwtype := (hrelocates.type w).trans hwtype
      exact hrelocates.healthy.layered.workspace w hwtype u ((Descent.Below.single hcw).trans_within h) hutype
    have hvacates : Vacates s (s.moveEnd cfg c (t.con c).urgent (t.getWorkspace c) (some u)) u :=
      vacates_moveEnd hrelocates.healthy (hrelocates.stacked hs) hutype hus hcu c _ _
    refine ⟨hvacates.healthy, hvacates.stacked, fun {K w x} hheld hcw => ?_, fun q x hx => ?_⟩
    · refine hvacates.held (hrelocates.held ht hheld hwtype fun hcx => ?_) ?_
      · exact hheld.not_within huw (fun h => hcw (h ▸ hmem)) ((Descent.Below.single hmem).trans_within hcx).within
      · rintro rfl
        exact hcw hmem
    · exact (hrelocates.mem_children.mp (hvacates.subset q hx)).imp And.left And.right

include hc

/-- The same for `con_move_to_workspace`, which goes down to the focused container of the workspace. -/
theorem moveToWorkspaceWith_ignoring {ws : ConId} (hws : t.Reach ws) (fixCoordinates : Bool) :
    t.moveToWorkspaceWith cfg showWorkspace c ws fixCoordinates true = t
      ∨ t.Reach (t.descendFocused ws) ∧ t.getWorkspace (t.descendFocused ws) = some ws
        ∧ t.moveToWorkspaceWith cfg showWorkspace c ws fixCoordinates true
          = t.moveCon cfg showWorkspace c (t.descendFocused ws) ws true fixCoordinates true true := by
  rw [moveToWorkspaceWith]
  split
  · exact .inl rfl
  · next hne =>
    obtain ⟨hwstype, -⟩ := not_or.mp hne
    rw [not_not] at hwstype
    obtain ⟨q, hq, hqtype, -, -⟩ := ht.floating_parent hc hfloat
    have htarget : Descent.Within t.children ws (t.descendFocused ws) :=
      ht.rooted.descendFocusedN_within _ _
    have hget : t.getWorkspace (t.descendFocused ws) = some ws :=
      ht.rooted.getWorkspace_eq ht.layered (hws.trans htarget) hwstype htarget
    unfold moveConWith
    rw [hget]
    dsimp only
    by_cases hmoved : t.isFloating c = true
    · -- the workspace that would be moved instead is left to the caller
      rw [movedCon, if_pos hmoved, hq, Option.getD_some, if_pos hqtype]
      exact .inl rfl
    · rw [movedCon, if_neg hmoved, if_neg (by simp [hfloat]), if_neg (by simp)]
      exact .inr ⟨hws.trans htarget, rfl, rfl⟩

theorem shifts_moveToWorkspaceWith (hs : Stacked t) {ws : ConId} (hws : t.Reach ws) (fixCoordinates : Bool) :
    Shifts t (t.moveToWorkspaceWith cfg showWorkspace c ws fixCoordinates true) c := by
  rcases @moveToWorkspaceWith_ignoring cfg t c showWorkspace ht hc hfloat ws hws fixCoordinates
    with heq | ⟨htarget, hget, heq⟩
  · rw [heq]
    exact .refl ht hs
  · rw [heq]
    exact shifts_moveCon ht hc hfloat hs htarget hget fixCoordinates true

end Shift

/-- The floating container around something on a workspace is on that workspace. -/
theorem Held.mem_of_parent (h : Held t K w f) (hc : (t.con f).parent = some c)
    (hfloat : (t.con c).type = .floatingCon) : c ∈ t.children w := by
  have hr := h.healthy.rooted
  have hfc := hr.mem_children_of_parent h.reach_of hc
  rcases Descent.within_iff.mp h.within with rfl | hbelow
  · -- the container around the workspace does not float
    obtain rfl : K = c := Option.some_inj.mp ((hr.parent K f h.mem).symm.trans hc)
    exact absurd hfloat h.content_type.2
  · have hwc := Descent.within_parent hr.parent hbelow hc
    obtain ⟨q, -, hq, -, hmem⟩ := h.healthy.floating_parent (hr.reach_of_within h.reach_of (.single hfc)) hfloat
    obtain rfl := h.healthy.layered.unique hr hq h.workspace (Descent.Below.single hmem).within hwc
    exact hmem

variable (cfg t c) in
/-- The focus goes to the container, and back to the workspace that had it. -/
def visitFocus : Tree :=
  let t' := t.conActivate cfg (t.descendFocused c)
  match t.focused.bind t.getWorkspace with
  | none => t'
  | some ws => t'.conActivate cfg (t'.descendFocused ws)

theorem stirs_visitFocus (t : Tree) (c : ConId) : Stirs t (t.visitFocus cfg c) := by
  unfold visitFocus
  dsimp only
  split
  · exact stirs_conActivate cfg t _
  · exact (stirs_conActivate cfg t _).trans (stirs_conActivate cfg _ _)

/-- What is to stay, by its content container and its workspace. -/
structure HeldAll (S : ConId → ConId → ConId → Prop) (t : Tree) : Prop where
  healthy : Healthy t
  stacked : Stacked t
  held : ∀ {K w x}, S K w x → Held t K w x

/-- What holds of the tree while sticky windows are pushed and the workspaces hold what they are to. -/
structure KeepsPushing (cfg : Config) (showWorkspace : Tree → ConId → Tree)
    (S : ConId → ConId → ConId → Prop) (J : Tree → Prop) : Prop where
  visit : ∀ {t c}, HeldAll S t → J t → J (t.visitFocus cfg c)
  move : ∀ {t c ws}, HeldAll S t → J t → t.Reach c → (t.con c).type = .floatingCon → t.Reach ws →
    (∀ K w x, S K w x → c ∉ t.children w) → J (t.moveToWorkspaceWith cfg showWorkspace c ws true true)

theorem KeepsPushing.trivial {showWorkspace : Tree → ConId → Tree} {S : ConId → ConId → ConId → Prop} :
    KeepsPushing cfg showWorkspace S fun _ => True :=
  ⟨fun _ _ => True.intro, fun _ _ _ _ _ _ => True.intro⟩

namespace HeldAll

variable {S : ConId → ConId → ConId → Prop} {showWorkspace : Tree → ConId → Tree}
  {oldFocus visibleWs : Option ConId}

theorem links (hS : HeldAll S t) (hl : Links t t') : HeldAll S t' :=
  ⟨hS.healthy.links hl, hS.stacked.links hl, fun h => (hS.held h).links hl⟩

section Push

variable (hfocus : ∀ f ∈ oldFocus, ∃ K v, S K v f)
include hfocus

/-- **One container of the loop**: nothing is done, or the focus goes there and back, or the container is
moved away from a workspace that is not to hold it. -/
theorem pushSticky_cases (hS : HeldAll S t)
    (hc : ∀ K w x, S K w x → c ∈ t.children w → ∀ v ∈ visibleWs, v = w) :
    t.pushSticky cfg showWorkspace oldFocus visibleWs c = t
      ∨ t.pushSticky cfg showWorkspace oldFocus visibleWs c = t.visitFocus cfg c
      ∨ ∃ ws, t.Reach c ∧ (t.con c).type = .floatingCon ∧ t.Reach ws
        ∧ (∀ K w x, S K w x → c ∉ t.children w)
        ∧ t.pushSticky cfg showWorkspace oldFocus visibleWs c
          = t.moveToWorkspaceWith cfg showWorkspace c ws true true := by
  unfold Tree.pushSticky
  split
  · exact .inl rfl
  · next ws =>
    split
    · exact .inl rfl
    · next hskip =>
      obtain ⟨hfloat, -, hin⟩ := by simpa only [not_or, not_not] using hskip
      have hr := hS.healthy.rooted
      have hcreach := hr.inTree_iff.mp hin.1
      have hwsreach := hr.inTree_iff.mp hin.2
      have hhome : ∀ K w x, S K w x → c ∈ t.children w → t.getWorkspace c = some ws := by
        intro K w x hSw hmem
        obtain rfl := hc K w x hSw hmem ws rfl
        exact hr.getWorkspace_eq hS.healthy.layered hcreach (hS.held hSw).workspace (.single hmem)
      dsimp only
      by_cases hstays : t.getWorkspace c = some ws
      · -- it is at home, and only the focus may change
        have hmove : ∀ b, t.moveToWorkspaceWith cfg showWorkspace c ws true b = t :=
          fun b => if_pos (.inr hstays)
        rw [hmove]
        split
        · exact .inl rfl
        · exact .inr (.inl rfl)
      · have hignore : (oldFocus.bind fun f => (t.con f).parent) ≠ some c := by
          intro hparent
          obtain ⟨f, hf, hparent⟩ := Option.bind_eq_some_iff.mp hparent
          obtain ⟨K, v, hSv⟩ := hfocus f hf
          exact hstays (hhome K v f hSv ((hS.held hSv).mem_of_parent hparent hfloat))
        rw [decide_eq_true hignore, if_pos rfl]
        exact .inr (.inr ⟨ws, hcreach, hfloat, hwsreach, fun K w x hSw hmem => hstays (hhome K w x hSw hmem), rfl⟩)

variable {J : Tree → Prop} (hJ : KeepsPushing cfg showWorkspace S J)
include hJ

/-- What holds while sticky windows are pushed holds after one of them. -/
theorem pushSticky (hS : HeldAll S t) (ht : J t)
    (hc : ∀ K w x, S K w x → c ∈ t.children w → ∀ v ∈ visibleWs, v = w) :
    (HeldAll S (t.pushSticky cfg showWorkspace oldFocus visibleWs c)
        ∧ J (t.pushSticky cfg showWorkspace oldFocus visibleWs c))
      ∧ ∀ q, ∀ x ∈ (t.pushSticky cfg showWorkspace oldFocus visibleWs c).children q, x ∈ t.children q ∨ x = c := by
  rcases @pushSticky_cases cfg t c S showWorkspace oldFocus visibleWs hfocus hS hc with
    heq | heq | ⟨ws, hcreach, hfloat, hwsreach, haway, heq⟩
  · rw [heq]
    exact ⟨⟨hS, ht⟩, fun _ _ hx => .inl hx⟩
  · rw [heq]
    have hl : Links t (t.visitFocus cfg c) := (stirs_visitFocus t c).links
    exact ⟨⟨hS.links hl, hJ.visit hS ht⟩, fun _ _ hx => .inl (hl.mem_children.mp hx)⟩
  · rw [heq]
    have hshifts : Shifts t (t.moveToWorkspaceWith cfg showWorkspace c ws true true) c :=
      shifts_moveToWorkspaceWith hS.healthy hcreach hfloat hS.stacked hwsreach true
    refine ⟨⟨⟨hshifts.healthy, hshifts.stacked, fun h => hshifts.held (hS.held h) (haway _ _ _ h)⟩, ?_⟩,
      hshifts.subset⟩
    exact hJ.move hS ht hcreach hfloat hwsreach haway

/-- The loop over the focus stack of a workspace. -/
theorem pushStickyChildren {ws : ConId} (hws : ∀ K w x, S K w x → ws = w → ∀ v ∈ visibleWs, v = w) (n : ℕ)
    (hS : HeldAll S t) (ht : J t) {child : Option ConId}
    (hchild : ∀ d ∈ child, ∀ K w x, S K w x → d ∈ t.children w → ∀ v ∈ visibleWs, v = w) :
    HeldAll S (Tree.pushStickyChildren cfg showWorkspace oldFocus visibleWs ws n t child)
      ∧ J (Tree.pushStickyChildren cfg showWorkspace oldFocus visibleWs ws n t child) := by
  induction n generalizing t child with
  | zero => exact ⟨hS, ht⟩
  | succ n ih =>
    cases child with
    | none => exact ⟨hS, ht⟩
    | some c =>
      obtain ⟨⟨hpush, htpush⟩, hsubset⟩ := @pushSticky cfg t c S showWorkspace oldFocus visibleWs hfocus J hJ
        hS ht (hchild c rfl)
      refine ih hpush htpush fun d hd K w x hSw hdw => ?_
      -- the next one is another container of this workspace
      have hr := hS.healthy.rooted
      have hdws := hr.focus ws d (Queue.mem_of_next hd)
      have hmem := (hsubset w d hdw).resolve_right (Queue.next_ne (hr.nodupFocus ws) hd)
      exact hws K w x hSw (Option.some_inj.mp ((hr.parent ws d hdws).symm.trans (hr.parent w d hmem)))

/-- The loop over the focus stack of a content container. -/
theorem pushStickyWorkspaces {content : ConId}
    (hcontent : ∀ K w x, S K w x → content = K → ∀ v ∈ visibleWs, v = w) (n : ℕ) (hS : HeldAll S t)
    (ht : J t) {ws : Option ConId} (hws : ∀ u ∈ ws, ∀ K w x, S K w x → u = w → ∀ v ∈ visibleWs, v = w) :
    HeldAll S (Tree.pushStickyWorkspaces cfg showWorkspace oldFocus visibleWs content n t ws)
      ∧ J (Tree.pushStickyWorkspaces cfg showWorkspace oldFocus visibleWs content n t ws) := by
  induction n generalizing t ws with
  | zero => exact ⟨hS, ht⟩
  | succ n ih =>
    cases ws with
    | none => exact ⟨hS, ht⟩
    | some ws =>
      have hr := hS.healthy.rooted
      obtain ⟨hpush, htpush⟩ := pushStickyChildren hfocus hJ (hws ws rfl) t.nextCon hS ht
        fun d hd K w x hSw hdw => by
          have hdws := hr.focus ws d (List.mem_of_mem_head? hd)
          exact hws ws rfl K w x hSw
            (Option.some_inj.mp ((hr.parent ws d hdws).symm.trans (hr.parent w d hdw)))
      refine ih hpush htpush fun u hu K w x hSw huw => ?_
      subst huw
      have hmem := hr.focus content u (Queue.mem_of_next hu)
      exact hcontent K u x hSw
        (Option.some_inj.mp ((hr.parent content u hmem).symm.trans (hr.parent K u (hS.held hSw).mem)))

/-- **What holds while sticky windows are pushed** holds when those of all outputs are. -/
theorem outputPushStickyWindows_keeps (hS : HeldAll S t) (ht : J t) :
    HeldAll S (t.outputPushStickyWindows cfg showWorkspace oldFocus)
      ∧ J (t.outputPushStickyWindows cfg showWorkspace oldFocus) := by
  rw [Tree.outputPushStickyWindows]
  generalize (t.con t.croot).focusHead = l
  induction l generalizing t with
  | nil => exact ⟨hS, ht⟩
  | cons output l ih =>
    rw [List.foldl_cons]
    split
    · exact ih hS ht
    · next content hoc =>
      have hr := hS.healthy.rooted
      have hcontent : ∀ K w x, S K w x → content = K → ∀ v ∈ t.visibleWorkspace output, v = w := by
        rintro K w x hSw rfl v hv
        have hmem : v ∈ t.children content := by
          have hfind := List.mem_of_find?_eq_some hv
          rw [workspacesOf, hoc] at hfind
          exact List.mem_append_left _ hfind
        have hvisible : t.workspaceIsVisible v = true := List.find?_some hv
        unfold workspaceIsVisible at hvisible
        split at hvisible
        · cases hvisible
        · have hmode := (getFullscreenCon_spec (of_decide_eq_true hvisible)).1
          by_contra hne
          exact (hS.held hSw).sole v hmem hne hmode
      obtain ⟨hpush, htpush⟩ := pushStickyWorkspaces hfocus hJ hcontent t.nextCon hS ht
        fun u hu K w x hSw huw => by
          subst huw
          have hmem := hr.focus content u (List.mem_of_mem_head? hu)
          exact hcontent K u x hSw
            (Option.some_inj.mp ((hr.parent content u hmem).symm.trans (hr.parent K u (hS.held hSw).mem)))
      exact ih hpush htpush

omit hJ in
/-- **Pushing the sticky windows** of all outputs takes nothing away from the workspaces. -/
theorem outputPushStickyWindows (hS : HeldAll S t) :
    HeldAll S (t.outputPushStickyWindows cfg showWorkspace oldFocus) :=
  (outputPushStickyWindows_keeps hfocus .trivial hS True.intro).1

end Push

end HeldAll

end Tree

end I3
