import I3Aiwr.Tree.Exclusive
import I3Aiwr.Tree.Swap

/-!
# Fullscreen modes after a swap

Swapped containers take what is in them to the other workspace, and then exchange their own
fullscreen modes by enabling and disabling. A container that is fullscreen inside of one of the two
meets another one on the new workspace; which of them gives way, if any, depends on the modes of the
two.

## Main definitions

* `Tree.Crossed t s a b u v`: in `s` the containers `a` on `u` and `b` on `v` changed places
* `Tree.SwapFits t a b`: what makes fullscreen containers exclude each other after the swap

## Main results

* `Tree.crossed_swapPlaces`
* `Tree.exclusive_conSwap`: a swap that fits keeps fullscreen containers exclusive
-/

namespace I3

namespace Tree

variable {cfg : Config} {t s s' : Tree} {a b p q u v : ConId}

/-- The tree `s` is `t` after the containers `a` on the workspace `u` and `b` on the workspace `v`
changed places. -/
structure Crossed (t s : Tree) (a b u v : ConId) : Prop where
  healthy : Healthy s
  allCons : s.allCons = t.allCons
  croot : s.croot = t.croot
  nextCon : s.nextCon = t.nextCon
  type : ∀ d, (s.con d).type = (t.con d).type
  fullscreenMode : ∀ d, (s.con d).fullscreenMode = (t.con d).fullscreenMode
  sticky : ∀ d, (s.con d).sticky = (t.con d).sticky
  reach : ∀ x, s.Reach x → t.Reach x
  workspaceFst : (t.con u).type = .workspace ∧ Descent.Below t.children u a
  workspaceSnd : (t.con v).type = .workspace ∧ Descent.Below t.children v b
  reachFst : s.Reach a
  reachSnd : s.Reach b
  below : ∀ w, (t.con w).type = .workspace → ∀ x, Descent.Below s.children w x →
    (Descent.Below t.children w x ∧ ¬ Descent.Within t.children a x ∧ ¬ Descent.Within t.children b x)
      ∨ (w = u ∧ Descent.Within t.children b x) ∨ (w = v ∧ Descent.Within t.children a x)
  outside : ∀ w x, ¬ Descent.Within t.children a x → ¬ Descent.Within t.children b x →
    Descent.Below t.children w x → Descent.Below s.children w x
  fst : ∀ x, Descent.Within t.children a x → Descent.Below s.children v x
  snd : ∀ x, Descent.Within t.children b x → Descent.Below s.children u x

/-- The links are left alone after the swap. -/
theorem Crossed.links (h : Crossed t s a b u v) (hl : Links s s') : Crossed t s' a b u v where
  healthy := h.healthy.links hl
  allCons := hl.allCons.trans h.allCons
  croot := hl.croot.trans h.croot
  nextCon := hl.nextCon.trans h.nextCon
  type d := (hl.type d).trans (h.type d)
  fullscreenMode d := (hl.fullscreenMode d).trans (h.fullscreenMode d)
  sticky d := (hl.sticky d).trans (h.sticky d)
  reach x hx := h.reach x (hl.reach.mp hx)
  workspaceFst := h.workspaceFst
  workspaceSnd := h.workspaceSnd
  reachFst := hl.reach.mpr h.reachFst
  reachSnd := hl.reach.mpr h.reachSnd
  below w hw x hx := h.below w hw x (hl.sameShape.below.mp hx)
  outside w x hxa hxb hx := hl.sameShape.below.mpr (h.outside w x hxa hxb hx)
  fst x hx := hl.sameShape.below.mpr (h.fst x hx)
  snd x hx := hl.sameShape.below.mpr (h.snd x hx)

@[simp] theorem takePlaceOf_sticky (c : ConId) (e : Con) (d : ConId) :
    ((t.takePlaceOf c e).con d).sticky = (t.con d).sticky := by
  rw [takePlaceOf, modify_con]
  split <;> rfl

theorem swapInTree_sticky (d : ConId) :
    ((t.swapInTree a b p q).con d).sticky = (t.con d).sticky := by
  rw [swapInTree]
  by_cases hpq : p = q <;> simp [hpq, exchangeEntries]

theorem crossed_swapInTree (ht : Healthy t) (h : Swappable t a b p q) (hp : t.Reach p)
    (hq : t.Reach q) (hu : (t.con u).type = .workspace) (hv : (t.con v).type = .workspace)
    (hua : Descent.Below t.children u a) (hvb : Descent.Below t.children v b) :
    Crossed t (t.swapInTree a b p q) a b u v := by
  have hr := ht.rooted
  obtain ⟨hcons, hcroot, hnext⟩ := swapInTree_globals (t := t) (a := a) (b := b) (p := p) (q := q)
  have hrooted : Rooted (t.swapInTree a b p q) := h.rooted hr hp hq
  have hfst : ∀ x, Descent.Within t.children a x →
      Descent.Below (t.swapInTree a b p q).children v x := fun x hx =>
    (h.below_snd hr hvb).trans_within (h.within_fst hr hx)
  have hsnd : ∀ x, Descent.Within t.children b x →
      Descent.Below (t.swapInTree a b p q).children u x := by
    intro x hx
    refine (h.below_fst hr hua).trans_within ?_
    exact Descent.within_exchange_within hr.acyclic (h.exchanges hr).symm h.notWithin'
      (fun _ _ hx => (h.mem_children hr).mpr (Equiv.swap_comm a b ▸ hx)) hx
  have hreach : ∀ w, (t.con w).type = .workspace → t.Reach w →
      (t.swapInTree a b p q).Reach w := by
    intro w hw hwr
    rw [Reach, hcroot]
    rcases Descent.within_iff.mp hwr with rfl | hwr
    · exact .refl _
    · refine (h.below_outside hr (fun haw => ?_) (fun hbw => ?_) hwr).within
      · exact ht.layered.workspace u hu w (hua.trans_within haw) hw
      · exact ht.layered.workspace v hv w (hvb.trans_within hbw) hw
  have hur : t.Reach u := hr.reach_of_within (hp.tail h.memFst).within hua.within
  have hvr : t.Reach v := hr.reach_of_within (hq.tail h.memSnd).within hvb.within
  exact {
    healthy := by
      refine ⟨hrooted, h.layered hr ht.layered hu hv hua hvb, fun w hw hwtype => ?_⟩
      rw [Swappable.type, hcroot] at hwtype
      rw [Swappable.fullscreenMode]
      exact ht.global w (hnext ▸ hw) hwtype
    allCons := hcons
    croot := hcroot
    nextCon := hnext
    type := Swappable.type
    fullscreenMode := Swappable.fullscreenMode
    sticky := swapInTree_sticky
    reach := fun x hx => h.reach hr hp hq hx
    workspaceFst := ⟨hu, hua⟩
    workspaceSnd := ⟨hv, hvb⟩
    reachFst := (hreach v hv hvr).trans (hfst a (.refl _)).within
    reachSnd := (hreach u hu hur).trans (hsnd b (.refl _)).within
    below := by
      intro w hw x hx
      have hwa : ¬ Descent.Within t.children a w := fun haw =>
        ht.layered.workspace u hu w (hua.trans_within haw) hw
      have hwb : ¬ Descent.Within t.children b w := fun hbw =>
        ht.layered.workspace v hv w (hvb.trans_within hbw) hw
      rcases h.below hr hwa hwb hx with hx | ⟨hwa, hx⟩ | ⟨hwb, hx⟩
      · exact .inl hx
      · exact .inr (.inl ⟨ht.layered.unique hr hw hu hwa.within hua.within, hx⟩)
      · exact .inr (.inr ⟨ht.layered.unique hr hw hv hwb.within hvb.within, hx⟩)
    outside := fun w x hxa hxb hx => h.below_outside hr hxa hxb hx
    fst := hfst
    snd := hsnd }

/-- **After the swap in the tree** only the focus and the urgency change before the modes do. -/
theorem crossed_swapPlaces (ht : Healthy t) (h : Swappable t a b p q) (hp : t.Reach p)
    (hq : t.Reach q) (hu : (t.con u).type = .workspace) (hv : (t.con v).type = .workspace)
    (hua : Descent.Below t.children u a) (hvb : Descent.Below t.children v b) :
    Crossed t (t.swapPlaces cfg a b p q) a b u v := by
  have hcross := crossed_swapInTree ht h hp hq hu hv hua hvb
  have hurgency : ∀ {w : Tree} {x y : Bool}, Crossed t w a b u v →
      Crossed t ((w.conSetUrgency a x).conSetUrgency b y) a b u v := fun hw =>
    (hw.links (stirs_conSetUrgency _ a _).links).links (stirs_conSetUrgency _ b _).links
  unfold swapPlaces
  refine hurgency ?_
  split
  · exact hcross
  · exact hcross.links (stirs_conFocus cfg _ _).links

/-! ### Exchanging the modes -/

/-- What a container inside of one of the two meets on the other workspace gives way, or there is
nothing to meet. -/
structure SwapSafe (t : Tree) (a b u v : ConId) : Prop where
  globalFst : (t.con a).fullscreenMode = .output →
    (∃ y, Descent.Below t.children b y ∧ (t.con y).fullscreenMode = .output) → NoGlobal t
  outputFst : (t.con a).fullscreenMode ≠ .output → u ≠ v → ∀ x y, Descent.Below t.children u x →
    ¬ Descent.Within t.children a x → (t.con x).fullscreenMode = .output →
    Descent.Below t.children b y → (t.con y).fullscreenMode ≠ .output
  globalSnd : (t.con b).fullscreenMode = .output →
    (∃ y, Descent.Below t.children a y ∧ (t.con y).fullscreenMode = .output) → NoGlobal t
  outputSnd : (t.con b).fullscreenMode = .none → u ≠ v → ∀ x y, Descent.Below t.children v x →
    ¬ Descent.Within t.children b x → (t.con x).fullscreenMode = .output →
    Descent.Below t.children a y → (t.con y).fullscreenMode ≠ .output

namespace Crossed

section

variable (ht : Healthy t) (he : Exclusive t) (h : Crossed t s a b u v)
include h

/-- Where the containers are afterwards. -/
theorem getWorkspace_fst (hs : SameShape s s') (hs' : Healthy s') : s'.getWorkspace a = some v := by
  apply hs'.rooted.getWorkspace_eq hs'.layered (hs.reach.mpr h.reachFst)
  · rw [hs.type, h.type]
    exact h.workspaceSnd.1
  · exact (hs.below.mpr (h.fst a (.refl _))).within

theorem getWorkspace_snd (hs : SameShape s s') (hs' : Healthy s') : s'.getWorkspace b = some u := by
  apply hs'.rooted.getWorkspace_eq hs'.layered (hs.reach.mpr h.reachSnd)
  · rw [hs.type, h.type]
    exact h.workspaceFst.1
  · exact (hs.below.mpr (h.snd b (.refl _))).within

include ht

theorem reach_fst : t.Reach u :=
  ht.rooted.reach_of_within (h.reach a h.reachFst) h.workspaceFst.2.within

theorem reach_snd : t.Reach v :=
  ht.rooted.reach_of_within (h.reach b h.reachSnd) h.workspaceSnd.2.within

theorem type_fst : (t.con a).type ≠ .workspace :=
  ht.layered.workspace u h.workspaceFst.1 a h.workspaceFst.2

theorem type_snd : (t.con b).type ≠ .workspace :=
  ht.layered.workspace v h.workspaceSnd.1 b h.workspaceSnd.2

include he

/-- Two containers of one workspace are not both fullscreen on the output. -/
theorem uniqueFst {x y : ConId} (hx : Descent.Below t.children u x)
    (hy : Descent.Below t.children u y) (hxm : (t.con x).fullscreenMode = .output)
    (hym : (t.con y).fullscreenMode = .output) : x = y :=
  he.output u (h.reach_fst ht) h.workspaceFst.1 x y hx hy hxm hym

theorem uniqueSnd {x y : ConId} (hx : Descent.Below t.children v x)
    (hy : Descent.Below t.children v y) (hxm : (t.con x).fullscreenMode = .output)
    (hym : (t.con y).fullscreenMode = .output) : x = y :=
  he.output v (h.reach_snd ht) h.workspaceSnd.1 x y hx hy hxm hym

/-- Fullscreen containers exclude each other after the swap when what is inside of the two meets no
other one. -/
theorem exclusive_of (hs : SameShape s s')
    (houtput : ∀ x, (s'.con x).fullscreenMode = .output → (t.con x).fullscreenMode = .output)
    (hglobal : ∀ x, (s'.con x).fullscreenMode = .global → (t.con x).fullscreenMode = .global)
    (hfst : u ≠ v → ∀ x y, Descent.Below t.children u x → ¬ Descent.Within t.children a x →
      Descent.Within t.children b y → (s'.con x).fullscreenMode = .output →
      (s'.con y).fullscreenMode ≠ .output)
    (hsnd : u ≠ v → ∀ x y, Descent.Below t.children v x → ¬ Descent.Within t.children b x →
      Descent.Within t.children a y → (s'.con x).fullscreenMode = .output →
      (s'.con y).fullscreenMode ≠ .output) : Exclusive s' := by
  have hua := h.workspaceFst.2
  have hvb := h.workspaceSnd.2
  -- one that stayed and one that came along, to `u` or to `v`
  have hcrossFst : ∀ {x y}, Descent.Below t.children u x → ¬ Descent.Within t.children a x →
      Descent.Within t.children b y → (s'.con x).fullscreenMode = .output →
      (s'.con y).fullscreenMode = .output → x = y := by
    intro x y hx hxa hy hxm hym
    by_cases huv : u = v
    · subst huv
      exact h.uniqueFst ht he hx (hvb.trans_within hy) (houtput x hxm) (houtput y hym)
    · exact absurd hym (hfst huv x y hx hxa hy hxm)
  have hcrossSnd : ∀ {x y}, Descent.Below t.children v x → ¬ Descent.Within t.children b x →
      Descent.Within t.children a y → (s'.con x).fullscreenMode = .output →
      (s'.con y).fullscreenMode = .output → x = y := by
    intro x y hx hxb hy hxm hym
    by_cases huv : u = v
    · subst huv
      exact h.uniqueFst ht he hx (hua.trans_within hy) (houtput x hxm) (houtput y hym)
    · exact absurd hym (hsnd huv x y hx hxb hy hxm)
  apply hs.exclusive
  · intro x y hx hy _ _ hxm hym
    exact he.eq_of_global ht (h.reach x hx) (h.reach y hy) (hglobal x hxm) (hglobal y hym)
  · intro w hwr hw x y hx hy hxm hym
    rw [h.type] at hw
    rcases h.below w hw x hx with ⟨hx, hxa, hxb⟩ | ⟨rfl, hx⟩ | ⟨rfl, hx⟩
    · rcases h.below w hw y hy with ⟨hy, _, _⟩ | ⟨rfl, hy⟩ | ⟨rfl, hy⟩
      · exact he.output w (h.reach w hwr) hw x y hx hy (houtput x hxm) (houtput y hym)
      · exact hcrossFst hx hxa hy hxm hym
      · exact hcrossSnd hx hxb hy hxm hym
    · rcases h.below w hw y hy with ⟨hy, hya, _⟩ | ⟨_, hy⟩ | ⟨rfl, hy⟩
      · exact (hcrossFst hy hya hx hym hxm).symm
      · exact h.uniqueSnd ht he (hvb.trans_within hx) (hvb.trans_within hy) (houtput x hxm)
          (houtput y hym)
      · exact h.uniqueFst ht he (hvb.trans_within hx) (hua.trans_within hy) (houtput x hxm)
          (houtput y hym)
    · rcases h.below w hw y hy with ⟨hy, _, hyb⟩ | ⟨rfl, hy⟩ | ⟨_, hy⟩
      · exact (hcrossSnd hy hyb hx hym hxm).symm
      · exact h.uniqueFst ht he (hua.trans_within hx) (hvb.trans_within hy) (houtput x hxm)
          (houtput y hym)
      · exact h.uniqueFst ht he (hua.trans_within hx) (hua.trans_within hy) (houtput x hxm)
          (houtput y hym)

/-! Nothing is globally fullscreen once the one container that was is not any more. -/

theorem noGlobal_of {g : ConId} (hs : SameShape s s') (hg : t.Reach g)
    (hgm : (t.con g).fullscreenMode = .global) (hgm' : (s'.con g).fullscreenMode ≠ .global)
    (hglobal : ∀ x, (s'.con x).fullscreenMode = .global → (t.con x).fullscreenMode = .global) :
    NoGlobal s' := by
  intro x hx hxm
  obtain rfl : x = g := he.eq_of_global ht (h.reach x (hs.reach.mp hx)) hg (hglobal x hxm) hgm
  exact hgm' hxm

/-- The conflicting container is the one that is globally fullscreen, if one is. -/
theorem disableConflicting_global {g w : ConId} (hw : (t.con w).type = .workspace) (hg : s.Reach g)
    (hgm : (t.con g).fullscreenMode = .global) :
    s.disableConflicting w = s.setFullscreenMode g .none := by
  have hgm' := (h.fullscreenMode g).trans hgm
  rcases disableConflicting_cases h.healthy ((h.type w).trans hw) with
    ⟨_, hn, _⟩ | ⟨f, heq, ⟨hf, _, hfm⟩ | ⟨hn, _⟩⟩
  · exact absurd hgm' (hn g hg)
  · rw [h.fullscreenMode] at hfm
    obtain rfl : f = g := he.eq_of_global ht (h.reach f hf) (h.reach g hg) hfm hgm
    exact heq
  · exact absurd hgm' (hn g hg)

variable (hsafe : SwapSafe t a b u v)
include hsafe

/-! The cases are named by the modes of the first and of the second container. -/

theorem exclusive_none_none (ha : (t.con a).fullscreenMode = .none)
    (hb : (t.con b).fullscreenMode = .none) : Exclusive s := by
  apply h.exclusive_of ht he (.refl s)
  · intro x hx
    rwa [h.fullscreenMode] at hx
  · intro x hx
    rwa [h.fullscreenMode] at hx
  · intro huv x y hx hxa hy hxm hym
    rw [h.fullscreenMode] at hxm hym
    have hyb : Descent.Below t.children b y := by
      refine (Descent.within_iff.mp hy).resolve_left ?_
      rintro rfl
      rw [hb] at hym
      cases hym
    exact hsafe.outputFst (by simp [ha]) huv x y hx hxa hxm hyb hym
  · intro huv x y hx hxb hy hxm hym
    rw [h.fullscreenMode] at hxm hym
    have hya : Descent.Below t.children a y := by
      refine (Descent.within_iff.mp hy).resolve_left ?_
      rintro rfl
      rw [ha] at hym
      cases hym
    exact hsafe.outputSnd hb huv x y hx hxb hxm hya hym

omit hsafe in
theorem exclusive_output_output (ha : (t.con a).fullscreenMode = .output)
    (hb : (t.con b).fullscreenMode = .output) : Exclusive s := by
  apply h.exclusive_of ht he (.refl s)
  · intro x hx
    rwa [h.fullscreenMode] at hx
  · intro x hx
    rwa [h.fullscreenMode] at hx
  · intro _ x y hx hxa _ hxm _
    rw [h.fullscreenMode] at hxm
    obtain rfl := h.uniqueFst ht he hx h.workspaceFst.2 hxm ha
    exact absurd (.refl _) hxa
  · intro _ x y hx hxb _ hxm _
    rw [h.fullscreenMode] at hxm
    obtain rfl := h.uniqueSnd ht he hx h.workspaceSnd.2 hxm hb
    exact absurd (.refl _) hxb

theorem exclusive_none_output (ha : (t.con a).fullscreenMode = .none)
    (hb : (t.con b).fullscreenMode = .output) :
    Healthy (s.exchangeModes cfg a b) ∧ Exclusive (s.exchangeModes cfg a b) := by
  rw [exchangeModes, h.fullscreenMode, h.fullscreenMode, ha, hb, passFullscreen, passFullscreen,
    if_pos rfl, if_neg (by simp)]
  have hshape := sameShape_conDisableFullscreen s b
  have hhealthy := (calm_conDisableFullscreen h.healthy b).healthy
  have hmode : ∀ d, ((s.conDisableFullscreen b).con d).fullscreenMode =
      if d = b then .none else (t.con d).fullscreenMode := by
    intro d
    rw [conDisableFullscreen_fullscreenMode s (h.type b ▸ h.type_snd ht), h.fullscreenMode]
  have hout : ∀ {x}, ((s.conDisableFullscreen b).con x).fullscreenMode = .output →
      x ≠ b ∧ (t.con x).fullscreenMode = .output := by
    intro x hx
    rw [hmode] at hx
    split at hx
    · cases hx
    · next hne => exact ⟨hne, hx⟩
  -- the second container was the fullscreen one on its workspace
  have hsnd : ∀ {x}, Descent.Below t.children v x →
      ((s.conDisableFullscreen b).con x).fullscreenMode ≠ .output := by
    intro x hx hxm
    obtain ⟨hne, hxm⟩ := hout hxm
    exact hne (h.uniqueSnd ht he hx h.workspaceSnd.2 hxm hb)
  apply exclusive_conEnableFullscreen hhealthy _ (hshape.reach.mpr h.reachFst)
    ⟨v, by rw [hshape.type, h.type]; exact h.workspaceSnd.1,
      hshape.below.mpr (h.fst a (.refl _))⟩ (by simp)
  · intro _ _
    by_cases hin : ∃ y, Descent.Below t.children a y ∧ (t.con y).fullscreenMode = .output
    · left
      intro x hx hxm
      rw [hmode] at hxm
      split at hxm
      · cases hxm
      · exact hsafe.globalSnd hb hin x (h.reach x (hshape.reach.mp hx)) hxm
    · right
      intro w hw hwa x hx hxm
      rw [hshape.type, h.type] at hw
      have hwv : w = v := by
        refine h.healthy.layered.unique h.healthy.rooted ?_ ?_ (hshape.below.mp hwa).within
          (h.fst a (.refl _)).within
        · rwa [h.type]
        · rw [h.type]
          exact h.workspaceSnd.1
      subst hwv
      rcases h.below w hw x (hshape.below.mp hx) with ⟨hx, _⟩ | ⟨rfl, hx⟩ | ⟨_, hx⟩
      · exact hsnd hx hxm
      · exact hsnd (h.workspaceSnd.2.trans_within hx) hxm
      · rcases Descent.within_iff.mp hx with rfl | hx
        · rw [(hout hxm).2] at ha
          cases ha
        · exact hin ⟨x, hx, (hout hxm).2⟩
  · apply h.exclusive_of ht he hshape (fun x hx => (hout hx).2)
    · intro x hx
      rw [hmode] at hx
      split at hx
      · cases hx
      · exact hx
    · intro _ x y _ _ hy _ hym
      exact hsnd (h.workspaceSnd.2.trans_within hy) hym
    · intro _ x y hx _ _ hxm
      exact absurd hxm (hsnd hx)

/-- Of the two that meet on the second workspace one gives way. -/
theorem exclusive_none_global (ha : (t.con a).fullscreenMode = .none)
    (hb : (t.con b).fullscreenMode = .global) :
    Healthy (s.exchangeModes cfg a b) ∧ Exclusive (s.exchangeModes cfg a b) := by
  rw [exchangeModes, h.fullscreenMode, h.fullscreenMode, ha, hb, passFullscreen, passFullscreen,
    if_pos rfl, if_neg (by simp)]
  have hshape := sameShape_conDisableFullscreen s b
  have hhealthy := (calm_conDisableFullscreen h.healthy b).healthy
  have hmode : ∀ d, ((s.conDisableFullscreen b).con d).fullscreenMode =
      if d = b then .none else (t.con d).fullscreenMode := by
    intro d
    rw [conDisableFullscreen_fullscreenMode s (h.type b ▸ h.type_snd ht), h.fullscreenMode]
  have hglobal : ∀ {x}, ((s.conDisableFullscreen b).con x).fullscreenMode = .global →
      (t.con x).fullscreenMode = .global := by
    intro x hx
    rw [hmode] at hx
    split at hx
    · cases hx
    · exact hx
  have hout : ∀ {x}, ((s.conDisableFullscreen b).con x).fullscreenMode = .output →
      (t.con x).fullscreenMode = .output := by
    intro x hx
    rw [hmode] at hx
    split at hx
    · cases hx
    · exact hx
  have hno : NoGlobal (s.conDisableFullscreen b) :=
    h.noGlobal_of ht he hshape (h.reach b h.reachSnd) hb (by rw [hmode]; simp) fun _ => hglobal
  have htype : ((s.conDisableFullscreen b).con a).type ≠ .workspace := by
    rw [hshape.type, h.type]
    exact h.type_fst ht
  have hane : ((s.conDisableFullscreen b).con a).fullscreenMode ≠ .global := by
    intro hg
    rw [hglobal hg] at ha
    cases ha
  rw [conEnableFullscreen_eq htype hane (h.getWorkspace_fst hshape hhealthy)]
  have hvtype : ((s.conDisableFullscreen b).con v).type = .workspace := by
    rw [hshape.type, h.type]
    exact h.workspaceSnd.1
  have hfst : ∀ {s'' : Tree},
      (∀ x, (s''.con x).fullscreenMode = .output → (t.con x).fullscreenMode = .output) → u ≠ v →
      ∀ x y, Descent.Below t.children u x → ¬ Descent.Within t.children a x →
      Descent.Within t.children b y → (s''.con x).fullscreenMode = .output →
      (s''.con y).fullscreenMode ≠ .output := by
    intro s'' hout' huv x y hx hxa hy hxm hym
    refine hsafe.outputFst (by simp [ha]) huv x y hx hxa (hout' x hxm) ?_ (hout' y hym)
    refine (Descent.within_iff.mp hy).resolve_left ?_
    rintro rfl
    rw [hout' _ hym] at hb
    cases hb
  have hlt : a < s.nextCon := h.healthy.rooted.lt_nextCon h.reachFst
  have hroot : a ≠ s.croot := by
    obtain ⟨r, _, hr⟩ := Descent.below_iff_exists.mp (h.fst a (.refl _))
    exact h.healthy.rooted.ne_croot_of_mem hr
  rcases disableConflicting_cases hhealthy hvtype with
    ⟨heq, _, hnone⟩ | ⟨f, heq, ⟨hf, _, hfm⟩ | ⟨_, hf, hfm⟩⟩
  · rw [heq]
    apply exclusive_enableGlobal hhealthy _ hno (hshape.nextCon ▸ hlt) htype (hshape.croot ▸ hroot)
    apply h.exclusive_of ht he hshape (fun _ => hout) (fun _ => hglobal) (hfst fun _ => hout)
    intro _ x y _ _ hy _ hym
    exact hnone y (hshape.below.mpr (h.fst y hy)) hym
  · exact absurd hfm (hno f hf)
  · rw [heq]
    have hshape' := hshape.setFullscreenMode f .none
    have hcalm := calm_setFullscreenMode hhealthy (c := f) (.inl rfl)
    have hsub : ∀ {x m}, m ≠ .none →
        (((s.conDisableFullscreen b).setFullscreenMode f .none).con x).fullscreenMode = m →
        x ≠ f ∧ ((s.conDisableFullscreen b).con x).fullscreenMode = m := by
      intro x m hm hx
      rw [setFullscreenMode_fullscreenMode] at hx
      split at hx
      · exact absurd hx.symm hm
      · next hne => exact ⟨hne, hx⟩
    apply exclusive_enableGlobal hcalm.healthy _ _ (hshape'.nextCon ▸ hlt)
      (by rw [hshape'.type, h.type]; exact h.type_fst ht) (hshape'.croot ▸ hroot)
    · apply h.exclusive_of ht he hshape' (fun x hx => hout (hsub (by simp) hx).2)
        (fun x hx => hglobal (hsub (by simp) hx).2)
        (hfst fun x hx => hout (hsub (by simp) hx).2)
      intro huv x y hx hxb hy hxm hym
      obtain ⟨hxf, hxm⟩ := hsub (by simp) hxm
      obtain ⟨hyf, hym⟩ := hsub (by simp) hym
      -- the one that gave way was one of the two
      rcases h.below v h.workspaceSnd.1 f (hshape.below.mp hf) with ⟨hf, _⟩ | ⟨hvu, _⟩ | ⟨_, hf⟩
      · exact hxf (h.uniqueSnd ht he hx hf (hout hxm) (hout hfm))
      · exact huv hvu.symm
      · exact hyf (h.uniqueFst ht he (h.workspaceFst.2.trans_within hy)
          (h.workspaceFst.2.trans_within hf) (hout hym) (hout hfm))
    · intro x hx hxm
      exact hno x ((sameShape_setFullscreenMode _ f .none).reach.mp hx) (hsub (by simp) hxm).2

end

end Crossed

end Tree

end I3
