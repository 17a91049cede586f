import I3Aiwr.Tree.Edits
import I3Aiwr.Tree.Fullscreen

/-!
# One fullscreen container at a time

At most one container is globally fullscreen, and at most one below each workspace is fullscreen on
its output. Moving containers and showing workspaces keep it so. Enabling fullscreen disables one
conflicting container only, a globally fullscreen one first: when there is one, and another container
of the workspace is fullscreen on the output, that one stays.

## Main definitions

* `Tree.Exclusive t`: the invariant
* `Tree.SameShape t t'`: the trees differ in other things than the places of containers

## Main results

* `Tree.Exclusive.edits`: moving and showing keep the invariant
* `Tree.disableConflicting_cases`: which container gives way
* `Tree.exclusive_conEnableFullscreen`: when enabling keeps the invariant
-/

namespace I3

namespace Tree

variable {cfg : Config} {t t' : Tree} {c p w : ConId}

/-- Fullscreen containers exclude each other. -/
structure Exclusive (t : Tree) : Prop where
  global : ∀ x y, t.Reach x → t.Reach y → (t.con x).type ≠ .workspace → (t.con y).type ≠ .workspace →
    (t.con x).fullscreenMode = .global → (t.con y).fullscreenMode = .global → x = y
  output : ∀ w, t.Reach w → (t.con w).type = .workspace → ∀ x y, Descent.Below t.children w x →
    Descent.Below t.children w y → (t.con x).fullscreenMode = .output →
    (t.con y).fullscreenMode = .output → x = y

/-- No container is globally fullscreen. -/
def NoGlobal (t : Tree) : Prop := ∀ x, t.Reach x → (t.con x).fullscreenMode ≠ .global

/-- No container below `w` is fullscreen on its output. -/
def NoOutput (t : Tree) (w : ConId) : Prop :=
  ∀ x, Descent.Below t.children w x → (t.con x).fullscreenMode ≠ .output

/-! ### Calm changes and moves -/

/-- What is fullscreen after a calm change, and no workspace, was there before. -/
theorem Calm.of_fullscreen (h : Calm t t') {x : ConId} (hx : t'.Reach x)
    (htype : (t'.con x).type ≠ .workspace) (hmode : (t'.con x).fullscreenMode ≠ .none) :
    x < t.nextCon ∧ (t.con x).type ≠ .workspace
      ∧ (t.con x).fullscreenMode = (t'.con x).fullscreenMode := by
  have hlt : x < t.nextCon := by
    by_contra hge
    exact hmode (h.new x (not_lt.mp hge) (h.healthy.rooted.lt_nextCon hx)).2.1
  rw [h.type x hlt] at htype
  rcases h.fullscreenMode x hlt with heq | hnone | hws
  · exact ⟨hlt, htype, heq.symm⟩
  · exact absurd hnone hmode
  · exact absurd hws htype

theorem Moved.of_fullscreen (h : Moved t t' c p w) {x : ConId} (hx : t'.Reach x)
    (hmode : (t'.con x).fullscreenMode ≠ .none) :
    x < t.nextCon ∧ (t.con x).type = (t'.con x).type
      ∧ (t.con x).fullscreenMode = (t'.con x).fullscreenMode := by
  have hlt : x < t.nextCon := by
    by_contra hge
    exact hmode (h.new x (not_lt.mp hge) (h.healthy.rooted.lt_nextCon hx)).2.1
  rcases h.fullscreenMode x hlt with heq | hnone
  · exact ⟨hlt, (h.type x hlt).symm, heq.symm⟩
  · exact absurd hnone hmode

theorem Moved.reach_of (h : Moved t t' c p w) (ht : Healthy t) {x : ConId} (hlt : x < t.nextCon)
    (hx : t'.Reach x) : t.Reach x := by
  rw [Reach, h.croot] at hx
  rcases Descent.within_iff.mp hx with rfl | hx
  · exact .refl _
  · rcases h.below _ ht.rooted.boundedRoot x hlt hx with hx | ⟨_, hx⟩
    · exact hx.within
    · exact h.reach.trans hx

/-- What is below a workspace after a change, in a healthy tree. -/
theorem Healthy.below_workspace (ht : Healthy t) {x : ConId} (hw : t.Reach w)
    (hwtype : (t.con w).type = .workspace) (hx : Descent.Below t.children w x) :
    t.Reach x ∧ (t.con x).type ≠ .workspace :=
  ⟨hw.trans hx.within, ht.layered.workspace w hwtype x hx⟩

/-- A workspace of the new tree was one of the old. -/
theorem Calm.of_workspace (h : Calm t t') (ht : Healthy t) (hw : t'.Reach w)
    (hwtype : (t'.con w).type = .workspace) :
    w < t.nextCon ∧ t.Reach w ∧ (t.con w).type = .workspace := by
  have hlt : w < t.nextCon := by
    by_contra hge
    rw [(h.new w (not_lt.mp hge) (h.healthy.rooted.lt_nextCon hw)).1] at hwtype
    cases hwtype
  exact ⟨hlt, h.reach ht.rooted hlt hw, (h.type w hlt) ▸ hwtype⟩

theorem Moved.of_workspace (h : Moved t t' c p w) (ht : Healthy t) {v : ConId} (hv : t'.Reach v)
    (hvtype : (t'.con v).type = .workspace) :
    v < t.nextCon ∧ t.Reach v ∧ (t.con v).type = .workspace := by
  have hlt : v < t.nextCon := by
    by_contra hge
    rw [(h.new v (not_lt.mp hge) (h.healthy.rooted.lt_nextCon hv)).1] at hvtype
    cases hvtype
  exact ⟨hlt, h.reach_of ht hlt hv, (h.type v hlt) ▸ hvtype⟩

namespace Exclusive

theorem calm (he : Exclusive t) (ht : Healthy t) (h : Calm t t') : Exclusive t' where
  global x y hx hy hxt hyt hxm hym := by
    obtain ⟨hxlt, hxt', hxm'⟩ := h.of_fullscreen hx hxt (by simp [hxm])
    obtain ⟨hylt, hyt', hym'⟩ := h.of_fullscreen hy hyt (by simp [hym])
    exact he.global x y (h.reach ht.rooted hxlt hx) (h.reach ht.rooted hylt hy) hxt' hyt'
      (hxm'.trans hxm) (hym'.trans hym)
  output w hw hwtype x y hx hy hxm hym := by
    obtain ⟨hwlt, hw', hwtype'⟩ := h.of_workspace ht hw hwtype
    obtain ⟨hxr, hxt⟩ := h.healthy.below_workspace hw hwtype hx
    obtain ⟨hyr, hyt⟩ := h.healthy.below_workspace hw hwtype hy
    obtain ⟨hxlt, _, hxm'⟩ := h.of_fullscreen hxr hxt (by simp [hxm])
    obtain ⟨hylt, _, hym'⟩ := h.of_fullscreen hyr hyt (by simp [hym])
    exact he.output w hw' hwtype' x y (h.below w hwlt x hxlt hx) (h.below w hwlt y hylt hy)
      (hxm'.trans hxm) (hym'.trans hym)

/-- A fullscreen container that comes to a workspace finds no other one there. -/
theorem moved (he : Exclusive t) (ht : Healthy t) (h : Moved t t' c p w) : Exclusive t' where
  global x y hx hy hxt hyt hxm hym := by
    obtain ⟨hxlt, hxt', hxm'⟩ := h.of_fullscreen hx (by simp [hxm])
    obtain ⟨hylt, hyt', hym'⟩ := h.of_fullscreen hy (by simp [hym])
    exact he.global x y (h.reach_of ht hxlt hx) (h.reach_of ht hylt hy) (hxt' ▸ hxt) (hyt' ▸ hyt)
      (hxm'.trans hxm) (hym'.trans hym)
  output v hv hvtype x y hx hy hxm hym := by
    obtain ⟨hvlt, hv', hvtype'⟩ := h.of_workspace ht hv hvtype
    have hxr := (h.healthy.below_workspace hv hvtype hx).1
    have hyr := (h.healthy.below_workspace hv hvtype hy).1
    obtain ⟨hxlt, _, hxm'⟩ := h.of_fullscreen hxr (by simp [hxm])
    obtain ⟨hylt, _, hym'⟩ := h.of_fullscreen hyr (by simp [hym])
    rw [hxm] at hxm'
    rw [hym] at hym'
    obtain ⟨hwtype, hwp⟩ := h.workspace
    have hwr : t.Reach w := ht.rooted.reach_of_within h.reachTarget hwp
    -- one that was there and one that comes along are not both fullscreen afterwards
    have hcross : ∀ {a b}, Descent.Below t.children v a → Descent.Within t.children v p →
        Descent.Within t.children c b → (t.con a).fullscreenMode = .output →
        (t.con b).fullscreenMode = .output → (t'.con a).fullscreenMode = .output → False := by
      intro a b ha hvp hb ham hbm ham'
      obtain rfl : v = w := ht.layered.unique ht.rooted hvtype' hwtype hvp hwp
      rcases h.exclusive with hnone | hnone | ⟨f, hf, hfm, hfm'⟩
      · exact hnone b hb hbm
      · exact hnone a ha ham
      · obtain rfl : a = f := he.output v hv' hvtype' a f ha hf ham hfm
        rw [hfm'] at ham'
        cases ham'
    rcases h.below v hvlt x hxlt hx with hx' | ⟨hvp, hcx⟩
    · rcases h.below v hvlt y hylt hy with hy' | ⟨hvp, hcy⟩
      · exact he.output v hv' hvtype' x y hx' hy' hxm' hym'
      · exact (hcross hx' hvp hcy hxm' hym' hxm).elim
    · rcases h.below v hvlt y hylt hy with hy' | ⟨_, hcy⟩
      · exact (hcross hy' hvp hcx hym' hxm' hym).elim
      · -- both come along, from one workspace
        obtain ⟨u, hu, huc⟩ := h.placed
        exact he.output u (ht.rooted.reach_of_within h.reach huc.within) hu x y
          (huc.trans_within hcx) (huc.trans_within hcy) hxm' hym'

/-- **Moving and showing keep fullscreen containers exclusive.** -/
theorem edits {pushes : Prop} (he : Exclusive t) (ht : Healthy t) (h : Edits pushes t t') :
    Healthy t' ∧ Exclusive t' := by
  refine h.invariant (I := fun t => Healthy t ∧ Exclusive t) (fun hI hedit => ?_) ⟨ht, he⟩
  cases hedit with
  | calm h => exact ⟨h.healthy, hI.2.calm hI.1 h⟩
  | moved h _ => exact ⟨h.healthy, hI.2.moved hI.1 h⟩

end Exclusive

theorem NoGlobal.edits {pushes : Prop} (hn : NoGlobal t) (ht : Healthy t) (h : Edits pushes t t') :
    NoGlobal t' := by
  refine (h.invariant (I := fun t => Healthy t ∧ NoGlobal t) (fun hI hedit => ?_) ⟨ht, hn⟩).2
  obtain ⟨ht, hn⟩ := hI
  cases hedit with
  | calm h =>
    refine ⟨h.healthy, fun x hx hmode => ?_⟩
    have htype : _ ≠ ConType.workspace := fun hw =>
      h.healthy.global x (h.healthy.rooted.lt_nextCon hx) (.inl hw) hmode
    obtain ⟨hlt, _, hmode'⟩ := h.of_fullscreen hx htype (by simp [hmode])
    exact hn x (h.reach ht.rooted hlt hx) (hmode'.trans hmode)
  | moved h _ =>
    refine ⟨h.healthy, fun x hx hmode => ?_⟩
    obtain ⟨hlt, _, hmode'⟩ := h.of_fullscreen hx (by simp [hmode])
    exact hn x (h.reach_of ht hlt hx) (hmode'.trans hmode)

/-! ### Changing modes -/

/-- The two trees have the same containers in the same places, but for the order. -/
structure SameShape (t t' : Tree) : Prop where
  croot : t'.croot = t.croot
  nextCon : t'.nextCon = t.nextCon
  type : ∀ d, (t'.con d).type = (t.con d).type
  children : ∀ p c, c ∈ t'.children p ↔ c ∈ t.children p

theorem Links.sameShape (h : Links t t') : SameShape t t' :=
  ⟨h.croot, h.nextCon, h.type, fun _ _ => h.mem_children⟩

theorem sameShape_setFullscreenMode (t : Tree) (c : ConId) (mode : FullscreenMode) :
    SameShape t (t.setFullscreenMode c mode) where
  croot := rfl
  nextCon := rfl
  type d := by rw [setFullscreenMode_con]
  children p d := by rw [setFullscreenMode_children]

namespace SameShape

variable {t'' : Tree}

theorem refl (t : Tree) : SameShape t t := (Links.refl t).sameShape

theorem trans (h : SameShape t t') (h' : SameShape t' t'') : SameShape t t'' where
  croot := h'.croot.trans h.croot
  nextCon := h'.nextCon.trans h.nextCon
  type d := (h'.type d).trans (h.type d)
  children p c := (h'.children p c).trans (h.children p c)

theorem setFullscreenMode (h : SameShape t t') (c : ConId) (mode : FullscreenMode) :
    SameShape t (t'.setFullscreenMode c mode) :=
  h.trans (sameShape_setFullscreenMode t' c mode)

theorem below (h : SameShape t t') {d x : ConId} :
    Descent.Below t'.children d x ↔ Descent.Below t.children d x :=
  ⟨.mono fun p c => (h.children p c).mp, .mono fun p c => (h.children p c).mpr⟩

theorem reach (h : SameShape t t') {x : ConId} : t'.Reach x ↔ t.Reach x := by
  rw [Reach, Reach, h.croot]
  exact ⟨.mono fun p c => (h.children p c).mp, .mono fun p c => (h.children p c).mpr⟩

/-- Exclusiveness after a change of modes, seen from the tree before. -/
theorem exclusive (h : SameShape t t')
    (hglobal : ∀ x y, t.Reach x → t.Reach y → (t.con x).type ≠ .workspace →
      (t.con y).type ≠ .workspace → (t'.con x).fullscreenMode = .global →
      (t'.con y).fullscreenMode = .global → x = y)
    (houtput : ∀ w, t.Reach w → (t.con w).type = .workspace → ∀ x y,
      Descent.Below t.children w x → Descent.Below t.children w y →
      (t'.con x).fullscreenMode = .output → (t'.con y).fullscreenMode = .output → x = y) :
    Exclusive t' where
  global x y hx hy hxt hyt := by
    rw [h.type] at hxt hyt
    exact hglobal x y (h.reach.mp hx) (h.reach.mp hy) hxt hyt
  output w hw hwtype x y hx hy := by
    rw [h.type] at hwtype
    exact houtput w (h.reach.mp hw) hwtype x y (h.below.mp hx) (h.below.mp hy)

end SameShape

theorem conDisableFullscreen_fullscreenMode (t : Tree) {c : ConId} (hc : (t.con c).type ≠ .workspace)
    (d : ConId) : ((t.conDisableFullscreen c).con d).fullscreenMode =
      if d = c then .none else (t.con d).fullscreenMode := by
  rw [conDisableFullscreen, if_neg hc]
  split
  · next hnone =>
    split
    · next hd => rw [hd, hnone]
    · rfl
  · exact setFullscreenMode_fullscreenMode c .none t d

theorem sameShape_conDisableFullscreen (t : Tree) (c : ConId) :
    SameShape t (t.conDisableFullscreen c) := by
  rw [conDisableFullscreen]
  split
  · exact .refl t
  · split
    · exact .refl t
    · exact sameShape_setFullscreenMode t c .none

namespace Exclusive

variable (he : Exclusive t)
include he

/-- Of all containers at most one is globally fullscreen, since no workspace is. -/
theorem eq_of_global (ht : Healthy t) {x y : ConId} (hx : t.Reach x) (hy : t.Reach y)
    (hxm : (t.con x).fullscreenMode = .global) (hym : (t.con y).fullscreenMode = .global) : x = y := by
  have htype : ∀ {z}, t.Reach z → (t.con z).fullscreenMode = .global →
      (t.con z).type ≠ .workspace := fun hz hzm hws =>
    ht.global _ (ht.rooted.lt_nextCon hz) (.inl hws) hzm
  exact he.global x y hx hy (htype hx hxm) (htype hy hym) hxm hym

theorem setGlobal (hn : NoGlobal t) (c : ConId) : Exclusive (t.setFullscreenMode c .global) := by
  apply (sameShape_setFullscreenMode t c .global).exclusive
  · intro x y hx hy _ _ hxm hym
    rw [setFullscreenMode_fullscreenMode] at hxm hym
    have heq : ∀ {z}, t.Reach z → (if z = c then .global else (t.con z).fullscreenMode) = .global →
        z = c := by
      intro z hz hzm
      by_contra hne
      rw [if_neg hne] at hzm
      exact hn z hz hzm
    exact (heq hx hxm).trans (heq hy hym).symm
  · intro w hw hwtype x y hx hy hxm hym
    rw [setFullscreenMode_fullscreenMode] at hxm hym
    split at hxm
    · cases hxm
    · split at hym
      · cases hym
      · exact he.output w hw hwtype x y hx hy hxm hym

theorem setOutput (c : ConId) (hn : ∀ w, t.Reach w → (t.con w).type = .workspace →
    Descent.Below t.children w c → NoOutput t w) : Exclusive (t.setFullscreenMode c .output) := by
  apply (sameShape_setFullscreenMode t c .output).exclusive
  · intro x y hx hy hxt hyt hxm hym
    rw [setFullscreenMode_fullscreenMode] at hxm hym
    split at hxm
    · cases hxm
    · split at hym
      · cases hym
      · exact he.global x y hx hy hxt hyt hxm hym
  · intro w hw hwtype x y hx hy hxm hym
    rw [setFullscreenMode_fullscreenMode] at hxm hym
    by_cases hxc : x = c
    · by_cases hyc : y = c
      · rw [hxc, hyc]
      · rw [if_neg hyc] at hym
        exact absurd hym (hn w hw hwtype (hxc ▸ hx) y hy)
    · rw [if_neg hxc] at hxm
      by_cases hyc : y = c
      · exact absurd hxm (hn w hw hwtype (hyc ▸ hy) x hx)
      · rw [if_neg hyc] at hym
        exact he.output w hw hwtype x y hx hy hxm hym

end Exclusive

/-! ### Enabling -/

theorem calm_disableConflicting (ht : Healthy t) (w : ConId) : Calm t (t.disableConflicting w) := by
  unfold disableConflicting
  split
  · exact .refl ht
  · exact calm_conDisableFullscreen ht _

/-- Which container gives way: a globally fullscreen one, or else one on the workspace. -/
theorem disableConflicting_cases (ht : Healthy t) (hw : (t.con w).type = .workspace) :
    (t.disableConflicting w = t ∧ NoGlobal t ∧ NoOutput t w)
      ∨ ∃ f, t.disableConflicting w = t.setFullscreenMode f .none
        ∧ ((t.Reach f ∧ (t.con f).type ≠ .workspace ∧ (t.con f).fullscreenMode = .global)
          ∨ (NoGlobal t ∧ Descent.Below t.children w f ∧ (t.con f).fullscreenMode = .output)) := by
  have hnoGlobal : t.getFullscreenCon t.croot .global = none → NoGlobal t := by
    intro hnone x hx
    rcases Descent.within_iff.mp hx with rfl | hx
    · exact ht.global _ ht.rooted.boundedRoot (.inr rfl)
    · exact ht.rooted.getFullscreenCon_eq_none hnone hx
  have hdisable : ∀ {f m}, (t.con f).type ≠ .workspace → (t.con f).fullscreenMode = m → m ≠ .none →
      t.conDisableFullscreen f = t.setFullscreenMode f .none := by
    rintro f m htype rfl hne
    rw [conDisableFullscreen, if_neg htype, if_neg hne]
  unfold disableConflicting fullscreenCoveringWs
  cases hglobal : t.getFullscreenCon t.croot .global with
  | some f =>
    obtain ⟨hmode, hbelow⟩ := getFullscreenCon_spec hglobal
    have hreach : t.Reach f := hbelow.within
    have htype : (t.con f).type ≠ .workspace := fun hws =>
      ht.global f (ht.rooted.lt_nextCon hreach) (.inl hws) hmode
    exact .inr ⟨f, hdisable htype hmode (by simp), .inl ⟨hreach, htype, hmode⟩⟩
  | none =>
    dsimp only
    cases houtput : t.getFullscreenCon w .output with
    | some f =>
      obtain ⟨hmode, hbelow⟩ := getFullscreenCon_spec houtput
      exact .inr ⟨f, hdisable (ht.layered.workspace w hw f hbelow) hmode (by simp),
        .inr ⟨hnoGlobal hglobal, hbelow, hmode⟩⟩
    | none =>
      exact .inl ⟨rfl, hnoGlobal hglobal, fun x hx =>
        ht.rooted.getFullscreenCon_eq_none houtput hx⟩

theorem edits_enableFocus {pushes : Prop} (ht : Healthy t) (c w : ConId) (mode : FullscreenMode) :
    Edits pushes t (t.enableFocus cfg c w mode) := by
  unfold enableFocus
  dsimp only
  have hshow : Edits pushes t (if mode = .global ∧ t.focused.bind t.getWorkspace ≠ some w
      then t.workspaceShow cfg w else t) := by
    split
    · exact edits_workspaceShow ht w
    · exact .refl t
  have hactivate := hshow.then_links ht (stirs_conActivate cfg _ c).links
  split
  · split
    · exact hactivate
    · exact hactivate.then_links ht (stirs_conActivate cfg _ _).links
  · exact hactivate

/-- Unless a workspace is shown, only the focus changes. -/
theorem links_enableFocus (t : Tree) (c : ConId) {mode : FullscreenMode}
    (h : mode ≠ .global ∨ t.focused.bind t.getWorkspace = some w) :
    Links t (t.enableFocus cfg c w mode) := by
  unfold enableFocus
  dsimp only
  rw [if_neg (show ¬ (mode = .global ∧ t.focused.bind t.getWorkspace ≠ some w) by tauto)]
  have hactivate := (stirs_conActivate cfg t c).links
  split
  · split
    · exact hactivate
    · exact hactivate.trans (stirs_conActivate cfg _ _).links
  · exact hactivate

/-- The container that covers others gives way before another one becomes globally fullscreen. -/
theorem noGlobal_disableConflicting (ht : Healthy t) (he : Exclusive t)
    (hw : (t.con w).type = .workspace) : NoGlobal (t.disableConflicting w) := by
  rcases disableConflicting_cases ht hw with ⟨heq, hn, _⟩ | ⟨f, heq, hf⟩
  · rw [heq]
    exact hn
  · rw [heq]
    intro x hx hmode
    rw [(sameShape_setFullscreenMode t f .none).reach] at hx
    rw [setFullscreenMode_fullscreenMode] at hmode
    split at hmode
    · cases hmode
    · next hne =>
      rcases hf with ⟨hfr, hft, hfm⟩ | ⟨hn, _⟩
      · have hxt : (t.con x).type ≠ .workspace := fun hws =>
          ht.global x (ht.rooted.lt_nextCon hx) (.inl hws) hmode
        exact hne (he.global x f hx hfr hxt hft hmode hfm)
      · exact hn x hx hmode

/-- So does the one on the workspace, if none is globally fullscreen. -/
theorem noOutput_disableConflicting (ht : Healthy t) (hw : (t.con w).type = .workspace)
    (hone : ∀ x y, Descent.Below t.children w x → Descent.Below t.children w y →
      (t.con x).fullscreenMode = .output → (t.con y).fullscreenMode = .output → x = y)
    (hok : NoGlobal t ∨ NoOutput t w) : NoOutput (t.disableConflicting w) w := by
  rcases disableConflicting_cases ht hw with ⟨heq, _, hn⟩ | ⟨f, heq, hf⟩
  · rw [heq]
    exact hn
  · rw [heq]
    intro x hx hmode
    rw [(sameShape_setFullscreenMode t f .none).below] at hx
    rw [setFullscreenMode_fullscreenMode] at hmode
    split at hmode
    · cases hmode
    · next hne =>
      rcases hok with hn | hn
      · rcases hf with ⟨hfr, _, hfm⟩ | ⟨_, hfw, hfm⟩
        · exact hn f hfr hfm
        · exact hne (hone x f hx hfw hmode hfm)
      · exact hn x hx hmode

theorem conEnableFullscreen_eq {mode : FullscreenMode} (hc : (t.con c).type ≠ .workspace)
    (hmode : (t.con c).fullscreenMode ≠ mode) (hw : t.getWorkspace c = some w) :
    t.conEnableFullscreen cfg c mode =
      ((t.disableConflicting w).enableFocus cfg c w mode).setFullscreenMode c mode := by
  rw [conEnableFullscreen, if_neg hc, if_neg hmode, hw]

/-- A container becomes globally fullscreen when no other one is. -/
theorem exclusive_enableGlobal (ht : Healthy t) (he : Exclusive t) (hn : NoGlobal t)
    (hlt : c < t.nextCon) (htype : (t.con c).type ≠ .workspace) (hroot : c ≠ t.croot) (w : ConId) :
    Healthy ((t.enableFocus cfg c w .global).setFullscreenMode c .global)
      ∧ Exclusive ((t.enableFocus cfg c w .global).setFullscreenMode c .global) := by
  have hedits : Edits True t (t.enableFocus cfg c w .global) := edits_enableFocus ht c w .global
  obtain ⟨hh, he'⟩ := he.edits ht hedits
  refine ⟨hh.setFullscreenMode fun h => ?_, he'.setGlobal (hn.edits ht hedits) c⟩
  rw [hedits.type hlt, hedits.croot] at h
  exact absurd h (not_or.mpr ⟨htype, hroot⟩)

/-- **Enabling fullscreen** keeps fullscreen containers exclusive, unless a globally fullscreen
container gives way while another one stays on the workspace. -/
theorem exclusive_conEnableFullscreen (ht : Healthy t) (he : Exclusive t) (hc : t.Reach c)
    (hplaced : t.Placed c) {mode : FullscreenMode} (hmode : mode ≠ .none)
    (hok : mode = .output → (t.con c).fullscreenMode ≠ .output → NoGlobal t
      ∨ ∀ u, (t.con u).type = .workspace → Descent.Below t.children u c → NoOutput t u) :
    Healthy (t.conEnableFullscreen cfg c mode) ∧ Exclusive (t.conEnableFullscreen cfg c mode) := by
  by_cases hsame : (t.con c).fullscreenMode = mode
  · rw [conEnableFullscreen, if_pos hsame]
    split <;> exact ⟨ht, he⟩
  obtain ⟨u, hu, huc⟩ := id hplaced
  have hur : t.Reach u := ht.rooted.reach_of_within hc huc.within
  have htype : (t.con c).type ≠ .workspace := ht.type_ne_workspace hplaced (.refl _)
  have hroot : c ≠ t.croot := by
    obtain ⟨q, _, hq⟩ := Descent.below_iff_exists.mp huc
    exact ht.rooted.ne_croot_of_mem hq
  rw [conEnableFullscreen_eq htype hsame (ht.rooted.getWorkspace_eq ht.layered hc hu huc.within)]
  have hcalm := calm_disableConflicting ht u
  have hes := he.calm ht hcalm
  have hclt := ht.rooted.lt_nextCon hc
  cases mode with
  | none => exact absurd rfl hmode
  | global =>
    apply exclusive_enableGlobal hcalm.healthy hes (noGlobal_disableConflicting ht he hu)
    · exact hclt.trans_le hcalm.nextCon
    · rwa [hcalm.type c hclt]
    · rwa [hcalm.croot]
  | output =>
    have hl : Links (t.disableConflicting u) ((t.disableConflicting u).enableFocus cfg c u .output) :=
      links_enableFocus (t.disableConflicting u) c (.inl (by simp))
    have hno : NoOutput (t.disableConflicting u) u :=
      noOutput_disableConflicting ht hu (he.output u hur hu) ((hok rfl hsame).imp_right fun h => h u hu huc)
    refine ⟨(hcalm.healthy.links hl).setFullscreenMode (by simp), ?_⟩
    apply (hes.calm hcalm.healthy (.of_links hcalm.healthy hl)).setOutput
    intro w hw hwtype hwc x hx
    -- the container is on no other workspace
    have hcalm' := hcalm.trans_links hl
    obtain ⟨hwlt, hwr, hwtype'⟩ := hcalm'.of_workspace ht hw hwtype
    obtain rfl : w = u :=
      ht.layered.unique ht.rooted hwtype' hu (hcalm'.below w hwlt c hclt hwc).within huc.within
    rw [hl.fullscreenMode]
    exact hno x (hl.sameShape.below.mp hx)

end Tree

end I3
