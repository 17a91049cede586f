import I3Aiwr.Tree.Moved

/-!
# Moving and showing as sequences of edits

`workspace_show` pushes the sticky windows to the visible workspaces by `_con_move_to_con`, which
shows a workspace again. What comes of it, however deep they call each other, is a sequence of calm
changes and of single moves.

## Main definitions

* `Tree.Edits pushes t t'`: calm changes and moves lead from `t` to `t'`. With `pushes` only
  floating containers with something sticky in them are moved
* `Tree.Beside t c target`: a tiling container `c` may be inserted after `target`

## Main results

* `Tree.edits_moveCon`, `Tree.edits_workspaceShow`: moving and showing are edits
-/

namespace I3

namespace Tree

variable {cfg : Config} {t t' t'' : Tree} {pushes : Prop}

/-- A single edit. -/
inductive Edit (pushes : Prop) (t t' : Tree) : Prop
  | calm (h : Calm t t')
  | moved {c p w : ConId} (h : Moved t t' c p w)
    (hpush : pushes → (t.con c).type = .floatingCon
      ∧ ∃ y, Descent.Within t.children c y ∧ (t.con y).sticky = true)

/-- A sequence of edits. -/
def Edits (pushes : Prop) : Tree → Tree → Prop := Relation.ReflTransGen (Edit pushes)

namespace Edits

@[refl] theorem refl (t : Tree) : Edits pushes t t := Relation.ReflTransGen.refl

theorem trans (h : Edits pushes t t') (h' : Edits pushes t' t'') : Edits pushes t t'' :=
  Relation.ReflTransGen.trans h h'

theorem of_calm (h : Calm t t') : Edits pushes t t' := .single (.calm h)

theorem of_links (ht : Healthy t) (h : Links t t') : Edits pushes t t' := of_calm (.of_links ht h)

/-- What every single edit preserves is preserved by a sequence. -/
theorem invariant {I : Tree → Prop} (hstep : ∀ {t t'}, I t → Edit pushes t t' → I t')
    (h : Edits pushes t t') (ht : I t) : I t' := by
  induction h with
  | refl => exact ht
  | tail _ hedit ih => exact hstep ih hedit

theorem healthy (h : Edits pushes t t') (ht : Healthy t) : Healthy t' := by
  refine h.invariant (fun _ hedit => ?_) ht
  cases hedit with
  | calm h => exact h.healthy
  | moved h _ => exact h.healthy

/-- A calm change of the healthy tree that comes of edits. -/
theorem then_calm (h : Edits pushes t t') (ht : Healthy t) (h' : Healthy t' → Calm t' t'') :
    Edits pushes t t'' :=
  h.trans (of_calm (h' (h.healthy ht)))

theorem then_links (h : Edits pushes t t') (ht : Healthy t) (h' : Links t' t'') :
    Edits pushes t t'' :=
  h.then_calm ht fun ht' => .of_links ht' h'

theorem croot (h : Edits pushes t t') : t'.croot = t.croot := by
  refine h.invariant (I := fun s => s.croot = t.croot) (fun heq hedit => ?_) rfl
  cases hedit with
  | calm h => exact h.croot.trans heq
  | moved h _ => exact h.croot.trans heq

theorem nextCon (h : Edits pushes t t') : t.nextCon ≤ t'.nextCon := by
  refine h.invariant (I := fun s => t.nextCon ≤ s.nextCon) (fun hle hedit => ?_) le_rfl
  cases hedit with
  | calm h => exact hle.trans h.nextCon
  | moved h _ => exact hle.trans h.nextCon

/-- Old containers keep their types. -/
theorem type (h : Edits pushes t t') {d : ConId} (hd : d < t.nextCon) :
    (t'.con d).type = (t.con d).type := by
  have hI : t.nextCon ≤ t'.nextCon ∧ (t'.con d).type = (t.con d).type := by
    refine h.invariant (I := fun s => t.nextCon ≤ s.nextCon ∧ (s.con d).type = (t.con d).type)
      (fun hI hedit => ?_) ⟨le_rfl, rfl⟩
    have hlt := hd.trans_le hI.1
    cases hedit with
    | calm h => exact ⟨hI.1.trans h.nextCon, (h.type d hlt).trans hI.2⟩
    | moved h _ => exact ⟨hI.1.trans h.nextCon, (h.type d hlt).trans hI.2⟩
  exact hI.2

end Edits

/-! ### Links that stay -/

theorem stirs_floatingFixCoordinates (t : Tree) (c : ConId) (old new : Rect) :
    Stirs t (t.floatingFixCoordinates c old new) := by
  rw [floatingFixCoordinates]
  exact .of_modify t c _ rfl (.refl _) (.refl _)

theorem stirs_moveFixCoordinates (t : Tree) (con : ConId) (dest : Option ConId) (fix : Bool) :
    Stirs t (t.moveFixCoordinates con dest fix) := by
  unfold moveFixCoordinates
  split
  · split
    · exact stirs_floatingFixCoordinates t _ _ _
    · exact .refl t
  · exact .refl t

theorem stirs_moveFocus (t : Tree) (con : ConId) (destOutput currentWs : Option ConId) :
    Stirs t (t.moveFocus cfg con destOutput currentWs) := by
  have hactivate := stirs_conActivate cfg t (t.descendFocused con)
  unfold moveFocus
  dsimp only
  split
  · split
    · exact hactivate.trans (stirs_conActivate cfg _ _)
    · split
      · exact hactivate.trans (stirs_conFocus cfg _ _)
      · exact hactivate
  · exact hactivate

theorem stirs_moveFocusBack (t : Tree) (focusNext : Option ConId) :
    Stirs t (t.moveFocusBack cfg focusNext) := by
  unfold moveFocusBack
  split
  · exact .refl t
  · exact stirs_conActivate cfg t _

/-- An urgent container stays urgent. -/
theorem stirs_moveUrgent (t : Tree) (con : ConId) (urgent : Bool) (sourceWs : Option ConId) :
    Stirs t (if urgent then (t.workspaceUpdateUrgentFlag sourceWs).conSetUrgency con true else t) := by
  split
  · exact (stirs_workspaceUpdateUrgentFlag t sourceWs).trans (stirs_conSetUrgency _ con true)
  · exact .refl t

theorem calm_moveEnd (ht : Healthy t) (con : ConId) (urgent : Bool) (sourceWs parent : Option ConId) :
    Calm t (t.moveEnd cfg con urgent sourceWs parent) := by
  have hcalm : Calm t
      (if urgent then (t.workspaceUpdateUrgentFlag sourceWs).conSetUrgency con true else t) :=
    .of_links ht (stirs_moveUrgent t con urgent sourceWs).links
  unfold moveEnd
  dsimp only
  split
  · exact hcalm
  · exact hcalm.trans (calm_onRemoveChild hcalm.healthy _)

theorem links_reassignStickyN (n : ℕ) (t : Tree) (c : ConId) : Links t (reassignStickyN n t c) := by
  induction n generalizing t c with
  | zero => exact .refl t
  | succ n ih =>
    have hfold : ∀ (f : Tree → ConId → Tree), (∀ t c, Links t (f t c)) →
        ∀ (l : List ConId) (t : Tree), Links t (l.foldl f t) := by
      intro f hf l
      induction l with
      | nil => exact fun t => .refl t
      | cons c l ih => exact fun t => (hf t c).trans (ih _)
    rw [reassignStickyN]
    refine Links.trans (hfold _ (fun t d => ?_) _ t) (hfold _ (fun t d => ih t d) _ _)
    split
    · exact ih t d
    · split
      · exact ih t d
      · exact (links_setWindow t d _).trans (links_setWindow _ _ none)

theorem links_rememberWorkspace (t : Tree) (current : Option ConId) :
    Links t (t.rememberWorkspace current) := by
  unfold rememberWorkspace
  split
  · exact .refl t
  · split
    · exact .refl t
    · exact ⟨rfl, rfl, rfl, fun _ => rfl, fun _ => rfl, fun _ => rfl, fun _ => rfl, fun _ => rfl,
        fun _ => .refl _, fun _ => .refl _⟩

theorem stirs_showFocus (cfg : Config) (t : Tree) (ws next : ConId) : Stirs t (t.showFocus cfg ws next) := by
  rw [showFocus]
  split
  · have hfocus := (stirs_setUrgent t next false).trans (stirs_conFocus cfg _ next)
    dsimp only
    split
    · exact hfocus
    · exact ((hfocus.trans (stirs_setUrgent _ _ true)).trans (stirs_setUrgent _ ws true)).trans
        (.of_modify _ _ _ rfl (.refl _) (.refl _))
  · exact stirs_conFocus cfg t next

/-! ### Moving -/

/-- A tiling container `c` may be inserted after `target`, which is a tiling container and not the
child of a floating one. -/
def Beside (t : Tree) (c target : ConId) : Prop :=
  (t.con c).type ≠ .floatingCon → (t.con target).type ≠ .workspace
    ∧ (t.con target).type ≠ .floatingCon
    ∧ ∀ q, (t.con target).parent = some q → (t.con q).type ≠ .floatingCon

/-- What is sticky floats, if it is pushed. -/
def Pushed (pushes : Prop) (t : Tree) (c : ConId) : Prop :=
  pushes → (t.con c).type = .floatingCon
    ∧ ∃ y, Descent.Within t.children c y ∧ (t.con y).sticky = true

section Move

variable {showWorkspace : Tree → ConId → Tree} {c target w : ConId}

/-- **Moving a container** is a sequence of edits, if showing a workspace is. -/
theorem edits_moveCon (ht : Healthy t) (hc : t.Reach c) (hplaced : t.Placed c)
    (htarget : t.Reach target) (hct : ¬ Descent.Within t.children c target)
    (hw : t.getWorkspace target = some w) {behindFocused : Bool}
    (hbeside : behindFocused = false → t.Beside c target) (hpush : Pushed pushes t c)
    (hshow : ∀ s ws, Healthy s → Edits pushes s (showWorkspace s ws))
    (fixCoordinates ignoreFocus fixPercentage : Bool) :
    Edits pushes t (t.moveCon cfg showWorkspace c target w behindFocused fixCoordinates ignoreFocus
      fixPercentage) := by
  rw [moveCon]
  dsimp only
  split
  · exact .refl t
  · next anchor p hp =>
    obtain ⟨hwp, hptarget, hfloating⟩ := moveTarget_spec ht htarget hw hp
    have hwtype := (ht.rooted.getWorkspace_spec htarget hw).1
    have hl := (stirs_moveFixCoordinates t c (t.getOutput w) fixCoordinates).links
    generalize t.moveFixCoordinates c (t.getOutput w) fixCoordinates = s at hl ⊢
    have hs : Healthy s := ht.links hl
    -- the container is moved
    have hway : GaveWay s (s.moveFullscreen c w).1 c w :=
      gaveWay_moveFullscreen hs ((hl.type w).trans hwtype)
    generalize (s.moveFullscreen c w).1 = s₁ at hway ⊢
    have hmoved : Moved s (s₁.moveReattach cfg c p anchor behindFocused fixPercentage) c p w := by
      apply moved_moveReattach hs hway (hl.reach.mpr hc)
      · obtain ⟨u, hu, huc⟩ := hplaced
        exact ⟨u, (hl.type u).trans hu, huc.mono fun _ _ => hl.mem_children.mpr⟩
      · exact hl.reach.mpr (ht.rooted.reach_of_within htarget hptarget)
      · exact fun h => hct ((hl.within.mp h).trans hptarget)
      · rw [hl.type, hl.type]
        exact hfloating
      · intro hbehind hcf
        rw [hl.type] at hcf
        obtain ⟨hws, hfl, hpar⟩ := hbeside hbehind hcf
        obtain ⟨rfl, hmem⟩ := moveTarget_tiling ht htarget hws hfl hpar hcf hp
        refine ⟨anchor, rfl, by rwa [hl.nodesHead], ?_⟩
        rintro rfl
        exact hct (.refl _)
      · exact (hl.type w).trans hwtype
      · exact hl.within.mpr hwp
    have hedits : Edits pushes t (s₁.moveReattach cfg c p anchor behindFocused fixPercentage) := by
      refine (Edits.of_links ht hl).trans (.single (.moved hmoved fun h => ?_))
      obtain ⟨hfloat, y, hy, hsticky⟩ := hpush h
      exact ⟨(hl.type c).trans hfloat, y, hl.within.mpr hy, (hl.sticky y).trans hsticky⟩
    -- what follows is calm, but for showing the workspace
    refine Edits.then_calm ?_ ht fun h => calm_moveEnd h c _ _ _
    refine Edits.then_links ?_ ht (stirs_moveFocusBack _ _).links
    have hfocus : Edits pushes t (if ¬ignoreFocus = true
        ∧ ¬(s₁.moveReattach cfg c p anchor behindFocused fixPercentage).isInternal w = true
          ∧ (s.moveFullscreen c w).2 = none then
        (s₁.moveReattach cfg c p anchor behindFocused fixPercentage).moveFocus cfg c
          (t.getOutput w) (t.focused.bind t.getWorkspace)
        else s₁.moveReattach cfg c p anchor behindFocused fixPercentage) := by
      split
      · exact hedits.then_links ht (stirs_moveFocus _ _ _ _).links
      · exact hedits
    split
    · exact hfocus
    · split
      · exact hfocus
      · exact hfocus.trans (hshow _ _ (hfocus.healthy ht))

/-- The same for `_con_move_to_con`. -/
theorem edits_moveConWith (ht : Healthy t) (hc : t.Reach (t.movedCon c))
    (hplaced : (t.con (t.movedCon c)).type ≠ .workspace → t.Placed (t.movedCon c))
    (htarget : t.Reach target)
    (hct : ¬ Descent.Within t.children (t.movedCon c) target) {behindFocused : Bool}
    (hbeside : behindFocused = false → t.Beside (t.movedCon c) target)
    (hpush : (t.con (t.movedCon c)).type ≠ .workspace → Pushed pushes t (t.movedCon c))
    (hshow : ∀ s ws, Healthy s → Edits pushes s (showWorkspace s ws))
    (fixCoordinates ignoreFocus fixPercentage : Bool) :
    Edits pushes t (t.moveConWith cfg showWorkspace c target behindFocused fixCoordinates
      ignoreFocus fixPercentage) := by
  rw [moveConWith]
  split
  · exact .refl t
  · next w hw =>
    split
    · exact .refl t
    · next hws =>
      split
      · exact .refl t
      · exact edits_moveCon ht hc (hplaced hws) htarget hct hw hbeside (hpush hws) hshow _ _ _

end Move

/-! ### Pushing sticky windows -/

theorem exists_sticky_of_isStickyN (n : ℕ) {c : ConId} (h : t.isStickyN n c = true) :
    ∃ y, Descent.Within t.children c y ∧ (t.con y).sticky = true := by
  induction n generalizing c with
  | zero => exact ⟨c, .refl _, h⟩
  | succ n ih =>
    rw [isStickyN, Bool.or_eq_true, List.any_eq_true] at h
    rcases h with h | ⟨d, hd, hsticky⟩
    · exact ⟨c, .refl _, h⟩
    · obtain ⟨y, hy, hsy⟩ := ih hsticky
      exact ⟨y, (Descent.Below.single (List.mem_append_left _ hd)).within.trans hy, hsy⟩

/-- A floating container is listed by a workspace. -/
theorem Healthy.floating_parent (ht : Healthy t) {c : ConId} (hc : t.Reach c)
    (hfloat : (t.con c).type = .floatingCon) :
    ∃ q, (t.con c).parent = some q ∧ (t.con q).type = .workspace ∧ t.Reach q
      ∧ c ∈ t.children q := by
  have hroot : c ≠ t.croot := by
    rintro rfl
    rw [ht.rooted.typeRoot] at hfloat
    cases hfloat
  obtain ⟨q, hq, hreach, hmem⟩ := ht.rooted.exists_parent ⟨hc, hroot⟩
  refine ⟨q, hq, ?_, hreach, hmem⟩
  rcases List.mem_append.mp hmem with hnodes | hfloating
  · exact absurd hfloat (ht.rooted.typeNodes q c hnodes)
  · exact ht.layered.floating q c hfloating

/-- A floating container that is to go to another workspace is not above that. -/
theorem Healthy.not_within_descendFocused (ht : Healthy t) {c ws : ConId} (hc : t.Reach c)
    (hfloat : (t.con c).type = .floatingCon) (hwstype : (t.con ws).type = .workspace)
    (hcws : t.getWorkspace c ≠ some ws) :
    ∃ q, (t.con c).parent = some q ∧ (t.con q).type = .workspace ∧ c ∈ t.children q
      ∧ ¬ Descent.Within t.children c (t.descendFocused ws) := by
  obtain ⟨q, hq, hqtype, -, hmem⟩ := ht.floating_parent hc hfloat
  have htarget : Descent.Within t.children ws (t.descendFocused ws) := ht.rooted.descendFocusedN_within _ _
  refine ⟨q, hq, hqtype, hmem, fun h => ?_⟩
  rcases Descent.within_total ht.rooted.parent h htarget with h | h
  · rcases Descent.within_iff.mp h with rfl | h
    · rw [hfloat] at hwstype
      cases hwstype
    · exact ht.layered.workspace q hqtype ws ((Descent.Below.single hmem).trans h) hwstype
  · exact hcws (ht.rooted.getWorkspace_eq ht.layered hc hwstype h)

section Push

variable {showWorkspace : Tree → ConId → Tree}
  (hshow : ∀ s ws, Healthy s → Edits pushes s (showWorkspace s ws))
include hshow

theorem edits_moveToWorkspaceWith (ht : Healthy t) {c ws : ConId} (hc : t.Reach c)
    (hfloat : (t.con c).type = .floatingCon) (hws : t.Reach ws)
    (hsticky : ∃ y, Descent.Within t.children c y ∧ (t.con y).sticky = true)
    (fixCoordinates ignoreFocus : Bool) :
    Edits pushes t (t.moveToWorkspaceWith cfg showWorkspace c ws fixCoordinates ignoreFocus) := by
  rw [moveToWorkspaceWith]
  split
  · exact .refl t
  · next hne =>
    obtain ⟨hwstype, hcws⟩ := not_or.mp hne
    rw [not_not] at hwstype
    have htarget : Descent.Within t.children ws (t.descendFocused ws) :=
      ht.rooted.descendFocusedN_within _ _
    obtain ⟨q, hq, hqtype, hmem, hnot⟩ := ht.not_within_descendFocused hc hfloat hwstype hcws
    by_cases hmoved : t.isFloating c = true
    · -- `con_is_floating` holds of no floating container, but of what is in one
      have hmc : t.movedCon c = q := by rw [movedCon, if_pos hmoved, hq, Option.getD_some]
      rw [moveConWith, hmc]
      split
      · exact .refl t
      · rw [if_pos hqtype]
    · have hmc : t.movedCon c = c := if_neg hmoved
      apply edits_moveConWith ht
      · rwa [hmc]
      · rw [hmc]
        exact fun _ => ⟨q, hqtype, .single hmem⟩
      · exact hws.trans htarget
      · rwa [hmc]
      · simp
      · rw [hmc]
        exact fun _ _ => ⟨hfloat, hsticky⟩
      · exact hshow

theorem edits_pushSticky (ht : Healthy t) (oldFocus visibleWs : Option ConId) (c : ConId) :
    Edits pushes t (t.pushSticky cfg showWorkspace oldFocus visibleWs c) := by
  unfold pushSticky
  split
  · exact .refl t
  · next ws =>
    split
    · exact .refl t
    · next hskip =>
      obtain ⟨hfloat, hsticky, hin⟩ := by simpa only [not_or, not_not] using hskip
      dsimp only
      generalize (decide ((oldFocus.bind fun f => (t.con f).parent) ≠ some c)) = ignoreFocus
      have hmove : Edits pushes t (t.moveToWorkspaceWith cfg showWorkspace c ws true ignoreFocus) :=
        edits_moveToWorkspaceWith hshow ht (ht.rooted.inTree_iff.mp hin.1) hfloat
          (ht.rooted.inTree_iff.mp hin.2) (exists_sticky_of_isStickyN _ hsticky) _ _
      generalize t.moveToWorkspaceWith cfg showWorkspace c ws true ignoreFocus = s at hmove ⊢
      split
      · exact hmove
      · have hactivate := hmove.then_links ht (stirs_conActivate cfg s (s.descendFocused c)).links
        split
        · exact hactivate
        · exact hactivate.then_links ht (stirs_conActivate cfg _ _).links

theorem edits_pushStickyChildren (oldFocus visibleWs : Option ConId) (ws : ConId) (n : ℕ)
    (ht : Healthy t) (c : Option ConId) :
    Edits pushes t (pushStickyChildren cfg showWorkspace oldFocus visibleWs ws n t c) := by
  induction n generalizing t c with
  | zero => exact .refl t
  | succ n ih =>
    cases c with
    | none => exact .refl t
    | some c =>
      have hpush : Edits pushes t (t.pushSticky cfg showWorkspace oldFocus visibleWs c) :=
        edits_pushSticky hshow ht oldFocus visibleWs c
      exact hpush.trans (ih (hpush.healthy ht) _)

theorem edits_pushStickyWorkspaces (oldFocus visibleWs : Option ConId) (content : ConId) (n : ℕ)
    (ht : Healthy t) (ws : Option ConId) :
    Edits pushes t (pushStickyWorkspaces cfg showWorkspace oldFocus visibleWs content n t ws) := by
  induction n generalizing t ws with
  | zero => exact .refl t
  | succ n ih =>
    cases ws with
    | none => exact .refl t
    | some ws =>
      have hpush : Edits pushes t (pushStickyChildren cfg showWorkspace oldFocus visibleWs ws
          t.nextCon t (t.con ws).focusHead.head?) :=
        edits_pushStickyChildren hshow oldFocus visibleWs ws t.nextCon ht _
      exact hpush.trans (ih (hpush.healthy ht) _)

theorem edits_outputPushStickyWindows (ht : Healthy t) (oldFocus : Option ConId) :
    Edits pushes t (t.outputPushStickyWindows cfg showWorkspace oldFocus) := by
  rw [outputPushStickyWindows]
  generalize (t.con t.croot).focusHead = l
  induction l generalizing t with
  | nil => exact .refl t
  | cons output l ih =>
    rw [List.foldl_cons]
    split
    · exact ih ht
    · next content _ =>
      have hpush : Edits pushes t (pushStickyWorkspaces cfg showWorkspace oldFocus
          (t.visibleWorkspace output) content t.nextCon t (t.con content).focusHead.head?) :=
        edits_pushStickyWorkspaces hshow oldFocus (t.visibleWorkspace output) content t.nextCon ht _
      exact hpush.trans (ih (hpush.healthy ht))

theorem edits_showOther (ht : Healthy t) {ws : ConId} (hws : (t.con ws).type = .workspace)
    (hlt : ws < t.nextCon) {old : Option ConId} (hold : ∀ o ∈ old, o ≠ t.croot)
    (current : Option ConId) :
    Edits pushes t (t.showOther cfg showWorkspace ws old current) := by
  unfold showOther
  dsimp only
  have hname := links_rememberWorkspace t current
  have hsticky := links_reassignStickyN (t.rememberWorkspace current).nextCon
    (t.rememberWorkspace current) ws
  have hfocus := hname.trans (hsticky.trans (stirs_showFocus cfg
    ((t.rememberWorkspace current).workspaceReassignSticky ws) ws
    (Tree.descendFocused ((t.rememberWorkspace current).workspaceReassignSticky ws) ws)).links)
  generalize showFocus cfg _ ws _ = s at hfocus ⊢
  have hs := Calm.of_links ht hfocus
  have hclose : Calm t (s.closeOld cfg old) := by
    unfold closeOld
    split
    · exact hs
    · next o =>
      split
      · refine hs.trans (calm_treeCloseInternal hs.healthy ?_ _ _)
        rw [hs.croot]
        exact hold o rfl
      · exact hs
  have hflag : Calm t ((s.closeOld cfg old).setFullscreenMode ws .output) :=
    hclose.trans (calm_setFullscreenMode hclose.healthy (.inr ⟨(hclose.type ws hlt).trans hws, rfl⟩))
  exact (Edits.of_calm hflag).trans (edits_outputPushStickyWindows hshow hflag.healthy _)

end Push

/-- **Showing a workspace** is a sequence of edits, and pushes sticky windows only. -/
theorem edits_workspaceShowN (n : ℕ) (ht : Healthy t) (ws : ConId) :
    Edits pushes t (workspaceShowN cfg n t ws) := by
  induction n generalizing t ws with
  | zero => exact .refl t
  | succ n ih =>
    rw [workspaceShowN]
    split
    · exact .refl t
    · next content hcontent =>
      split
      · exact .refl t
      · next hskip =>
        obtain ⟨_, hws, hin⟩ := by simpa only [not_or, not_not] using hskip
        have hlt := ht.rooted.lt_nextCon (ht.rooted.inTree_iff.mp hin)
        have hflag := calm_flagWorkspace ht content hws
        dsimp only
        split
        · exact .of_calm hflag
        · refine (Edits.of_calm hflag).trans (edits_showOther (fun s ws hs => ih hs ws)
            hflag.healthy ((hflag.type ws hlt).trans hws) (hlt.trans_le hflag.nextCon) ?_ _)
          intro o ho
          rw [hflag.croot]
          have hmem := List.mem_of_find?_eq_some ho
          exact ht.rooted.ne_croot_of_mem (p := content)
            (List.mem_append_left _ (List.mem_reverse.mp hmem))

theorem edits_workspaceShow (ht : Healthy t) (ws : ConId) :
    Edits pushes t (t.workspaceShow cfg ws) :=
  edits_workspaceShowN _ ht ws

end Tree

end I3
