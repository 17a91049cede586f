import I3Aiwr.Tree.Edits
import I3Aiwr.Tree.Stacks

/-!
# The focus stacks list all children

A container that is attached somewhere is put into the focus stack of its parent too, and leaves it when
it is detached. So in an intact tree every child is in the focus stack of its parent, and it stays intact
while containers are closed and moved and workspaces are shown.

## Main definitions

* `Tree.Intact t`: the tree is healthy, and the focus stacks list all children

## Main results

* `Tree.intact_treeCloseInternal`, `Tree.intact_onRemoveChild`
* `Tree.intact_moveConWith`: moving a container
* `Tree.intact_workspaceShow`: showing a workspace
-/

namespace I3

namespace Tree

variable {cfg : Config} {t t' : Tree} {c p w ws : ConId}

/-- The links are right, and the focus stacks list all children. -/
structure Intact (t : Tree) : Prop where
  healthy : Healthy t
  stacked : Stacked t

theorem Intact.links (ht : Intact t) (h : Links t t') : Intact t' :=
  ⟨ht.healthy.links h, ht.stacked.links h⟩

/-! ### Fullscreen modes -/

theorem Stacked.setFullscreenMode (hs : Stacked t) (c : ConId) (mode : FullscreenMode) :
    Stacked (t.setFullscreenMode c mode) := by
  intro q x hx
  rw [setFullscreenMode_children] at hx
  rw [setFullscreenMode_con]
  exact hs q hx

theorem Stacked.conDisableFullscreen (hs : Stacked t) (c : ConId) : Stacked (t.conDisableFullscreen c) := by
  unfold Tree.conDisableFullscreen
  split
  · exact hs
  · split
    · exact hs
    · exact hs.setFullscreenMode c .none

theorem Stacked.moveFullscreen (hs : Stacked t) (c w : ConId) : Stacked (t.moveFullscreen c w).1 := by
  unfold Tree.moveFullscreen
  split
  · exact hs
  · split
    · exact hs.conDisableFullscreen _
    · exact hs

theorem Stacked.flagWorkspace (hs : Stacked t) (ws content : ConId) : Stacked (t.flagWorkspace ws content) := by
  have hfold : ∀ (l : List ConId) {s : Tree}, Stacked s →
      Stacked (l.foldl (fun t c => t.setFullscreenMode c .none) s) := by
    intro l
    induction l with
    | nil => exact id
    | cons c l ih => exact fun hs => ih (hs.setFullscreenMode c .none)
  exact (hfold _ hs).setFullscreenMode ws .output

end Tree

/-! ### Closing -/

namespace Closing

open I3.Tree

variable {cfg : Config} {t : Tree}

theorem stacked_finish (ht : Rooted t) (hs : Stacked t) (c : ConId) (dontKillParent : Bool)
    (rest : List CloseAction) (killed : Bool) :
    Stacked (finish cfg t c dontKillParent rest killed).tree :=
  ((hs.links (links_setWindow t c none)).conDetach (ht.links (links_setWindow t c none)) c).links
    (links_closeDetach c dontKillParent)

theorem stacked_removeChild (hs : Stacked t) (c : ConId) (rest : List CloseAction) (killed : Bool) :
    Stacked (removeChild t c rest killed).tree := by
  have hl := ((stirs_setUrgent t c (t.hasUrgentChild c)).trans (stirs_updateParentsUrgency _ c)).links
  unfold removeChild
  split
  · exact hs
  · split
    · split
      · exact hs
      · exact hs
    · dsimp only
      split
      · exact hs.links hl
      · exact hs.links hl

/-- A step of closing keeps the focus stacks complete. -/
theorem stacked_step (ht : Rooted t) (hs : Stacked t) (todo : List CloseAction) (killed : Bool) :
    Stacked (step cfg ⟨t, todo, killed⟩).tree := by
  match todo with
  | [] => exact hs
  | .close c kill dontKillParent :: rest =>
    rw [step]
    dsimp only
    split
    · exact hs.links (stirs_clearUrgency t c).links
    · exact hs
  | .child c kill dontKillParent (some d) abortKill :: rest => exact hs
  | .childClosed c kill dontKillParent next abortKill :: rest => exact hs
  | .child c kill dontKillParent none abortKill :: rest =>
    rw [step]
    dsimp only
    split
    · exact hs
    · exact stacked_finish ht hs c dontKillParent rest killed
  | .free c :: rest => exact hs.conFree c
  | .activate n :: rest => exact hs.links (stirs_conActivate cfg t n).links
  | .removeChild c :: rest => exact stacked_removeChild hs c rest killed
  | .returnTrue :: rest => exact hs

theorem stacked_runAll {s : Closing} (ht : Healthy s.tree) (hs : Stacked s.tree) (htodo : Tame s.tree s.todo)
    (n : ℕ) : Stacked (s.run cfg n).tree := by
  induction n generalizing s with
  | zero => exact hs
  | succ n ih =>
    obtain ⟨hcalm, htame⟩ := calm_step ht htodo s.killed
    exact ih hcalm.healthy (stacked_step ht.rooted hs s.todo s.killed) htame

end Closing

namespace Tree

variable {cfg : Config} {t t' : Tree} {c p w ws target : ConId} {showWorkspace : Tree → ConId → Tree}

/-- **Closing a container** keeps the tree intact. -/
theorem intact_treeCloseInternal (ht : Intact t) (hc : c ≠ t.croot) (kill : KillWindow)
    (dontKillParent : Bool) : Intact (t.treeCloseInternal cfg c kill dontKillParent) where
  healthy := (calm_treeCloseInternal ht.healthy hc kill dontKillParent).healthy
  stacked := Closing.stacked_runAll (s := ⟨t, [.close c kill dontKillParent], true⟩) ht.healthy ht.stacked
    (tame_of_forall (by simpa [CloseAction.OffRoot] using hc)) t.closeSteps

theorem intact_onRemoveChild (ht : Intact t) (c : ConId) : Intact (t.onRemoveChild cfg c) where
  healthy := (calm_onRemoveChild ht.healthy c).healthy
  stacked := Closing.stacked_runAll (s := ⟨t, [.removeChild c], true⟩) ht.healthy ht.stacked
    (tame_of_forall (by simp [CloseAction.OffRoot])) t.closeSteps

theorem intact_moveEnd (ht : Intact t) (c : ConId) (urgent : Bool) (sourceWs parent : Option ConId) :
    Intact (t.moveEnd cfg c urgent sourceWs parent) := by
  have hurgent := ht.links (stirs_moveUrgent t c urgent sourceWs).links
  unfold moveEnd
  dsimp only
  split
  · exact hurgent
  · exact intact_onRemoveChild hurgent _

/-! ### Attaching and moving -/

/-- A container that is attached is in the focus stack of its parent. -/
theorem Stacked.conAttachAt (hs : Stacked t) (ht : Rooted t) (hc : ∀ q, c ∉ t.children q)
    (hroot : c ≠ t.croot) (hlt : c < t.nextCon)
    (hdock : (t.con p).type = .dockarea → (t.con c).type ≠ .floatingCon)
    {previous : Option ConId} {ignoreFocus : Bool}
    (hanchor : (t.con c).type ≠ .floatingCon → AnchorOk t p previous ignoreFocus) :
    Stacked (t.conAttachAt cfg c p previous ignoreFocus) := by
  rcases conAttachAt_cases ht hc hroot hlt hdock hanchor with h | ⟨-, t₁, t₂, h₁, h₂, h₃⟩
  · exact hs.attaches h
  · exact ((hs.creates h₁).attaches h₂).attaches h₃

section Reattach

variable {s : Tree} (ht : Healthy t) (hs : GaveWay t s c w) (hstacked : Stacked s) (hc : t.Reach c)
  (hplaced : t.Placed c) (hp : t.Reach p)
  (hfloating : (t.con c).type = .floatingCon → (t.con p).type = .workspace)
  {anchor : Option ConId} {behindFocused : Bool}
  (hanchor : behindFocused = false → (t.con c).type ≠ .floatingCon →
    ∃ d, anchor = some d ∧ d ∈ (t.con p).nodesHead ∧ d ≠ c)
include ht hs hstacked hc hplaced hp hfloating hanchor

theorem stacked_moveReattach (fixPercentage : Bool) :
    Stacked (s.moveReattach cfg c p anchor behindFocused fixPercentage) := by
  have hsr : Rooted s := hs.calm.healthy.rooted
  have hattached : Stacked ((s.conDetach c).conAttachAt cfg c p (if behindFocused then none else anchor)
      (!behindFocused)) := by
    apply (hstacked.conDetach hsr c).conAttachAt (hsr.conDetach c) (hsr.notMem_children_conDetach c)
    · rw [conDetach_croot, hs.calm.croot]
      obtain ⟨u, -, hu⟩ := hplaced
      obtain ⟨q, -, hq⟩ := Descent.below_iff_exists.mp hu
      exact ht.rooted.ne_croot_of_mem hq
    · rw [conDetach_nextCon, hs.nextCon]
      exact ht.rooted.lt_nextCon hc
    · exact not_dockarea_conDetach ht hs hc hp hfloating
    · exact anchorOk_conDetach ht hs hc hanchor
  rw [moveReattach]
  generalize (s.conDetach c).conAttachAt cfg c p (if behindFocused then none else anchor) (!behindFocused) = u
    at hattached ⊢
  split
  · refine hattached.links (Links.trans ?_ ((links_setPercent _ c 0).trans (links_conFixPercent _ p)))
    split
    · exact .refl _
    · exact links_conFixPercent _ _
  · exact hattached

end Reattach

section Move

variable (hshow : ∀ s ws, Intact s → Intact (showWorkspace s ws))
include hshow

/-- **Moving a container** keeps the tree intact, if showing a workspace does. -/
theorem intact_moveCon (ht : Intact t) (hc : t.Reach c) (hplaced : t.Placed c)
    (htarget : t.Reach target) (hct : ¬ Descent.Within t.children c target)
    (hw : t.getWorkspace target = some w) {behindFocused : Bool}
    (hbeside : behindFocused = false → t.Beside c target)
    (fixCoordinates ignoreFocus fixPercentage : Bool) :
    Intact (t.moveCon cfg showWorkspace c target w behindFocused fixCoordinates ignoreFocus
      fixPercentage) := by
  have hh := ht.healthy
  rw [moveCon]
  dsimp only
  split
  · exact ht
  · next anchor p hp =>
    obtain ⟨hwp, hptarget, hfloating⟩ := moveTarget_spec hh htarget hw hp
    have hwtype := (hh.rooted.getWorkspace_spec htarget hw).1
    have hl := (stirs_moveFixCoordinates t c (t.getOutput w) fixCoordinates).links
    generalize t.moveFixCoordinates c (t.getOutput w) fixCoordinates = s at hl ⊢
    have hs : Intact s := ht.links hl
    have hway : GaveWay s (s.moveFullscreen c w).1 c w :=
      gaveWay_moveFullscreen hs.healthy ((hl.type w).trans hwtype)
    have hs₁ : Stacked (s.moveFullscreen c w).1 := hs.stacked.moveFullscreen c w
    generalize (s.moveFullscreen c w).1 = s₁ at hway hs₁ ⊢
    -- the container is moved to its place
    have hplaced' : s.Placed c := by
      obtain ⟨u, hu, huc⟩ := hplaced
      exact ⟨u, (hl.type u).trans hu, huc.mono fun _ _ => hl.mem_children.mpr⟩
    have hreachp : s.Reach p := hl.reach.mpr (hh.rooted.reach_of_within htarget hptarget)
    have hfloating' : (s.con c).type = .floatingCon → (s.con p).type = .workspace := by
      rw [hl.type, hl.type]
      exact hfloating
    have hanchor : behindFocused = false → (s.con c).type ≠ .floatingCon →
        ∃ d, some anchor = some d ∧ d ∈ (s.con p).nodesHead ∧ d ≠ c := by
      intro hbehind hcf
      rw [hl.type] at hcf
      obtain ⟨hws, hfl, hpar⟩ := hbeside hbehind hcf
      obtain ⟨rfl, hmem⟩ := moveTarget_tiling hh htarget hws hfl hpar hcf hp
      refine ⟨anchor, rfl, by rwa [hl.nodesHead], ?_⟩
      rintro rfl
      exact hct (.refl _)
    have hmoved : Moved s (s₁.moveReattach cfg c p anchor behindFocused fixPercentage) c p w :=
      moved_moveReattach hs.healthy hway (hl.reach.mpr hc) hplaced' hreachp
        (fun h => hct ((hl.within.mp h).trans hptarget)) hfloating' hanchor ((hl.type w).trans hwtype)
        (hl.within.mpr hwp) fixPercentage
    have hreattach : Intact (s₁.moveReattach cfg c p anchor behindFocused fixPercentage) :=
      ⟨hmoved.healthy, stacked_moveReattach hs.healthy hway hs₁ (hl.reach.mpr hc) hplaced' hreachp
        hfloating' hanchor fixPercentage⟩
    generalize s₁.moveReattach cfg c p anchor behindFocused fixPercentage = r at hreattach ⊢
    -- what follows leaves the links alone, but for showing the workspace and closing the old parent
    apply intact_moveEnd
    refine Intact.links ?_ (stirs_moveFocusBack _ _).links
    have hfocus : Intact (if ¬ignoreFocus = true ∧ ¬r.isInternal w = true ∧ (s.moveFullscreen c w).2 = none then
        r.moveFocus cfg c (t.getOutput w) (t.focused.bind t.getWorkspace) else r) := by
      split
      · exact hreattach.links (stirs_moveFocus _ _ _ _).links
      · exact hreattach
    split
    · exact hfocus
    · split
      · exact hfocus
      · exact hshow _ _ hfocus

/-- The same for `_con_move_to_con`. -/
theorem intact_moveConWith (ht : Intact t) (hc : t.Reach (t.movedCon c))
    (hplaced : (t.con (t.movedCon c)).type ≠ .workspace → t.Placed (t.movedCon c))
    (htarget : t.Reach target)
    (hct : ¬ Descent.Within t.children (t.movedCon c) target) {behindFocused : Bool}
    (hbeside : behindFocused = false → t.Beside (t.movedCon c) target)
    (fixCoordinates ignoreFocus fixPercentage : Bool) :
    Intact (t.moveConWith cfg showWorkspace c target behindFocused fixCoordinates ignoreFocus
      fixPercentage) := by
  rw [moveConWith]
  split
  · exact ht
  · next w hw =>
    split
    · exact ht
    · next hws =>
      split
      · exact ht
      · exact intact_moveCon hshow ht hc (hplaced hws) htarget hct hw hbeside _ _ _

theorem intact_moveToWorkspaceWith (ht : Intact t) (hc : t.Reach c)
    (hfloat : (t.con c).type = .floatingCon) (hws : t.Reach ws) (fixCoordinates ignoreFocus : Bool) :
    Intact (t.moveToWorkspaceWith cfg showWorkspace c ws fixCoordinates ignoreFocus) := by
  rw [moveToWorkspaceWith]
  split
  · exact ht
  · next hne =>
    obtain ⟨hwstype, hcws⟩ := not_or.mp hne
    rw [not_not] at hwstype
    obtain ⟨q, hq, hqtype, hmem, hnot⟩ := ht.healthy.not_within_descendFocused hc hfloat hwstype hcws
    by_cases hmoved : t.isFloating c = true
    · -- `con_is_floating` holds of no floating container, but of what is in one
      have hmc : t.movedCon c = q := by rw [movedCon, if_pos hmoved, hq, Option.getD_some]
      rw [moveConWith, hmc]
      split
      · exact ht
      · rw [if_pos hqtype]
        exact ht
    · have hmc : t.movedCon c = c := if_neg hmoved
      apply intact_moveConWith hshow ht
      · rwa [hmc]
      · rw [hmc]
        exact fun _ => ⟨q, hqtype, .single hmem⟩
      · exact hws.trans (ht.healthy.rooted.descendFocusedN_within _ _)
      · rwa [hmc]
      · simp

/-! ### Pushing sticky windows -/

theorem intact_pushSticky (ht : Intact t) (oldFocus visibleWs : Option ConId) (c : ConId) :
    Intact (t.pushSticky cfg showWorkspace oldFocus visibleWs c) := by
  unfold pushSticky
  split
  · exact ht
  · next ws =>
    split
    · exact ht
    · next hskip =>
      obtain ⟨hfloat, -, hin⟩ := by simpa only [not_or, not_not] using hskip
      dsimp only
      generalize (decide ((oldFocus.bind fun f => (t.con f).parent) ≠ some c)) = ignoreFocus
      have hmove : Intact (t.moveToWorkspaceWith cfg showWorkspace c ws true ignoreFocus) :=
        intact_moveToWorkspaceWith hshow ht (ht.healthy.rooted.inTree_iff.mp hin.1) hfloat
          (ht.healthy.rooted.inTree_iff.mp hin.2) _ _
      generalize t.moveToWorkspaceWith cfg showWorkspace c ws true ignoreFocus = s at hmove ⊢
      split
      · exact hmove
      · have hactivate := hmove.links (stirs_conActivate cfg s (s.descendFocused c)).links
        split
        · exact hactivate
        · exact hactivate.links (stirs_conActivate cfg _ _).links

theorem intact_pushStickyChildren (oldFocus visibleWs : Option ConId) (ws : ConId) (n : ℕ)
    (ht : Intact t) (c : Option ConId) :
    Intact (pushStickyChildren cfg showWorkspace oldFocus visibleWs ws n t c) := by
  induction n generalizing t c with
  | zero => exact ht
  | succ n ih =>
    cases c with
    | none => exact ht
    | some c => exact ih (intact_pushSticky hshow ht oldFocus visibleWs c) _

theorem intact_pushStickyWorkspaces (oldFocus visibleWs : Option ConId) (content : ConId) (n : ℕ)
    (ht : Intact t) (ws : Option ConId) :
    Intact (pushStickyWorkspaces cfg showWorkspace oldFocus visibleWs content n t ws) := by
  induction n generalizing t ws with
  | zero => exact ht
  | succ n ih =>
    cases ws with
    | none => exact ht
    | some ws => exact ih (intact_pushStickyChildren hshow oldFocus visibleWs ws t.nextCon ht _) _

theorem intact_outputPushStickyWindows (ht : Intact t) (oldFocus : Option ConId) :
    Intact (t.outputPushStickyWindows cfg showWorkspace oldFocus) := by
  rw [outputPushStickyWindows]
  generalize (t.con t.croot).focusHead = l
  induction l generalizing t with
  | nil => exact ht
  | cons output l ih =>
    rw [List.foldl_cons]
    split
    · exact ih ht
    · next content _ =>
      exact ih (intact_pushStickyWorkspaces hshow oldFocus (t.visibleWorkspace output) content t.nextCon ht _)

theorem intact_showOther (ht : Intact t) (hws : (t.con ws).type = .workspace) (hlt : ws < t.nextCon)
    {old : Option ConId} (hold : ∀ o ∈ old, o ≠ t.croot) (current : Option ConId) :
    Intact (t.showOther cfg showWorkspace ws old current) := by
  unfold showOther
  dsimp only
  have hname := links_rememberWorkspace t current
  have hsticky := links_reassignStickyN (t.rememberWorkspace current).nextCon
    (t.rememberWorkspace current) ws
  have hfocus := hname.trans (hsticky.trans (stirs_showFocus cfg
    ((t.rememberWorkspace current).workspaceReassignSticky ws) ws
    (Tree.descendFocused ((t.rememberWorkspace current).workspaceReassignSticky ws) ws)).links)
  generalize showFocus cfg _ ws _ = s at hfocus ⊢
  have hs : Intact s := ht.links hfocus
  have hclose : Intact (s.closeOld cfg old) ∧ ((s.closeOld cfg old).con ws).type = .workspace := by
    unfold closeOld
    split
    · exact ⟨hs, (hfocus.type ws).trans hws⟩
    · next o =>
      split
      · have hroot : o ≠ s.croot := by
          rw [hfocus.croot]
          exact hold o rfl
        refine ⟨intact_treeCloseInternal hs hroot _ _, ?_⟩
        rw [(calm_treeCloseInternal hs.healthy hroot _ _).type ws (hfocus.nextCon ▸ hlt), hfocus.type, hws]
      · exact ⟨hs, (hfocus.type ws).trans hws⟩
  apply intact_outputPushStickyWindows hshow
  exact ⟨(calm_setFullscreenMode hclose.1.healthy (.inr ⟨hclose.2, rfl⟩)).healthy,
    hclose.1.stacked.setFullscreenMode ws .output⟩

end Move

/-- **Showing a workspace** keeps the tree intact. -/
theorem intact_workspaceShowN (n : ℕ) (ht : Intact t) (ws : ConId) : Intact (workspaceShowN cfg n t ws) := by
  induction n generalizing t ws with
  | zero => exact ht
  | succ n ih =>
    rw [workspaceShowN]
    split
    · exact ht
    · next content hcontent =>
      split
      · exact ht
      · next hskip =>
        obtain ⟨_, hws, hin⟩ := by simpa only [not_or, not_not] using hskip
        have hlt := ht.healthy.rooted.lt_nextCon (ht.healthy.rooted.inTree_iff.mp hin)
        have hcalm := calm_flagWorkspace ht.healthy content hws
        have hflag : Intact (t.flagWorkspace ws content) := ⟨hcalm.healthy, ht.stacked.flagWorkspace ws content⟩
        dsimp only
        split
        · exact hflag
        · refine intact_showOther (fun s ws hs => ih hs ws) hflag ((hcalm.type ws hlt).trans hws)
            (hlt.trans_le hcalm.nextCon) (fun o ho => ?_) _
          rw [hcalm.croot]
          have hmem := List.mem_of_find?_eq_some ho
          exact ht.healthy.rooted.ne_croot_of_mem (p := content)
            (List.mem_append_left _ (List.mem_reverse.mp hmem))

theorem intact_workspaceShow (ht : Intact t) (ws : ConId) : Intact (t.workspaceShow cfg ws) :=
  intact_workspaceShowN _ ht ws

end Tree

end I3
