import I3Aiwr.Tree.Edits
import I3Aiwr.Tree.Fullscreen

/-!
# What names a container

Moving, closing, showing and swapping containers change the tree in many ways, but they never touch
what names a container: its type, its name and number, and its marks. A container that is made on
the way is a plain one without marks, and none that was freed comes back.

## Main definitions

* `Tree.Labels t t'`: the containers of `t'` are named as in `t`, or are new and plain

## Main results

* `Tree.labels_treeCloseInternal`, `Tree.labels_workspaceShow`, `Tree.labels_conMoveToWorkspace`,
  `Tree.labels_conSwap`
-/

namespace I3

/-- A container with nothing but what names it. -/
def Con.label (c : Con) : Con := { type := c.type, num := c.num, name := c.name, marks := c.marks }

namespace Tree

/-- The containers of `t'` are named as in `t`, or are new and plain. -/
structure Labels (t t' : Tree) : Prop where
  nextCon : t.nextCon ≤ t'.nextCon
  label : ∀ c < t.nextCon, (t'.con c).label = (t.con c).label
  new : ∀ c, t.nextCon ≤ c → c < t'.nextCon → (t'.con c).label = Con.label {}
  allCons : ∀ c ∈ t'.allCons, c ∈ t.allCons ∨ t.nextCon ≤ c ∧ c < t'.nextCon

variable {cfg : Config} {t t' t'' : Tree}

namespace Labels

@[refl] theorem refl (t : Tree) : Labels t t :=
  ⟨le_rfl, fun _ _ => rfl, fun _ hc hc' => absurd hc' hc.not_gt, fun _ hc => .inl hc⟩

theorem trans (h : Labels t t') (h' : Labels t' t'') : Labels t t'' where
  nextCon := h.nextCon.trans h'.nextCon
  label c hc := (h'.label c (hc.trans_le h.nextCon)).trans (h.label c hc)
  new c hc hc' := by
    by_cases hlt : c < t'.nextCon
    · exact (h'.label c hlt).trans (h.new c hc hlt)
    · exact h'.new c (not_lt.mp hlt) hc'
  allCons c hc := by
    rcases h'.allCons c hc with hc | ⟨hle, hlt⟩
    · exact (h.allCons c hc).imp_right fun hc => ⟨hc.1, hc.2.trans_le h'.nextCon⟩
    · exact .inr ⟨h.nextCon.trans hle, hlt⟩

/-- No container is made, and what names one stays. -/
theorem of_label (hnext : t'.nextCon = t.nextCon) (hall : t'.allCons ⊆ t.allCons)
    (hlabel : ∀ c, (t'.con c).label = (t.con c).label) : Labels t t' :=
  ⟨hnext.ge, fun c _ => hlabel c, fun _ hc hc' => absurd (hnext ▸ hc') hc.not_gt,
    fun _ hc => .inl (hall hc)⟩

theorem of_modify (t : Tree) (c : ConId) (f : Con → Con)
    (h : (f (t.con c)).label = (t.con c).label) : Labels t (t.modify c f) := by
  refine of_label rfl (List.Subset.refl _) fun d => ?_
  by_cases hd : d = c
  · subst hd
    rw [modify_con_self, h]
  · rw [modify_con_of_ne _ _ hd]

end Labels

theorem Stirs.labels (h : Stirs t t') : Labels t t' :=
  .of_label h.nextCon (by rw [h.allCons]; exact List.Subset.refl _)
    fun c => (congrArg Con.label (h.still c) :)

theorem labels_foldl {f : Tree → ConId → Tree} (h : ∀ t c, Labels t (f t c)) (l : List ConId)
    (t : Tree) : Labels t (l.foldl f t) := by
  induction l generalizing t with
  | nil => exact .refl t
  | cons c l ih => exact (h t c).trans (ih _)

/-! ### Edits -/

variable (t)

theorem labels_conNew (window : Option Window) : Labels t (t.conNew cfg window).1 where
  nextCon := Nat.le_succ _
  label c hc := congrArg Con.label (Function.update_of_ne hc.ne _ _)
  new c hc hc' := by
    obtain rfl : c = t.nextCon := Nat.le_antisymm (Nat.lt_succ_iff.mp hc') hc
    simp only [conNew, Function.update_self]
    rfl
  allCons c hc := by
    rcases List.mem_append.mp hc with hc | hc
    · exact .inl hc
    · obtain rfl := List.mem_singleton.mp hc
      exact .inr ⟨le_rfl, Nat.lt_succ_self _⟩

theorem labels_conFree (c : ConId) : Labels t (t.conFree c) := by
  have herase : Labels t { t with allCons := t.allCons.erase c } :=
    .of_label rfl List.erase_subset fun _ => rfl
  unfold conFree
  dsimp only
  split
  · refine herase.trans ?_
    unfold scrollingForget
    split
    · exact .of_label rfl (List.Subset.refl _) fun _ => rfl
    · exact .refl _
  · exact herase

theorem labels_setPercent (c : ConId) (p : ℚ) : Labels t (t.setPercent c p) := .of_modify t c _ rfl

theorem labels_percentFill (n : ℕ) (l : List ConId) (total : ℚ) :
    Labels t (percentFill n l t total).1 := by
  induction l generalizing t total with
  | nil => exact .refl t
  | cons c l ih =>
    rw [percentFill]
    split
    · exact (labels_setPercent t c _).trans (ih _ _)
    · exact ih t total

theorem labels_percentScale (nodes : List ConId) (total : ℚ) :
    Labels t (percentScale nodes (t, total)) := by
  rw [percentScale]
  split
  · exact labels_foldl (fun t c => labels_setPercent t c _) nodes t
  · split
    · exact labels_foldl (fun t c => labels_setPercent t c _) nodes t
    · exact .refl t

theorem labels_conFixPercent (c : ConId) : Labels t (t.conFixPercent c) := by
  rw [conFixPercent]
  split
  · exact .refl t
  · dsimp only
    split
    · exact (labels_percentFill t _ _ _).trans (labels_percentScale _ _ _)
    · exact labels_percentScale t _ _

theorem labels_setParent (c p : ConId) : Labels t (t.setParent c p) := .of_modify t c _ rfl

theorem labels_editNodes (p : ConId) (f : List ConId → List ConId) : Labels t (t.editNodes p f) :=
  .of_modify t p _ rfl

theorem labels_editFloating (p : ConId) (f : List ConId → List ConId) :
    Labels t (t.editFloating p f) := .of_modify t p _ rfl

theorem labels_editFocus (p : ConId) (f : List ConId → List ConId) : Labels t (t.editFocus p f) :=
  .of_modify t p _ rfl

theorem labels_setLayout (c : ConId) (layout : Layout) : Labels t (t.setLayout c layout) :=
  .of_modify t c _ rfl

theorem labels_attachPlain (c p : ConId) (previous : Option ConId) (ignoreFocus : Bool) :
    Labels t (t.attachPlain c p previous ignoreFocus) := by
  unfold attachPlain
  dsimp only
  refine (labels_setParent t c p).trans (Labels.trans ?_ (labels_editFocus _ p _))
  split
  · exact labels_editNodes _ p _
  · split
    · exact labels_editNodes _ p _
    · split
      · exact labels_editFloating _ p _
      · split
        · split
          · exact labels_editNodes _ p _
          · exact labels_editNodes _ p _
        · exact labels_editNodes _ p _

theorem labels_workspaceAttachTo (ws : ConId) : Labels t (t.workspaceAttachTo cfg ws).1 := by
  unfold workspaceAttachTo
  split
  · exact .refl t
  · have hnew : Labels t (t.conNew cfg none).1 := labels_conNew t none
    exact (((hnew.trans (labels_setParent _ _ ws)).trans (labels_setLayout _ _ _)).trans
      (labels_attachPlain _ _ ws none false)).trans (labels_conFixPercent _ ws)

theorem labels_conAttachAt (c p : ConId) (previous : Option ConId) (ignoreFocus : Bool) :
    Labels t (t.conAttachAt cfg c p previous ignoreFocus) := by
  unfold conAttachAt
  split
  · exact ((((labels_setParent t c p).trans (labels_workspaceAttachTo _ p)).trans
      (labels_setParent _ c _)).trans (labels_editNodes _ _ _)).trans (labels_editFocus _ _ _)
  · exact labels_attachPlain t c p previous ignoreFocus

theorem labels_conAttach (c p : ConId) (ignoreFocus : Bool) :
    Labels t (t.conAttach cfg c p ignoreFocus) :=
  labels_conAttachAt t c p none ignoreFocus

theorem labels_conDetach (c : ConId) : Labels t (t.conDetach c) := by
  rw [conDetach]
  split
  · exact .refl t
  · split
    · exact (labels_editFloating t _ _).trans (labels_editFocus _ _ _)
    · exact (labels_editNodes t _ _).trans (labels_editFocus _ _ _)

theorem labels_moveChildren (ws new : ConId) : Labels t (t.moveChildren cfg ws new) := by
  rw [moveChildren]
  refine Labels.trans ?_ (labels_editFocus _ new _)
  exact labels_foldl (fun t c => (labels_conDetach t c).trans (labels_conAttach _ c new true)) _ t

theorem labels_workspaceEncapsulate {ws : ConId} {r : Tree × ConId}
    (h : t.workspaceEncapsulate cfg ws = some r) : Labels t r.1 := by
  unfold workspaceEncapsulate at h
  split at h
  · cases h
  · cases h
    exact ((((labels_conNew t none).trans (labels_setParent _ _ ws)).trans
      (labels_setLayout _ _ _)).trans (labels_moveChildren _ ws _)).trans (labels_conAttach _ _ ws true)

/-! ### Closing -/

theorem labels_setWindow (c : ConId) (window : Option Window) : Labels t (t.setWindow c window) :=
  .of_modify t c _ rfl

theorem labels_closeDetach (c : ConId) (dontKillParent : Bool) :
    Labels t (t.closeDetach cfg c dontKillParent) := by
  have htimer := (labels_conDetach t c).trans
    (stirs_stopUrgencyTimer (t := t.conDetach c) c (t.getWorkspace c)).labels
  rw [closeDetach]
  generalize (t.conDetach c).stopUrgencyTimer c (t.getWorkspace c) = s at htimer ⊢
  have hrender : ∀ {u : Tree}, Labels t u → Labels t (if dontKillParent then u else u.treeRender cfg) := by
    intro u hu
    split
    · exact hu
    · exact hu.trans (stirs_treeRender cfg _).labels
  refine hrender ?_
  split
  · exact htimer
  · split
    · exact htimer
    · exact htimer.trans (labels_conFixPercent s _)

theorem labels_closingRemoveChild (c : ConId) (rest : List CloseAction) (killed : Bool) :
    Labels t (Closing.removeChild t c rest killed).tree := by
  have hurgent := ((stirs_setUrgent t c (t.hasUrgentChild c)).trans
    (stirs_updateParentsUrgency _ c)).labels
  unfold Closing.removeChild
  split
  · exact .refl t
  · split
    · split <;> exact .refl t
    · dsimp only
      split <;> exact hurgent

theorem labels_closingStep (s : Closing) : Labels s.tree (s.step cfg).tree := by
  unfold Closing.step
  split
  · exact .refl _
  · dsimp only
    split
    · exact (stirs_clearUrgency s.tree _).labels
    · exact .refl _
  · exact .refl _
  · exact .refl _
  · split
    · exact .refl _
    · exact (labels_setWindow s.tree _ none).trans (labels_closeDetach _ _ _)
  · exact labels_conFree s.tree _
  · exact (stirs_conActivate cfg s.tree _).labels
  · exact labels_closingRemoveChild s.tree _ _ _
  · exact .refl _

theorem labels_closingRun (n : ℕ) (s : Closing) : Labels s.tree (s.run cfg n).tree := by
  induction n generalizing s with
  | zero => exact .refl _
  | succ n ih => exact (labels_closingStep s).trans (ih _)

theorem labels_treeCloseInternal (c : ConId) (kill : KillWindow) (dontKillParent : Bool) :
    Labels t (t.treeCloseInternal cfg c kill dontKillParent) := labels_closingRun _ ⟨t, _, true⟩

theorem labels_onRemoveChild (c : ConId) : Labels t (t.onRemoveChild cfg c) :=
  labels_closingRun _ ⟨t, _, true⟩

/-! ### Moving and showing -/

theorem labels_setFullscreenMode (c : ConId) (mode : FullscreenMode) :
    Labels t (t.setFullscreenMode c mode) := .of_modify t c _ rfl

theorem labels_conDisableFullscreen (c : ConId) : Labels t (t.conDisableFullscreen c) := by
  rw [conDisableFullscreen]
  split
  · exact .refl t
  · split
    · exact .refl t
    · exact labels_setFullscreenMode t c .none

theorem labels_moveFullscreen (con targetWs : ConId) : Labels t (t.moveFullscreen con targetWs).1 := by
  rw [moveFullscreen]
  split
  · exact .refl t
  · split
    · exact labels_conDisableFullscreen t _
    · exact .refl t

theorem labels_moveReattach (con target : ConId) (anchor : Option ConId)
    (behindFocused fixPercentage : Bool) :
    Labels t (t.moveReattach cfg con target anchor behindFocused fixPercentage) := by
  unfold moveReattach
  dsimp only
  have hattach : Labels t ((t.conDetach con).conAttachAt cfg con target
      (if behindFocused then none else anchor) (!behindFocused)) :=
    (labels_conDetach t con).trans (labels_conAttachAt _ con target _ _)
  generalize (t.conDetach con).conAttachAt cfg con target _ _ = s at hattach ⊢
  split
  · refine hattach.trans (Labels.trans ?_ (labels_conFixPercent _ target))
    refine Labels.trans ?_ (labels_setPercent _ con 0)
    split
    · exact .refl _
    · exact labels_conFixPercent _ _
  · exact hattach

theorem labels_moveEnd (con : ConId) (urgent : Bool) (sourceWs parent : Option ConId) :
    Labels t (t.moveEnd cfg con urgent sourceWs parent) := by
  have hurgent := (stirs_moveUrgent t con urgent sourceWs).labels
  unfold moveEnd
  dsimp only
  split
  · exact hurgent
  · exact hurgent.trans (labels_onRemoveChild _ _)

theorem labels_reassignStickyN (n : ℕ) (c : ConId) : Labels t (reassignStickyN n t c) := by
  induction n generalizing t c with
  | zero => exact .refl t
  | succ n ih =>
    rw [reassignStickyN]
    refine (labels_foldl (fun t d => ?_) _ t).trans (labels_foldl (fun t d => ih t d) _ _)
    split
    · exact ih t d
    · split
      · exact ih t d
      · exact (labels_setWindow t d _).trans (labels_setWindow _ _ none)

theorem labels_closeOld (old : Option ConId) : Labels t (t.closeOld cfg old) := by
  unfold closeOld
  split
  · exact .refl t
  · split
    · exact labels_treeCloseInternal t _ _ _
    · exact .refl t

section Show

variable {showWorkspace : Tree → ConId → Tree} (hshow : ∀ t ws, Labels t (showWorkspace t ws))
include hshow

theorem labels_moveCon (con target targetWs : ConId)
    (behindFocused fixCoordinates ignoreFocus fixPercentage : Bool) :
    Labels t (t.moveCon cfg showWorkspace con target targetWs behindFocused fixCoordinates
      ignoreFocus fixPercentage) := by
  unfold moveCon
  dsimp only
  split
  · exact .refl t
  · next anchor p _ =>
    have hplace := (stirs_moveFixCoordinates t con (t.getOutput targetWs) fixCoordinates).labels
    generalize t.moveFixCoordinates con (t.getOutput targetWs) fixCoordinates = s at hplace ⊢
    have hreattach := (hplace.trans (labels_moveFullscreen s con targetWs)).trans
      (@labels_moveReattach cfg _ con p anchor behindFocused fixPercentage)
    generalize (s.moveFullscreen con targetWs).1.moveReattach cfg con p anchor behindFocused
      fixPercentage = s₁ at hreattach ⊢
    refine Labels.trans ?_ (labels_moveEnd _ con _ _ _)
    refine Labels.trans ?_ (stirs_moveFocusBack _ _).labels
    -- the focus, and then the workspace that had it
    have hfocus : Labels t (if ¬ignoreFocus = true ∧ ¬s₁.isInternal targetWs = true
        ∧ (s.moveFullscreen con targetWs).2 = none then
          s₁.moveFocus cfg con (t.getOutput targetWs) (t.focused.bind t.getWorkspace) else s₁) := by
      split
      · exact hreattach.trans (stirs_moveFocus _ _ _ _).labels
      · exact hreattach
    split
    · exact hfocus
    · split
      · exact hfocus
      · exact hfocus.trans (hshow _ _)

theorem labels_moveConWith (con target : ConId)
    (behindFocused fixCoordinates ignoreFocus fixPercentage : Bool) :
    Labels t (t.moveConWith cfg showWorkspace con target behindFocused fixCoordinates ignoreFocus
      fixPercentage) := by
  rw [moveConWith]
  split
  · exact .refl t
  · split
    · exact .refl t
    · split
      · exact .refl t
      · exact labels_moveCon t hshow _ _ _ _ _ _ _

theorem labels_moveToWorkspaceWith (con ws : ConId) (fixCoordinates ignoreFocus : Bool) :
    Labels t (t.moveToWorkspaceWith cfg showWorkspace con ws fixCoordinates ignoreFocus) := by
  rw [moveToWorkspaceWith]
  split
  · exact .refl t
  · exact labels_moveConWith t hshow _ _ _ _ _ _

theorem labels_pushSticky (oldFocus visibleWs : Option ConId) (c : ConId) :
    Labels t (t.pushSticky cfg showWorkspace oldFocus visibleWs c) := by
  unfold pushSticky
  split
  · exact .refl t
  · next ws =>
    split
    · exact .refl t
    · have hmove := @labels_moveToWorkspaceWith cfg t _ hshow c ws true
      dsimp only
      split
      · exact hmove _
      · split
        · exact (hmove _).trans (stirs_conActivate cfg _ _).labels
        · exact ((hmove _).trans (stirs_conActivate cfg _ _).labels).trans
            (stirs_conActivate cfg _ _).labels

theorem labels_pushStickyChildren (oldFocus visibleWs : Option ConId) (ws : ConId) (n : ℕ)
    (c : Option ConId) :
    Labels t (pushStickyChildren cfg showWorkspace oldFocus visibleWs ws n t c) := by
  induction n generalizing t c with
  | zero => exact .refl t
  | succ n ih =>
    cases c with
    | none => exact .refl t
    | some c => exact (labels_pushSticky t hshow oldFocus visibleWs c).trans (ih _ _)

theorem labels_pushStickyWorkspaces (oldFocus visibleWs : Option ConId) (content : ConId) (n : ℕ)
    (ws : Option ConId) :
    Labels t (pushStickyWorkspaces cfg showWorkspace oldFocus visibleWs content n t ws) := by
  induction n generalizing t ws with
  | zero => exact .refl t
  | succ n ih =>
    cases ws with
    | none => exact .refl t
    | some ws =>
      exact (labels_pushStickyChildren t hshow oldFocus visibleWs ws t.nextCon _).trans (ih _ _)

theorem labels_outputPushStickyWindows (oldFocus : Option ConId) :
    Labels t (t.outputPushStickyWindows cfg showWorkspace oldFocus) := by
  refine labels_foldl (fun t output => ?_) _ t
  split
  · exact .refl t
  · exact labels_pushStickyWorkspaces t hshow _ _ _ _ _

theorem labels_showOther (ws : ConId) (old current : Option ConId) :
    Labels t (t.showOther cfg showWorkspace ws old current) := by
  have hname : Labels t (t.rememberWorkspace current) := by
    unfold rememberWorkspace
    split
    · exact .refl t
    · split
      · exact .refl t
      · exact .of_label rfl (List.Subset.refl _) fun _ => rfl
  unfold showOther
  dsimp only
  refine Labels.trans ?_ (labels_outputPushStickyWindows _ hshow _)
  refine Labels.trans ?_ (labels_setFullscreenMode _ ws .output)
  refine Labels.trans ?_ (labels_closeOld _ old)
  refine Labels.trans ?_ (stirs_showFocus cfg _ ws _).labels
  exact hname.trans (labels_reassignStickyN _ _ ws)

end Show

theorem labels_flagWorkspace (ws content : ConId) : Labels t (t.flagWorkspace ws content) := by
  rw [flagWorkspace]
  refine Labels.trans ?_ (labels_setFullscreenMode _ ws .output)
  exact labels_foldl (fun t c => labels_setFullscreenMode t c .none) _ t

theorem labels_workspaceShowN (n : ℕ) (ws : ConId) : Labels t (workspaceShowN cfg n t ws) := by
  induction n generalizing t ws with
  | zero => exact .refl t
  | succ n ih =>
    unfold workspaceShowN
    split
    · exact .refl t
    · next content _ =>
      split
      · exact .refl t
      · dsimp only
        split
        · exact labels_flagWorkspace t ws content
        · exact (labels_flagWorkspace t ws content).trans (labels_showOther _ ih ws _ _)

theorem labels_workspaceShow (ws : ConId) : Labels t (t.workspaceShow cfg ws) :=
  labels_workspaceShowN t _ ws

theorem labels_moveFloatingWindows (sourceWs targetWs : ConId) (n : ℕ) :
    Labels t (moveFloatingWindows cfg sourceWs targetWs n t) := by
  induction n generalizing t with
  | zero => exact .refl t
  | succ n ih =>
    rw [moveFloatingWindows]
    split
    · exact .refl t
    · exact (labels_moveToWorkspaceWith t (fun t ws => labels_workspaceShow t ws) _ _ _ _).trans (ih _)

theorem labels_conMoveToCon (con target : ConId)
    (behindFocused fixCoordinates ignoreFocus fixPercentage : Bool) :
    Labels t (t.conMoveToCon cfg con target behindFocused fixCoordinates ignoreFocus
      fixPercentage) := by
  unfold conMoveToCon
  split
  · split
    · exact .refl t
    · next w _ =>
      split
      · exact .refl t
      · have hfloating := @labels_moveFloatingWindows cfg t (t.movedCon con) w t.nextCon
        dsimp only
        split
        · exact hfloating
        · next heq =>
          exact (hfloating.trans (labels_workspaceEncapsulate _ heq)).trans
            (labels_moveCon _ (fun t ws => labels_workspaceShow t ws) _ _ _ _ _ _ _)
  · exact labels_moveConWith t (fun t ws => labels_workspaceShow t ws) _ _ _ _ _ _

theorem labels_conMoveToWorkspace (con ws : ConId) (fixCoordinates ignoreFocus : Bool) :
    Labels t (t.conMoveToWorkspace cfg con ws fixCoordinates ignoreFocus) := by
  rw [conMoveToWorkspace]
  split
  · exact .refl t
  · exact labels_conMoveToCon t _ _ _ _ _ _

/-! ### Fullscreen modes and swapping -/

theorem labels_conEnableFullscreen (con : ConId) (mode : FullscreenMode) :
    Labels t (t.conEnableFullscreen cfg con mode) := by
  have hdisable : ∀ ws, Labels t (t.disableConflicting ws) := fun ws => by
    unfold disableConflicting
    split
    · exact .refl t
    · exact labels_conDisableFullscreen t _
  unfold conEnableFullscreen
  split
  · exact .refl t
  · split
    · exact .refl t
    · split
      · exact .refl t
      · next ws _ =>
        refine ((hdisable ws).trans ?_).trans (labels_setFullscreenMode _ con mode)
        generalize t.disableConflicting ws = s
        unfold enableFocus
        dsimp only
        have hshow : Labels s (if mode = .global ∧ s.focused.bind s.getWorkspace ≠ some ws
            then s.workspaceShow cfg ws else s) := by
          split
          · exact labels_workspaceShow s ws
          · exact .refl s
        have hactivate := hshow.trans (stirs_conActivate cfg _ con).labels
        split
        · split
          · exact hactivate
          · exact hactivate.trans (stirs_conActivate cfg _ _).labels
        · exact hactivate

theorem labels_passFullscreen (con : ConId) (mode : FullscreenMode) :
    Labels t (t.passFullscreen cfg con mode) := by
  rw [passFullscreen]
  split
  · exact labels_conDisableFullscreen t con
  · exact labels_conEnableFullscreen t con mode

theorem labels_swapInTree (first second p q : ConId) : Labels t (t.swapInTree first second p q) := by
  have hentries : ∀ (s : Tree) (r : ConId), Labels s (s.exchangeEntries first second r) := fun s r =>
    (labels_editNodes s r _).trans (labels_editFocus _ r _)
  have htake : ∀ (s : Tree) (c : ConId) (d : Con), Labels s (s.takePlaceOf c d) := fun s c d =>
    .of_modify s c _ rfl
  unfold swapInTree
  dsimp only
  refine Labels.trans (Labels.trans ?_ (htake _ _ _)) (htake _ _ _)
  split
  · exact hentries t p
  · exact (hentries t p).trans (hentries _ q)

theorem labels_conSwap (first second : ConId) : Labels t (t.conSwap cfg first second).1 := by
  have hfix : ∀ (s : Tree) (c : ConId), Labels s (s.fixParent c) := fun s c => by
    unfold fixParent
    split
    · exact .refl s
    · exact labels_conFixPercent s _
  unfold conSwap
  split
  · split
    · next p q _ _ =>
      have hplaces : Labels t (t.swapPlaces cfg first second p q) := by
        unfold swapPlaces
        dsimp only
        refine Labels.trans ?_ (stirs_conSetUrgency _ second _).labels
        refine Labels.trans ?_ (stirs_conSetUrgency _ first _).labels
        split
        · exact labels_swapInTree t first second p q
        · exact (labels_swapInTree t first second p q).trans (stirs_conFocus cfg _ _).labels
      have hmodes : ∀ s : Tree, Labels s (s.exchangeModes cfg first second) := fun s =>
        (labels_passFullscreen s second _).trans (labels_passFullscreen _ first _)
      exact ((hplaces.trans (hmodes _)).trans (hfix _ first)).trans (hfix _ second)
    · exact .refl t
  · exact .refl t

end Tree

end I3
