import I3Aiwr.X.Stacking

/-!
# The lists of client windows

`x_push_changes` of `src/x.c` publishes the windows that i3 manages on the root window: in the order of
their initial mapping (`_NET_CLIENT_LIST`), and as they are stacked (`_NET_CLIENT_LIST_STACKING`). It
does so when it has restacked a frame, and finds the windows through the containers that the entries of
its lists refer to.

Closing a window first frees it (`release`), then renders the tree, and kills the frame after that
(`tree_close_internal` of `src/tree.c`). A container stands for its frame.

## Main definitions

* `State`, `State.managed`, `State.listed`
* `State.openWindow`, `State.release`, `State.mergeInto`, `State.reassign`, `State.pushChanges`
* `State.Current`: the lists published are those of the windows managed
* `Event.Enabled`, `Event.Allowed`, `step`

## Main results

* `current_run`: the lists are current after every push of an allowed run
* `not_current_closedHidden`: a window that closes on a hidden workspace stays in the lists
-/

namespace I3

namespace ClientList

variable {ι ω : Type*}

structure State (ι ω : Type*) extends Stacking.State ι where
  /-- `con->window->id` -/
  window : ι → Option ω := fun _ => none
  /-- `con_get_workspace(con) != NULL`: dock clients are not on a workspace. -/
  workspace : ι → Bool := fun _ => false
  /-- `state->con` -/
  con : ι → Option ι := fun _ => none
  clientList : List ω := []
  clientListStacking : List ω := []
  /-- The windows in the order in which they were mapped last; no variable of the source. -/
  opened : List ω := []
  /-- A window has come, gone or moved since a push published the lists; no variable of the source. -/
  unpublished : Bool := false

variable [DecidableEq ι] [DecidableEq ω]

namespace State

variable (s : State ι ω)

/-- The window a container manages: `con_has_managed_window`, and the id. -/
def managed (f : ι) : Option ω := if s.workspace f then s.window f else none

/-- The window that `x_push_changes` finds at an entry. -/
def listed (f : ι) : Option ω := (s.con f).bind s.managed

/-- The windows in the order in which their containers were made. -/
def mapped : List ω := s.initialMappingHead.filterMap s.managed

/-- `con_new` and `x_con_init` -/
def conInit (f : ι) (onWorkspace : Bool) : State ι ω :=
  { s with
    toState := s.toState.conInit f
    window := Function.update s.window f none
    workspace := Function.update s.workspace f onWorkspace
    con := Function.update s.con f none }

def setWindow (f : ι) (w : Option ω) : State ι ω :=
  { s with
    window := Function.update s.window f w
    unpublished := s.unpublished || (s.workspace f && decide (w ≠ s.window f)) }

/-- A window is mapped: `con->window = cwindow` and `x_reinit` in `manage_window`. -/
def openWindow (f : ι) (w : ω) : State ι ω :=
  { s.setWindow f (some w) with
    toState := s.toState.reinit f
    con := Function.update s.con f (some f)
    opened := s.opened.erase w ++ [w] }

/-- `window_free(con->window)`, in `tree_close_internal` and for a placeholder. -/
def release (f : ι) : State ι ω := s.setWindow f none

/-- `con_merge_into`, without the closing of the old container. -/
def mergeInto (old new : ι) : State ι ω := (s.setWindow new (s.window old)).setWindow old none

/-- `workspace_reassign_sticky`: `x_move_win`, and the window. -/
def reassign (src dest : ι) : State ι ω :=
  { (s.setWindow dest (s.window src)).setWindow src none with
    con := Function.update (Function.update s.con dest (s.con src)) src none }

/-- `x_con_reframe`: the entry of the new frame refers to no container. -/
def conReframe (f f' : ι) : State ι ω :=
  { s with
    toState := s.toState.conReframe f f'
    window := Function.update s.window f' (s.window f)
    workspace := Function.update s.workspace f' (s.workspace f)
    con := Function.update s.con f' none }

/-- `x_push_changes` -/
def pushChanges : State ι ω :=
  { s with
    toState := s.toState.pushChanges
    clientListStacking :=
      if s.stackingChanged then s.stateHead.reverse.filterMap s.listed else s.clientListStacking
    clientList :=
      if s.stackingChanged then s.initialMappingHead.filterMap s.listed else s.clientList
    unpublished := s.unpublished && !s.stackingChanged }

/-- The windows that containers manage, in the order in which they were mapped. -/
def clients : List ω := s.opened.filter fun w => ∃ f ∈ s.stateHead, s.managed f = some w

/-- The windows that containers manage, from bottom to top. -/
def clientsStacking : List ω := s.stateHead.reverse.filterMap s.managed

/-- The lists published are those of the windows managed. -/
def Current : Prop := s.clientList = s.clients ∧ s.clientListStacking = s.clientsStacking

instance : Decidable s.Current := inferInstanceAs (Decidable (_ ∧ _))

/-- The containers of the windows were made in the order in which the windows were mapped. -/
def InOrder : Prop := s.mapped.Sublist s.opened

instance : Decidable s.InOrder := inferInstanceAs (Decidable (List.Sublist _ _))

end State

inductive Event (ι ω : Type*)
  | init (f : ι) (onWorkspace : Bool)
  | kill (f : ι)
  | reframe (f f' : ι)
  | raise (f : ι)
  | openWindow (f : ι) (w : ω)
  | release (f : ι)
  | mergeInto (old new : ι)
  | reassign (src dest : ι)
  | push
  | destroy (w : ι)
  deriving DecidableEq, Repr

def step (s : State ι ω) : Event ι ω → State ι ω
  | .init f onWorkspace => s.conInit f onWorkspace
  | .kill f => { s with toState := s.toState.conKill f }
  | .reframe f f' => s.conReframe f f'
  | .raise f => { s with toState := s.toState.raiseCon f }
  | .openWindow f w => s.openWindow f w
  | .release f => s.release f
  | .mergeInto old new => s.mergeInto old new
  | .reassign src dest => s.reassign src dest
  | .push => s.pushChanges
  | .destroy w => { s with toState := s.toState.destroyWindow w }

/-- What the callers see to: windows are freed before their frames go, and one window is managed by one
container. -/
def Event.Enabled (s : State ι ω) : Event ι ω → Prop
  | .init f _ => f ∉ s.server
  | .kill f => f ∈ s.stateHead ∧ s.window f = none
  | .reframe f f' => f ∈ s.stateHead ∧ s.window f = none ∧ f' ∉ s.server
  | .raise f => f ∈ s.stateHead
  | .openWindow f w => f ∈ s.stateHead ∧ s.window f = none ∧ ∀ g ∈ s.stateHead, s.window g ≠ some w
  | .release f => f ∈ s.stateHead
  | .mergeInto old new =>
    old ∈ s.stateHead ∧ new ∈ s.stateHead ∧ old ≠ new ∧ s.window old ≠ none ∧ s.window new = none
  | .reassign src dest => src ∈ s.stateHead ∧ dest ∈ s.stateHead ∧ src ≠ dest ∧ s.window src ≠ none
  | .push => True
  | .destroy w => w ∉ s.stateHead

/-- The events that keep the lists current: windows come into containers that were made in the order of
the windows, and whose entry refers to them; and after a window has come or gone, the next push
restacks. -/
def Event.Allowed (s : State ι ω) : Event ι ω → Prop
  | .openWindow f w => (s.openWindow f w).InOrder
  | .mergeInto old new =>
    (s.workspace new = true → s.con new = some new) ∧ (s.mergeInto old new).InOrder
  | .reassign _ _ => False
  | .push => s.unpublished = true → s.toState.Restacking
  | _ => True

instance (s : State ι ω) : DecidablePred (Event.Enabled s)
  | .init f _ => inferInstanceAs (Decidable (f ∉ s.server))
  | .kill f => inferInstanceAs (Decidable (f ∈ s.stateHead ∧ s.window f = none))
  | .reframe f f' =>
    inferInstanceAs (Decidable (f ∈ s.stateHead ∧ s.window f = none ∧ f' ∉ s.server))
  | .raise f => inferInstanceAs (Decidable (f ∈ s.stateHead))
  | .openWindow f w => inferInstanceAs (Decidable
      (f ∈ s.stateHead ∧ s.window f = none ∧ ∀ g ∈ s.stateHead, s.window g ≠ some w))
  | .release f => inferInstanceAs (Decidable (f ∈ s.stateHead))
  | .mergeInto old new => inferInstanceAs (Decidable
      (old ∈ s.stateHead ∧ new ∈ s.stateHead ∧ old ≠ new ∧ s.window old ≠ none ∧
        s.window new = none))
  | .reassign src dest => inferInstanceAs (Decidable
      (src ∈ s.stateHead ∧ dest ∈ s.stateHead ∧ src ≠ dest ∧ s.window src ≠ none))
  | .push => inferInstanceAs (Decidable True)
  | .destroy w => inferInstanceAs (Decidable (w ∉ s.stateHead))

instance (s : State ι ω) : DecidablePred (Event.Allowed s)
  | .openWindow f w => inferInstanceAs (Decidable (s.openWindow f w).InOrder)
  | .mergeInto old new => inferInstanceAs (Decidable
      ((s.workspace new = true → s.con new = some new) ∧ (s.mergeInto old new).InOrder))
  | .reassign _ _ => inferInstanceAs (Decidable False)
  | .push => inferInstanceAs (Decidable (s.unpublished = true → s.toState.Restacking))
  | .init _ _ | .kill _ | .reframe _ _ | .raise _ | .release _ | .destroy _ =>
    inferInstanceAs (Decidable True)

variable {s : State ι ω} {f f' old new : ι} {w : ω}

section Lists

variable {g g' : ι → Option ω} {l : List ι}

omit [DecidableEq ω] in
theorem filterMap_erase (h : g f = none) : (l.erase f).filterMap g = l.filterMap g := by
  induction l with
  | nil => rfl
  | cons a l ih =>
    rw [List.erase_cons]
    split
    · next ha =>
      obtain rfl : a = f := by simpa using ha
      rw [List.filterMap_cons_none h]
    · rw [List.filterMap_cons, List.filterMap_cons, ih]

omit [DecidableEq ω] in
theorem filterMap_update {o : Option ω} (h : f ∉ l) :
    l.filterMap (Function.update g f o) = l.filterMap g :=
  List.filterMap_congr fun _ ha => Function.update_of_ne (ne_of_mem_of_not_mem ha h) _ _

omit [DecidableEq ι] [DecidableEq ω] in
theorem sublist_filterMap (h : ∀ a, g' a = g a ∨ g' a = none) :
    (l.filterMap g').Sublist (l.filterMap g) := by
  induction l with
  | nil => exact .slnil
  | cons a l ih =>
    obtain ha | ha := h a
    · rw [List.filterMap_cons, List.filterMap_cons, ha]
      split
      · exact ih
      · exact ih.cons_cons _
    · rw [List.filterMap_cons_none ha]
      refine ih.trans ?_
      rw [List.filterMap_cons]
      split
      · exact .refl _
      · exact List.sublist_cons_self _ _

omit [DecidableEq ι] in
/-- A part of a list without duplicates is found by its elements. -/
theorem filter_mem_of_sublist {l l' : List ω} (h : l.Sublist l') (hn : l'.Nodup) :
    l'.filter (· ∈ l) = l := by
  induction h with
  | slnil => rfl
  | @cons l l' a h ih =>
    obtain ⟨ha, hn⟩ := List.nodup_cons.mp hn
    have hnot : a ∉ l := fun hmem => ha (h.subset hmem)
    rw [List.filter_cons_of_neg (by simpa using hnot), ih hn]
  | @cons_cons l l' a h ih =>
    obtain ⟨ha, hn⟩ := List.nodup_cons.mp hn
    have hrest : l'.filter (· ∈ a :: l) = l'.filter (· ∈ l) := by
      refine List.filter_congr fun b hb => ?_
      have hne : b ≠ a := ne_of_mem_of_not_mem hb ha
      simp [hne]
    rw [List.filter_cons_of_pos (by simp), hrest, ih hn]

end Lists

/-- What holds however a run has gone that kept to the allowed events. -/
structure Sound (s : State ι ω) : Prop where
  ordered : Stacking.Ordered s.toState
  mapping : s.initialMappingHead.Perm s.stateHead
  refers : ∀ f ∈ s.stateHead, s.managed f ≠ none → s.con f = some f
  own : ∀ f ∈ s.stateHead, ∀ c, s.con f = some c → c = f
  opened : s.opened.Nodup
  inOrder : s.InOrder
  published : s.unpublished = false → s.clientList = s.mapped ∧
    s.clientListStacking = s.oldStateHead.reverse.filterMap s.managed

theorem managed_setWindow (w : Option ω) : (s.setWindow f w).managed =
    Function.update s.managed f (if s.workspace f then w else none) := by
  ext1 g
  by_cases hg : g = f
  · subst hg
    simp [State.managed, State.setWindow]
  · simp [State.managed, State.setWindow, Function.update_of_ne hg]

/-- Unless the windows managed are the same, there is something to publish. -/
theorem managed_of_unpublished {w : Option ω} (h : (s.setWindow f w).unpublished = false) :
    s.unpublished = false ∧ (s.setWindow f w).managed = s.managed := by
  obtain ⟨hbefore, hsame⟩ := Bool.or_eq_false_iff.mp h
  refine ⟨hbefore, ?_⟩
  rw [managed_setWindow, Function.update_eq_self_iff, State.managed]
  cases hw : s.workspace f with
  | false => rfl
  | true =>
    rw [hw, Bool.true_and, decide_eq_false_iff_not, not_not] at hsame
    simp [hsame]

namespace Sound

omit [DecidableEq ω] in
theorem listed (h : Sound s) (hf : f ∈ s.stateHead) : s.listed f = s.managed f := by
  rw [State.listed]
  cases hcon : s.con f with
  | none =>
    have hnone : s.managed f = none := by
      by_contra hne
      rw [h.refers f hf hne] at hcon
      cases hcon
    rw [hnone]
    rfl
  | some c =>
    rw [h.own f hf c hcon]
    rfl

/-- The windows in the order of their containers are in the order of their mapping. -/
theorem clients (h : Sound s) : s.clients = s.mapped := by
  rw [← filter_mem_of_sublist h.inOrder h.opened]
  refine List.filter_congr fun w _ => ?_
  rw [Bool.eq_iff_iff, decide_eq_true_iff, decide_eq_true_iff, State.mapped, List.mem_filterMap]
  exact ⟨fun ⟨f, hf, hw⟩ => ⟨f, h.mapping.mem_iff.mpr hf, hw⟩,
    fun ⟨f, hf, hw⟩ => ⟨f, h.mapping.mem_iff.mp hf, hw⟩⟩

omit [DecidableEq ω] in
/-- **After a push** that is allowed, what has been published is what the containers manage. -/
theorem published_pushChanges (h : Sound s)
    (hpush : s.unpublished = true → s.toState.Restacking) :
    s.pushChanges.clientList = s.mapped ∧
      s.pushChanges.clientListStacking = s.stateHead.reverse.filterMap s.managed := by
  have hchanged := Stacking.stackingChanged_iff h.ordered
  by_cases hrestack : s.stackingChanged = true
  · -- both lists are built anew
    constructor
    · show (if s.stackingChanged then s.initialMappingHead.filterMap s.listed else _) = _
      rw [if_pos hrestack]
      exact List.filterMap_congr fun f hf => h.listed (h.mapping.mem_iff.mp hf)
    · show (if s.stackingChanged then s.stateHead.reverse.filterMap s.listed else _) = _
      rw [if_pos hrestack]
      exact List.filterMap_congr fun f hf => h.listed (List.mem_reverse.mp hf)
  · -- nothing has come or gone, and the order is the one pushed last
    have hquiet : s.unpublished = false := by
      rw [← Bool.not_eq_true]
      exact fun hun => hrestack (hchanged.mpr (hpush hun))
    have hold : s.oldStateHead = s.stateHead := by
      by_contra hne
      exact hrestack (hchanged.mpr (.inr hne))
    obtain ⟨hlist, hstacking⟩ := h.published hquiet
    rw [hold] at hstacking
    exact ⟨(if_neg hrestack).trans hlist, (if_neg hrestack).trans hstacking⟩

omit [DecidableEq ω] in
theorem pushChanges (h : Sound s) (hpush : s.unpublished = true → s.toState.Restacking) :
    Sound s.pushChanges where
  ordered := h.ordered.pushChanges
  mapping := h.mapping
  refers := h.refers
  own := h.own
  opened := h.opened
  inOrder := h.inOrder
  published _ := by
    have hold : s.pushChanges.oldStateHead = s.stateHead :=
      Stacking.oldStateHead_pushChanges h.ordered.nodup h.ordered.old
    rw [hold]
    exact h.published_pushChanges hpush

theorem current_pushChanges (h : Sound s)
    (hpush : s.unpublished = true → s.toState.Restacking) : s.pushChanges.Current := by
  obtain ⟨hlist, hstacking⟩ := h.published_pushChanges hpush
  exact ⟨hlist.trans (h.pushChanges hpush).clients.symm, hstacking⟩

omit [DecidableEq ω] in
/-- A new container has no window. -/
theorem conInit (h : Sound s) {onWorkspace : Bool} (hf : f ∉ s.server) :
    Sound (s.conInit f onWorkspace) := by
  have hnot : f ∉ s.stateHead := h.ordered.notMem_stateHead hf
  have hmanaged : (s.conInit f onWorkspace).managed = Function.update s.managed f none := by
    ext1 g
    by_cases hg : g = f
    · subst hg
      simp [State.managed, State.conInit]
    · simp [State.managed, State.conInit, Function.update_of_ne hg]
  have hmapped : (s.conInit f onWorkspace).mapped = s.mapped := by
    show (s.initialMappingHead ++ [f]).filterMap (s.conInit f onWorkspace).managed = _
    rw [hmanaged, List.filterMap_append, filterMap_update (h.mapping.mem_iff.not.mpr hnot)]
    simp [State.mapped]
  have hother : ∀ g ∈ s.stateHead, g ≠ f := fun g hg => ne_of_mem_of_not_mem hg hnot
  refine ⟨h.ordered.conInit hf, ?_, fun g hg hw => ?_, fun g hg c hc => ?_, h.opened, ?_, ?_⟩
  · exact (List.perm_append_singleton f _).trans (h.mapping.cons f)
  · obtain rfl | hg := List.mem_cons.mp hg
    · simp [hmanaged] at hw
    · rw [hmanaged, Function.update_of_ne (hother g hg)] at hw
      exact (Function.update_of_ne (hother g hg) _ _).trans (h.refers g hg hw)
  · obtain rfl | hg := List.mem_cons.mp hg
    · simp [State.conInit] at hc
    · exact h.own g hg c ((Function.update_of_ne (hother g hg) _ _).symm.trans hc)
  · show (s.conInit f onWorkspace).mapped.Sublist s.opened
    rw [hmapped]
    exact h.inOrder
  · intro hquiet
    obtain ⟨hlist, hstacking⟩ := h.published hquiet
    refine ⟨hlist.trans hmapped.symm, hstacking.trans ?_⟩
    show _ = (f :: s.oldStateHead).reverse.filterMap (s.conInit f onWorkspace).managed
    rw [hmanaged, List.reverse_cons, List.filterMap_append, filterMap_update
      (by simpa using h.ordered.old.mem_iff.not.mpr hnot)]
    simp

omit [DecidableEq ω] in
/-- A container without a window goes. -/
theorem forget (h : Sound s) (hf : s.window f = none) :
    Sound { s with toState := s.toState.forget f } := by
  have hnone : s.managed f = none := by simp [State.managed, hf]
  have hsub : ∀ g ∈ s.stateHead.erase f, g ∈ s.stateHead := fun g hg => List.mem_of_mem_erase hg
  have hmapped : (s.initialMappingHead.erase f).filterMap s.managed = s.mapped :=
    filterMap_erase hnone
  refine ⟨h.ordered.forget, h.mapping.erase f, fun g hg => h.refers g (hsub g hg),
    fun g hg => h.own g (hsub g hg), h.opened, ?_, fun hquiet => ?_⟩
  · show ((s.initialMappingHead.erase f).filterMap s.managed).Sublist s.opened
    rw [hmapped]
    exact h.inOrder
  · obtain ⟨hlist, hstacking⟩ := h.published hquiet
    refine ⟨hlist.trans hmapped.symm, hstacking.trans ?_⟩
    show _ = (s.oldStateHead.erase f).reverse.filterMap s.managed
    rw [List.filterMap_reverse, List.filterMap_reverse, filterMap_erase hnone]

omit [DecidableEq ω] in
/-- Only the order in the server changes, and the stack that has not been pushed. -/
theorem restack (h : Sound s) {t : Stacking.State ι} (ht : Stacking.Ordered t)
    (hstate : t.stateHead.Perm s.stateHead) (hold : t.oldStateHead = s.oldStateHead)
    (hmapping : t.initialMappingHead = s.initialMappingHead) :
    Sound { s with toState := t } := by
  have hmapped : (State.mapped { s with toState := t }) = s.mapped := by
    show t.initialMappingHead.filterMap s.managed = _
    rw [hmapping]
    rfl
  refine ⟨ht, ?_, fun g hg => h.refers g (hstate.mem_iff.mp hg),
    fun g hg => h.own g (hstate.mem_iff.mp hg), h.opened, ?_, fun hquiet => ?_⟩
  · show t.initialMappingHead.Perm t.stateHead
    rw [hmapping]
    exact h.mapping.trans hstate.symm
  · show (State.mapped _).Sublist s.opened
    rw [hmapped]
    exact h.inOrder
  · obtain ⟨hlist, hstacking⟩ := h.published hquiet
    refine ⟨hlist.trans hmapped.symm, hstacking.trans ?_⟩
    show _ = t.oldStateHead.reverse.filterMap s.managed
    rw [hold]

/-- A window comes, goes or moves. What is to be known is that the entry refers to the container, and
that the order is that of the windows. -/
theorem setWindow (h : Sound s) {o : Option ω} (hrefers : s.workspace f = true → o ≠ none →
    s.con f = some f) (horder : (s.setWindow f o).InOrder) : Sound (s.setWindow f o) where
  ordered := h.ordered
  mapping := h.mapping
  refers g hg hw := by
    rw [managed_setWindow] at hw
    by_cases hgf : g = f
    · subst hgf
      rw [Function.update_self] at hw
      split at hw
      · next hworkspace => exact hrefers hworkspace hw
      · exact absurd rfl hw
    · rw [Function.update_of_ne hgf] at hw
      exact h.refers g hg hw
  own := h.own
  opened := h.opened
  inOrder := horder
  published hquiet := by
    obtain ⟨hbefore, hsame⟩ := managed_of_unpublished hquiet
    rw [State.mapped, hsame]
    exact h.published hbefore

theorem release (h : Sound s) : Sound (s.release f) := by
  refine h.setWindow (fun _ hne => absurd rfl hne) (List.Sublist.trans ?_ h.inOrder)
  rw [State.mapped, managed_setWindow]
  refine sublist_filterMap fun g => ?_
  by_cases hg : g = f
  · subst hg
    exact .inr (by simp)
  · exact .inl (Function.update_of_ne hg _ _)

/-- The window mapped last comes last, if its container does. -/
theorem openWindow (h : Sound s) (hother : ∀ g ∈ s.stateHead, s.window g ≠ some w)
    (horder : (s.openWindow f w).InOrder) : Sound (s.openWindow f w) := by
  have hnot : w ∉ s.mapped := by
    intro hmem
    obtain ⟨g, hg, hw⟩ := List.mem_filterMap.mp hmem
    rw [State.managed] at hw
    split at hw
    · exact hother g (h.mapping.mem_iff.mp hg) hw
    · cases hw
  have hsound : Sound { s with
      toState := s.toState.reinit f
      con := Function.update s.con f (some f)
      opened := s.opened.erase w ++ [w] } := by
    refine ⟨⟨h.ordered.nodup, h.ordered.old, h.ordered.server, h.ordered.stacked⟩, h.mapping,
      fun g hg hw => ?_, fun g hg c hc => ?_, ?_, ?_, h.published⟩
    · by_cases hgf : g = f
      · subst hgf
        exact Function.update_self _ _ _
      · exact (Function.update_of_ne hgf _ _).trans (h.refers g hg hw)
    · by_cases hgf : g = f
      · subst hgf
        exact (Option.some_inj.mp ((Function.update_self g (some g) s.con).symm.trans hc)).symm
      · exact h.own g hg c ((Function.update_of_ne hgf _ _).symm.trans hc)
    · refine List.nodup_append_comm.mp (List.nodup_cons.mpr ⟨?_, h.opened.erase w⟩)
      exact fun hmem => (h.opened.mem_erase_iff.mp hmem).1 rfl
    · have herase := h.inOrder.erase w
      rw [List.erase_of_not_mem hnot] at herase
      exact herase.trans (List.sublist_append_left _ _)
  exact hsound.setWindow (fun _ _ => Function.update_self _ _ _) horder

/-- A window moves into another container. -/
theorem mergeInto (h : Sound s) (hne : old ≠ new)
    (hrefers : s.workspace new = true → s.con new = some new)
    (horder : (s.mergeInto old new).InOrder) : Sound (s.mergeInto old new) := by
  have hswap : s.mergeInto old new = (s.release old).setWindow new (s.window old) := by
    rw [State.mergeInto, State.release, State.setWindow, State.setWindow, State.setWindow,
      State.setWindow]
    simp only [Function.update_of_ne hne, Function.update_of_ne hne.symm, Bool.or_assoc,
      Function.update_comm hne]
    rw [Bool.or_comm (s.workspace new && _)]
  rw [hswap] at horder ⊢
  exact h.release.setWindow (fun hworkspace _ => hrefers hworkspace) horder

omit [DecidableEq ω] in
/-- A container without a window gets a new frame. -/
theorem conReframe (h : Sound s) (hf : s.window f = none) (hf' : f' ∉ s.server) :
    Sound (s.conReframe f f') := by
  have hframe : s.conReframe f f' =
      State.conInit { s with toState := s.toState.forget f } f' (s.workspace f) := by
    rw [State.conReframe, hf]
    rfl
  rw [hframe]
  exact (h.forget hf).conInit hf'

end Sound

/-- Every allowed event keeps what is sound. -/
theorem sound_step (e : Event ι ω) (h : Sound s) (he : e.Enabled s) (ha : e.Allowed s) :
    Sound (step s e) := by
  cases e with
  | init f onWorkspace => exact h.conInit he
  | kill f =>
    have hforget := h.forget he.2
    refine hforget.restack (hforget.ordered.destroyWindow ?_) (.refl _) rfl rfl
    exact fun hmem => (h.ordered.nodup.mem_erase_iff.mp hmem).1 rfl
  | reframe f f' => exact h.conReframe he.2.1 he.2.2
  | raise f => exact h.restack h.ordered.raiseCon Queue.toFront_perm rfl rfl
  | openWindow f w => exact h.openWindow he.2.2 ha
  | release f => exact h.release
  | mergeInto old new => exact h.mergeInto he.2.2.1 ha.1 ha.2
  | reassign src dest => exact ha.elim
  | push => exact h.pushChanges ha
  | destroy w => exact h.restack (h.ordered.destroyWindow he) (.refl _) rfl rfl

omit [DecidableEq ω] in
theorem sound_start : Sound ({} : State ι ω) where
  ordered := Stacking.ordered_start List.nodup_nil
  mapping := .refl _
  refers _ hf := nomatch hf
  own _ hf := nomatch hf
  opened := List.nodup_nil
  inOrder := .slnil
  published _ := ⟨rfl, rfl⟩

/-- **The client lists are current**: after every push of a run of allowed events, the windows published
are those that containers manage, in the order of their mapping and as they are stacked. -/
theorem current_run {es : List (Event ι ω)} (hrun : Runs.Meets step Event.Enabled {} (es ++ [.push]))
    (hallowed : Runs.Meets step Event.Allowed {} (es ++ [.push])) :
    (Runs.after step {} (es ++ [.push])).Current := by
  obtain ⟨hes, hpush⟩ := (Runs.meets_append _ _ _).mp
    ((Runs.meets_and _ _).mpr ⟨hrun, hallowed⟩)
  have hbefore : Sound (Runs.after step {} es) :=
    Runs.invariant (fun _ e h he => sound_step e h he.1 he.2) sound_start hes
  rw [Runs.after_append]
  exact hbefore.current_pushChanges hpush.1.2

/-- Rendering raises the containers that are visible. -/
def render (visible : List ℕ) : List (Event ℕ ℕ) := visible.map .raise ++ [.push]

/-- Root, output, its docks and content are 0 to 4. A window is opened in 6 on the workspace 5, and one
in 8 on the workspace 7, which is shown then. -/
def twoWorkspaces : List (Event ℕ ℕ) :=
  [.init 0 false, .init 1 false, .init 2 false, .init 3 false, .init 4 false, .init 5 true] ++
    [.init 6 true, .openWindow 6 10] ++ render [2, 3, 5, 6, 4] ++
    [.init 7 true] ++ render [2, 3, 7, 4] ++ [.init 8 true, .openWindow 8 11]

theorem current_twoWorkspaces :
    (Runs.after step {} ((twoWorkspaces ++ [2, 3, 7, 8, 4].map .raise) ++ [.push])).Current :=
  current_run (by decide +kernel) (by decide +kernel)

/-- The window on the workspace that is not visible closes, and then the empty workspace. -/
def closedHidden : List (Event ℕ ℕ) :=
  twoWorkspaces ++ render [2, 3, 7, 8, 4] ++ [.release 6] ++ render [2, 3, 7, 8, 4] ++ [.kill 6] ++
    render [2, 3, 7, 8, 4] ++ [.kill 5] ++ [2, 3, 7, 8, 4].map .raise

/-- What is visible has kept its order, so that nothing is published. -/
theorem not_current_closedHidden :
    Runs.Meets step Event.Enabled {} (closedHidden ++ [.push]) ∧
      ¬ (Runs.after step {} (closedHidden ++ [.push])).Current := by
  decide +kernel

end ClientList

end I3
