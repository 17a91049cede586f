import I3Aiwr.Lib.Queue
import I3Aiwr.Lib.Runs

/-!
# The stacking order

The list of frames in `src/x.c`, `state_head`, is the order that will be pushed to X11, and
`old_state_head` the order that was pushed last. `x_push_changes` walks the first from bottom to top,
and configures a frame above the one below it where its place has changed.

The children of the root window are listed from bottom to top, as `QueryTree` does; besides the frames
there are windows of other programs, and the frames that `x_con_reframe` leaves behind. A container
stands for its frame.

## Main definitions

* `State`, `State.conInit`, `State.conKill`, `State.conReframe`, `State.raiseCon`
* `State.restacks`: the `ConfigureWindow` requests of `x_push_changes`
* `State.Restacking`: the states in which there are any
* `State.pushChanges`, `State.Pushed`
* `Event`, `Event.Enabled`, `step`

## Main results

* `serve_restacks`: the requests leave the frames in the order of `state_head`
* `restacks_ne_nil_iff`: when there are any
* `stacked_run`: after every push the frames are stacked as `state_head` says, and until one is created,
  destroyed or raised there is nothing to push
-/

namespace I3

namespace Stacking

variable {ι : Type*}

/-- The entries of `con_state`, from top to bottom, and the children of the root window, from bottom
to top. -/
structure State (ι : Type*) where
  stateHead : List ι := []
  oldStateHead : List ι := []
  initialMappingHead : List ι := []
  initial : ι → Bool := fun _ => false
  server : List ι := []

/-- A `ConfigureWindow` request for `window`, with a sibling and the stack mode `Above`. -/
structure Restack (ι : Type*) where
  window : ι
  sibling : ι
  deriving DecidableEq, Repr

variable [DecidableEq ι]

/-- What the server makes of a request. -/
def Restack.serve (server : List ι) (r : Restack ι) : List ι :=
  Queue.insertAfter r.sibling r.window (server.erase r.window)

namespace State

variable (s : State ι)

/-- `x_con_init`, and `CreateWindow`, which puts a window on top of its siblings. -/
def conInit (f : ι) : State ι where
  stateHead := f :: s.stateHead
  oldStateHead := f :: s.oldStateHead
  initialMappingHead := s.initialMappingHead ++ [f]
  initial := Function.update s.initial f true
  server := s.server ++ [f]

/-- `_x_con_kill` -/
def forget (f : ι) : State ι :=
  { s with
    stateHead := s.stateHead.erase f
    oldStateHead := s.oldStateHead.erase f
    initialMappingHead := s.initialMappingHead.erase f }

/-- `xcb_destroy_window` -/
def destroyWindow (w : ι) : State ι := { s with server := s.server.erase w }

/-- `x_con_kill` -/
def conKill (f : ι) : State ι := (s.forget f).destroyWindow f

/-- `x_con_reframe`: the old window is not destroyed. -/
def conReframe (f f' : ι) : State ι := (s.forget f).conInit f'

/-- `x_raise_con` -/
def raiseCon (f : ι) : State ι := { s with stateHead := Queue.toFront f s.stateHead }

/-- `x_reinit`, as far as the stack is concerned. -/
def reinit (f : ι) : State ι := { s with initial := Function.update s.initial f true }

/-- `prev != old_prev`. Without an element before it, each is the end of its own list. -/
def differs : Option ι → Option ι → Bool
  | some prev, some oldPrev => prev != oldPrev
  | _, _ => true

/-- The loop of `x_push_changes` from bottom to top, with `order_changed`. -/
def walk (s : State ι) : Bool → List ι → List (Restack ι)
  | _, [] => []
  | orderChanged, f :: rest =>
    let prev := Queue.prev f s.stateHead
    let orderChanged := orderChanged || differs prev (Queue.prev f s.oldStateHead)
    match prev with
    | some p =>
      if s.initial f || orderChanged then ⟨p, f⟩ :: walk s orderChanged rest
      else walk s orderChanged rest
    | none => walk s orderChanged rest

/-- The requests that `x_push_changes` sends. -/
def restacks : List (Restack ι) := walk s false s.stateHead.reverse

/-- `stacking_changed` of `x_push_changes`. -/
def stackingChanged : Bool := !s.restacks.isEmpty

/-- `x_push_changes`. The last loop saves the stack, an entry at a time. -/
def pushChanges : State ι :=
  { s with
    initial := fun f => if f ∈ s.stateHead then false else s.initial f
    oldStateHead := s.stateHead.foldl (fun old f => Queue.toBack f old) s.oldStateHead
    server := s.restacks.foldl Restack.serve s.server }

/-- The frames among the windows of the server. -/
def stacked : List ι := s.server.filter (· ∈ s.stateHead)

/-- A frame below another one is new, or the order is not the one that was pushed last. -/
def Restacking : Prop :=
  (∃ f ∈ s.stateHead, s.initial f = true ∧ s.stateHead.head? ≠ some f) ∨
    s.oldStateHead ≠ s.stateHead

instance : Decidable s.Restacking := inferInstanceAs (Decidable (_ ∨ _))

/-- The server shows the frames in the order of `state_head`, and there is nothing to push. -/
def Pushed : Prop := s.stacked = s.stateHead.reverse ∧ s.restacks = []

end State

inductive Event (ι : Type*)
  | init (f : ι)
  | kill (f : ι)
  | reframe (f f' : ι)
  | raise (f : ι)
  | reinit (f : ι)
  | push
  /-- A window that is no frame of a container is created or destroyed. -/
  | appear (w : ι)
  | destroy (w : ι)
  deriving DecidableEq, Repr

def step (s : State ι) : Event ι → State ι
  | .init f => s.conInit f
  | .kill f => s.conKill f
  | .reframe f f' => s.conReframe f f'
  | .raise f => s.raiseCon f
  | .reinit f => s.reinit f
  | .push => s.pushChanges
  | .appear w => { s with server := s.server ++ [w] }
  | .destroy w => s.destroyWindow w

/-- The windows created are new to the server, and the containers have an entry. -/
def Event.Enabled (s : State ι) : Event ι → Prop
  | .init f => f ∉ s.server
  | .kill f => f ∈ s.stateHead
  | .reframe f f' => f ∈ s.stateHead ∧ f' ∉ s.server
  | .raise f => f ∈ s.stateHead
  | .reinit f => f ∈ s.stateHead
  | .push => True
  | .appear w => w ∉ s.server
  | .destroy w => w ∉ s.stateHead

instance (s : State ι) : DecidablePred (Event.Enabled s)
  | .init f => inferInstanceAs (Decidable (f ∉ s.server))
  | .kill f => inferInstanceAs (Decidable (f ∈ s.stateHead))
  | .reframe f f' => inferInstanceAs (Decidable (f ∈ s.stateHead ∧ f' ∉ s.server))
  | .raise f => inferInstanceAs (Decidable (f ∈ s.stateHead))
  | .reinit f => inferInstanceAs (Decidable (f ∈ s.stateHead))
  | .push => inferInstanceAs (Decidable True)
  | .appear w => inferInstanceAs (Decidable (w ∉ s.server))
  | .destroy w => inferInstanceAs (Decidable (w ∉ s.stateHead))

/-- The events that create, destroy or raise a frame, or make one new again. -/
def Event.Restacks : Event ι → Prop
  | .init _ | .kill _ | .reframe _ _ | .raise _ | .reinit _ => True
  | .push | .appear _ | .destroy _ => False

variable {s : State ι} {f f' w : ι} {rest pre : List ι} {orderChanged : Bool}

/-- What the lists and the server have in common, whatever has not been pushed yet. -/
structure Ordered (s : State ι) : Prop where
  nodup : s.stateHead.Nodup
  old : s.oldStateHead.Perm s.stateHead
  server : s.server.Nodup
  stacked : s.stacked = s.oldStateHead.reverse

namespace Ordered

theorem mem_server (h : Ordered s) (hf : f ∈ s.stateHead) : f ∈ s.server := by
  have hmem : f ∈ s.stacked := by
    rw [h.stacked, List.mem_reverse]
    exact h.old.mem_iff.mpr hf
  exact List.mem_of_mem_filter hmem

theorem notMem_stateHead (h : Ordered s) (hf : f ∉ s.server) : f ∉ s.stateHead :=
  fun hmem => hf (h.mem_server hmem)

/-- A new frame is on top everywhere. -/
theorem conInit (h : Ordered s) (hf : f ∉ s.server) : Ordered (s.conInit f) where
  nodup := List.nodup_cons.mpr ⟨h.notMem_stateHead hf, h.nodup⟩
  old := h.old.cons f
  server := List.nodup_append_comm.mp (List.nodup_cons.mpr ⟨hf, h.server⟩)
  stacked := by
    have hothers : s.server.filter (· ∈ f :: s.stateHead) = s.stacked := by
      refine List.filter_congr fun g hg => ?_
      have hne : g ≠ f := ne_of_mem_of_not_mem hg hf
      simp [hne]
    show (s.server ++ [f]).filter (· ∈ f :: s.stateHead) = (f :: s.oldStateHead).reverse
    rw [List.filter_append, hothers, h.stacked, List.filter_cons_of_pos (by simp), List.filter_nil,
      List.reverse_cons]

theorem forget (h : Ordered s) : Ordered (s.forget f) where
  nodup := h.nodup.erase f
  old := h.old.erase f
  server := h.server
  stacked := by
    have hstacked : s.server.filter (· ∈ s.stateHead.erase f) = s.stacked.erase f := by
      have hn : s.stacked.Nodup := h.server.filter _
      rw [hn.erase_eq_filter, State.stacked, List.filter_filter]
      refine List.filter_congr fun g _ => ?_
      rw [Bool.eq_iff_iff]
      simp [h.nodup.mem_erase_iff]
    show s.server.filter (· ∈ s.stateHead.erase f) = (s.oldStateHead.erase f).reverse
    rw [hstacked, h.stacked, (List.nodup_reverse.mpr (h.old.nodup_iff.mpr h.nodup)).erase_eq_filter,
      (h.old.nodup_iff.mpr h.nodup).erase_eq_filter, List.filter_reverse]

/-- Windows that are no frames do not count. -/
theorem destroyWindow (h : Ordered s) (hw : w ∉ s.stateHead) : Ordered (s.destroyWindow w) where
  nodup := h.nodup
  old := h.old
  server := h.server.erase w
  stacked := by
    have hnot : w ∉ s.stacked := fun hmem => hw (by simpa using List.of_mem_filter hmem)
    show (s.server.erase w).filter (· ∈ s.stateHead) = s.oldStateHead.reverse
    rw [← List.erase_filter]
    exact (List.erase_of_not_mem hnot).trans h.stacked

theorem appear (h : Ordered s) (hw : w ∉ s.server) :
    Ordered { s with server := s.server ++ [w] } where
  nodup := h.nodup
  old := h.old
  server := List.nodup_append_comm.mp (List.nodup_cons.mpr ⟨hw, h.server⟩)
  stacked := by
    show (s.server ++ [w]).filter (· ∈ s.stateHead) = s.oldStateHead.reverse
    rw [List.filter_append, List.filter_cons_of_neg (by simpa using h.notMem_stateHead hw),
      List.filter_nil, List.append_nil]
    exact h.stacked

theorem raiseCon (h : Ordered s) : Ordered (s.raiseCon f) where
  nodup := Queue.toFront_perm.nodup_iff.mpr h.nodup
  old := h.old.trans Queue.toFront_perm.symm
  server := h.server
  stacked := by
    have hsame : (s.raiseCon f).stacked = s.stacked :=
      List.filter_congr fun g _ => by simp [State.raiseCon]
    exact hsame.trans h.stacked

end Ordered

/-! ### What a push sends -/

theorem prev_stateHead (hreverse : s.stateHead.reverse = pre ++ f :: rest)
    (hnodup : s.stateHead.Nodup) : Queue.prev f s.stateHead = rest.head? := by
  have hf : f ∉ pre := by
    have hn := List.nodup_reverse.mpr hnodup
    rw [hreverse] at hn
    exact fun hmem => (List.disjoint_of_nodup_append hn) hmem List.mem_cons_self
  rw [Queue.prev, hreverse, Queue.next_append_self hf]

@[simp] theorem differs_some {p : ι} {q : Option ι} :
    State.differs (some p) q = false ↔ q = some p := by
  cases q with
  | none => simp [State.differs]
  | some q => rw [State.differs, bne_eq_false_iff_eq, Option.some_inj, eq_comm]

omit [DecidableEq ι] in
theorem notMem_of_reverse {p : ι} (hnodup : s.stateHead.Nodup)
    (hreverse : s.stateHead.reverse = pre ++ f :: rest) (hp : p ∈ rest) : p ∉ pre ∧ p ≠ f := by
  have hn := List.nodup_reverse.mpr hnodup
  rw [hreverse] at hn
  constructor
  · exact fun hmem => (List.disjoint_of_nodup_append hn) hmem (List.mem_cons_of_mem _ hp)
  · rintro rfl
    exact (List.nodup_cons.mp (List.nodup_append'.mp hn).2.1).1 hp

/-- Where a frame that is moved directly above another one ends. -/
theorem serve_above {p : ι} {below above : List ι} (hn : (below ++ pre ++ f :: above).Nodup)
    (hpre : p ∉ pre) (hne : p ≠ f) : Restack.serve (below ++ pre ++ f :: above) ⟨p, f⟩ =
      below.erase p ++ (pre ++ [f]) ++ p :: above.erase p := by
  have hbelow : (below ++ pre).erase p = below.erase p ++ pre := by
    by_cases hp : p ∈ below
    · exact List.erase_append_left _ hp
    · rw [List.erase_append_right _ hp, List.erase_of_not_mem hpre, List.erase_of_not_mem hp]
  rw [Restack.serve, Queue.insertAfter_erase hn hne, hbelow]
  simp

theorem serve_perm {l : List ι} {r : Restack ι} (hw : r.window ∈ l) (hs : r.sibling ∈ l)
    (hne : r.sibling ≠ r.window) : (r.serve l).Perm l :=
  (Queue.insertAfter_perm ((List.mem_erase_of_ne hne).mpr hs)).trans (List.perm_cons_erase hw).symm

/-- A push moves frames only, and next to frames. -/
theorem mem_walk (hnodup : s.stateHead.Nodup) {l : List ι} {r : Restack ι}
    (hr : r ∈ s.walk orderChanged l) :
    r.window ∈ s.stateHead ∧ r.sibling ∈ l ∧ r.sibling ≠ r.window := by
  induction l generalizing orderChanged with
  | nil => cases hr
  | cons f rest ih =>
    have hrest : ∀ {c}, r ∈ s.walk c rest →
        r.window ∈ s.stateHead ∧ r.sibling ∈ f :: rest ∧ r.sibling ≠ r.window := fun h =>
      ⟨(ih h).1, List.mem_cons_of_mem _ (ih h).2.1, (ih h).2.2⟩
    rw [State.walk] at hr
    cases hprev : Queue.prev f s.stateHead with
    | none =>
      simp only [hprev] at hr
      exact hrest hr
    | some p =>
      simp only [hprev] at hr
      split at hr
      · obtain rfl | hr := List.mem_cons.mp hr
        · exact ⟨Queue.mem_of_prev hprev, List.mem_cons_self,
            (Queue.next_ne (List.nodup_reverse.mpr hnodup) hprev).symm⟩
        · exact hrest hr
      · exact hrest hr

theorem mem_restacks (hnodup : s.stateHead.Nodup) {r : Restack ι} (hr : r ∈ s.restacks) :
    r.window ∈ s.stateHead ∧ r.sibling ∈ s.stateHead ∧ r.sibling ≠ r.window := by
  obtain ⟨hw, hs, hne⟩ := mem_walk hnodup hr
  exact ⟨hw, List.mem_reverse.mp hs, hne⟩

/-- Requests among windows that are there. -/
theorem foldl_serve_perm {rs : List (Restack ι)} {l : List ι}
    (h : ∀ r ∈ rs, r.window ∈ l ∧ r.sibling ∈ l ∧ r.sibling ≠ r.window) :
    (rs.foldl Restack.serve l).Perm l := by
  induction rs generalizing l with
  | nil => exact .refl l
  | cons r rs ih =>
    obtain ⟨hw, hs, hne⟩ := h r List.mem_cons_self
    have hperm := serve_perm hw hs hne
    refine List.Perm.trans (ih fun r' hr' => ?_) hperm
    rw [hperm.mem_iff, hperm.mem_iff]
    exact h r' (List.mem_cons_of_mem _ hr')

/-- The requests do not see the windows that are no frames. -/
theorem filter_foldl_serve {P : ι → Bool} {rs : List (Restack ι)} {l : List ι}
    (h : ∀ r ∈ rs, P r.window ∧ P r.sibling) :
    (rs.foldl Restack.serve l).filter P = rs.foldl Restack.serve (l.filter P) := by
  induction rs generalizing l with
  | nil => rfl
  | cons r rs ih =>
    obtain ⟨hw, hs⟩ := h r List.mem_cons_self
    have hserve : (r.serve l).filter P = r.serve (l.filter P) := by
      rw [Restack.serve, Restack.serve, Queue.filter_insertAfter hs hw, List.erase_filter]
    rw [List.foldl_cons, List.foldl_cons, ← hserve]
    exact ih fun r' hr' => h r' (List.mem_cons_of_mem _ hr')

/-- The frames that the walk has passed stand together in the stack, with the one it has come to, and
the requests go on from there. Before the order has changed, the stack is the one pushed last. -/
theorem serve_walk (hnodup : s.stateHead.Nodup) {below above : List ι}
    (hreverse : s.stateHead.reverse = pre ++ f :: rest)
    (hperm : (below ++ pre ++ f :: above).Perm s.stateHead)
    (hold : orderChanged = false → s.oldStateHead.reverse = below ++ pre ++ f :: above) :
    ∃ below' above', (s.walk orderChanged (f :: rest)).foldl Restack.serve
      (below ++ pre ++ f :: above) = below' ++ s.stateHead.reverse ++ above' := by
  induction rest generalizing pre f below above orderChanged with
  | nil =>
    -- the topmost frame
    have hprev : Queue.prev f s.stateHead = none := prev_stateHead hreverse hnodup
    refine ⟨below, above, ?_⟩
    simp [State.walk, hprev, hreverse]
  | cons p rest ih =>
    have hprev : Queue.prev f s.stateHead = some p := prev_stateHead hreverse hnodup
    have hn : (below ++ pre ++ f :: above).Nodup := hperm.nodup_iff.mpr hnodup
    have hreverse' : s.stateHead.reverse = (pre ++ [f]) ++ p :: rest := by simp [hreverse]
    obtain ⟨hpre, hne⟩ := notMem_of_reverse hnodup hreverse (List.mem_cons_self (a := p))
    have hp : p ∈ below ++ pre ++ f :: above := by
      rw [hperm.mem_iff, ← List.mem_reverse, hreverse]
      simp
    have hserve := serve_above hn hpre hne
    -- as long as the order has not changed, the frame above has its place already
    have hplace : (orderChanged || State.differs (some p) (Queue.prev f s.oldStateHead)) = false →
        ∃ above', above = p :: above' := by
      intro hunchanged
      rw [Bool.or_eq_false_iff, differs_some, Queue.prev] at hunchanged
      have hf : f ∉ below ++ pre := fun hmem =>
        (List.disjoint_of_nodup_append hn) hmem List.mem_cons_self
      rw [hold hunchanged.1, Queue.next_append_self hf] at hunchanged
      exact List.head?_eq_some_iff.mp hunchanged.2
    rw [State.walk]
    simp only [hprev]
    generalize hchanged : (orderChanged || State.differs (some p) (Queue.prev f s.oldStateHead)) =
      changed at *
    by_cases hrequest : (s.initial f || changed) = true
    · rw [if_pos hrequest, List.foldl_cons, hserve]
      refine ih hreverse' ?_ fun hunchanged => ?_
      · rw [← hserve]
        exact (serve_perm hp (by simp) hne.symm).trans hperm
      · -- the request asks for what is there
        obtain ⟨above', rfl⟩ := hplace hunchanged
        have hbelow : p ∉ below := fun hmem => (List.disjoint_of_nodup_append hn)
          (List.mem_append_left _ hmem) (List.mem_cons_of_mem _ List.mem_cons_self)
        have hkept : orderChanged = false := (Bool.or_eq_false_iff.mp (hchanged.trans hunchanged)).1
        rw [hold hkept, List.erase_of_not_mem hbelow, List.erase_cons_head]
        simp
    · rw [if_neg hrequest]
      have hunchanged : changed = false := by
        rw [Bool.not_eq_true, Bool.or_eq_false_iff] at hrequest
        exact hrequest.2
      obtain ⟨above', rfl⟩ := hplace hunchanged
      have hkept : orderChanged = false := (Bool.or_eq_false_iff.mp (hchanged.trans hunchanged)).1
      have hsame : below ++ pre ++ f :: p :: above' = below ++ (pre ++ [f]) ++ p :: above' := by simp
      rw [hsame] at hperm hold ⊢
      exact ih hreverse' hperm fun _ => hold hkept

/-- **The requests of a push** bring the frames from the order that was pushed last into the new one. -/
theorem serve_restacks (hnodup : s.stateHead.Nodup) (hold : s.oldStateHead.Perm s.stateHead) :
    s.restacks.foldl Restack.serve s.oldStateHead.reverse = s.stateHead.reverse := by
  have hperm : s.oldStateHead.reverse.Perm s.stateHead := (List.reverse_perm _).trans hold
  have hserved : (s.restacks.foldl Restack.serve s.oldStateHead.reverse).length =
      s.stateHead.reverse.length := by
    refine (List.Perm.length_eq (foldl_serve_perm fun r hr => ?_)).trans
      (hperm.length_eq.trans List.length_reverse.symm)
    rw [hperm.mem_iff, hperm.mem_iff]
    exact mem_restacks hnodup hr
  cases hreverse : s.stateHead.reverse with
  | nil =>
    rw [State.restacks, hreverse]
    rw [List.reverse_eq_nil_iff] at hreverse
    rw [hreverse] at hperm
    exact hperm.eq_nil
  | cons f rest =>
    have hf : f ∈ s.oldStateHead.reverse := by
      rw [hperm.mem_iff, ← List.mem_reverse, hreverse]
      exact List.mem_cons_self
    obtain ⟨below, above, hsplit⟩ := List.append_of_mem hf
    have hsplit' : s.oldStateHead.reverse = below ++ [] ++ f :: above := by simpa using hsplit
    have hwhole : s.stateHead.reverse = [] ++ f :: rest := hreverse
    rw [hsplit'] at hperm
    obtain ⟨below', above', hwalk⟩ := serve_walk hnodup hwhole hperm fun _ : false = false => hsplit'
    rw [← hsplit', ← hreverse] at hwalk
    change s.restacks.foldl Restack.serve s.oldStateHead.reverse = _ at hwalk
    rw [hwalk, List.length_append, List.length_append] at hserved
    -- all frames have been passed
    have hbelow : below' = [] := List.length_eq_zero_iff.mp (by omega)
    have habove : above' = [] := List.length_eq_zero_iff.mp (by omega)
    rw [hwalk, hbelow, habove, List.nil_append, List.append_nil, hreverse]

omit [DecidableEq ι] in
/-- The frame at the end of the walk, and no other, is the topmost one. -/
theorem head?_of_reverse (hreverse : s.stateHead.reverse = pre ++ f :: rest)
    (hnodup : s.stateHead.Nodup) : s.stateHead.head? = some f ↔ rest = [] := by
  have hlast : s.stateHead.head? = (f :: rest).getLast? := by
    rw [← List.getLast?_reverse, hreverse, List.getLast?_append, List.getLast?_cons, Option.some_or]
  rw [hlast]
  constructor
  · intro h
    by_contra hne
    rw [List.getLast?_cons, Option.some_inj, List.getLast?_eq_some_getLast hne,
      Option.getD_some] at h
    exact (notMem_of_reverse hnodup hreverse (List.getLast_mem hne)).2 h
  · rintro rfl
    rfl

/-- There is nothing to push if no frame below another one is new, and the order is the one that was
pushed last. -/
theorem walk_eq_nil (hnodup : s.stateHead.Nodup) (h : ¬ s.Restacking)
    (hreverse : s.stateHead.reverse = pre ++ rest) : s.walk false rest = [] := by
  obtain ⟨hinitial, hold⟩ := not_or.mp h
  rw [not_not] at hold
  induction rest generalizing pre with
  | nil => rfl
  | cons f rest ih =>
    have hprev := prev_stateHead hreverse hnodup
    have hf : f ∈ s.stateHead := by
      rw [← List.mem_reverse, hreverse]
      simp
    rw [State.walk, hold]
    cases rest with
    | nil => simp [hprev, State.walk]
    | cons p rest =>
      rw [List.head?_cons] at hprev
      have hsame : State.differs (some p) (some p) = false := differs_some.mpr rfl
      have hnew : s.initial f = false := by
        rw [← Bool.not_eq_true]
        exact fun hnew => hinitial
          ⟨f, hf, hnew, (head?_of_reverse hreverse hnodup).not.mpr (List.cons_ne_nil p rest)⟩
      simp only [hprev, hsame, hnew, Bool.or_self, Bool.false_eq_true, if_false]
      have hreverse' : s.stateHead.reverse = (pre ++ [f]) ++ p :: rest := by simp [hreverse]
      exact ih hreverse'

/-- A new frame below another one gives a request. -/
theorem walk_ne_nil {l : List ι} {p : ι} (hf : f ∈ l) (hnew : s.initial f = true)
    (hprev : Queue.prev f s.stateHead = some p) : s.walk orderChanged l ≠ [] := by
  induction l generalizing orderChanged with
  | nil => cases hf
  | cons g l ih =>
    rw [State.walk]
    obtain rfl | hf := List.mem_cons.mp hf
    · simp [hprev, hnew]
    · have hrest : ∀ {c}, s.walk c l ≠ [] := ih hf
      split
      · split
        · exact List.cons_ne_nil _ _
        · exact hrest
      · exact hrest

/-- **When a push restacks.** -/
theorem restacks_ne_nil_iff (hnodup : s.stateHead.Nodup) (hold : s.oldStateHead.Perm s.stateHead) :
    s.restacks ≠ [] ↔ s.Restacking := by
  constructor
  · intro h
    by_contra hnot
    exact h (walk_eq_nil hnodup hnot (List.nil_append _).symm)
  · rintro (⟨f, hf, hnew, hhead⟩ | horder) hnil
    · obtain ⟨pre, rest, hreverse⟩ := List.append_of_mem (List.mem_reverse.mpr hf)
      have hrest : rest ≠ [] := (head?_of_reverse hreverse hnodup).not.mp hhead
      have hprev : Queue.prev f s.stateHead = some (rest.head hrest) := by
        rw [prev_stateHead hreverse hnodup, List.head?_eq_some_head hrest]
      exact walk_ne_nil (List.mem_reverse.mpr hf) hnew hprev hnil
    · have hserved := serve_restacks hnodup hold
      rw [hnil, List.foldl_nil] at hserved
      exact horder (List.reverse_injective hserved)

theorem stackingChanged_iff (h : Ordered s) : s.stackingChanged = true ↔ s.Restacking := by
  rw [← restacks_ne_nil_iff h.nodup h.old, State.stackingChanged, Bool.not_eq_true',
    ← Bool.not_eq_true, List.isEmpty_iff]

/-- Nothing has happened to the stack since it was pushed. -/
structure Settled (s : State ι) : Prop where
  old : s.oldStateHead = s.stateHead
  initial : ∀ f ∈ s.stateHead, s.initial f = false

theorem restacks_eq_nil (hnodup : s.stateHead.Nodup) (h : Settled s) : s.restacks = [] := by
  refine walk_eq_nil hnodup ?_ (List.nil_append _).symm
  rintro (⟨f, hf, hnew, -⟩ | horder)
  · exact absurd hnew (by simp [h.initial f hf])
  · exact horder h.old

/-- The last loop of a push. -/
theorem oldStateHead_pushChanges (hnodup : s.stateHead.Nodup)
    (hold : s.oldStateHead.Perm s.stateHead) : s.pushChanges.oldStateHead = s.stateHead := by
  have hn : (s.oldStateHead ++ []).Nodup := by simpa using hold.nodup_iff.mpr hnodup
  simpa [State.pushChanges] using Queue.foldl_toBack hold hn

theorem Ordered.settled_pushChanges (h : Ordered s) : Settled s.pushChanges where
  old := oldStateHead_pushChanges h.nodup h.old
  initial _ hf := if_pos hf

/-- **One push** stacks the frames as the list says. -/
theorem Ordered.pushChanges (h : Ordered s) : Ordered s.pushChanges := by
  have hold := oldStateHead_pushChanges h.nodup h.old
  constructor
  · exact h.nodup
  · exact .of_eq hold
  · refine (foldl_serve_perm fun r hr => ?_).nodup_iff.mpr h.server
    obtain ⟨hw, hs, hne⟩ := mem_restacks h.nodup hr
    exact ⟨h.mem_server hw, h.mem_server hs, hne⟩
  · have hstacked : s.pushChanges.stacked = s.restacks.foldl Restack.serve s.stacked := by
      refine filter_foldl_serve fun r hr => ?_
      obtain ⟨hw, hs, -⟩ := mem_restacks h.nodup hr
      exact ⟨decide_eq_true hw, decide_eq_true hs⟩
    rw [hstacked, h.stacked, hold]
    exact serve_restacks h.nodup h.old

/-! ### Runs -/

/-- Every event keeps the lists and the server together. -/
theorem ordered_step (e : Event ι) (h : Ordered s) (he : e.Enabled s) : Ordered (step s e) := by
  cases e with
  | init f => exact h.conInit he
  | kill f => exact h.forget.destroyWindow fun hmem => (h.nodup.mem_erase_iff.mp hmem).1 rfl
  | reframe f f' => exact h.forget.conInit he.2
  | raise f => exact h.raiseCon
  | reinit f => exact ⟨h.nodup, h.old, h.server, h.stacked⟩
  | push => exact h.pushChanges
  | appear w => exact h.appear he
  | destroy w => exact h.destroyWindow he

theorem settled_step (e : Event ι) (ho : Ordered s) (h : Settled s) (he : ¬ e.Restacks) :
    Settled (step s e) := by
  cases e with
  | init f => exact absurd trivial he
  | kill f => exact absurd trivial he
  | reframe f f' => exact absurd trivial he
  | raise f => exact absurd trivial he
  | reinit f => exact absurd trivial he
  | push => exact ho.settled_pushChanges
  | appear w => exact ⟨h.old, h.initial⟩
  | destroy w => exact ⟨h.old, h.initial⟩

/-- Before the first container there are only the windows of other programs. -/
theorem ordered_start {server : List ι} (hserver : server.Nodup) : Ordered { server := server } where
  nodup := List.nodup_nil
  old := .refl _
  server := hserver
  stacked := by simp [State.stacked]

/-- **The stacking order of X follows that of i3.** After every push, in any run, and as long as no
frame is created, destroyed or raised, the frames are stacked in the server as `state_head` says, and
another push sends nothing. -/
theorem stacked_run {server : List ι} (hserver : server.Nodup) {es fs : List (Event ι)}
    (hrun : Runs.Meets step Event.Enabled { server := server } (es ++ .push :: fs))
    (hfs : ∀ e ∈ fs, ¬ e.Restacks) :
    (Runs.after step { server := server } (es ++ .push :: fs)).Pushed := by
  obtain ⟨hes, -, hrest⟩ := (Runs.meets_append _ _ _).mp hrun
  have hbefore : Ordered (Runs.after step { server := server } es) :=
    Runs.invariant (fun _ e h he => ordered_step e h he) (ordered_start hserver) hes
  have hguarded := (Runs.meets_and _ fs).mpr ⟨hrest, Runs.meets_of_forall (fun e he _ => hfs e he) _⟩
  have hsplit : Runs.after step { server := server } (es ++ .push :: fs) =
      Runs.after step (Runs.after step { server := server } es).pushChanges fs :=
    Runs.after_append _ _ _
  rw [hsplit]
  obtain ⟨ho, hs⟩ := Runs.invariant (I := fun s : State ι => Ordered s ∧ Settled s)
    (fun _ e h he => ⟨ordered_step e h.1 he.1, settled_step e h.1 h.2 he.2⟩)
    ⟨hbefore.pushChanges, hbefore.settled_pushChanges⟩ hguarded
  exact ⟨ho.stacked.trans (congrArg List.reverse hs.old), restacks_eq_nil ho.nodup hs⟩

/-- Three frames among two other windows; one is raised and one gets a new frame. -/
theorem stacked_run_example :
    (Runs.after step { server := [8, 9] } ([.init 1, .init 2, .push, .init 3, .raise 1,
      .reframe 2 4, .destroy 2, .appear 7] ++ .push :: [.destroy 9])).Pushed :=
  stacked_run (by decide) (by decide) (by simp [Event.Restacks])

end Stacking

end I3
