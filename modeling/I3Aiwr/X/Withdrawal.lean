import I3Aiwr.X.Unmap

/-!
# Withdrawals are noticed

A client that unmaps its window sends two events, and one of them closes the container when it finds
`ignore_unmap` at zero. Whether it does depends on how many events the container gets ahead of the
second one: as long as the counter is never made larger than that, every withdrawal is noticed. i3
makes it larger where it counts a window it reparents, of which no event tells, and where it counts a
frame it unmaps behind a withdrawal. No container is closed without a withdrawal.

## Main definitions

* `State.allowance`: what `ignore_unmap` may be
* `Crowds`: the step makes the counter of a container larger than that
* `Noticed`

## Main results

* `noticed_run`
-/

namespace I3

namespace X

open Countdown

/-- The events that a container with this frame and window gets. -/
def Concerns (frame window : ℕ) (e : XWindow) : Prop := e = .frame frame ∨ e = .client window

instance (frame window : ℕ) : DecidablePred (Concerns frame window) :=
  fun _ => inferInstanceAs (Decidable (_ ∨ _))

namespace State

variable (s : State)

/-- The events on the way, and those of a client that withdraws now. -/
def foreseen (w : ℕ) : List XWindow :=
  if w ∈ s.withdrawn then s.pending else s.pending ++ [.client w, .client w]

/-- The events that a container gets ahead of the one that is the last of its client. -/
def allowance (frame w : ℕ) : ℕ := ahead (Concerns frame w) (· = .client w) (s.foreseen w)

/-- An event of the client finds `ignore_unmap` at zero. -/
def Fits (frame w n : ℕ) : Prop := Passes (Concerns frame w) (· = .client w) n (s.foreseen w)

end State

/-- The step counts a window that is reparented, or a frame that is unmapped behind the withdrawal of
its client, or gives a window to a container, and `ignore_unmap` becomes larger than the number of
events the container gets ahead of the last one of the client. -/
def Crowds (s : State) : Step → Prop
  | .reassign current src => ∃ w ∈ (s.con src).window,
      s.allowance (s.con current).frame w < (s.con current).ignoreUnmap.toNat
  | .pushNode _ c => (s.con c).needReparent ∧ ∃ w ∈ (s.con c).window,
      s.allowance (s.con c).frame w < (s.con c).ignoreUnmap.toNat + 1
  | .pushUnmaps c => (s.con c).unmapNow ∧ ∃ w ∈ (s.con c).window, w ∈ s.withdrawn ∧
      s.allowance (s.con c).frame w < (s.con c).ignoreUnmap.toNat + 1
  | .remanage c nc frame => ∃ w ∈ (s.con c).window,
      s.allowance (frame.getD (s.con nc).frame) w < (s.con nc).ignoreUnmap.toNat
  | .render _ | .close _ | .clientUnmap _ | .deliver => False

/-- At the start of a run, nothing is on the way and nothing to be ignored. -/
structure Settled (s : State) : Prop where
  nodup : s.allCons.Nodup
  frames : ∀ c ∈ s.allCons, ∀ d ∈ s.allCons, (s.con c).frame = (s.con d).frame → c = d
  windows : ∀ c ∈ s.allCons, ∀ d ∈ s.allCons, ∀ w ∈ (s.con c).window, w ∈ (s.con d).window → c = d
  counters : ∀ c ∈ s.allCons, (s.con c).ignoreUnmap = 0
  pending : s.pending = []
  withdrawn : s.withdrawn = []

/-- A container that the handler closes is one whose client has unmapped its window; and with all
events handled, no container holds the window of a client that has. -/
structure Noticed (s : State) : Prop where
  faithful : ∀ c ∈ s.allCons, c ∉ s.deliver.allCons → ∃ w ∈ (s.con c).window, w ∈ s.withdrawn
  noticed : s.pending = [] → ∀ w ∈ s.withdrawn, ∀ c ∈ s.allCons, w ∉ (s.con c).window

/-! ### The invariant -/

/-- The frames and the windows of the containers are different, the events of clients are of those
that withdrew, or for no container, and for each container `ignore_unmap` fits. -/
structure Inv (s : State) : Prop where
  nodup : s.allCons.Nodup
  frames : ∀ c ∈ s.allCons, ∀ d ∈ s.allCons, (s.con c).frame = (s.con d).frame → c = d
  windows : ∀ c ∈ s.allCons, ∀ d ∈ s.allCons, ∀ w ∈ (s.con c).window, w ∈ (s.con d).window → c = d
  sent : ∀ w, .client w ∈ s.pending → w ∈ s.withdrawn ∨ ∀ c ∈ s.allCons, w ∉ (s.con c).window
  fits : ∀ c ∈ s.allCons, ∀ w ∈ (s.con c).window,
    s.Fits (s.con c).frame w (s.con c).ignoreUnmap.toNat

variable {s s' : State} {c d : ConId} {w f n : ℕ}

theorem concerns_client (f w : ℕ) : ∀ e : XWindow, e = .client w → Concerns f w e := fun _ h => .inr h

theorem inv_start (h : Settled s) : Inv s where
  nodup := h.nodup
  frames := h.frames
  windows := h.windows
  sent w hw := by
    rw [h.pending] at hw
    cases hw
  fits c hc w _ := by
    rw [h.counters c hc, State.Fits, State.foreseen, h.withdrawn, h.pending]
    exact .inl ⟨rfl, rfl⟩

/-- The containers keep their frames and windows; some may be closed. -/
theorem Inv.keep (h : Inv s) (hall : s'.allCons.Sublist s.allCons)
    (hframe : ∀ c ∈ s'.allCons, (s'.con c).frame = (s.con c).frame)
    (hwindow : ∀ c ∈ s'.allCons, (s'.con c).window = (s.con c).window)
    (hsent : ∀ w, .client w ∈ s'.pending →
      w ∈ s'.withdrawn ∨ ∀ c ∈ s'.allCons, w ∉ (s.con c).window)
    (hfits : ∀ c ∈ s'.allCons, ∀ w ∈ (s.con c).window,
      s'.Fits (s.con c).frame w (s'.con c).ignoreUnmap.toNat) : Inv s' where
  nodup := h.nodup.sublist hall
  frames c hc d hd heq := by
    rw [hframe c hc, hframe d hd] at heq
    exact h.frames c (hall.subset hc) d (hall.subset hd) heq
  windows c hc d hd w hw hw' := by
    rw [hwindow c hc] at hw
    rw [hwindow d hd] at hw'
    exact h.windows c (hall.subset hc) d (hall.subset hd) w hw hw'
  sent w hw := (hsent w hw).imp_right fun hnone c hc => hwindow c hc ▸ hnone c hc
  fits c hc w hw := by
    rw [hwindow c hc] at hw
    rw [hframe c hc]
    exact hfits c hc w hw

/-- The events and the withdrawals are as before. -/
theorem fits_congr (hwithdrawn : s'.withdrawn = s.withdrawn) (hpending : s'.pending = s.pending) :
    s'.Fits f w n ↔ s.Fits f w n := by
  rw [State.Fits, State.Fits, State.foreseen, State.foreseen, hwithdrawn, hpending]

/-- What the invariant speaks of is as before, but for containers that are closed. -/
theorem Inv.congr (h : Inv s) (hall : s'.allCons.Sublist s.allCons)
    (hwithdrawn : s'.withdrawn = s.withdrawn) (hpending : s'.pending = s.pending)
    (hframe : ∀ c ∈ s'.allCons, (s'.con c).frame = (s.con c).frame)
    (hwindow : ∀ c ∈ s'.allCons, (s'.con c).window = (s.con c).window)
    (hignore : ∀ c ∈ s'.allCons, (s'.con c).ignoreUnmap = (s.con c).ignoreUnmap) : Inv s' := by
  refine h.keep hall hframe hwindow (fun w hw => ?_) fun c hc w hw => ?_
  · rw [hpending] at hw
    rw [hwithdrawn]
    exact (h.sent w hw).imp_right fun hnone c hc => hnone c (hall.subset hc)
  · rw [fits_congr hwithdrawn hpending, hignore c hc]
    exact h.fits c (hall.subset hc) w hw

/-! ### Changing one container -/

@[simp] theorem modify_con_self (s : State) (c : ConId) (g : Con → Con) :
    (s.modify c g).con c = g (s.con c) :=
  Function.update_self ..

theorem modify_con_of_ne (s : State) (g : Con → Con) (h : d ≠ c) : (s.modify c g).con d = s.con d :=
  Function.update_of_ne h ..

/-- A field that is kept where the container is changed. -/
theorem modify_field {α : Type} (field : Con → α) {g : Con → Con}
    (h : field (g (s.con c)) = field (s.con c)) (d : ConId) :
    field ((s.modify c g).con d) = field (s.con d) := by
  by_cases hd : d = c
  · rw [hd, modify_con_self]
    exact h
  · rw [modify_con_of_ne s g hd]

/-- The counter of a container changes. -/
theorem Inv.modify (h : Inv s) {g : Con → Con} (hframe : (g (s.con c)).frame = (s.con c).frame)
    (hwindow : (g (s.con c)).window = (s.con c).window)
    (hfits : ∀ w ∈ (s.con c).window, s.Fits (s.con c).frame w (g (s.con c)).ignoreUnmap.toNat) :
    Inv (s.modify c g) := by
  refine h.keep (List.Sublist.refl _) (fun d _ => modify_field Con.frame hframe d)
    (fun d _ => modify_field Con.window hwindow d) h.sent fun d hd w hw => ?_
  refine (fits_congr (s := s) rfl rfl).mpr ?_
  by_cases hdc : d = c
  · rw [hdc] at hw ⊢
    rw [modify_con_self]
    exact hfits w hw
  · rw [modify_con_of_ne s g hdc]
    exact h.fits d hd w hw

/-- The counter of a container is kept. -/
theorem Inv.modify_of_eq (h : Inv s) {g : Con → Con} (hframe : (g (s.con c)).frame = (s.con c).frame)
    (hwindow : (g (s.con c)).window = (s.con c).window)
    (hignore : (g (s.con c)).ignoreUnmap = (s.con c).ignoreUnmap) : Inv (s.modify c g) :=
  h.congr (List.Sublist.refl _) rfl rfl (fun d _ => modify_field Con.frame hframe d)
    (fun d _ => modify_field Con.window hwindow d) fun d _ => modify_field Con.ignoreUnmap hignore d

/-- One more is counted, at most. -/
theorem toNat_succ_le (n : UInt8) : (n + 1).toNat ≤ n.toNat + 1 := by
  rw [UInt8.toNat_add]
  exact Nat.mod_le ..

/-- The counter has room below the allowance; a container with another frame tells that there is an
event of the client. -/
theorem fits_of_le {f' m : ℕ} (h : s.Fits f' w m) (hle : n ≤ s.allowance f w) : s.Fits f w n :=
  passes_iff.mpr ⟨(passes_iff.mp h).1, hle⟩

/-! ### Rendering -/

theorem inv_render (h : Inv s) (visible : ConId → Bool) : Inv (s.render visible) :=
  h.congr (List.Sublist.refl _) rfl rfl (fun _ _ => rfl) (fun _ _ => rfl) fun _ _ => rfl

theorem inv_pushMap (h : Inv s) (c : ConId) : Inv (s.pushMap c) := by
  unfold State.pushMap
  dsimp only
  split
  · have hmap : Inv (s.modify c Con.map) := h.modify_of_eq rfl rfl rfl
    exact hmap.congr (List.Sublist.refl _) rfl rfl (fun _ _ => rfl) (fun _ _ => rfl) fun _ _ => rfl
  · exact h

/-- Reparenting counts, and no event tells of it. -/
theorem inv_pushReparent (h : Inv s) (hc : c ∈ s.allCons)
    (hroom : (s.con c).needReparent → ∀ w ∈ (s.con c).window,
      (s.con c).ignoreUnmap.toNat + 1 ≤ s.allowance (s.con c).frame w) : Inv (s.pushReparent c) := by
  rw [State.pushReparent]
  split
  · next hpush =>
    refine h.modify rfl rfl fun w hw => ?_
    exact fits_of_le (h.fits c hc w hw) (Nat.le_trans (toNat_succ_le _) (hroom hpush.1 w hw))
  · exact h

theorem inv_xPushNode (h : Inv s) (hc : c ∈ s.allCons) {decorated : Bool}
    (hcrowds : ¬ Crowds s (.pushNode decorated c)) : Inv (s.xPushNode decorated c) := by
  have hreparent : Inv ((s.mapSplit decorated c).pushReparent c) := by
    have hroom : (s.con c).needReparent → ∀ w ∈ (s.con c).window,
        (s.con c).ignoreUnmap.toNat + 1 ≤ s.allowance (s.con c).frame w :=
      fun hneed w hw => Nat.not_lt.mp fun hlt => hcrowds ⟨hneed, w, hw, hlt⟩
    rw [State.mapSplit]
    split
    · refine inv_pushReparent (h.modify_of_eq rfl rfl rfl) hc ?_
      rw [modify_con_self]
      exact hroom
    · exact inv_pushReparent h hc hroom
  exact (inv_pushMap hreparent c).modify_of_eq rfl rfl rfl

/-! ### Events -/

/-- Events that concern no container. -/
theorem fits_send {events : List XWindow} (h : s.Fits f w n) (hfree : ∀ e ∈ events, ¬ Concerns f w e) :
    (s.send events).Fits f w n := by
  rw [State.Fits, State.foreseen] at h ⊢
  by_cases hw : w ∈ s.withdrawn
  · rw [if_pos hw] at h
    rw [if_pos (show w ∈ (s.send events).withdrawn from hw)]
    exact h.append events
  · rw [if_neg hw, ← passes_filter (concerns_client f w), List.filter_append] at h
    rw [if_neg (show w ∉ (s.send events).withdrawn from hw), ← passes_filter (concerns_client f w)]
    change Passes _ _ _ (List.filter _ ((s.pending ++ events) ++ _))
    have hnil : events.filter (fun e => Concerns f w e) = [] :=
      List.filter_eq_nil_iff.mpr fun e he => by simpa using hfree e he
    rw [List.filter_append, List.filter_append, hnil, List.append_nil]
    exact h

theorem Inv.send (h : Inv s) {events : List XWindow}
    (hfree : ∀ e ∈ events, ∀ c ∈ s.allCons, ∀ w ∈ (s.con c).window, ¬ Concerns (s.con c).frame w e) :
    Inv (s.send events) := by
  refine h.keep (List.Sublist.refl _) (fun _ _ => rfl) (fun _ _ => rfl) (fun w hw => ?_)
    fun c hc w hw => fits_send (h.fits c hc w hw) fun e he => hfree e he c hc w hw
  rcases List.mem_append.mp hw with hw | hw
  · exact h.sent w hw
  · exact .inr fun c hc hmem => hfree _ hw c hc w hmem (concerns_client _ _ _ rfl)

/-- A frame that is unmapped: one more is counted, and one more event tells of it. -/
theorem fits_unmap (h : s.Fits f w n) (hroom : w ∈ s.withdrawn → n + 1 ≤ s.allowance f w) :
    (s.send [.frame f]).Fits f w (n + 1) := by
  by_cases hw : w ∈ s.withdrawn
  · have hmore := fits_of_le h (hroom hw)
    rw [State.Fits, State.foreseen, if_pos hw] at hmore
    rw [State.Fits, State.foreseen, if_pos (show w ∈ (s.send [.frame f]).withdrawn from hw)]
    exact hmore.append _
  · rw [State.Fits, State.foreseen, if_neg hw] at h
    rw [State.Fits, State.foreseen, if_neg (show w ∉ (s.send [.frame f]).withdrawn from hw)]
    change Passes _ _ _ ((s.pending ++ [.frame f]) ++ _)
    rw [List.append_assoc]
    exact h.insert (.inl rfl) ⟨.client w, by simp, rfl⟩

theorem inv_xPushNodeUnmaps (h : Inv s) (hc : c ∈ s.allCons) (hcrowds : ¬ Crowds s (.pushUnmaps c)) :
    Inv (s.xPushNodeUnmaps c) := by
  rw [State.xPushNodeUnmaps]
  split
  · next hnow =>
    have hframe : ∀ d, ((s.modify c Con.unmap).con d).frame = (s.con d).frame :=
      modify_field Con.frame rfl
    have hwindow : ∀ d, ((s.modify c Con.unmap).con d).window = (s.con d).window :=
      modify_field Con.window rfl
    refine h.keep (List.Sublist.refl _) (fun d _ => hframe d) (fun d _ => hwindow d)
      (fun w hw => ?_) fun d hd w hw => ?_
    · rcases List.mem_append.mp hw with hw | hw
      · exact h.sent w hw
      · cases List.mem_singleton.mp hw
    · change ((s.modify c Con.unmap).send _).Fits _ w ((s.modify c Con.unmap).con d).ignoreUnmap.toNat
      by_cases hdc : d = c
      · subst hdc
        have hfits := fits_unmap (h.fits d hd w hw) fun hwithdrawn =>
          Nat.not_lt.mp fun hlt => hcrowds ⟨hnow, w, hw, hwithdrawn, hlt⟩
        rw [modify_con_self, Con.unmap, if_pos (Option.ne_none_iff_exists'.mpr ⟨w, hw⟩)]
        exact hfits.mono (toNat_succ_le _)
      · rw [modify_con_of_ne s _ hdc]
        refine fits_send (s := s.modify c Con.unmap) (h.fits d hd w hw) fun e he hconcerns => ?_
        obtain rfl := List.mem_singleton.mp he
        rcases hconcerns with heq | heq
        · exact hdc (h.frames d hd c hc (XWindow.frame.inj heq).symm)
        · cases heq
  · exact h

/-! ### Windows that move -/

/-- The window of `c` is given to `d`, which may get another frame. -/
theorem Inv.give (h : Inv s) (hc : c ∈ s.allCons) (hd : d ∈ s.allCons)
    (hall : s'.allCons = s.allCons) (hwithdrawn : s'.withdrawn = s.withdrawn)
    (hpending : s'.pending = s.pending) (hwindow : (s'.con d).window = (s.con c).window)
    (hnone : (s'.con c).window = none)
    (hother : ∀ e, e ≠ c → e ≠ d → (s'.con e).window = (s.con e).window)
    (hframe : ∀ e, e ≠ d → (s'.con e).frame = (s.con e).frame)
    (hfresh : ∀ e ∈ s.allCons, e ≠ d → (s.con e).frame ≠ (s'.con d).frame)
    (hignore : ∀ e, (s'.con e).ignoreUnmap = (s.con e).ignoreUnmap)
    (hroom : ∀ w ∈ (s.con c).window,
      (s.con d).ignoreUnmap.toNat ≤ s.allowance (s'.con d).frame w) : Inv s' := by
  -- where a container has its window from
  have hfrom : ∀ e ∈ s'.allCons, ∀ w ∈ (s'.con e).window,
      e = d ∧ w ∈ (s.con c).window ∨ e ≠ c ∧ e ≠ d ∧ w ∈ (s.con e).window := by
    intro e _ w hw
    by_cases hec : e = c
    · rw [hec, hnone] at hw
      cases hw
    · by_cases hed : e = d
      · rw [hed, hwindow] at hw
        exact .inl ⟨hed, hw⟩
      · rw [hother e hec hed] at hw
        exact .inr ⟨hec, hed, hw⟩
  refine ⟨hall ▸ h.nodup, fun e he e' he' heq => ?_, fun e he e' he' w hw hw' => ?_,
    fun w hw => ?_, fun e he w hw => ?_⟩
  · rw [hall] at he he'
    by_cases hed : e = d
    · by_contra hne
      subst hed
      rw [hframe e' (Ne.symm hne)] at heq
      exact hfresh e' he' (Ne.symm hne) heq.symm
    · by_cases hed' : e' = d
      · rw [hed', hframe e hed] at heq
        exact (hfresh e he hed heq).elim
      · rw [hframe e hed, hframe e' hed'] at heq
        exact h.frames e he e' he' heq
  · rcases hfrom e he w hw with ⟨rfl, hw⟩ | ⟨hec, -, hw⟩ <;>
      rcases hfrom e' he' w hw' with ⟨rfl, hw'⟩ | ⟨hec', -, hw'⟩
    · rfl
    · exact (hec' (h.windows e' (hall ▸ he') c hc w hw' hw)).elim
    · exact (hec (h.windows e (hall ▸ he) c hc w hw hw')).elim
    · exact h.windows e (hall ▸ he) e' (hall ▸ he') w hw hw'
  · rw [hpending] at hw
    rw [hwithdrawn]
    refine (h.sent w hw).imp_right fun hfree e he hmem => ?_
    rcases hfrom e he w hmem with ⟨-, hmem⟩ | ⟨-, -, hmem⟩
    · exact hfree c hc hmem
    · exact hfree e (hall ▸ he) hmem
  · refine (fits_congr hwithdrawn hpending).mpr ?_
    rw [hignore]
    rcases hfrom e he w hw with ⟨rfl, hw⟩ | ⟨-, hed, hw⟩
    · exact fits_of_le (h.fits c hc w hw) (hroom w hw)
    · rw [hframe e hed]
      exact h.fits e (hall ▸ he) w hw

theorem inv_reassignSticky (h : Inv s) {current src : ConId}
    (henabled : Enabled s (.reassign current src)) (hcrowds : ¬ Crowds s (.reassign current src)) :
    Inv (s.reassignSticky current src) := by
  obtain ⟨hcurrent, hsrc, hne, -⟩ := henabled
  have hcon : (s.reassignSticky current src).con current =
      { s.con current with window := (s.con src).window, mapped := true, needReparent := true } := by
    rw [State.reassignSticky, State.xReparentChild, modify_con_self, modify_con_of_ne _ _ hne,
      modify_con_self]
  have hcon' : (s.reassignSticky current src).con src =
      { s.con src with window := none, mapped := false } := by
    rw [State.reassignSticky, State.xReparentChild, modify_con_of_ne _ _ (Ne.symm hne),
      modify_con_self, modify_con_of_ne _ _ (Ne.symm hne)]
  have hother : ∀ e, e ≠ src → e ≠ current → (s.reassignSticky current src).con e = s.con e := by
    intro e hes hec
    rw [State.reassignSticky, State.xReparentChild, modify_con_of_ne _ _ hec,
      modify_con_of_ne _ _ hes, modify_con_of_ne _ _ hec]
  refine h.give hsrc hcurrent rfl rfl rfl (by rw [hcon]) (by rw [hcon'])
    (fun e hes hec => by rw [hother e hes hec]) (fun e hec => ?_) (fun e he hec heq => ?_)
    (fun e => ?_) fun w hw => ?_
  · by_cases hes : e = src
    · rw [hes, hcon']
    · rw [hother e hes hec]
  · rw [hcon] at heq
    exact hec (h.frames e he current hcurrent heq)
  · by_cases hec : e = current
    · rw [hec, hcon]
    · by_cases hes : e = src
      · rw [hes, hcon']
      · rw [hother e hes hec]
  · rw [hcon]
    exact Nat.not_lt.mp fun hlt => hcrowds ⟨w, hw, hlt⟩

theorem treeCloseInternal_con (s : State) (h : d ≠ c) : (s.treeCloseInternal c).con d = s.con d :=
  modify_con_of_ne s (fun con => { con with window := none }) h

/-- A container is closed. -/
theorem inv_treeCloseInternal (h : Inv s) (c : ConId) : Inv (s.treeCloseInternal c) := by
  have hne : ∀ d ∈ (s.treeCloseInternal c).allCons, (s.treeCloseInternal c).con d = s.con d :=
    fun d hd => treeCloseInternal_con s (h.nodup.mem_erase_iff.mp hd).1
  exact h.congr List.erase_sublist rfl rfl (fun d hd => by rw [hne d hd])
    (fun d hd => by rw [hne d hd]) fun d hd => by rw [hne d hd]

/-- The placeholder that swallows a window, before the window is moved. -/
theorem matchDepth_con (s : State) (nc : ConId) (frame : Option ℕ) :
    (((s.matchDepth nc frame).xReparentChild nc).con nc).frame = frame.getD (s.con nc).frame ∧
      (((s.matchDepth nc frame).xReparentChild nc).con nc).ignoreUnmap = (s.con nc).ignoreUnmap ∧
        ∀ d, d ≠ nc → ((s.matchDepth nc frame).xReparentChild nc).con d = s.con d := by
  cases frame with
  | none =>
    refine ⟨?_, ?_, fun d hd => ?_⟩
    · rw [State.xReparentChild, modify_con_self]
      rfl
    · rw [State.xReparentChild, modify_con_self]
      rfl
    · rw [State.xReparentChild, modify_con_of_ne _ _ hd]
      rfl
  | some frame =>
    refine ⟨?_, ?_, fun d hd => ?_⟩
    · rw [State.xReparentChild, modify_con_self, State.matchDepth, State.xConReframe, modify_con_self]
      rfl
    · rw [State.xReparentChild, modify_con_self, State.matchDepth, State.xConReframe, modify_con_self]
      rfl
    · rw [State.xReparentChild, modify_con_of_ne _ _ hd, State.matchDepth, State.xConReframe,
        modify_con_of_ne _ _ hd]

theorem matchDepth_lists (s : State) (nc : ConId) (frame : Option ℕ) :
    ((s.matchDepth nc frame).xReparentChild nc).allCons = s.allCons ∧
      ((s.matchDepth nc frame).xReparentChild nc).withdrawn = s.withdrawn ∧
        ((s.matchDepth nc frame).xReparentChild nc).pending = s.pending := by
  cases frame <;> exact ⟨rfl, rfl, rfl⟩

theorem inv_mergeWindow (h : Inv s) {nc : ConId} {frame : Option ℕ}
    (henabled : Enabled s (.remanage c nc frame)) (hcrowds : ¬ Crowds s (.remanage c nc frame)) :
    Inv (((s.matchDepth nc frame).xReparentChild nc).mergeWindow c nc) := by
  obtain ⟨hc, hnc, hne, -, -, hfresh⟩ := henabled
  obtain ⟨hframe, hignore, hsame⟩ := matchDepth_con s nc frame
  obtain ⟨hall, hwithdrawn, hpending⟩ := matchDepth_lists s nc frame
  generalize (s.matchDepth nc frame).xReparentChild nc = t
    at hframe hignore hsame hall hwithdrawn hpending
  have hcon : (t.mergeWindow c nc).con nc =
      { t.con nc with
        window := (s.con c).window
        stickyGroup := (s.con c).stickyGroup.or (t.con nc).stickyGroup } := by
    rw [State.mergeWindow, modify_con_of_ne _ _ (Ne.symm hne), modify_con_self, hsame c hne]
  have hcon' : (t.mergeWindow c nc).con c = { s.con c with window := none } := by
    rw [State.mergeWindow, modify_con_self, modify_con_of_ne _ _ hne, hsame c hne]
  have hother : ∀ e, e ≠ c → e ≠ nc → (t.mergeWindow c nc).con e = s.con e := by
    intro e hec hen
    rw [State.mergeWindow, modify_con_of_ne _ _ hec, modify_con_of_ne _ _ hen, hsame e hen]
  refine h.give hc hnc hall hwithdrawn hpending (by rw [hcon]) (by rw [hcon'])
    (fun e hec hen => by rw [hother e hec hen]) (fun e hen => ?_) (fun e he hen heq => ?_)
    (fun e => ?_) fun w hw => ?_
  · by_cases hec : e = c
    · rw [hec, hcon']
    · rw [hother e hec hen]
  · rw [hcon] at heq
    change (s.con e).frame = (t.con nc).frame at heq
    rw [hframe] at heq
    cases frame with
    | none => exact hen (h.frames e he nc hnc heq)
    | some frame => exact (hfresh frame rfl).2 e he heq
  · by_cases hen : e = nc
    · rw [hen, hcon]
      exact hignore
    · by_cases hec : e = c
      · rw [hec, hcon']
      · rw [hother e hec hen]
  · rw [hcon]
    refine Nat.not_lt.mp fun hlt => hcrowds ⟨w, hw, ?_⟩
    rw [← hframe]
    exact hlt

/-- The window of the placeholder is in no container then. -/
theorem inv_remanageWindow (h : Inv s) {nc : ConId} {frame : Option ℕ}
    (henabled : Enabled s (.remanage c nc frame)) (hcrowds : ¬ Crowds s (.remanage c nc frame)) :
    Inv (s.remanageWindow c nc frame) := by
  have hmerged := inv_mergeWindow h henabled hcrowds
  obtain ⟨hc, hnc, hne, -⟩ := henabled
  have hclosed := inv_treeCloseInternal hmerged c
  obtain ⟨-, -, hsame⟩ := matchDepth_con s nc frame
  obtain ⟨hall, -, -⟩ := matchDepth_lists s nc frame
  have hsend : Inv ((State.treeCloseInternal (((s.matchDepth nc frame).xReparentChild nc).mergeWindow
      c nc) c).send ((s.con nc).window.toList.flatMap fun w => [.client w, .client w])) := by
    refine hclosed.send fun e he d hd w hw hconcerns => ?_
    obtain ⟨p, hp, he⟩ := List.mem_flatMap.mp he
    have hpw : p = w := by
      rcases hconcerns with rfl | rfl
      · simp at he
      · simpa [eq_comm] using he
    subst hpw
    rw [Option.mem_toList] at hp
    obtain ⟨hdc, hd⟩ := hmerged.nodup.mem_erase_iff.mp hd
    have hd' : d ∈ s.allCons := hall ▸ hd
    rw [treeCloseInternal_con _ hdc, State.mergeWindow, modify_con_of_ne _ _ hdc] at hw
    by_cases hdn : d = nc
    · -- the placeholder has the window of `c`
      subst hdn
      rw [modify_con_self, hsame c hne] at hw
      exact hne (h.windows c hc d hd' p hw hp)
    · rw [modify_con_of_ne _ _ hdn, hsame d hdn] at hw
      exact hdn (h.windows d hd' nc hnc p hw hp)
  cases frame with
  | none =>
    exact hsend.congr (List.Sublist.refl _) rfl rfl (fun _ _ => rfl) (fun _ _ => rfl) fun _ _ => rfl
  | some frame =>
    exact hsend.congr (List.Sublist.refl _) rfl rfl (fun _ _ => rfl) (fun _ _ => rfl) fun _ _ => rfl

/-! ### Clients -/

/-- A client withdraws: its own events are those foreseen. -/
theorem fits_clientUnmap {w' : ℕ} (h : s.Fits f w n) : (s.clientUnmap w').Fits f w n := by
  by_cases heq : w = w'
  · subst heq
    have hwithdrawn : w ∈ (s.clientUnmap w).withdrawn := List.mem_cons_self ..
    rw [State.Fits, State.foreseen] at h
    rw [State.Fits, State.foreseen, if_pos hwithdrawn]
    split at h
    · exact h.append _
    · exact h
  · have hfree : ∀ e ∈ [XWindow.client w', .client w'], ¬ Concerns f w e := by
      intro e he
      obtain rfl : e = .client w' := by simpa using he
      rintro (h | h)
      · cases h
      · exact heq (XWindow.client.inj h).symm
    have hsend := fits_send h hfree
    have hiff : w ∈ (s.clientUnmap w').withdrawn ↔ w ∈ s.withdrawn := by
      change w ∈ w' :: s.withdrawn ↔ _
      rw [List.mem_cons, or_iff_right heq]
    rw [State.Fits, State.foreseen] at hsend ⊢
    simp only [hiff]
    exact hsend

theorem inv_clientUnmap (h : Inv s) (w : ℕ) : Inv (s.clientUnmap w) := by
  refine h.keep (List.Sublist.refl _) (fun _ _ => rfl) (fun _ _ => rfl) (fun w' hw' => ?_)
    fun c hc w' hw' => fits_clientUnmap (h.fits c hc w' hw')
  rcases List.mem_append.mp hw' with hw' | hw'
  · exact (h.sent w' hw').imp_left (List.mem_cons_of_mem w)
  · obtain rfl : w' = w := by simpa using hw'
    exact .inl (List.mem_cons_self ..)

/-! ### Delivering an event -/

theorem foreseen_cons {e : XWindow} {pending : List XWindow} (hpending : s.pending = e :: pending)
    (w : ℕ) : s.foreseen w = e :: { s with pending }.foreseen w := by
  rw [State.foreseen, State.foreseen, hpending]
  split <;> rfl

/-- The event was for others. -/
theorem fits_pop {e : XWindow} {pending : List XWindow} (hpending : s.pending = e :: pending)
    (h : s.Fits f w n) (hfree : ¬ Concerns f w e) : { s with pending }.Fits f w n := by
  rw [State.Fits, foreseen_cons hpending] at h
  exact (passes_cons_of_not (concerns_client f w) hfree).mp h

/-- The event was ignored. -/
theorem fits_ignored {e : XWindow} {pending : List XWindow} (hpending : s.pending = e :: pending)
    (h : s.Fits f w n) (hconcerns : Concerns f w e) (hclient : e = .client w → n ≠ 0) :
    { s with pending }.Fits f w (n - 1) := by
  rw [State.Fits, foreseen_cons hpending] at h
  have hpassed := h.resolve_left fun hpass => hclient hpass.1 hpass.2
  rw [if_pos hconcerns] at hpassed
  exact hpassed

theorem ignore_frame (con : Con) : con.ignore.frame = con.frame := by
  rw [Con.ignore]
  split <;> rfl

theorem ignore_window (con : Con) : con.ignore.window = con.window := by
  rw [Con.ignore]
  split <;> rfl

theorem toNat_ignore (con : Con) : con.ignore.ignoreUnmap.toNat = con.ignoreUnmap.toNat - 1 := by
  rw [Con.ignore]
  split
  · next hpos =>
    exact UInt8.toNat_sub_of_le _ _ (UInt8.le_iff_toNat_le.mpr (Nat.succ_le_of_lt hpos))
  · next hpos =>
    have hzero : con.ignoreUnmap.toNat = 0 := Nat.eq_zero_of_not_pos hpos
    rw [hzero]

section Deliver

variable {e : XWindow} {pending : List XWindow}

/-- What was on the way stays on the way, but for the event. -/
theorem Inv.sent_pop (h : Inv s) (hpending : s.pending = e :: pending) :
    ∀ w, .client w ∈ pending → w ∈ s.withdrawn ∨ ∀ c ∈ s.allCons, w ∉ (s.con c).window :=
  fun w hw => h.sent w (hpending ▸ List.mem_cons_of_mem e hw)

/-- The event concerns no container. -/
theorem Inv.pop (h : Inv s) (hpending : s.pending = e :: pending)
    (hfree : ∀ c ∈ s.allCons, ∀ w ∈ (s.con c).window, ¬ Concerns (s.con c).frame w e) :
    Inv { s with pending } :=
  h.keep (List.Sublist.refl _) (fun _ _ => rfl) (fun _ _ => rfl) (h.sent_pop hpending)
    fun c hc w hw => fits_pop hpending (h.fits c hc w hw) (hfree c hc w hw)

/-- The event is ignored by the container it concerns. -/
theorem Inv.ignored (h : Inv s) (hpending : s.pending = e :: pending)
    (hconcerns : ∀ w ∈ (s.con c).window, Concerns (s.con c).frame w e ∧
      (e = .client w → (s.con c).ignoreUnmap.toNat ≠ 0))
    (hother : ∀ d ∈ s.allCons, d ≠ c → ∀ w ∈ (s.con d).window, ¬ Concerns (s.con d).frame w e) :
    Inv ({ s with pending }.ignore c) := by
  refine h.keep (List.Sublist.refl _) (fun d _ => modify_field Con.frame (ignore_frame _) d)
    (fun d _ => modify_field Con.window (ignore_window _) d) (h.sent_pop hpending) fun d hd w hw => ?_
  refine (fits_congr (s := { s with pending }) rfl rfl).mpr ?_
  rw [State.ignore]
  by_cases hdc : d = c
  · subst hdc
    rw [modify_con_self, toNat_ignore]
    exact fits_ignored hpending (h.fits d hd w hw) (hconcerns w hw).1 (hconcerns w hw).2
  · rw [modify_con_of_ne _ _ hdc]
    exact fits_pop hpending (h.fits d hd w hw) (hother d hd hdc w hw)

/-- **An event is handled.** -/
theorem inv_deliver (h : Inv s) : Inv s.deliver := by
  rw [State.deliver]
  split
  · exact h
  · next event pending hpending =>
    cases event with
    | client w =>
      have hother : ∀ c ∈ s.allCons, w ∉ (s.con c).window →
          ∀ w' ∈ (s.con c).window, ¬ Concerns (s.con c).frame w' (.client w) := by
        rintro c - hnot w' hw' (heq | heq)
        · cases heq
        · obtain rfl := XWindow.client.inj heq
          exact hnot hw'
      rw [State.handleUnmapNotifyEvent]
      dsimp only
      split
      · next hnone =>
        refine h.pop hpending fun c hc => hother c hc fun hw => ?_
        simpa using List.find?_eq_none.mp hnone c hc (decide_eq_true hw)
      · next c hfound =>
        have hc : c ∈ s.allCons := List.mem_of_find?_eq_some hfound
        have hw : w ∈ (s.con c).window := by simpa using List.find?_some hfound
        have hothers : ∀ d ∈ s.allCons, d ≠ c →
            ∀ w' ∈ (s.con d).window, ¬ Concerns (s.con d).frame w' (.client w) :=
          fun d hd hdc => hother d hd fun hwd => hdc (h.windows d hd c hc w hwd hw)
        split
        · next hpos =>
          refine h.ignored hpending (fun w' hw' => ?_) hothers
          obtain rfl : w = w' := Option.some.inj (hw.symm.trans hw')
          exact ⟨.inr rfl, fun _ => Nat.ne_of_gt (UInt8.lt_iff_toNat_lt.mp hpos)⟩
        · -- the container is closed
          have hne : ∀ d ∈ s.allCons.erase c,
              ({ s with pending }.treeCloseInternal c).con d = s.con d :=
            fun d hd => treeCloseInternal_con _ (h.nodup.mem_erase_iff.mp hd).1
          refine h.keep List.erase_sublist (fun d hd => by rw [hne d hd]) (fun d hd => by rw [hne d hd])
            (fun w' hw' => (h.sent_pop hpending w' hw').imp_right fun hnot d hd =>
              hnot d (List.mem_of_mem_erase hd)) fun d hd w' hw' => ?_
          obtain ⟨hdc, hd'⟩ := h.nodup.mem_erase_iff.mp hd
          refine (fits_congr (s := { s with pending }) rfl rfl).mpr ?_
          rw [hne d hd]
          exact fits_pop hpending (h.fits d hd' w' hw') (hothers d hd' hdc w' hw')
    | frame f =>
      rw [State.handleUnmapNotifyEvent]
      split
      · next hnone =>
        refine h.pop hpending ?_
        rintro c hc w hw (heq | heq)
        · simpa using List.find?_eq_none.mp hnone c hc (decide_eq_true (XWindow.frame.inj heq).symm)
        · cases heq
      · next c hfound =>
        have hc : c ∈ s.allCons := List.mem_of_find?_eq_some hfound
        have hf : (s.con c).frame = f := by simpa using List.find?_some hfound
        refine h.ignored hpending (fun w hw => ⟨.inl (by rw [hf]), fun heq => by cases heq⟩) ?_
        rintro d hd hdc w hw (heq | heq)
        · exact hdc (h.frames d hd c hc ((XWindow.frame.inj heq).symm.trans hf.symm))
        · cases heq

end Deliver

/-! ### Runs -/

theorem inv_step (h : Inv s) {e : Step} (hok : Enabled s e ∧ ¬ Crowds s e) : Inv (step s e) := by
  obtain ⟨henabled, hcrowds⟩ := hok
  cases e with
  | reassign current src => exact inv_reassignSticky h henabled hcrowds
  | render visible => exact inv_render h visible
  | pushNode decorated c => exact inv_xPushNode h henabled hcrowds
  | pushUnmaps c => exact inv_xPushNodeUnmaps h henabled hcrowds
  | remanage c nc frame => exact inv_remanageWindow h henabled hcrowds
  | close c => exact inv_treeCloseInternal h c
  | clientUnmap w => exact inv_clientUnmap h w
  | deliver => exact inv_deliver h

theorem Inv.noticed (h : Inv s) : Noticed s where
  faithful c hc hclosed := by
    rw [State.deliver] at hclosed
    split at hclosed
    · exact (hclosed hc).elim
    · next event pending hpending =>
      rw [State.handleUnmapNotifyEvent.eq_def] at hclosed
      split at hclosed
      · next w =>
        split at hclosed
        · exact (hclosed hc).elim
        · next d hfound =>
          have hw : w ∈ (s.con d).window := by simpa using List.find?_some hfound
          split at hclosed
          · exact (hclosed hc).elim
          · -- only `d` is closed
            have hcd : c = d := by
              by_contra hne
              exact hclosed ((List.mem_erase_of_ne hne).mpr hc)
            subst hcd
            have hsent : XWindow.client w ∈ s.pending := hpending ▸ List.mem_cons_self ..
            exact ⟨w, hw, (h.sent w hsent).resolve_right fun hnone => hnone c hc hw⟩
      · split at hclosed
        · exact (hclosed hc).elim
        · exact (hclosed hc).elim
  noticed hpending w hw c hc hmem := by
    have hfits := h.fits c hc w hmem
    rw [State.Fits, State.foreseen, if_pos hw, hpending] at hfits
    exact hfits

/-- **Withdrawals are noticed**, and nothing else is taken for one, in every state of a run that does
not make `ignore_unmap` larger than the number of events that come ahead of a withdrawal. -/
theorem noticed_run (hs : Settled s) {es : List Step}
    (h : Runs.Meets step (fun s e => Enabled s e ∧ ¬ Crowds s e) s es) {fs : List Step}
    (hfs : fs <+: es) : Noticed (Runs.after step s fs) := by
  have hinv : Inv (Runs.after step s fs) :=
    Runs.invariant_prefix (I := Inv) (fun _ _ hinv hok => inv_step hinv hok) (inv_start hs) h hfs
  exact hinv.noticed

/-- Two containers of a sticky group, of which the first has the window. -/
def stickyPair : State where
  con c := if c = 0 then
      { frame := 10, window := some 7, stickyGroup := some "g", mapped := true, stateMapped := true,
        childMapped := true }
    else { frame := 11, stickyGroup := some "g" }
  allCons := [0, 1]
  mappedWindows := [7]

/-- The tree is rendered with the container `c` visible. -/
def rendering (c : ConId) : List Step :=
  [.render (· = c), .pushNode false 0, .pushNode false 1, .pushUnmaps 0, .pushUnmaps 1]

theorem settled_stickyPair : Settled stickyPair := by
  refine ⟨by decide, by decide, ?_, by decide, rfl, rfl⟩
  decide

instance (s : State) (e : Step) : Decidable (Crowds s e) :=
  match e with
  | .reassign _ _ => inferInstanceAs (Decidable (∃ w ∈ _, _))
  | .pushNode _ _ => inferInstanceAs (Decidable (_ ∧ ∃ w ∈ _, _))
  | .pushUnmaps _ => inferInstanceAs (Decidable (_ ∧ ∃ w ∈ _, _ ∧ _))
  | .remanage _ _ _ => inferInstanceAs (Decidable (∃ w ∈ _, _))
  | .render _ | .close _ | .clientUnmap _ | .deliver => inferInstanceAs (Decidable False)

/-- The other workspace is shown, and the client withdraws its window from there. -/
theorem noticed_switch :
    Noticed (Runs.after step stickyPair
      (.reassign 1 0 :: rendering 1 ++ [.clientUnmap 7, .deliver, .deliver, .deliver])) :=
  noticed_run settled_stickyPair (by decide) (List.prefix_refl _)

/-- Going back and forth twice before the tree is rendered leaves two events to ignore that do not
come: the withdrawal goes unnoticed. -/
theorem not_noticed_backAndForth : ¬ ∀ (s : State) (es : List Step), Settled s →
    Runs.Meets step Enabled s es → Noticed (Runs.after step s es) := by
  intro h
  have hnoticed := h stickyPair
    ([.reassign 1 0, .reassign 0 1] ++ rendering 0 ++ [.reassign 1 0, .reassign 0 1] ++ rendering 0 ++
      [.clientUnmap 7, .deliver, .deliver]) settled_stickyPair (by decide)
  exact hnoticed.noticed (by decide) 7 (by decide) 0 (by decide) (by decide)

end X

end I3
