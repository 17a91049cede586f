import I3Aiwr.Lib.Runs
import I3Aiwr.Tree.Close

/-!
# The scroll animation and the death of containers

`scroll_anim` refers to a container for as long as the scroll runs, over any number of events.
Scrolls are started by `scroll_to_offset` and by `con_focus`, which closing a container calls too.
Containers die in `con_free`, which forgets the scroll of a workspace but not that of another
container: as long as no such container is freed during its scroll, the animation refers to a
container that is alive.

## Main definitions

* `Tree.AnimAlive t`: the animation refers to a container in `all_cons`
* `ScrollLife.Event`, `ScrollLife.step`: scrolls, frames, completions and calls for closing, which
  run step by step
* `ScrollLife.Calls`: the events are calls the callers make
* `ScrollLife.Forgets`: the container freed next is a workspace, if it is scrolled

## Main results

* `ScrollLife.animAlive_of_forgets`: the animation refers to no dead container
* `ScrollLife.scroll_dangles`: it does after the last window of a scrolling split container closed
-/

namespace I3

namespace Tree

/-- `scroll_anim.con` is `NULL` or still in `all_cons`. -/
def AnimAlive (t : Tree) : Prop := ∀ c, t.scrollAnim.con = some c → t.Alive c

namespace AnimAlive

variable {cfg : Config} {t t' : Tree}

theorem congr (h : AnimAlive t) (hanim : t'.scrollAnim.con = t.scrollAnim.con)
    (hcons : t'.allCons = t.allCons) : AnimAlive t' := by
  intro c hc
  rw [Alive, hcons]
  exact h c (hanim ▸ hc)

theorem of_none (h : t.scrollAnim.con = none) : AnimAlive t := by
  intro c hc
  rw [h] at hc
  cases hc

/-! ### Scrolling -/

theorem scrollCancel (h : AnimAlive t) : AnimAlive t.scrollCancel := by
  rw [Tree.scrollCancel]
  split
  · exact of_none rfl
  · exact h

theorem scrollToOffset (h : AnimAlive t) {c : ConId} (hc : t.Alive c) (target : ℚ) :
    AnimAlive (t.scrollToOffset cfg c target) := by
  have hcons : t.scrollCancel.allCons = t.allCons := (stirs_scrollCancel t).allCons
  rw [Tree.scrollToOffset]
  split
  · exact h
  · split
    · exact h.scrollCancel.congr rfl rfl
    · split
      · -- the animation starts, on `c`
        intro d hd
        cases hd
        rw [Alive]
        exact hcons ▸ hc
      · exact of_none rfl

theorem scrollingReveal (h : AnimAlive t) (ht : Rooted t) {column : ConId}
    (hc : t.Reach column) : AnimAlive (t.scrollingReveal cfg column) := by
  rw [Tree.scrollingReveal]
  split
  · exact h
  · next con hp =>
    split
    · exact h
    · split
      · exact h
      · exact h.scrollToOffset (ht.alive con (ht.reach_parent hc hp)) _

theorem scrollingOnFocus (h : AnimAlive t) (ht : Rooted t) {c : ConId} (hc : t.Reach c) :
    AnimAlive (t.scrollingOnFocus cfg c) := by
  have hcolumn : ∀ n c column, t.Reach c → t.columnOfN n c = some column → t.Reach column := by
    intro n
    induction n with
    | zero => intro c column _ h; cases h
    | succ n ih =>
      intro c column hc hcol
      rw [columnOfN] at hcol
      split at hcol
      · cases hcol
      · next p hp =>
        split at hcol
        · cases hcol
          exact hc
        · split at hcol
          · cases hcol
          · exact ih p column (ht.reach_parent hc hp) hcol
  rw [Tree.scrollingOnFocus]
  split
  · exact h
  · next column hcol => exact h.scrollingReveal ht (hcolumn _ c column hc hcol)

/-! ### Focus and urgency -/

theorem updateUrgencyOf_scrollAnim (urgent : Bool) (ps : List ConId) (t : Tree) :
    (updateUrgencyOf urgent ps t).scrollAnim = t.scrollAnim := by
  induction ps generalizing t with
  | nil => rfl
  | cons p ps ih =>
    rw [updateUrgencyOf]
    split
    · rfl
    · rw [ih]
      split
      · rfl
      · split <;> rfl

theorem updateParentsUrgency_scrollAnim (t : Tree) (c : ConId) :
    (t.updateParentsUrgency c).scrollAnim = t.scrollAnim := by
  rw [updateParentsUrgency]
  split
  · rfl
  · exact updateUrgencyOf_scrollAnim _ _ t

theorem workspaceUpdateUrgentFlag_scrollAnim (t : Tree) (ws : Option ConId) :
    (t.workspaceUpdateUrgentFlag ws).scrollAnim = t.scrollAnim := by
  cases ws <;> rfl

theorem conSetUrgency_scrollAnim (t : Tree) (c : ConId) (urgent : Bool) :
    (t.conSetUrgency c urgent).scrollAnim = t.scrollAnim := by
  rw [conSetUrgency]
  split
  · rfl
  · dsimp only
    rw [workspaceUpdateUrgentFlag_scrollAnim, updateParentsUrgency_scrollAnim]
    split <;> rfl

theorem clearUrgency_scrollAnim (t : Tree) (c : ConId) :
    (t.clearUrgency c).scrollAnim = t.scrollAnim := by
  rw [clearUrgency, workspaceUpdateUrgentFlag_scrollAnim, updateParentsUrgency_scrollAnim,
    conSetUrgency_scrollAnim]

theorem clearUrgency (h : AnimAlive t) (c : ConId) : AnimAlive (t.clearUrgency c) :=
  h.congr (by rw [clearUrgency_scrollAnim]) (stirs_clearUrgency t c).allCons

theorem focusHere (h : AnimAlive t) (ht : Rooted t) {c : ConId} (hc : t.Reach c) :
    AnimAlive (t.focusHere cfg c) := by
  have hfocused : Links t (t.setFocused (some c)) := (stirs_setFocused t _).links
  have hanim : AnimAlive (t.setFocused (some c)) := h.congr rfl rfl
  rw [Tree.focusHere]
  split
  · have hl := hfocused.trans (stirs_clearUrgency (t.setFocused (some c)) c).links
    exact (hanim.clearUrgency c).scrollingOnFocus (ht.links hl) (hl.reach.mpr hc)
  · exact hanim.scrollingOnFocus (ht.links hfocused) (hfocused.reach.mpr hc)

/-- Focusing starts scrolls only on containers above the focused one. -/
theorem conFocusN (h : AnimAlive t) (ht : Rooted t) (n : ℕ) {c : ConId} (hc : t.Reach c) :
    AnimAlive (conFocusN cfg n t c) := by
  induction n generalizing t c with
  | zero => exact h
  | succ n ih =>
    rw [Tree.conFocusN]
    split
    · exact h
    · next p hp =>
      have hfront : Links t (t.editFocus p (Queue.toFront c)) := (stirs_toFront t c p).links
      have hanim : AnimAlive (t.editFocus p (Queue.toFront c)) := h.congr rfl rfl
      have hup : Links t (if ((t.editFocus p (Queue.toFront c)).con p).parent.isSome then
          Tree.conFocusN cfg n (t.editFocus p (Queue.toFront c)) p
          else t.editFocus p (Queue.toFront c)) := by
        split
        · exact hfront.trans (stirs_conFocusN cfg _ n p).links
        · exact hfront
      refine focusHere ?_ (ht.links hup) (hup.reach.mpr hc)
      split
      · exact ih hanim (ht.links hfront) (hfront.reach.mpr (ht.reach_parent hc hp))
      · exact hanim

theorem conActivate (h : AnimAlive t) (ht : Rooted t) {c : ConId} (hc : t.Reach c) :
    AnimAlive (t.conActivate cfg c) := by
  have hfocus : AnimAlive (t.conFocus cfg c) := h.conFocusN ht t.nextCon hc
  refine hfocus.congr ?_ (stirs_conRaise _ c).allCons
  rw [Tree.conActivate, conRaise]
  split
  · rfl
  · rw [floatingRaiseCon]
    split <;> rfl

/-! ### Closing -/

theorem conFixPercent_scrollAnim (t : Tree) (c : ConId) :
    (t.conFixPercent c).scrollAnim = t.scrollAnim := by
  have hfold : ∀ (p : Tree → ConId → ℚ) (l : List ConId) (t : Tree),
      (l.foldl (fun t c => t.setPercent c (p t c)) t).scrollAnim = t.scrollAnim := by
    intro p l
    induction l with
    | nil => exact fun t => rfl
    | cons c l ih => exact fun t => ih _
  have hfill : ∀ (n : ℕ) (l : List ConId) (t : Tree) (total : ℚ),
      (percentFill n l t total).1.scrollAnim = t.scrollAnim := by
    intro n l
    induction l with
    | nil => exact fun t total => rfl
    | cons c l ih =>
      intro t total
      rw [percentFill]
      split
      · exact ih _ _
      · exact ih t total
  have hscale : ∀ (nodes : List ConId) (s : Tree × ℚ),
      (percentScale nodes s).scrollAnim = s.1.scrollAnim := by
    rintro nodes ⟨t, total⟩
    rw [percentScale]
    split
    · exact hfold _ nodes t
    · split
      · exact hfold _ nodes t
      · rfl
  rw [conFixPercent]
  split
  · rfl
  · dsimp only
    rw [hscale]
    split
    · exact hfill _ _ t _
    · rfl

theorem closeDetach (h : AnimAlive t) (c : ConId) (dontKillParent : Bool) :
    AnimAlive (t.closeDetach cfg c dontKillParent) := by
  refine h.congr ?_ ?_
  · have htimer : ((t.conDetach c).stopUrgencyTimer c (t.getWorkspace c)).scrollAnim
        = t.scrollAnim := by
      rw [stopUrgencyTimer]
      split
      · rw [modify_scrollAnim, workspaceUpdateUrgentFlag_scrollAnim, conDetach_scrollAnim]
      · exact conDetach_scrollAnim c
    have hrender : ∀ {u : Tree}, u.scrollAnim = t.scrollAnim →
        (if dontKillParent then u else u.treeRender cfg).scrollAnim.con = t.scrollAnim.con := by
      intro u hu
      cases dontKillParent
      · exact congrArg ScrollAnim.con hu
      · exact congrArg ScrollAnim.con hu
    rw [Tree.closeDetach]
    refine hrender ?_
    split
    · exact htimer
    · split
      · exact htimer
      · rw [conFixPercent_scrollAnim, htimer]
  · rw [(links_closeDetach c dontKillParent).allCons, conDetach_allCons]

/-- **Freeing forgets the scroll of a workspace**: nothing refers to the freed container, unless it
is another one that is being scrolled. -/
theorem conFree (h : AnimAlive t) {c : ConId}
    (hc : t.scrollAnim.con = some c → (t.con c).type = .workspace) : AnimAlive (t.conFree c) := by
  by_cases hscroll : t.scrollAnim.con = some c
  · apply of_none
    simp [Tree.conFree, hc hscroll, scrollingForget, hscroll]
  · intro d hd
    have hanim : (t.conFree c).scrollAnim = t.scrollAnim := by
      simp only [Tree.conFree, scrollingForget, if_neg hscroll]
      split <;> rfl
    rw [hanim] at hd
    have hne : d ≠ c := by
      rintro rfl
      exact hscroll hd
    rw [Alive, conFree_allCons]
    exact (List.mem_erase_of_ne hne).mpr (h d hd)

end AnimAlive

end Tree

/-! ### Runs -/

namespace ScrollLife

open I3.Tree

/-- What happens: the calls and timers of the event loop, and the steps of a running call. -/
inductive Event
  /-- `scroll_to_offset` on a scrolling container. -/
  | scroll (con : ConId) (target : ℚ)
  /-- A frame of the animation, at the eased progress `e`. -/
  | tick (e : ℚ)
  /-- The animation completes. -/
  | done
  /-- `tree_close_internal` is called. -/
  | close (con : ConId) (kill : KillWindow) (dontKillParent : Bool)
  /-- The running call takes a step. -/
  | next

variable (cfg : Config)

/-- One event. While a call runs nothing else happens. -/
def step (s : Closing) (e : Event) : Closing :=
  match s.todo, e with
  | _ :: _, .next => s.step cfg
  | _ :: _, _ => s
  | [], .scroll con target => { s with tree := s.tree.scrollToOffset cfg con target }
  | [], .tick e =>
    if s.tree.scrollAnim.animId > 0 then { s with tree := s.tree.scrollStep cfg e } else s
  | [], .done =>
    if s.tree.scrollAnim.animId > 0 then { s with tree := s.tree.scrollDone cfg } else s
  | [], .close con kill dontKillParent => { s with todo := [.close con kill dontKillParent] }
  | [], .next => s

/-- What callers promise: a scrolled container is one of layout `L_SCROLLING`, and a closed one is
below the root. -/
def Calls (s : Closing) : Event → Prop
  | .scroll con _ => s.tree.Alive con ∧ (s.tree.con con).layout = .scrolling
  | .close con _ _ => s.tree.Sits con
  | _ => True

/-- The container that the running call frees next. -/
def freesNext (s : Closing) : Option ConId :=
  match s.todo with
  | .free c :: _ => some c
  | _ => none

/-- The container freed next is a workspace, if it is scrolled. -/
def Forgets (s : Closing) : Event → Prop
  | .next => ∀ c ∈ freesNext s, s.tree.scrollAnim.con = some c → (s.tree.con c).type = .workspace
  | _ => True

instance (s : Closing) : (e : Event) → Decidable (Forgets s e)
  | .next => inferInstanceAs (Decidable (∀ c ∈ freesNext s, _ → _))
  | .scroll .. | .tick _ | .done | .close .. => inferInstanceAs (Decidable True)

/-- A sound stack, and an animation that refers to no dead container. -/
structure Inv (s : Closing) : Prop where
  sound : s.Sound
  anim : AnimAlive s.tree

variable {cfg}

theorem animAlive_step {s : Closing} (h : Inv s) (hforget : Forgets s .next) :
    AnimAlive (s.step cfg).tree := by
  obtain ⟨t, todo, killed⟩ := s
  obtain ⟨⟨ht, htodo⟩, hanim⟩ := h
  match todo with
  | [] => exact hanim
  | .close c kill dontKillParent :: rest =>
    change AnimAlive (if (t.con c).urgent then t.clearUrgency c else t)
    split
    · exact hanim.clearUrgency c
    · exact hanim
  | .child c kill dontKillParent (some d) abortKill :: rest => exact hanim
  | .childClosed c kill dontKillParent next abortKill :: rest => exact hanim
  | .child c kill dontKillParent none abortKill :: rest =>
    rw [Closing.step]
    dsimp only
    split
    · exact hanim
    · exact (hanim.congr rfl rfl : AnimAlive (t.setWindow c none)).closeDetach c dontKillParent
  | .free c :: rest => exact hanim.conFree (hforget c rfl)
  | .activate n :: rest => exact hanim.conActivate ht htodo.1
  | .removeChild c :: rest =>
    change AnimAlive (Closing.removeChild t c rest killed).tree
    rw [Closing.removeChild]
    split
    · exact hanim
    · split
      · split <;> exact hanim
      · have hurgent : AnimAlive ((t.setUrgent c (t.hasUrgentChild c)).updateParentsUrgency c) :=
          hanim.congr (by rw [AnimAlive.updateParentsUrgency_scrollAnim]; rfl)
            ((stirs_setUrgent t c _).trans (stirs_updateParentsUrgency _ c)).allCons
        dsimp only
        split <;> exact hurgent
  | .returnTrue :: rest => exact hanim

/-- Between the calls the tree is only stirred. -/
theorem stirs_step {s : Closing} (hidle : s.todo = []) (e : Event) :
    Stirs s.tree (step cfg s e).tree := by
  obtain ⟨t, todo, killed⟩ := s
  cases hidle
  cases e with
  | scroll con target => exact stirs_scrollToOffset cfg t con target
  | tick e =>
    change Stirs t (if t.scrollAnim.animId > 0 then (⟨t.scrollStep cfg e, [], killed⟩ : Closing)
      else ⟨t, [], killed⟩).tree
    split
    · exact stirs_scrollStep cfg t e
    · exact .refl t
  | done =>
    change Stirs t (if t.scrollAnim.animId > 0 then (⟨t.scrollDone cfg, [], killed⟩ : Closing)
      else ⟨t, [], killed⟩).tree
    split
    · exact stirs_scrollDone cfg t
    · exact .refl t
  | close con kill dontKillParent => exact .refl t
  | next => exact .refl t

theorem animAlive_idle {t : Tree} {killed : Bool} (h : AnimAlive t) {e : Event}
    (hok : Calls ⟨t, [], killed⟩ e) : AnimAlive (step cfg ⟨t, [], killed⟩ e).tree := by
  cases e with
  | scroll con target => exact h.scrollToOffset hok.1 target
  | tick e =>
    change AnimAlive (if t.scrollAnim.animId > 0 then (⟨t.scrollStep cfg e, [], killed⟩ : Closing)
      else ⟨t, [], killed⟩).tree
    split
    · refine h.congr ?_ (stirs_scrollStep cfg t e).allCons
      rw [scrollStep]
      split <;> rfl
    · exact h
  | done =>
    change AnimAlive (if t.scrollAnim.animId > 0 then (⟨t.scrollDone cfg, [], killed⟩ : Closing)
      else ⟨t, [], killed⟩).tree
    split
    · exact .of_none rfl
    · exact h
  | close con kill dontKillParent => exact h
  | next => exact h

/-- **One event**: a call that keeps its promise, during which no scrolled container other than a
workspace is freed. -/
theorem inv_step (s : Closing) (e : Event) (h : Inv s) (hok : Calls s e ∧ Forgets s e) :
    Inv (step cfg s e) := by
  obtain ⟨t, todo, killed⟩ := s
  match todo with
  | a :: rest =>
    cases e with
    | next => exact ⟨h.sound.step, animAlive_step h hok.2⟩
    | _ => exact h
  | [] =>
    refine ⟨⟨h.sound.rooted.links (stirs_step rfl e).links, ?_⟩, animAlive_idle h.anim hok.1⟩
    cases e with
    | close con kill dontKillParent =>
      refine ⟨hok.1, ?_⟩
      cases dontKillParent
      · exact under_false.mpr (by simp)
      · trivial
    | tick e =>
      change TodoOk _ (if t.scrollAnim.animId > 0 then (⟨t.scrollStep cfg e, [], killed⟩ : Closing)
        else ⟨t, [], killed⟩).todo
      split <;> trivial
    | done =>
      change TodoOk _ (if t.scrollAnim.animId > 0 then (⟨t.scrollDone cfg, [], killed⟩ : Closing)
        else ⟨t, [], killed⟩).todo
      split <;> trivial
    | _ => trivial

/-- **The animation refers to no dead container**: in every state of a run of scrolls, frames,
completions and calls for closing in which no container other than a workspace is freed while it is
being scrolled, `scroll_anim.con` is `NULL` or in `all_cons`. -/
theorem animAlive_of_forgets (cfg : Config) (t : Tree) (ht : Rooted t) (hanim : AnimAlive t)
    (es : List Event)
    (hok : Runs.Meets (step cfg) (fun s e => Calls s e ∧ Forgets s e) ⟨t, [], true⟩ es) :
    AnimAlive (Runs.after (step cfg) ⟨t, [], true⟩ es).tree := by
  have hstart : Inv ⟨t, [], true⟩ := ⟨⟨ht, trivial⟩, hanim⟩
  exact (Runs.invariant inv_step hstart hok).anim

/-- A workspace with a window, which has the focus, beside a scrolling split container with one
column. -/
def scrollingSplit : Tree := ofList [
  { type := .root, nodesHead := [1], focusHead := [1] },
  { type := .output, layout := .output, parent := some 0, nodesHead := [2], focusHead := [2] },
  { layout := .splith, parent := some 1, nodesHead := [3], focusHead := [3] },
  { type := .workspace, layout := .splith, name := "1", fullscreenMode := .output, parent := some 2,
    nodesHead := [4, 6], focusHead := [6, 4] },
  { layout := .scrolling, parent := some 3, percent := 1 / 2, nodesHead := [5], focusHead := [5] },
  { layout := .splith, parent := some 4, percent := 1, window := some { id := 5 } },
  { layout := .splith, parent := some 3, percent := 1 / 2, window := some { id := 6 } }] (some 6)

theorem rooted_scrollingSplit : Rooted scrollingSplit :=
  rooted_ofList (by decide +kernel) (by decide +kernel)

theorem sits_scrollingSplit : scrollingSplit.Sits 5 := by
  have ht := rooted_scrollingSplit
  have h₁ := ht.sits_of_mem (reach_croot : scrollingSplit.Reach 0) (c := 1) (by decide +kernel)
  have h₂ := ht.sits_of_mem h₁.1 (c := 2) (by decide +kernel)
  have h₃ := ht.sits_of_mem h₂.1 (c := 3) (by decide +kernel)
  have h₄ := ht.sits_of_mem h₃.1 (c := 4) (by decide +kernel)
  exact ht.sits_of_mem h₄.1 (by decide +kernel)

/-- Steps of a running call promise nothing. -/
theorem meets_next (n : ℕ) (s : Closing) :
    Runs.Meets (step cfg) Calls s (List.replicate n .next) := by
  apply Runs.meets_of_forall
  intro e he s
  obtain rfl := List.eq_of_mem_replicate he
  trivial

/-- The scroll is over before the window closes. -/
theorem animAlive_scrollingSplit :
    AnimAlive (Runs.after (step {}) ⟨scrollingSplit, [], true⟩
      ([.scroll 4 40, .tick (1 / 2), .done, .close 5 .dontKillWindow false]
        ++ List.replicate 12 .next)).tree := by
  refine animAlive_of_forgets {} scrollingSplit rooted_scrollingSplit (AnimAlive.of_none rfl) _ ?_
  refine (Runs.meets_and _ _).mpr ⟨(Runs.meets_append _ _ _).mpr ⟨?_, meets_next 12 _⟩, ?_⟩
  · have hscroll := @stirs_step {} ⟨scrollingSplit, [], true⟩ rfl (.scroll 4 40)
    have htick := hscroll.trans (@stirs_step {} _ (by rfl) (.tick (1 / 2)))
    have hstirs := htick.trans (@stirs_step {} _ (by decide +kernel) .done)
    exact ⟨⟨by decide +kernel, rfl⟩, trivial, trivial,
      hstirs.links.sits.mpr sits_scrollingSplit, trivial⟩
  · decide +kernel

/-- The window of the scrolling split container closes, and with it the container, before the
scroll is over. -/
theorem scroll_dangles :
    ¬ ∀ (cfg : Config) (t : Tree) (es : List Event), Rooted t → AnimAlive t →
      Runs.Meets (step cfg) Calls ⟨t, [], true⟩ es →
        AnimAlive (Runs.after (step cfg) ⟨t, [], true⟩ es).tree := by
  intro h
  have hcalls : Runs.Meets (step {}) Calls ⟨scrollingSplit, [], true⟩
      ([.scroll 4 40, .close 5 .dontKillWindow false] ++ List.replicate 10 .next) := by
    refine (Runs.meets_append _ _ _).mpr ⟨⟨⟨by decide +kernel, rfl⟩, ?_, trivial⟩, meets_next 10 _⟩
    exact (stirs_step (s := ⟨scrollingSplit, [], true⟩) rfl (.scroll 4 40)).links.sits.mpr
      sits_scrollingSplit
  have halive := h {} scrollingSplit _ rooted_scrollingSplit (AnimAlive.of_none rfl) hcalls
  have hdead := halive 4 (by decide +kernel)
  revert hdead
  decide +kernel

end ScrollLife

end I3
