import I3Aiwr.Tree.Fullscreen
import I3Aiwr.Tree.Shown
import I3Aiwr.Tree.Tidy
import I3Aiwr.Tree.TransientFor

/-!
# Windows that stay where they are

Showing workspaces moves windows from container to container, within a sticky group. Everything else moves
containers with their windows, and closes empty ones. When the focus is on a visible workspace,
`output_push_sticky_windows` shows no workspace, and so every window stays in its container.

## Main definitions

* `Tree.Bare`: what has a window has no children
* `Tree.KeepsWindows t t'`: every window stays in its container, and that in the tree
* `Tree.Attended`: the focus is on a visible workspace, and every window is in the tree

## Main results

* `Tree.keepsWindows_onRemoveChild`: closing what is empty
* `Tree.Attended.outputPushStickyWindows`, `Tree.Attended.conToggleFullscreen`
-/

namespace I3

namespace Tree

variable {cfg : Config} {t t' t'' : Tree} {K c d f p q u v w x y : ConId}

/-- What has a window has no children, and is no workspace. -/
structure Bare (t : Tree) : Prop where
  leaf : ∀ p, ∀ c ∈ t.children p, (t.con p).window = none
  workspace : ∀ w, (t.con w).type = .workspace → (t.con w).window = none

/-- Every window stays in its container, and containers with windows stay in the tree. -/
structure KeepsWindows (t t' : Tree) : Prop where
  window : ∀ d, (t'.con d).window = (t.con d).window
  type : ∀ d, (t'.con d).type = (t.con d).type
  listed : t'.allCons ⊆ t.allCons
  holder : ∀ id, t'.conByWindowId id = t.conByWindowId id
  reach : ∀ d, (t.con d).window ≠ none → t.Reach d → t'.Reach d

theorem conByWindowId_congr (hwindow : ∀ d, (t'.con d).window = (t.con d).window)
    (hall : t'.allCons = t.allCons) (id : ℕ) : t'.conByWindowId id = t.conByWindowId id := by
  rw [conByWindowId, conByWindowId, hall]
  congr 1
  ext1 d
  rw [hwindow]

/-- What is freed has no window. -/
theorem conByWindowId_conFree (hc : (t.con c).window = none) (id : ℕ) :
    (t.conFree c).conByWindowId id = t.conByWindowId id := by
  rw [conByWindowId, conByWindowId, conFree_con, conFree_allCons]
  induction t.allCons with
  | nil => rfl
  | cons a l ih =>
    by_cases ha : a = c
    · subst ha
      rw [List.erase_cons_head, List.find?_cons_of_neg]
      simp [hc]
    · rw [List.erase_cons_tail (by simpa using ha), List.find?_cons, List.find?_cons, ih]

theorem bare_ofList {l : List Con} {focused : Option ConId}
    (hl : ∀ p < l.length, (ofList l focused).children p ≠ [] ∨ ((ofList l focused).con p).type = .workspace →
      ((ofList l focused).con p).window = none) : Bare (ofList l focused) := by
  have hall : ∀ p, (ofList l focused).children p ≠ [] ∨ ((ofList l focused).con p).type = .workspace →
      ((ofList l focused).con p).window = none := by
    intro p hp
    by_cases hlt : p < l.length
    · exact hl p hlt hp
    · rw [ofList_con hlt]
  exact ⟨fun p c hc => hall p (.inl (List.ne_nil_of_mem hc)), fun w hw => hall w (.inr hw)⟩

namespace KeepsWindows

theorem of_links (hl : Links t t') (hwindow : ∀ d, (t'.con d).window = (t.con d).window) :
    KeepsWindows t t' where
  window := hwindow
  type := hl.type
  listed := hl.allCons ▸ List.Subset.refl _
  holder := conByWindowId_congr hwindow hl.allCons
  reach _ _ := hl.reach.mpr

theorem of_stirs (hs : Stirs t t') : KeepsWindows t t' := of_links hs.links hs.window

@[refl] theorem refl (t : Tree) : KeepsWindows t t := of_stirs (.refl t)

theorem trans (h : KeepsWindows t t') (h' : KeepsWindows t' t'') : KeepsWindows t t'' where
  window d := (h'.window d).trans (h.window d)
  type d := (h'.type d).trans (h.type d)
  listed := List.Subset.trans h'.listed h.listed
  holder id := (h'.holder id).trans (h.holder id)
  reach d hd hr := h'.reach d (by rwa [h.window]) (h.reach d hd hr)

/-- What has children has no window, if it has them before or is a workspace. -/
theorem bare (h : KeepsWindows t t') (hb : Bare t)
    (hsub : ∀ q, ∀ x ∈ t'.children q, x ∈ t.children q ∨ (t.con q).type = .workspace) : Bare t' where
  leaf q x hx := by
    rw [h.window]
    exact (hsub q x hx).elim (hb.leaf q x) (hb.workspace q)
  workspace w hw := by
    rw [h.window]
    exact hb.workspace w ((h.type w).symm.trans hw)

end KeepsWindows

end Tree

/-! ### Closing -/

namespace Closing

open I3.Tree

variable {cfg : Config} {D Up : ConId → Prop} {t₀ : Tree} {s : Closing}

/-- In the middle of closing containers without windows. -/
structure Windowless (t₀ : Tree) (s : Closing) : Prop where
  window : ∀ d, (s.tree.con d).window = (t₀.con d).window
  type : ∀ d, (s.tree.con d).type = (t₀.con d).type
  listed : s.tree.allCons ⊆ t₀.allCons
  holder : ∀ id, s.tree.conByWindowId id = t₀.conByWindowId id
  free : ∀ c, .free c ∈ s.todo → (t₀.con c).window = none

/-- The tree changes nothing about windows. -/
theorem Windowless.of_keeps {s s' : Closing} (h : Windowless t₀ s) (hk : KeepsWindows s.tree s'.tree)
    (hfree : ∀ c, .free c ∈ s'.todo → .free c ∈ s.todo ∨ (t₀.con c).window = none) : Windowless t₀ s' where
  window d := (hk.window d).trans (h.window d)
  type d := (hk.type d).trans (h.type d)
  listed := List.Subset.trans hk.listed h.listed
  holder id := (hk.holder id).trans (h.holder id)
  free c hc := (hfree c hc).elim (h.free c) id

theorem windowless_finish {t : Tree} {c : ConId} {kill : KillWindow} {dontKillParent abortKill : Bool}
    {rest : List CloseAction} {killed : Bool}
    (h : Windowless t₀ ⟨t, .child c kill dontKillParent none abortKill :: rest, killed⟩)
    (hc : (t₀.con c).window = none) : Windowless t₀ (finish cfg t c dontKillParent rest killed) := by
  have hwindow : ∀ d, ((t.setWindow c none).con d).window = (t.con d).window := by
    intro d
    rw [setWindow, modify_con]
    split
    · next hd => rw [hd, h.window, hc]
    · rfl
  have halters := @alters_closeDetach_window cfg (t.setWindow c none) c dontKillParent
  have hwindow' : ∀ d, (((t.setWindow c none).closeDetach cfg c dontKillParent).con d).window
      = (t.con d).window := fun d => (halters.window d not_false).trans (hwindow d)
  have hall := @closeDetach_allCons cfg (t.setWindow c none) c dontKillParent
  refine ⟨fun d => (hwindow' d).trans (h.window d), fun d => ?_, ?_, fun id => ?_, fun d hd => ?_⟩
  · exact ((halters.type d).trans ((links_setWindow t c none).type d)).trans (h.type d)
  · exact hall ▸ h.listed
  · exact (conByWindowId_congr hwindow' hall id).trans (h.holder id)
  · -- the container is to be freed, and others as before
    simp only [finish, List.mem_cons, List.mem_append, Option.mem_toList, Option.map_eq_some_iff] at hd
    rcases hd with hd | (⟨n, -, hn⟩ | ⟨p, -, hp⟩) | hd | hd
    · cases hd
      exact hc
    · cases hn
    · cases hp
    · cases hd
    · exact h.free d (List.mem_cons_of_mem _ hd)

theorem windowless_removeChild {t : Tree} {c : ConId} {rest : List CloseAction} {killed : Bool}
    (h : Windowless t₀ ⟨t, .removeChild c :: rest, killed⟩) : Windowless t₀ (removeChild t c rest killed) := by
  have hrest : ∀ d, .free d ∈ rest →
      CloseAction.free d ∈ CloseAction.removeChild c :: rest ∨ (t₀.con d).window = none :=
    fun d hd => .inl (List.mem_cons_of_mem _ hd)
  have hclose : ∀ d, CloseAction.free d ∈ CloseAction.close c .dontKillWindow false :: rest →
      CloseAction.free d ∈ CloseAction.removeChild c :: rest ∨ (t₀.con d).window = none :=
    fun d hd => hrest d ((List.mem_cons.mp hd).resolve_left nofun)
  unfold removeChild
  split
  · exact h.of_keeps (.refl t) hrest
  · split
    · split
      · exact h.of_keeps (.refl t) hclose
      · exact h.of_keeps (.refl t) hrest
    · have hs := (stirs_setUrgent t c (t.hasUrgentChild c)).trans (stirs_updateParentsUrgency _ c)
      dsimp only
      split
      · exact h.of_keeps (.of_stirs hs) hclose
      · exact h.of_keeps (.of_stirs hs) hrest

/-- **A step** that closes only containers without windows. -/
theorem Windowless.step (h : Windowless t₀ s) (hd : Dooming D Up t₀ s)
    (hD : ∀ d, D d → (t₀.con d).window = none) : Windowless t₀ (s.step cfg) := by
  obtain ⟨t, todo, killed⟩ := s
  have hrest : ∀ {a : CloseAction} {rest : List CloseAction} d, .free d ∈ rest →
      .free d ∈ a :: rest ∨ (t₀.con d).window = none := fun d hd => .inl (List.mem_cons_of_mem _ hd)
  match todo with
  | [] => exact h
  | .close c kill dontKillParent :: rest =>
    refine h.of_keeps (.of_stirs ?_) fun d hd => hrest d ((List.mem_cons.mp hd).resolve_left nofun)
    dsimp only [Closing.step]
    split
    · exact stirs_clearUrgency t c
    · exact .refl t
  | .child c kill dontKillParent (some e) abortKill :: rest =>
    refine h.of_keeps (.refl t) fun d hd => hrest d ?_
    exact (List.mem_cons.mp ((List.mem_cons.mp hd).resolve_left nofun)).resolve_left nofun
  | .childClosed c kill dontKillParent next abortKill :: rest =>
    exact h.of_keeps (.refl t) fun d hd => hrest d ((List.mem_cons.mp hd).resolve_left nofun)
  | .child c kill dontKillParent none abortKill :: rest =>
    rw [Closing.step]
    dsimp only
    split
    · exact h.of_keeps (.refl t) hrest
    · exact windowless_finish h (hD c ((List.forall_mem_cons.mp hd.todo).1.1 c (.refl _)))
  | .free c :: rest =>
    have hc : (t.con c).window = none := (h.window c).trans (h.free c List.mem_cons_self)
    refine ⟨fun d => ?_, fun d => ?_, ?_, fun id => ?_, fun d hd => h.free d (List.mem_cons_of_mem _ hd)⟩
    · exact (congrArg Con.window (congrFun (conFree_con c) d)).trans (h.window d)
    · exact (congrArg Con.type (congrFun (conFree_con c) d)).trans (h.type d)
    · dsimp only [Closing.step]
      rw [conFree_allCons]
      exact List.Subset.trans List.erase_subset h.listed
    · exact (conByWindowId_conFree hc id).trans (h.holder id)
  | .activate c :: rest => exact h.of_keeps (.of_stirs (stirs_conActivate cfg t c)) hrest
  | .removeChild c :: rest => exact windowless_removeChild h
  | .returnTrue :: rest => exact h.of_keeps (.refl t) hrest

theorem Windowless.run (h : Windowless t₀ s) (hd : Dooming D Up t₀ s)
    (hD : ∀ d, D d → (t₀.con d).window = none) (hasked : ∀ p, Up p → Stacked t₀)
    (hup : ∀ p, Up p → (∀ x ∈ t₀.children p, D x) → D p) (hstep : ∀ p q, Up p → p ∈ t₀.children q → Up q)
    (n : ℕ) : Windowless t₀ (s.run cfg n) := by
  induction n generalizing s with
  | zero => exact h
  | succ n ih => exact ih (h.step hd hD) (hd.step hasked hup hstep)

end Closing

namespace Tree

variable {cfg : Config} {t t' t'' : Tree} {K c d f p q u v w x y : ConId}

/-- **Asking a container without a window whether it is empty** closes containers without windows only. -/
theorem keepsWindows_onRemoveChild (ht : Healthy t) (hs : Stacked t) (hb : Bare t) (hc : t.Reach c)
    (hwindow : (t.con c).window = none) :
    KeepsWindows t (t.onRemoveChild cfg c) ∧ Bare (t.onRemoveChild cfg c) := by
  -- what may be closed has no windows in it
  let D : ConId → Prop := fun d => ∀ x, Descent.Within t.children d x → (t.con x).window = none
  let Up : ConId → Prop := fun p => (t.con p).window = none
  have hD : ∀ d, D d → (t.con d).window = none := fun d hd => hd d (.refl _)
  have hup : ∀ p, Up p → (∀ x ∈ t.children p, D x) → D p := by
    intro p hp hall x hx
    rcases Descent.within_iff.mp hx with rfl | hbelow
    · exact hp
    · obtain ⟨y, hy, hyx⟩ := Descent.below_iff_head.mp hbelow
      exact hall y hy x hyx
  have hstep : ∀ p q, Up p → p ∈ t.children q → Up q := fun p q _ hq => hb.leaf q p hq
  have hstart : Closing.Dooming D Up t ⟨t, [.removeChild c], true⟩ :=
    ⟨⟨ht.rooted, hc, by simp⟩, ht.layered, id, .refl t, List.forall_mem_singleton.mpr hwindow⟩
  have hdoomed : Closing.Dooming D Up t (Closing.run cfg t.closeSteps ⟨t, [.removeChild c], true⟩) :=
    hstart.run (fun _ _ => hs) hup hstep t.closeSteps
  have hless : Closing.Windowless t ⟨t, [.removeChild c], true⟩ :=
    ⟨fun _ => rfl, fun _ => rfl, List.Subset.refl _, fun _ => rfl, fun d hd => by simp at hd⟩
  have hrun : Closing.Windowless t (Closing.run cfg t.closeSteps ⟨t, [.removeChild c], true⟩) :=
    hless.run hstart hD (fun _ _ => hs) hup hstep t.closeSteps
  have hstays : KeepsWindows t (t.onRemoveChild cfg c) := by
    refine ⟨hrun.window, hrun.type, hrun.listed, hrun.holder, fun d hd hr => ?_⟩
    rw [Reach, (calm_onRemoveChild ht c).croot]
    exact hdoomed.keeps.within (fun e he hed => hd (he d hed)) hr
  exact ⟨hstays, hstays.bare hb fun q x hx => .inl (hdoomed.keeps.subset q hx)⟩

/-! ### Flags -/

/-- The trees are the same but for fullscreen modes and sticky flags. -/
structure Reflags (t t' : Tree) : Prop where
  con : ∀ x, ∃ mode sticky, t'.con x = { t.con x with fullscreenMode := mode, sticky := sticky }
  allCons : t'.allCons = t.allCons
  croot : t'.croot = t.croot
  nextCon : t'.nextCon = t.nextCon
  focused : t'.focused = t.focused

namespace Reflags

@[refl] theorem refl (t : Tree) : Reflags t t := ⟨fun _ => ⟨_, _, rfl⟩, rfl, rfl, rfl, rfl⟩

/-- One container changes. -/
theorem of_modify (t : Tree) (c : ConId) {f : Con → Con}
    (hf : ∃ mode sticky, f (t.con c) = { t.con c with fullscreenMode := mode, sticky := sticky }) :
    Reflags t (t.modify c f) := by
  refine ⟨fun x => ?_, rfl, rfl, rfl, rfl⟩
  by_cases hx : x = c
  · subst hx
    rwa [modify_con_self]
  · rw [modify_con_of_ne _ _ hx]
    exact ⟨_, _, rfl⟩

section Fields

variable (h : Reflags t t')
include h

theorem type (x : ConId) : (t'.con x).type = (t.con x).type := by
  obtain ⟨mode, sticky, hx⟩ := h.con x
  rw [hx]

theorem parent (x : ConId) : (t'.con x).parent = (t.con x).parent := by
  obtain ⟨mode, sticky, hx⟩ := h.con x
  rw [hx]

theorem window (x : ConId) : (t'.con x).window = (t.con x).window := by
  obtain ⟨mode, sticky, hx⟩ := h.con x
  rw [hx]

theorem nodesHead (x : ConId) : (t'.con x).nodesHead = (t.con x).nodesHead := by
  obtain ⟨mode, sticky, hx⟩ := h.con x
  rw [hx]

theorem floatingHead (x : ConId) : (t'.con x).floatingHead = (t.con x).floatingHead := by
  obtain ⟨mode, sticky, hx⟩ := h.con x
  rw [hx]

theorem focusHead (x : ConId) : (t'.con x).focusHead = (t.con x).focusHead := by
  obtain ⟨mode, sticky, hx⟩ := h.con x
  rw [hx]

theorem children : t'.children = t.children := by
  ext1 x
  rw [Tree.children, Tree.children, h.nodesHead, h.floatingHead]

theorem reach : t'.Reach x ↔ t.Reach x := by rw [Reach, Reach, h.children, h.croot]

theorem rooted (ht : Rooted t) : Rooted t' where
  typeRoot := by rw [h.croot, h.type, ht.typeRoot]
  parentRoot := by rw [h.croot, h.parent, ht.parentRoot]
  parent p c hc := by rw [h.parent, ht.parent p c (h.children ▸ hc)]
  acyclic := h.children ▸ ht.acyclic
  nodupNodes p := by rw [h.nodesHead]; exact ht.nodupNodes p
  nodupFloating p := by rw [h.floatingHead]; exact ht.nodupFloating p
  nodupFocus p := by rw [h.focusHead]; exact ht.nodupFocus p
  typeNodes p c hc := by rw [h.type]; exact ht.typeNodes p c (h.nodesHead p ▸ hc)
  typeFloating p c hc := by rw [h.type]; exact ht.typeFloating p c (h.floatingHead p ▸ hc)
  focus p c hc := by rw [h.children]; exact ht.focus p c (h.focusHead p ▸ hc)
  bounded p c hc := by rw [h.nextCon]; exact ht.bounded p c (h.children ▸ hc)
  boundedRoot := by rw [h.croot, h.nextCon]; exact ht.boundedRoot
  alive c hc := by rw [Alive, h.allCons]; exact ht.alive c (h.reach.mp hc)

theorem layered (ht : Layered t) : Layered t' where
  workspace w hw x hx := by
    rw [h.type] at hw ⊢
    exact ht.workspace w hw x (h.children ▸ hx)
  floating p c hc := by
    rw [h.type]
    exact ht.floating p c (h.floatingHead p ▸ hc)

theorem keepsWindows : KeepsWindows t t' where
  window := h.window
  type := h.type
  listed := h.allCons ▸ List.Subset.refl _
  holder := conByWindowId_congr h.window h.allCons
  reach _ _ := h.reach.mpr

/-- What is held is held if the fullscreen modes are the same. -/
theorem held (hheld : Held t K w x)
    (hmode : ∀ y, (t'.con y).fullscreenMode = (t.con y).fullscreenMode) : Held t' K w x where
  healthy := by
    refine ⟨h.rooted hheld.healthy.rooted, h.layered hheld.healthy.layered, fun v hv hvw => ?_⟩
    rw [h.type, h.croot] at hvw
    rw [hmode]
    exact hheld.healthy.global v (h.nextCon ▸ hv) hvw
  stacked q y hy := by
    rw [h.focusHead]
    exact hheld.stacked q (h.children ▸ hy)
  workspace := (h.type w).trans hheld.workspace
  reach := h.reach.mpr hheld.reach
  mem := by
    rw [h.children]
    exact hheld.mem
  sole y hy hne := by
    rw [hmode]
    exact hheld.sole y (h.children ▸ hy) hne
  within := by
    rw [h.children]
    exact hheld.within

end Fields

end Reflags

theorem reflags_setFullscreenMode (t : Tree) (c : ConId) (mode : FullscreenMode) :
    Reflags t (t.setFullscreenMode c mode) := .of_modify t c ⟨mode, _, rfl⟩

theorem reflags_conDisableFullscreen (t : Tree) (c : ConId) : Reflags t (t.conDisableFullscreen c) := by
  unfold conDisableFullscreen
  split
  · exact .refl t
  · split
    · exact .refl t
    · exact reflags_setFullscreenMode t c .none

/-! ### Moving a floating container -/

theorem moveReattach_window (hc : (t.con c).type = .floatingCon) (anchor : Option ConId)
    (behindFocused fixPercentage : Bool) (d : ConId) :
    ((t.moveReattach cfg c p anchor behindFocused fixPercentage).con d).window = (t.con d).window := by
  let Any : ConId → Prop := fun _ => True
  let None : ConId → Prop := fun _ => False
  have hfix : ∀ (u : Tree) (q : ConId), Alters Any None Any u (u.conFixPercent q) := fun u q =>
    .conFixPercent (.inr fun _ _ => trivial)
  have hparent : ∀ d, (((t.conDetach c).setParent c p).con d).window = (t.con d).window := by
    intro d
    have hdetach : Alters Any None Any t (t.conDetach c) := .conDetach fun _ _ => trivial
    rw [setParent, modify_con, ← hdetach.window d not_false]
    split <;> rfl
  have hattach : ∀ d, (((t.conDetach c).conAttachAt cfg c p (if behindFocused then none else anchor)
      (!behindFocused)).con d).window = (t.con d).window := by
    intro d
    have htype : ((t.conDetach c).con c).type = .floatingCon := (conDetach_type c c).trans hc
    rw [conAttachAt, if_neg fun hfollows => hfollows.2.2.1 htype, attachPlain, ← hparent d]
    have hlist : Alters Any None Any ((t.conDetach c).setParent c p)
        (((t.conDetach c).setParent c p).editFloating p (· ++ [c])) := .editFloating p _
    dsimp only
    rw [setParent_type, htype, if_neg (by rintro ⟨⟩), if_pos rfl]
    refine Eq.trans ((Alters.editFocus (N := Any) (R := None) (Q := Any) p _).window d not_false) ?_
    split_ifs
    · exact (Alters.editNodes (N := Any) (R := None) (Q := Any) trivial _).window d not_false
    · exact hlist.window d not_false
  rw [moveReattach]
  generalize (t.conDetach c).conAttachAt cfg c p (if behindFocused then none else anchor)
    (!behindFocused) = u at hattach ⊢
  have hold : ∀ {v : Tree}, Alters Any None Any u v →
      ((if fixPercentage then (v.setPercent c 0).conFixPercent p else u).con d).window = (t.con d).window := by
    intro v hv
    split
    · exact (((hv.trans (.setPercent trivial 0)).trans (hfix _ p)).window d not_false).trans (hattach d)
    · exact hattach d
  refine hold ?_
  split
  · exact .refl u
  · exact hfix u _

theorem reflags_moveFullscreen (t : Tree) (c w : ConId) : Reflags t (t.moveFullscreen c w).1 := by
  unfold moveFullscreen
  split
  · exact .refl t
  · split
    · exact reflags_conDisableFullscreen t _
    · exact .refl t

/-- The end of a move closes the old workspace, if anything. -/
theorem keepsWindows_moveEnd (ht : Healthy t) (hs : Stacked t) (hb : Bare t) (hu : (t.con u).type = .workspace)
    (hreach : t.Reach u) (c : ConId) (urgent : Bool) (sourceWs : Option ConId) :
    KeepsWindows t (t.moveEnd cfg c urgent sourceWs (some u))
      ∧ Bare (t.moveEnd cfg c urgent sourceWs (some u)) := by
  have hurgent := stirs_moveUrgent t c urgent sourceWs
  have hkeeps := KeepsWindows.of_stirs hurgent
  have hl := hurgent.links
  have hbare := hkeeps.bare hb fun q x hx => .inl (hl.mem_children.mp hx)
  have hwindow := (hkeeps.window u).trans (hb.workspace u hu)
  obtain ⟨hclosed, hbare'⟩ := @keepsWindows_onRemoveChild cfg _ u (ht.links hl) (hs.links hl) hbare
    (hl.reach.mpr hreach) hwindow
  exact ⟨hkeeps.trans hclosed, hbare'⟩

section Land

variable (ht : Healthy t) (hc : t.Reach c) (hfloat : (t.con c).type = .floatingCon)
  (hw : (t.con w).type = .workspace) (hreach : t.Reach w)
include ht hc hfloat hw hreach

/-- **A floating container lands** on a workspace with all its windows. -/
theorem keepsWindows_movedOver (anchor : ConId) (fixCoordinates fixPercentage : Bool) :
    KeepsWindows t (t.movedOver cfg c w w anchor fixCoordinates fixPercentage) := by
  have hmoved := @relocates_movedOver cfg t c w ht hc hfloat hw anchor fixCoordinates fixPercentage
  have hfix := (stirs_moveFixCoordinates t c (t.getOutput w) fixCoordinates).links
  have hfixed := (stirs_moveFixCoordinates t c (t.getOutput w) fixCoordinates).window
  have hmode := reflags_moveFullscreen (t.moveFixCoordinates c (t.getOutput w) fixCoordinates) c w
  have htype := fun d => (hmode.type d).trans (hfix.type d)
  have hwindow : ∀ d, ((t.movedOver cfg c w w anchor fixCoordinates fixPercentage).con d).window
      = (t.con d).window := fun d => by
    rw [movedOver, moveReattach_window ((htype c).trans hfloat), hmode.window, hfixed]
  have hall : (t.movedOver cfg c w w anchor fixCoordinates fixPercentage).allCons = t.allCons := by
    rw [movedOver, (attaches_moveReattach ((htype c).trans hfloat) (by simp [htype, hw]) _ _ _).allCons,
      conDetach_allCons, hmode.allCons, hfix.allCons]
  refine ⟨hwindow, hmoved.type, hall ▸ List.Subset.refl _, conByWindowId_congr hwindow hall, fun d _ hd => ?_⟩
  by_cases hcd : Descent.Within t.children c d
  · -- it comes along, below the container
    have hcw : ¬ Descent.Within t.children c w := fun h => by
      obtain ⟨u, -, hutype, -, hmem⟩ := ht.floating_parent hc hfloat
      exact ht.layered.workspace u hutype w ((Descent.Below.single hmem).trans_within h) hw
    have hdown : Descent.Within (t.movedOver cfg c w w anchor fixCoordinates fixPercentage).children c d := by
      refine hcd.transfer fun q y hcq hy _ => hmoved.mem_children.mpr (.inl ⟨hy, ?_⟩)
      rintro rfl
      exact ht.rooted.acyclic.not_within (.single hy) hcq
    have hland := hmoved.mem_children.mpr (.inr ⟨rfl, rfl⟩)
    exact (hmoved.reach_of ht hreach hcw).trans ((Descent.Below.single hland).trans_within hdown).within
  · exact hmoved.reach_of ht hd hcd

omit hw in
/-- **Moving a floating container with the focus ignored** moves it with all its windows. -/
theorem keepsWindows_moveToWorkspaceWith {showWorkspace : Tree → ConId → Tree} (hs : Stacked t) (hb : Bare t)
    (fixCoordinates : Bool) :
    KeepsWindows t (t.moveToWorkspaceWith cfg showWorkspace c w fixCoordinates true)
      ∧ Bare (t.moveToWorkspaceWith cfg showWorkspace c w fixCoordinates true) := by
  rcases @moveToWorkspaceWith_ignoring cfg t c showWorkspace ht hc hfloat w hreach fixCoordinates
    with heq | ⟨htarget, hget, heq⟩
  · rw [heq]
    exact ⟨.refl t, hb⟩
  · obtain ⟨hw, -⟩ := ht.rooted.getWorkspace_spec htarget hget
    rw [heq]
    rcases @moveCon_ignoring cfg t c w showWorkspace _ ht hfloat htarget hget fixCoordinates true
      with heq | ⟨anchor, heq⟩
    · rw [heq]
      exact ⟨.refl t, hb⟩
    · obtain ⟨u, hu, hutype, hureach, hmem⟩ := ht.floating_parent hc hfloat
      have hmoved := @relocates_movedOver cfg t c w ht hc hfloat hw anchor fixCoordinates true
      have hland := @keepsWindows_movedOver cfg t c w ht hc hfloat hw hreach anchor fixCoordinates true
      rw [heq, hu]
      generalize t.movedOver cfg c w w anchor fixCoordinates true = s at hmoved hland ⊢
      have hutype' := (hmoved.type u).trans hutype
      have hureach' := hmoved.reach_of ht hureach (ht.rooted.acyclic.not_within (.single hmem))
      -- only the new workspace has more children than before
      have hbare : Bare s := hland.bare hb fun q x hx => by
        rcases hmoved.mem_children.mp hx with ⟨hx, -⟩ | ⟨rfl, -⟩
        · exact .inl hx
        · exact .inr hw
      obtain ⟨hend, hbare'⟩ := @keepsWindows_moveEnd cfg s u hmoved.healthy (hmoved.stacked hs) hbare hutype'
        hureach' c (t.con c).urgent (t.getWorkspace c)
      exact ⟨hland.trans hend, hbare'⟩

omit hw in
/-- The focus stays on a workspace that the container was not on. -/
theorem Held.focused_moveToWorkspaceWith {showWorkspace : Tree → ConId → Tree} (h : Held t K v f)
    (hf : t.focused = some f) (hcv : c ∉ t.children v) (fixCoordinates : Bool) :
    (t.moveToWorkspaceWith cfg showWorkspace c w fixCoordinates true).focused = some f := by
  rcases @moveToWorkspaceWith_ignoring cfg t c showWorkspace ht hc hfloat w hreach fixCoordinates
    with heq | ⟨htarget, hget, heq⟩
  · rw [heq, hf]
  · obtain ⟨hw, -⟩ := ht.rooted.getWorkspace_spec htarget hget
    rw [heq]
    rcases @moveCon_ignoring cfg t c w showWorkspace _ ht hfloat htarget hget fixCoordinates true
      with heq | ⟨anchor, heq⟩
    · rw [heq, hf]
    · obtain ⟨u, hu, hutype, hureach, hmem⟩ := ht.floating_parent hc hfloat
      have huv : u ≠ v := by
        rintro rfl
        exact hcv hmem
      have hmoved := @relocates_movedOver cfg t c w ht hc hfloat hw anchor fixCoordinates true
      rw [heq, hu]
      generalize t.movedOver cfg c w w anchor fixCoordinates true = s at hmoved ⊢
      have hheld : Held s K v f := hmoved.held ht h hw fun hcf =>
        h.not_within hutype huv ((Descent.Below.single hmem).trans_within hcf).within
      have hureach' := hmoved.reach_of ht hureach (ht.rooted.acyclic.not_within (.single hmem))
      have hurgent := (stirs_moveUrgent s c (t.con c).urgent (t.getWorkspace c)).links
      have hsame := sameFocus_moveUrgent s c (t.con c).urgent (t.getWorkspace c)
      have hutype' := (hurgent.type u).trans ((hmoved.type u).trans hutype)
      apply (hheld.links hurgent).focused_onRemoveChild hutype' huv (hurgent.reach.mpr hureach')
      rw [hsame.focused, hmoved.focused, hf]

end Land

/-! ### The focus on a visible workspace -/

/-- The tree between two events: the focus is on a visible workspace, and what has a window is in the tree
and has no children. -/
structure Attended (t : Tree) : Prop where
  bare : Bare t
  listed : ∀ c ∈ t.allCons, (t.con c).window ≠ none → t.Reach c
  focus : ∃ K w f, t.focused = some f ∧ Held t K w f

namespace Attended

/-- A change that keeps windows, and the focus on a visible workspace. -/
theorem of_keeps (h : Attended t) (hk : KeepsWindows t t') (hb : Bare t')
    (hf : t'.focused = some f) (hheld : Held t' K w f) : Attended t' where
  bare := hb
  listed c hc hwindow := by
    rw [hk.window] at hwindow
    exact hk.reach c hwindow (h.listed c (hk.listed hc) hwindow)
  focus := ⟨K, w, f, hf, hheld⟩

theorem of_stirs (h : Attended t) (hs : Stirs t t') (hf : t'.focused = t.focused) : Attended t' := by
  obtain ⟨K, w, f, hfocused, hheld⟩ := h.focus
  have hk := KeepsWindows.of_stirs hs
  apply h.of_keeps hk (hk.bare h.bare fun q x hx => .inl (hs.links.mem_children.mp hx))
  · rw [hf, hfocused]
  · exact hheld.links hs.links

theorem reach (h : Attended t) {id : ℕ} (hc : t.conByWindowId id = some c) : t.Reach c := by
  apply h.listed c (List.mem_of_find?_eq_some hc)
  intro hnone
  have hany := List.find?_some hc
  simp [hnone] at hany

/-- **Pushing the sticky windows** leaves every window in its container. -/
theorem outputPushStickyWindows {showWorkspace : Tree → ConId → Tree} (h : Attended t) :
    KeepsWindows t (t.outputPushStickyWindows cfg showWorkspace t.focused)
      ∧ Attended (t.outputPushStickyWindows cfg showWorkspace t.focused) := by
  obtain ⟨K, w, f, hf, hheld⟩ := h.focus
  let S : ConId → ConId → ConId → Prop := fun k v x => k = K ∧ v = w ∧ x = f
  let J : Tree → Prop := fun s => KeepsWindows t s ∧ Bare s
    ∧ ∃ g, s.focused = some g ∧ Descent.Within s.children w g
  have hfocus : ∀ g ∈ t.focused, ∃ k v, S k v g := by
    intro g hg
    rw [hf, Option.mem_some_iff] at hg
    exact ⟨K, w, rfl, rfl, hg.symm⟩
  have hJ : KeepsPushing cfg showWorkspace S J := by
    refine ⟨fun {s c} hS hs => ?_, fun {s c ws} hS hs hc hfloat hws haway => ?_⟩
    · obtain ⟨hk, hb, g, hg, hwithin⟩ := hs
      have hstirs : Stirs s (s.visitFocus cfg c) := stirs_visitFocus s c
      have hks := KeepsWindows.of_stirs hstirs
      refine ⟨hk.trans hks, hks.bare hb fun q x hx => .inl (hstirs.links.mem_children.mp hx), ?_⟩
      -- the focus comes back to the workspace
      have hheld : Held s K w g := { hS.held ⟨rfl, rfl, rfl⟩ with within := hwithin }
      have hvisit := (stirs_conActivate cfg s (s.descendFocused c)).links
      have hback : s.visitFocus cfg c = (s.conActivate cfg (s.descendFocused c)).conActivate cfg
          ((s.conActivate cfg (s.descendFocused c)).descendFocused w) := by
        rw [visitFocus, hg, Option.bind_some, hheld.getWorkspace_eq]
      have hheld' := hheld.links hvisit
      have hdown : Descent.Within (s.conActivate cfg (s.descendFocused c)).children w
          ((s.conActivate cfg (s.descendFocused c)).descendFocused w) :=
        hheld'.healthy.rooted.descendFocusedN_within _ _
      refine ⟨_, ?_, hstirs.links.within.mpr (hvisit.within.mp hdown)⟩
      rw [hback]
      exact hheld'.healthy.rooted.focused_conActivate (Held.sits { hheld' with within := hdown })
    · obtain ⟨hk, hb, g, hg, hwithin⟩ := hs
      have hheld : Held s K w g := { hS.held ⟨rfl, rfl, rfl⟩ with within := hwithin }
      obtain ⟨hmove, hbare⟩ := @keepsWindows_moveToWorkspaceWith cfg s c ws hS.healthy hc hfloat hws
        showWorkspace hS.stacked hb true
      have hcw : c ∉ s.children w := haway K w f ⟨rfl, rfl, rfl⟩
      have hshifts : Shifts s (s.moveToWorkspaceWith cfg showWorkspace c ws true true) c :=
        shifts_moveToWorkspaceWith hS.healthy hc hfloat hS.stacked hws true
      refine ⟨hk.trans hmove, hbare, g, ?_, (hshifts.held hheld hcw).within⟩
      exact hheld.focused_moveToWorkspaceWith hS.healthy hc hfloat hws hg hcw true
  have hS : HeldAll S t := by
    refine ⟨hheld.healthy, hheld.stacked, ?_⟩
    rintro _ _ _ ⟨rfl, rfl, rfl⟩
    exact hheld
  obtain ⟨hS', hk, hb, g, hg, hwithin⟩ := HeldAll.outputPushStickyWindows_keeps hfocus hJ hS
    ⟨.refl t, h.bare, f, hf, hheld.within⟩
  exact ⟨hk, h.of_keeps hk hb hg { hS'.held ⟨rfl, rfl, rfl⟩ with within := hwithin }⟩

/-- A change of flags keeps windows. -/
theorem of_reflags (h : Attended t) (hr : Reflags t t') (hheld : ∀ {K w f}, Held t K w f → Held t' K w f) :
    KeepsWindows t t' ∧ Attended t' := by
  obtain ⟨K, w, f, hf, hfheld⟩ := h.focus
  have hk := hr.keepsWindows
  refine ⟨hk, h.of_keeps hk (hk.bare h.bare fun q x hx => .inl (hr.children ▸ hx)) ?_ (hheld hfheld)⟩
  rw [hr.focused, hf]

theorem conDisableFullscreen (h : Attended t) (c : ConId) :
    KeepsWindows t (t.conDisableFullscreen c) ∧ Attended (t.conDisableFullscreen c) :=
  h.of_reflags (reflags_conDisableFullscreen t c) fun hheld => hheld.conDisableFullscreen c

theorem reflags_disableConflicting (t : Tree) (ws : ConId) : Reflags t (t.disableConflicting ws) := by
  unfold Tree.disableConflicting
  split
  · exact .refl t
  · exact reflags_conDisableFullscreen t _

theorem disableConflicting (h : Attended t) (ws : ConId) :
    KeepsWindows t (t.disableConflicting ws) ∧ Attended (t.disableConflicting ws) := by
  unfold Tree.disableConflicting
  split
  · exact ⟨.refl t, h⟩
  · exact h.conDisableFullscreen _

theorem stirs_enableFocus (t : Tree) (c ws : ConId) : Stirs t (t.enableFocus cfg c ws .output) := by
  have hactivate := stirs_conActivate cfg t c
  unfold Tree.enableFocus
  simp only [reduceCtorEq, false_and, if_false]
  split
  · split
    · exact hactivate
    · exact hactivate.trans (stirs_conActivate cfg _ _)
  · exact hactivate

/-- The focus goes to the container on the workspace `ws`, and back if it was on another one. -/
theorem enableFocus {ws : ConId} (h : Attended t) (hc : t.Sits c) (hcws : Descent.Within t.children ws c) :
    Attended (t.enableFocus cfg c ws .output) := by
  obtain ⟨K, w, f, hf, hheld⟩ := h.focus
  have hactivate := stirs_conActivate cfg t c
  have hfocused : (t.conActivate cfg c).focused = some c := hheld.healthy.rooted.focused_conActivate hc
  have hheld' := hheld.links hactivate.links
  by_cases hw : w = ws
  · subst hw
    have hkeep : t.enableFocus cfg c w .output = t.conActivate cfg c := by
      simp [Tree.enableFocus, hf, hheld.getWorkspace_eq]
    have hk := KeepsWindows.of_stirs hactivate
    have hb := hk.bare h.bare fun q x hx => .inl (hactivate.links.mem_children.mp hx)
    rw [hkeep]
    exact h.of_keeps hk hb hfocused (Held.links { hheld with within := hcws } hactivate.links)
  · have hback : t.enableFocus cfg c ws .output = (t.conActivate cfg c).conActivate cfg f := by
      simp [Tree.enableFocus, hf, hheld.getWorkspace_eq, hw]
    rw [hback]
    apply h.of_stirs (hactivate.trans (stirs_conActivate cfg _ f))
    rw [hheld'.healthy.rooted.focused_conActivate hheld'.sits, hf]

/-- Something on a workspace becomes fullscreen. -/
theorem setFullscreenMode {ws : ConId} (h : Attended t) (hws : (t.con ws).type = .workspace)
    (hbelow : Descent.Below t.children ws c) :
    KeepsWindows t (t.setFullscreenMode c .output) ∧ Attended (t.setFullscreenMode c .output) := by
  refine h.of_reflags (reflags_setFullscreenMode t c .output) fun {K w f} hheld => ?_
  have hr := hheld.healthy.rooted
  refine hheld.of_modes (hheld.healthy.setFullscreenMode fun _ => by simp)
    (fun y => ⟨_, setFullscreenMode_con c .output t y⟩) rfl fun y hy _ hmode => ?_
  have hyc : y ≠ c := by
    rintro rfl
    -- a workspace is not on another one
    have hwsK := Descent.within_parent hr.parent hbelow (hr.parent K y hy)
    exact hheld.healthy.layered.workspace ws hws w (hwsK.tail hheld.mem) hheld.workspace
  rwa [setFullscreenMode_fullscreenMode, if_neg hyc]

/-- **Enabling fullscreen on the output** leaves every window in its container. -/
theorem conEnableFullscreen (h : Attended t) (hc : t.Reach c) :
    KeepsWindows t (t.conEnableFullscreen cfg c .output) ∧ Attended (t.conEnableFullscreen cfg c .output) := by
  unfold Tree.conEnableFullscreen
  split
  · exact ⟨.refl t, h⟩
  · next htype =>
    split
    · exact ⟨.refl t, h⟩
    · split
      · exact ⟨.refl t, h⟩
      · next ws hget =>
        obtain ⟨K, w, f, -, hheld⟩ := h.focus
        obtain ⟨hws, hcws⟩ := hheld.healthy.rooted.getWorkspace_spec hc hget
        have hne : c ≠ ws := by
          rintro rfl
          exact htype hws
        have hbelow := (Descent.within_iff.mp hcws).resolve_left hne
        obtain ⟨q, -, hmem⟩ := Descent.below_iff_exists.mp hbelow
        obtain ⟨hdisabled, hd⟩ := h.disableConflicting ws
        have hflags := reflags_disableConflicting t ws
        have hsits : (t.disableConflicting ws).Sits c := by
          refine ⟨hflags.reach.mpr hc, ?_⟩
          rw [hflags.croot]
          exact hheld.healthy.rooted.ne_croot_of_mem hmem
        have hfocus : Attended ((t.disableConflicting ws).enableFocus cfg c ws .output) :=
          hd.enableFocus hsits (hflags.children ▸ hcws)
        have hstirs := @stirs_enableFocus cfg (t.disableConflicting ws) c ws
        have hbelow' := hbelow.mono fun p x hx => hstirs.links.mem_children.mpr (hflags.children ▸ hx)
        obtain ⟨hset, ha⟩ := hfocus.setFullscreenMode ((hstirs.type ws).trans ((hflags.type ws).trans hws)) hbelow'
        exact ⟨(hdisabled.trans (.of_stirs hstirs)).trans hset, ha⟩

/-- **Toggling fullscreen** leaves every window in its container. -/
theorem conToggleFullscreen (h : Attended t) (hc : t.Reach c) :
    KeepsWindows t (t.conToggleFullscreen cfg c .output) ∧ Attended (t.conToggleFullscreen cfg c .output) := by
  unfold Tree.conToggleFullscreen
  split
  · exact ⟨.refl t, h⟩
  · split
    · exact h.conEnableFullscreen hc
    · exact h.conDisableFullscreen c

end Attended

end Tree

end I3
