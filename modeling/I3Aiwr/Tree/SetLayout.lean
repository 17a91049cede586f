import I3Aiwr.Tree.Wrapped

/-!
# Setting the layout of a workspace

`con_set_layout` of a workspace with tiling children puts them into a new split container, which gets the
layout and becomes the only tiling child of the workspace; the tree is flattened after that.
`scrolling_toggle_layout` leaves the scrolling layout in place, and enters it in this way.

## Main definitions

* `Tree.conSetLayout`, `Tree.scrollingToggleLayout`
* `Tree.Wraps t t' ws layout`: the tiling children of `ws` are in a new container

## Main results

* `Tree.wraps_wrapChildren`: the new container
-/

namespace I3

namespace Tree

section Definitions

variable (cfg : Config) (t : Tree)

def setLastSplitLayout (c : ConId) (lastSplitLayout : Layout) : Tree :=
  t.modify c fun d => { d with lastSplitLayout }

def setWorkspaceLayout (c : ConId) (workspaceLayout : Layout) : Tree :=
  t.modify c fun d => { d with workspaceLayout }

/-- `last_split_layout` is filled in before the layout changes. -/
def fillLastSplit (c : ConId) : Tree :=
  if (t.con c).layout = .splith ∨ (t.con c).layout = .splitv then t.setLastSplitLayout c (t.con c).layout
  else t

/-- The tree in which `set_focus_order` is called: the children have moved. -/
def movedChildren (ws new : ConId) : Tree :=
  (t.con ws).nodesHead.foldl (fun t child => (t.conDetach child).conAttach cfg child new true) t

/-- A new split container for the children of a workspace, not attached yet. -/
def newSplit (ws : ConId) (layout : Layout) : Tree :=
  (((t.conNew cfg none).1.setParent t.nextCon ws).setLayout t.nextCon layout).setLastSplitLayout t.nextCon
    (t.con ws).lastSplitLayout

/-- The children move below the new split container, and that is attached to the workspace. -/
def wrapChildren (ws : ConId) (layout : Layout) : Tree :=
  ((t.newSplit cfg ws layout).moveChildren cfg ws t.nextCon).conAttach cfg t.nextCon ws false

/-- The middle one of three containers, each the only child of the one before, is closed. -/
def closeMiddle (c : ConId) : Tree × ConId :=
  match (t.con c).parent, (t.con c).nodesHead with
  | some parent, [child] =>
    if (t.con c).type ≠ .workspace ∧ (t.con parent).type ≠ .workspace ∧ t.numChildren parent = 1 then
      let t := (t.conDetach child).conAttach cfg child parent true
      ((t.setLastSplitLayout parent (t.con c).lastSplitLayout).treeCloseInternal cfg c .dontKillWindow true,
        parent)
    else (t, c)
  | _, _ => (t, c)

/-- The end of `con_set_layout`: "default" is the last split layout. -/
def assignLayout (c : ConId) (layout : Layout) : Tree :=
  t.setLayout c
    (if layout ≠ .default then layout
     else if (t.con c).lastSplitLayout = .default then .splith else (t.con c).lastSplitLayout)

/-- `con_set_layout`. The layout of a container is that of its parent, but for a workspace. The last
alternative of the source's test for the layouts that get a new container, `L_SCROLLING`, is a constant
other than zero. -/
def conSetLayout (con : ConId) (layout : Layout) : Tree :=
  match if (t.con con).type = .workspace then some con else (t.con con).parent with
  | none => t
  | some c =>
    let t := t.fillLastSplit c
    if (t.con c).type = .workspace then
      if t.numChildren c = 0 then
        let wsLayout := if layout = .stacked ∨ layout = .tabbed ∨ layout = .scrolling then layout else .default
        ((t.setWorkspaceLayout c wsLayout).setLayout c layout).assignLayout c layout
      else
        let t := t.wrapChildren cfg c layout
        t.treeFlatten cfg t.croot
    else
      let (t, c) := t.closeMiddle cfg c
      t.assignLayout c layout

/-- `scrolling_toggle_layout` where the workspace has the scrolling container `sc`. -/
def leaveScrolling (ws sc : ConId) : Tree :=
  (((t.setLayout sc .splith).setScrollOffset sc 0).setWorkspaceLayout ws .default).conFixPercent sc

/-- `scrolling_toggle_layout`. -/
def scrollingToggleLayout (con : ConId) : Tree :=
  match t.getWorkspace con with
  | none => t
  | some ws =>
    (match t.wsFindScrolling ws with
      | some sc => t.leaveScrolling ws sc
      | none => t.conSetLayout cfg ws .scrolling).treeRender cfg

end Definitions

variable {cfg : Config} {t t' s s' s'' : Tree} {c d p q x y ws new : ConId} {layout : Layout}

/-! ### Moving the children -/

/-- The children `l` have moved from `ws` to the end of `new`. -/
structure Moves (s s' : Tree) (ws new : ConId) (l : List ConId) : Prop where
  rooted : Rooted s'
  layered : Layered s'
  reach : s'.Reach ws
  allCons : s'.allCons = s.allCons
  croot : s'.croot = s.croot
  nextCon : s'.nextCon = s.nextCon
  focused : s'.focused = s.focused
  fullscreenMode : ∀ x, (s'.con x).fullscreenMode = (s.con x).fullscreenMode
  alters : Alters (fun x => x = ws ∨ x = new) (· ∈ l) (fun _ => False) s s'
  nodesNew : (s'.con new).nodesHead = (s.con new).nodesHead ++ l
  focusNew : (s'.con new).focusHead = (s.con new).focusHead ++ l
  focusWs : (s'.con ws).focusHead = (s.con ws).focusHead.filter (· ∉ l)
  focusHead : ∀ x, x ≠ ws → x ≠ new → (s'.con x).focusHead = (s.con x).focusHead
  floatingHead : ∀ x, (s'.con x).floatingHead = (s.con x).floatingHead
  parent : ∀ x ∈ l, (s'.con x).parent = some new
  window : ∀ x, (s'.con x).window = (s.con x).window

/-- What the new container is attached to, and what moves into it. -/
structure Movable (s : Tree) (ws new : ConId) : Prop where
  rooted : Rooted s
  layered : Layered s
  reach : s.Reach ws
  type : (s.con ws).type = .workspace
  typeNew : (s.con new).type = .con
  fresh : ∀ q, new ∉ s.children q
  notRoot : new ≠ s.croot

theorem modify_window (t : Tree) (c : ConId) (f : Con → Con) (h : (f (t.con c)).window = (t.con c).window)
    (x : ConId) : ((t.modify c f).con x).window = (t.con x).window := by
  rw [modify_con]
  split
  · next hx => rw [hx, h]
  · rfl

/-- To a split container that is not a workspace a child is attached at the end. -/
theorem conAttach_split (hnew : (s.con new).type = .con) (hd : (s.con d).type ≠ .workspace)
    (hfloating : (s.con d).type ≠ .floatingCon) :
    s.conAttach cfg d new true
      = ((s.setParent d new).editNodes new (· ++ [d])).editFocus new (· ++ [d]) := by
  have hfollows : ¬ s.followsWorkspaceLayout d new := fun h => absurd (hnew.symm.trans h.2.1) nofun
  rw [conAttach, conAttachAt, if_neg hfollows, attachPlain]
  simp [hd, hfloating, hnew]

/-- To a workspace without tiling children a split container is attached at the end. -/
theorem conAttach_workspace (ignoreFocus : Bool) (hws : (s.con ws).type = .workspace)
    (hnew : (s.con new).type = .con) (hwindow : (s.con new).window = none)
    (hfocus : s.focusedTiling ws = none) :
    s.conAttach cfg new ws ignoreFocus
      = ((s.setParent new ws).editNodes ws (· ++ [new])).editFocus ws (· ++ [new]) := by
  have hfollows : ¬ s.followsWorkspaceLayout new ws := fun h => by simpa [hwindow] using h.2.2.2.1
  have hfocus' : (s.setParent new ws).focusedTiling ws = none := by
    simpa [focusedTiling] using hfocus
  rw [conAttach, conAttachAt, if_neg hfollows, attachPlain]
  simp [hws, hnew, hfocus']

namespace Movable

variable (h : Movable s ws new)
include h

theorem ne : ws ≠ new := by
  rintro rfl
  exact absurd (h.type.symm.trans h.typeNew) nofun

/-- **One child moves.** -/
theorem moves_one {l : List ConId} (hl : (s.con ws).nodesHead = d :: l) :
    Moves s ((s.conDetach d).conAttach cfg d new true) ws new [d]
      ∧ (((s.conDetach d).conAttach cfg d new true).con ws).nodesHead = l
      ∧ Movable ((s.conDetach d).conAttach cfg d new true) ws new := by
  have hr := h.rooted
  have hnodes : d ∈ (s.con ws).nodesHead := by simp [hl]
  have hmem : d ∈ s.children ws := List.mem_append_left _ hnodes
  have hparent : (s.con d).parent = some ws := hr.parent ws d hmem
  have hfloating : (s.con d).type ≠ .floatingCon := hr.typeNodes ws d hnodes
  have htype : (s.con d).type ≠ .workspace := h.layered.workspace ws h.type d (.single hmem)
  have hdnew : d ≠ new := fun heq => h.fresh ws (heq ▸ hmem)
  have hdws : d ≠ ws := hr.acyclic.ne (.single hmem)
  have heq := @conAttach_split cfg (s.conDetach d) d new (by rw [conDetach_type, h.typeNew])
    (by rwa [conDetach_type]) (by rwa [conDetach_type])
  have hattach : Attaches (s.conDetach d) ((s.conDetach d).conAttach cfg d new true) d new := by
    rw [heq]
    exact attaches_editNodes _ (by rwa [conDetach_type]) (List.perm_append_singleton d _)
  rw [heq] at hattach ⊢
  obtain ⟨u, hu⟩ : ∃ u, (((s.conDetach d).setParent d new).editNodes new (· ++ [d])).editFocus new (· ++ [d]) = u :=
    ⟨_, rfl⟩
  rw [hu] at hattach ⊢
  have hfresh : ∀ q, new ∉ (s.conDetach d).children q := fun q hq => h.fresh q (conDetach_children_subset d q hq)
  have hnotwithin : ¬ Descent.Within (s.conDetach d).children d new := by
    intro hw
    rcases Descent.within_iff.mp hw with heq | hbelow
    · exact hdnew heq.symm
    · obtain ⟨q, -, hq⟩ := Descent.below_iff_exists.mp hbelow
      exact hfresh q hq
  have halive : ∀ x, Descent.Within (s.conDetach d).children d x → (s.conDetach d).Alive x := fun x hx => by
    rw [Alive, conDetach_allCons]
    exact hr.alive x ((h.reach.tail hmem).trans_within (hx.mono (conDetach_children_subset d))).within
  have hrooted : Rooted u := (hr.conDetach d).attaches hattach (hr.notMem_children_conDetach d) hnotwithin halive
    (by rw [conDetach_nextCon]; exact hr.bounded ws d hmem) (by rw [conDetach_croot]; exact hr.ne_croot_of_mem hmem)
  have hlayered : Layered u := by
    refine (h.layered.conDetach d).attaches hattach hnotwithin (fun w hw hwnew => ?_) fun hf => ?_
    · -- the new container is not below a workspace yet
      rcases Descent.within_iff.mp hwnew with rfl | hbelow
      · rw [conDetach_type, h.typeNew] at hw
        cases hw
      · obtain ⟨q, -, hq⟩ := Descent.below_iff_exists.mp hbelow
        exact absurd hq (hfresh q)
    · rw [conDetach_type] at hf
      exact absurd hf hfloating
  have hnodesHead : ∀ x, (u.con x).nodesHead = if x = new then (s.con new).nodesHead ++ [d]
      else if x = ws then l else (s.con x).nodesHead := by
    intro x
    rw [← hu]
    simp only [editFocus_nodesHead, editNodes_nodesHead, setParent_nodesHead,
      conDetach_nodesHead hparent hfloating]
    by_cases hx : x = new
    · subst hx
      simp [Ne.symm h.ne]
    · by_cases hxws : x = ws
      · subst hxws
        simp [hx, hl]
      · simp [hx, hxws]
  have hfocusHead : ∀ x, (u.con x).focusHead = if x = new then (s.con new).focusHead ++ [d]
      else if x = ws then (s.con ws).focusHead.erase d else (s.con x).focusHead := by
    intro x
    rw [← hu]
    simp only [editFocus_focusHead, editNodes_focusHead, setParent_focusHead, conDetach_focusHead hparent]
    by_cases hx : x = new
    · subst hx
      simp [Ne.symm h.ne]
    · by_cases hxws : x = ws
      · subst hxws
        simp [hx]
      · simp [hx, hxws]
  have hreach : u.Reach ws := by
    rw [Reach, hattach.croot]
    exact hattach.within_mono (hr.reach_conDetach d h.reach (hr.acyclic.not_within (.single hmem)))
  have hfloatingHead : ∀ x, (u.con x).floatingHead = (s.con x).floatingHead := fun x => by
    rw [← hu]
    simp only [editFocus_floatingHead, editNodes_floatingHead, setParent_floatingHead, conDetach_con]
    split
    · simp
    · rfl
  refine ⟨⟨hrooted, hlayered, hreach, by rw [hattach.allCons, conDetach_allCons],
    by rw [hattach.croot, conDetach_croot],
    by rw [hattach.nextCon, conDetach_nextCon], ?_, fun x => by rw [hattach.fullscreenMode, conDetach_fullscreenMode],
    ?_, by rw [hnodesHead, if_pos rfl], by rw [hfocusHead, if_pos rfl], ?_,
    fun x hx hx' => by rw [hfocusHead, if_neg hx', if_neg hx], hfloatingHead, ?_, fun x => ?_⟩, ?_, ?_⟩
  · rw [← hu]
    exact conDetach_focused d
  · rw [← hu]
    refine (((Alters.conDetach fun q hq => .inl (Option.some_inj.mp (hq.symm.trans hparent))).trans
      (.setParent List.mem_cons_self new)).trans (.editNodes (.inr rfl) _)).trans (.editFocus new _)
  · rw [hfocusHead, if_neg h.ne, if_pos rfl, (hr.nodupFocus ws).erase_eq_filter]
    refine List.filter_congr fun x _ => ?_
    by_cases hx : x = d
    · simp [hx]
    · simp [hx]
  · intro x hx
    rw [List.mem_singleton.mp hx, hattach.parent, if_pos rfl]
  · rw [← hu, editFocus, modify_window _ _ _ rfl, editNodes, modify_window _ _ _ rfl, setParent,
      modify_window _ _ _ rfl, conDetach_con]
    split <;> rfl
  · rw [hnodesHead, if_neg h.ne, if_pos rfl]
  · refine ⟨hrooted, hlayered, hreach, by rw [hattach.type, conDetach_type, h.type],
      by rw [hattach.type, conDetach_type, h.typeNew], fun q hq => ?_, by rw [hattach.croot, conDetach_croot]; exact h.notRoot⟩
    rcases hattach.mem_children.mp hq with hq | ⟨-, heq⟩
    · exact hfresh q hq
    · exact hdnew heq.symm

theorem refl : Moves s s ws new [] where
  rooted := h.rooted
  layered := h.layered
  reach := h.reach
  allCons := rfl
  croot := rfl
  nextCon := rfl
  focused := rfl
  fullscreenMode _ := rfl
  alters := .refl s
  nodesNew := (List.append_nil _).symm
  focusNew := (List.append_nil _).symm
  focusWs := by simp
  focusHead _ _ _ := rfl
  floatingHead _ := rfl
  parent := by simp
  window _ := rfl

end Movable

theorem Moves.trans {l l' : List ConId} (h : Moves s s' ws new l) (h' : Moves s' s'' ws new l') :
    Moves s s'' ws new (l ++ l') where
  rooted := h'.rooted
  layered := h'.layered
  reach := h'.reach
  allCons := h'.allCons.trans h.allCons
  croot := h'.croot.trans h.croot
  nextCon := h'.nextCon.trans h.nextCon
  focused := h'.focused.trans h.focused
  fullscreenMode x := (h'.fullscreenMode x).trans (h.fullscreenMode x)
  alters := (h.alters.mono (fun _ hx => hx) (fun _ hx => List.mem_append_left l' hx) fun _ hx => hx).trans
    (h'.alters.mono (fun _ hx => hx) (fun _ hx => List.mem_append_right l hx) fun _ hx => hx)
  nodesNew := by rw [h'.nodesNew, h.nodesNew, List.append_assoc]
  focusNew := by rw [h'.focusNew, h.focusNew, List.append_assoc]
  focusWs := by
    rw [h'.focusWs, h.focusWs, List.filter_filter]
    refine List.filter_congr fun x _ => ?_
    simp only [List.mem_append, not_or, Bool.decide_and, Bool.and_comm]
  focusHead x hx hx' := (h'.focusHead x hx hx').trans (h.focusHead x hx hx')
  floatingHead x := (h'.floatingHead x).trans (h.floatingHead x)
  parent x hx := by
    by_cases hx' : x ∈ l'
    · exact h'.parent x hx'
    · rw [h'.alters.parent x hx', h.parent x ((List.mem_append.mp hx).resolve_right hx')]
  window x := (h'.window x).trans (h.window x)

/-- **All children move**, in their order. -/
theorem Movable.moves_foldl {l : List ConId} (h : Movable s ws new) (hl : (s.con ws).nodesHead = l) :
    Moves s (l.foldl (fun t child => (t.conDetach child).conAttach cfg child new true) s) ws new l
      ∧ ((l.foldl (fun t child => (t.conDetach child).conAttach cfg child new true) s).con ws).nodesHead = []
      ∧ Movable (l.foldl (fun t child => (t.conDetach child).conAttach cfg child new true) s) ws new := by
  induction l generalizing s with
  | nil => exact ⟨h.refl, hl, h⟩
  | cons d l ih =>
    obtain ⟨hone, hrest, hmovable⟩ := @Movable.moves_one cfg _ _ _ _ h _ hl
    obtain ⟨hmoves, hnil, hend⟩ := ih hmovable hrest
    exact ⟨hone.trans hmoves, hnil, hend⟩

/-! ### The new split container -/

/-- The tiling children of `ws` are in a new container with the layout, in their order and with their
focus order, and nothing else has changed. -/
structure Wraps (t t' : Tree) (ws : ConId) (target : Layout) : Prop where
  healthy : Healthy t'
  reach : t'.Reach ws
  croot : t'.croot = t.croot
  focused : t'.focused = t.focused
  type : ∀ x ≠ t.nextCon, (t'.con x).type = (t.con x).type
  layout : ∀ x ≠ t.nextCon, (t'.con x).layout = (t.con x).layout
  floating : ∀ x ≠ t.nextCon, (t'.con x).floating = (t.con x).floating
  window : ∀ x ≠ t.nextCon, (t'.con x).window = (t.con x).window
  percent : ∀ x ≠ t.nextCon, (t'.con x).percent = (t.con x).percent
  typeNew : (t'.con t.nextCon).type = .con
  layoutNew : (t'.con t.nextCon).layout = target
  nodesWs : (t'.con ws).nodesHead = [t.nextCon]
  nodesNew : (t'.con t.nextCon).nodesHead = (t.con ws).nodesHead
  nodesHead : ∀ x ≠ t.nextCon, x ≠ ws → (t'.con x).nodesHead = (t.con x).nodesHead
  floatingHead : ∀ x ≠ t.nextCon, (t'.con x).floatingHead = (t.con x).floatingHead
  focusNew : (t'.con t.nextCon).focusHead = (t.con ws).focusHead.filter (· ∈ (t.con ws).nodesHead)
  focusHead : ∀ x ≠ t.nextCon, x ≠ ws → (t'.con x).focusHead = (t.con x).focusHead
  parent : ∀ x ≠ t.nextCon, x ∉ (t.con ws).nodesHead → (t'.con x).parent = (t.con x).parent

/-- A workspace whose tiling children are plain containers. -/
structure Wrappable (t : Tree) (ws : ConId) : Prop where
  healthy : Healthy t
  stacked : Stacked t
  reach : t.Reach ws
  type : (t.con ws).type = .workspace
  notFloating : t.isFloating ws = false
  plain : ∀ d ∈ (t.con ws).nodesHead, (t.con d).type = .con ∧ t.isFloating d = false

theorem creates_newSplit (t : Tree) (ws : ConId) (layout : Layout) :
    Creates t (t.newSplit cfg ws layout) t.nextCon where
  allCons := rfl
  croot := rfl
  nextCon := rfl
  new := by simp [newSplit, conNew, setLayout, setParent, setLastSplitLayout]
  type d hd := by simp [newSplit, conNew, setLayout, setParent, setLastSplitLayout, hd]
  fullscreenMode d hd := by simp [newSplit, conNew, setLayout, setParent, setLastSplitLayout, hd]
  sticky d hd := by simp [newSplit, conNew, setLayout, setParent, setLastSplitLayout, hd]
  parent d hd _ := by simp [newSplit, conNew, setLayout, setParent, setLastSplitLayout, hd]
  nodesHead d hd := by simp [newSplit, conNew, setLayout, setParent, setLastSplitLayout, hd]
  floatingHead d hd := by simp [newSplit, conNew, setLayout, setParent, setLastSplitLayout, hd]
  focusHead d hd := by simp [newSplit, conNew, setLayout, setParent, setLastSplitLayout, hd]

theorem newSplit_con (t : Tree) (ws : ConId) (layout : Layout) {x : ConId} (hx : x ≠ t.nextCon) :
    (t.newSplit cfg ws layout).con x = t.con x := by
  simp [newSplit, conNew, setLayout, setParent, setLastSplitLayout, hx]

theorem newSplit_con_new (t : Tree) (ws : ConId) (layout : Layout) :
    (t.newSplit cfg ws layout).con t.nextCon
      = { borderStyle := cfg.defaultBorder, parent := some ws, layout := layout
          lastSplitLayout := (t.con ws).lastSplitLayout } := by
  simp [newSplit, conNew, setLayout, setParent, setLastSplitLayout]

/-- `b` has a new split container for the workspace, without children and not attached yet. -/
structure Begins (t b : Tree) (ws : ConId) : Prop where
  creates : Creates t b t.nextCon
  old : ∀ x ≠ t.nextCon, b.con x = t.con x
  type : (b.con t.nextCon).type = .con
  floating : b.isFloating t.nextCon = false
  parent : (b.con t.nextCon).parent = some ws
  window : (b.con t.nextCon).window = none
  nodesHead : (b.con t.nextCon).nodesHead = []
  focusHead : (b.con t.nextCon).focusHead = []

theorem begins_newSplit (t : Tree) (ws : ConId) (layout : Layout) : Begins t (t.newSplit cfg ws layout) ws where
  creates := creates_newSplit t ws layout
  old _ hx := newSplit_con t ws layout hx
  type := by rw [newSplit_con_new]
  floating := by
    rw [isFloating, newSplit_con_new]
    rfl
  parent := by rw [newSplit_con_new]
  window := by rw [newSplit_con_new]
  nodesHead := by rw [newSplit_con_new]
  focusHead := by rw [newSplit_con_new]

section Wrap

variable {b : Tree} (h : Wrappable t ws)
include h

theorem Wrappable.ne : ws ≠ t.nextCon := (h.healthy.rooted.lt_nextCon h.reach).ne

/-- The new container is ready for the children. -/
theorem Wrappable.movable (hb : Begins t b ws) : Movable b ws t.nextCon := by
  have ht := h.healthy.rooted
  have hcreates := hb.creates
  refine ⟨ht.creates hcreates ht.notMem_children_nextCon ht.boundedRoot.ne', h.healthy.layered.creates ht hcreates,
    ?_, by rw [hb.old ws h.ne, h.type], hb.type, fun q hq => ?_, by rw [hcreates.croot]; exact ht.boundedRoot.ne'⟩
  · -- the lists of the old containers are the same
    rw [Reach, hcreates.croot]
    refine Descent.Within.transfer h.reach fun p x hp hx _ => ?_
    have hne : p ≠ t.nextCon := (ht.lt_nextCon hp).ne
    rwa [children, hcreates.nodesHead p hne, hcreates.floatingHead p hne]
  · exact ht.notMem_children_nextCon q (hcreates.children_subset q hq)

/-- The tiling children in the focus order. -/
def tilingOrder (t : Tree) (ws : ConId) : List ConId :=
  (t.con ws).focusHead.filter (· ∈ (t.con ws).nodesHead)

/-- The focus order of the tiling children lists each of them. -/
theorem Wrappable.tilingOrder_perm : (t.tilingOrder ws).Perm (t.con ws).nodesHead := by
  have ht := h.healthy.rooted
  refine (List.perm_ext_iff_of_nodup ((ht.nodupFocus ws).filter _) (ht.nodupNodes ws)).mpr fun d => ?_
  rw [List.mem_filter]
  refine ⟨fun hd => by simpa using hd.2, fun hd => ⟨h.stacked ws (List.mem_append_left _ hd), by simpa using hd⟩⟩

section Moved

variable (hb : Begins t b ws) (hm : Moves b s ws t.nextCon (t.con ws).nodesHead)
include hb hm

/-- Of what is in the focus stack of the workspace, the floating containers are inside one, and the moved
ones are not. -/
theorem Wrappable.insideFloating (hd : d ∈ (t.con ws).focusHead) :
    s.insideFloating d = none ↔ d ∈ (t.con ws).nodesHead := by
  have ht := h.healthy.rooted
  have hsame : ∀ x, x ≠ t.nextCon → (s.con x).type = (t.con x).type ∧ s.isFloating x = t.isFloating x := by
    intro x hx
    rw [hm.alters.type, isFloating, hm.alters.floating, hb.old x hx]
    exact ⟨rfl, rfl⟩
  have hdlt : d ≠ t.nextCon := (ht.bounded ws d (ht.focus ws d hd)).ne
  constructor
  · intro hnone
    refine (List.mem_append.mp (ht.focus ws d hd)).resolve_right fun hfloating => ?_
    -- a floating container is inside itself
    obtain ⟨n, hn⟩ : ∃ n, s.nextCon = n + 1 := ⟨t.nextCon, hm.nextCon.trans hb.creates.nextCon⟩
    rw [Tree.insideFloating, hn, insideFloatingN, if_pos] at hnone
    · cases hnone
    · rw [(hsame d hdlt).1, ht.typeFloating ws d hfloating]
  · intro hnodes
    have hws : ∀ n, s.insideFloatingN n ws = none := by
      intro n
      cases n with
      | zero => rfl
      | succ n =>
        obtain ⟨htype, hfloating⟩ := hsame ws h.ne
        simp [insideFloatingN, htype, h.type, hfloating, h.notFloating]
    have hparentNew : (s.con t.nextCon).parent = some ws := by
      rw [hm.alters.parent, hb.parent]
      exact fun hmem => (ht.bounded ws _ (List.mem_append_left _ hmem)).ne rfl
    have hnew : ∀ n, s.insideFloatingN n t.nextCon = none := by
      intro n
      cases n with
      | zero => rfl
      | succ n =>
        have htype : (s.con t.nextCon).type = .con := by rw [hm.alters.type, hb.type]
        have hfloating : s.isFloating t.nextCon = false := by
          rw [isFloating, hm.alters.floating]
          exact hb.floating
        simp [insideFloatingN, htype, hfloating, hparentNew, hws n]
    rw [Tree.insideFloating]
    cases s.nextCon with
    | zero => rfl
    | succ n =>
      obtain ⟨htype, hfloating⟩ := hsame d hdlt
      obtain ⟨htyped, hfloatingd⟩ := h.plain d hnodes
      simp [insideFloatingN, htype, htyped, hfloating, hfloatingd, hm.parent d hnodes, hnew n]

/-- What is not skipped in the focus order of the workspace. -/
theorem Wrappable.kept_eq : ((t.con ws).focusHead.filter fun d =>
    (s.con t.nextCon).type = .workspace ∨ s.insideFloating d = none) = t.tilingOrder ws := by
  have htype : (s.con t.nextCon).type = .con := by rw [hm.alters.type, hb.type]
  refine List.filter_congr fun d hd => ?_
  simp [htype, h.insideFloating hb hm hd]

/-- **The focus order is restored.** -/
theorem Wrappable.setFocusOrder : (s.setFocusOrder t.nextCon (t.con ws).focusHead)
    = s.editFocus t.nextCon fun _ => t.tilingOrder ws := by
  have hfocus : (s.con t.nextCon).focusHead = (t.con ws).nodesHead := by
    rw [hm.focusNew, hb.focusHead, List.nil_append]
  rw [Tree.setFocusOrder, h.kept_eq hb hm]
  simp only [editFocus, modify, hfocus, List.take_of_length_le h.tilingOrder_perm.length_eq.le]

end Moved

/-- What is left in the focus stack of the workspace floats. -/
theorem Wrappable.focusedTiling (hb : Begins t b ws) (hm : Moves b s ws t.nextCon (t.con ws).nodesHead)
    (hfocus : (s'.con ws).focusHead = (s.con ws).focusHead) (htype : ∀ x, (s'.con x).type = (s.con x).type) :
    s'.focusedTiling ws = none := by
  have ht := h.healthy.rooted
  rw [Tree.focusedTiling, List.find?_eq_none]
  intro d hd
  rw [hfocus, hm.focusWs, hb.old ws h.ne, List.mem_filter] at hd
  have hfloating : d ∈ (t.con ws).floatingHead :=
    (List.mem_append.mp (ht.focus ws d hd.1)).resolve_left (by simpa using hd.2)
  have hlt : d ≠ t.nextCon := (ht.bounded ws d (List.mem_append_right _ hfloating)).ne
  rw [htype, hm.alters.type, hb.old d hlt, ht.typeFloating ws d hfloating]
  simp

/-- The tree in which the focus order is restored. -/
theorem Wrappable.moveChildren (cfg : Config) (hb : Begins t b ws) :
    Moves b (b.movedChildren cfg ws t.nextCon) ws t.nextCon (t.con ws).nodesHead
      ∧ ((b.movedChildren cfg ws t.nextCon).con ws).nodesHead = []
      ∧ Movable (b.movedChildren cfg ws t.nextCon) ws t.nextCon
      ∧ b.moveChildren cfg ws t.nextCon
        = (b.movedChildren cfg ws t.nextCon).editFocus t.nextCon fun _ => t.tilingOrder ws := by
  have hcon : b.con ws = t.con ws := hb.old ws h.ne
  obtain ⟨hm, hempty, hmovable⟩ := @Movable.moves_foldl cfg _ _ _ _ (h.movable hb)
    (by rw [hcon] : _ = (t.con ws).nodesHead)
  rw [← hcon] at hm
  refine ⟨hcon ▸ hm, by rwa [movedChildren, hcon], by rwa [movedChildren, hcon], ?_⟩
  rw [Tree.moveChildren, ← movedChildren, hcon]
  exact h.setFocusOrder hb (hcon ▸ hm)

/-- **The wrapped tree** before the new container is attached. -/
theorem Wrappable.moved (cfg : Config) (hb : Begins t b ws) :
    ∃ s, Moves b s ws t.nextCon (t.con ws).nodesHead ∧ (s.con ws).nodesHead = []
      ∧ Movable s ws t.nextCon ∧ (b.moveChildren cfg ws t.nextCon).conAttach cfg t.nextCon ws false
        = (((s.editFocus t.nextCon fun _ => t.tilingOrder ws).setParent t.nextCon ws).editNodes ws
          (· ++ [t.nextCon])).editFocus ws (· ++ [t.nextCon]) := by
  obtain ⟨hm, hempty, hmovable, hmove⟩ := h.moveChildren cfg hb
  refine ⟨_, hm, hempty, hmovable, ?_⟩
  rw [hmove]
  apply conAttach_workspace
  · simpa [editFocus, h.ne] using hmovable.type
  · simpa [editFocus] using hmovable.typeNew
  · simpa [editFocus, hb.window] using hm.window t.nextCon
  · exact h.focusedTiling hb hm (by rw [editFocus_focusHead, if_neg h.ne]) fun x => by rw [editFocus_type]

/-- What is below a moved child was below it before. -/
theorem Wrappable.within_moved (hb : Begins t b ws) (hm : Moves b s ws t.nextCon (t.con ws).nodesHead)
    (hmovable : Movable s ws t.nextCon) (hempty : (s.con ws).nodesHead = []) (hd : d ∈ (t.con ws).nodesHead)
    (hx : Descent.Within s.children d x) : Descent.Within t.children d x := by
  have hr := hmovable.rooted
  have hdnew : d ∈ s.children t.nextCon := by
    refine List.mem_append_left _ ?_
    rw [hm.nodesNew]
    exact List.mem_append_right _ hd
  refine Descent.Within.transfer hx fun y z hy hz _ => ?_
  have hynew : y ≠ t.nextCon := by
    rintro rfl
    exact hr.acyclic.not_within (.single hdnew) hy
  have hyws : y ≠ ws := by
    -- the workspace is reached, and the new container is not
    rintro rfl
    have hnew := hr.reach_of_within hmovable.reach ((Descent.Below.single hdnew).trans_within hy).within
    obtain ⟨q, -, -, hq⟩ := hr.exists_parent ⟨hnew, hmovable.notRoot⟩
    exact hmovable.fresh q hq
  rw [children, hm.alters.nodesHead y (by simp [hynew, hyws]), hm.floatingHead, hb.old y hynew] at hz
  exact hz

/-- **The new split container** around the tiling children. In the focus stack of the workspace it is
behind the floating containers. -/
theorem Wrappable.wraps (cfg : Config) (hb : Begins t b ws) (hfocused : b.focused = t.focused) :
    Wraps t ((b.moveChildren cfg ws t.nextCon).conAttach cfg t.nextCon ws false) ws (b.con t.nextCon).layout
      ∧ (((b.moveChildren cfg ws t.nextCon).conAttach cfg t.nextCon ws false).con ws).focusHead
        = (t.con ws).focusHead.filter (· ∉ (t.con ws).nodesHead) ++ [t.nextCon] := by
  have ht := h.healthy.rooted
  obtain ⟨s, hm, hempty, hmovable, heq⟩ := h.moved cfg hb
  rw [heq]
  have hr := hmovable.rooted
  have hnot : t.nextCon ∉ (t.con ws).nodesHead := fun hmem => (ht.bounded ws _ (List.mem_append_left _ hmem)).ne rfl
  have hcreates := hb.creates
  obtain ⟨u, hu⟩ : ∃ u, s.editFocus t.nextCon (fun _ => t.tilingOrder ws) = u := ⟨_, rfl⟩
  -- the focus order of the new container is a permutation of its children
  have hperm : (t.tilingOrder ws).Perm (s.con t.nextCon).focusHead := by
    rw [hm.focusNew, hb.focusHead]
    exact h.tilingOrder_perm
  have hstirs : Stirs s u := hu ▸ .of_modify s t.nextCon _ rfl hperm (.refl _)
  have hl := hstirs.links
  have hattach : Attaches u (((u.setParent t.nextCon ws).editNodes ws (· ++ [t.nextCon])).editFocus ws
      (· ++ [t.nextCon])) t.nextCon ws :=
    attaches_editNodes _ (by rw [hl.type, hmovable.typeNew]; simp) (List.perm_append_singleton _ _)
  rw [hu]
  obtain ⟨v, hv⟩ : ∃ v, ((u.setParent t.nextCon ws).editNodes ws (· ++ [t.nextCon])).editFocus ws
      (· ++ [t.nextCon]) = v := ⟨_, rfl⟩
  rw [hv] at hattach ⊢
  have halters : Alters (fun x => x = ws ∨ x = t.nextCon) (fun x => x ∈ (t.con ws).nodesHead ∨ x = t.nextCon)
      (fun _ => False) b v := by
    refine (hm.alters.mono (fun _ hx => hx) (fun _ hx => .inl hx) fun _ hx => hx).trans ?_
    rw [← hv]
    exact (((Alters.of_stirs hstirs).trans (.setParent (.inr rfl) ws)).trans (.editNodes (.inl rfl) _)).trans
      (.editFocus ws _)
  have hold : ∀ x, x ≠ t.nextCon → b.con x = t.con x := hb.old
  have hufocus : ∀ x, (u.con x).focusHead = if x = t.nextCon then t.tilingOrder ws else (s.con x).focusHead :=
    fun x => by rw [← hu, editFocus_focusHead]
  have hunodes : ∀ x, (u.con x).nodesHead = (s.con x).nodesHead := hl.nodesHead
  have hufloating : ∀ x, (u.con x).floatingHead = (s.con x).floatingHead := fun x => by
    rw [← hu, editFocus_floatingHead]
  have hnodes : ∀ x, (v.con x).nodesHead = if x = ws then [t.nextCon] else (s.con x).nodesHead := by
    intro x
    rw [← hv]
    simp only [editFocus_nodesHead, editNodes_nodesHead, setParent_nodesHead, hunodes]
    split
    · next hx => rw [hx, hempty, List.nil_append]
    · rfl
  have hfocus : ∀ x, x ≠ ws → (v.con x).focusHead = if x = t.nextCon then t.tilingOrder ws else (s.con x).focusHead := by
    intro x hx
    rw [← hv]
    simp only [editFocus_focusHead, editNodes_focusHead, setParent_focusHead, hufocus, if_neg hx]
  have hfloating : ∀ x, (v.con x).floatingHead = (s.con x).floatingHead := by
    intro x
    rw [← hv]
    simp only [editFocus_floatingHead, editNodes_floatingHead, setParent_floatingHead, hufloating]
  have hsnodes : ∀ x, x ≠ t.nextCon → x ≠ ws → (s.con x).nodesHead = (t.con x).nodesHead := fun x hx hxws => by
    rw [hm.alters.nodesHead x (by simp [hx, hxws]), hold x hx]
  have hsnew : (s.con t.nextCon).nodesHead = (t.con ws).nodesHead := by
    rw [hm.nodesNew, hb.nodesHead, List.nil_append]
  refine ⟨
    { healthy := ?_
      reach := ?_
      croot := by rw [hattach.croot, hl.croot, hm.croot, hcreates.croot]
      focused := ?_
      type := fun x hx => by rw [halters.type, hold x hx]
      layout := fun x hx => by rw [halters.layout, hold x hx]
      floating := fun x hx => by rw [halters.floating, hold x hx]
      window := fun x hx => ?_
      percent := fun x hx => by rw [halters.percent x id, hold x hx]
      typeNew := by rw [halters.type, hb.type]
      layoutNew := halters.layout _
      nodesWs := by rw [hnodes, if_pos rfl]
      nodesNew := by rw [hnodes, if_neg h.ne.symm, hsnew]
      nodesHead := fun x hx hxws => by rw [hnodes, if_neg hxws, hsnodes x hx hxws]
      floatingHead := fun x hx => by rw [hfloating, hm.floatingHead, hold x hx]
      focusNew := by rw [hfocus _ h.ne.symm, if_pos rfl, tilingOrder]
      focusHead := fun x hx hxws => by rw [hfocus x hxws, if_neg hx, hm.focusHead x hxws hx, hold x hx]
      parent := fun x hx hxl => by rw [halters.parent x (by simp [hx, hxl]), hold x hx] }, ?_⟩
  · have hur := hr.links hl
    have hufresh : ∀ q, t.nextCon ∉ u.children q := fun q hq => hmovable.fresh q (hl.mem_children.mp hq)
    have hnotwithin : ¬ Descent.Within u.children t.nextCon ws := by
      intro hw
      obtain ⟨q, -, -, hq⟩ := hr.exists_parent
        ⟨hr.reach_of_within hmovable.reach (hl.within.mp hw), hmovable.notRoot⟩
      exact hmovable.fresh q hq
    have hbelow : ∀ x, Descent.Within u.children t.nextCon x →
        x = t.nextCon ∨ ∃ d ∈ (t.con ws).nodesHead, Descent.Within t.children d x := by
      intro x hx
      refine (Descent.within_iff.mp (hl.within.mp hx)).imp_right fun hx => ?_
      obtain ⟨d, hd, hdx⟩ := Descent.below_iff_head.mp hx
      rw [children, hsnew, hm.floatingHead, hcreates.new.2.2.2.2.1, List.append_nil] at hd
      exact ⟨d, hd, h.within_moved hb hm hmovable hempty hd hdx⟩
    have hall : u.allCons = t.allCons ++ [t.nextCon] := by rw [hl.allCons, hm.allCons, hcreates.allCons]
    refine ⟨hur.attaches hattach hufresh hnotwithin (fun x hx => ?_) ?_ (by rw [hl.croot]; exact hmovable.notRoot),
      (hm.layered.links hl).attaches hattach hnotwithin (fun w hw hwws x hx => ?_) fun hf => ?_,
      fun w hlt hw => ?_⟩
    · rw [Alive, hall]
      rcases hbelow x hx with rfl | ⟨d, hd, hdx⟩
      · exact List.mem_append_right _ (List.mem_singleton.mpr rfl)
      · exact List.mem_append_left _ (ht.alive x
          ((h.reach.tail (List.mem_append_left _ hd)).trans_within hdx).within)
    · rw [hl.nextCon, hm.nextCon, hcreates.nextCon]
      exact Nat.lt_succ_self _
    · rcases hbelow x hx with rfl | ⟨d, hd, hdx⟩
      · rw [hl.type, hmovable.typeNew]
        rintro ⟨⟩
      · have hwsx := (Descent.Below.single (List.mem_append_left _ hd)).trans_within hdx
        have hxlt := ht.lt_nextCon (h.reach.trans_below hwsx).within
        rw [hl.type, hm.alters.type, hold x hxlt.ne]
        exact h.healthy.layered.workspace ws h.type x hwsx
    · rw [hl.type, hmovable.typeNew] at hf
      cases hf
    · rw [hattach.fullscreenMode, hl.fullscreenMode, hm.fullscreenMode]
      by_cases hwnew : w = t.nextCon
      · rw [hwnew, hcreates.new.2.1]
        rintro ⟨⟩
      · rw [hattach.nextCon, hl.nextCon, hm.nextCon, hcreates.nextCon] at hlt
        rw [hattach.type, hl.type, hm.alters.type, hattach.croot, hl.croot, hm.croot, hcreates.croot,
          hold w hwnew] at hw
        rw [hold w hwnew]
        exact h.healthy.global w (lt_of_le_of_ne (Nat.le_of_lt_succ hlt) hwnew) hw
  · exact hattach.within_mono (hattach.croot ▸ hl.reach.mpr hmovable.reach)
  · rw [← hv, ← hu]
    exact hm.focused.trans hfocused
  · rw [← hv, editFocus, modify_window _ _ _ rfl, editNodes, modify_window _ _ _ rfl, setParent,
      modify_window _ _ _ rfl, hstirs.window, hm.window, hold x hx]
  · rw [← hv, editFocus_focusHead, if_pos rfl, editNodes_focusHead, setParent_focusHead, hufocus,
      if_neg h.ne, hm.focusWs, hold ws h.ne]

/-- The new container of `con_set_layout`. -/
theorem wraps_wrapChildren : Wraps t (t.wrapChildren cfg ws layout) ws layout := by
  have hb : Begins t (t.newSplit cfg ws layout) ws := begins_newSplit t ws layout
  have hwraps := (h.wraps cfg hb rfl).1
  rwa [newSplit_con_new] at hwraps

end Wrap

end Tree

end I3
