import I3Aiwr.Tree.Toggle

/-!
# Wrapping a workspace

`ws_force_orientation`, `workspace_encapsulate` and the wrapping branch of `con_set_layout` move the
tiling children of a workspace into a new split container. Their focus order was saved in an array
before, with the floating containers among them. `set_focus_order` skips these, and reads one entry more
for each that it skips.

## Main definitions

* `Tree.refill`, `Tree.readFocusOrder`: `set_focus_order` with the reads of the array
* `Tree.KeepsOrder t s t' ws new`: what wrapping `ws` in `new` keeps

## Main results

* `Tree.readFocusOrder_eq`: the array is long enough exactly if enough of it is not skipped
* `Tree.keepsOrder_wrap`
* `Tree.not_keepsOrder_conSetLayout`: flattening takes the new container away again
-/

namespace I3

namespace Tree

section Definitions

variable (cfg : Config) (t : Tree)

/-- The loop of `set_focus_order`, from the entry `idx` of the array: a skipped entry raises the bound.
There is no result when an entry beyond the array is read. -/
def refill (skip : ConId → Bool) (order : List ConId) (idx heads : ℕ) (queue : List ConId) :
    Option (List ConId) :=
  if idx < heads then
    match h : order[idx]? with
    | none => none
    | some d =>
      have : idx < order.length := (List.getElem?_eq_some_iff.mp h).1
      if skip d then refill skip order (idx + 1) (heads + 1) queue
      else refill skip order (idx + 1) heads (queue ++ [d])
  else some queue
termination_by order.length - idx

/-- `set_focus_order`. -/
def readFocusOrder (c : ConId) (order : List ConId) : Option Tree :=
  (refill (fun d => (t.con c).type ≠ .workspace ∧ t.insideFloating d ≠ none) order 0
    (t.con c).focusHead.length []).map fun queue => t.editFocus c fun _ => queue

/-- A new split container with the layout of the workspace, not attached yet. -/
def newLike (ws : ConId) : Tree :=
  let (t, new) := t.conNew cfg none
  (t.setParent new ws).setLayout new (t.con ws).layout

/-- The tiling children of `ws` in `t` are in the new container in `t'`, in their order and with their
focus order, and the floating ones keep theirs. In `s` is `set_focus_order` called for the new container,
with the focus order that `ws` had in `t`. -/
structure KeepsOrder (t s t' : Tree) (ws new : ConId) : Prop where
  reads : s.readFocusOrder new (t.con ws).focusHead = some (s.setFocusOrder new (t.con ws).focusHead)
  nodesWs : (t'.con ws).nodesHead = [new]
  nodesNew : (t'.con new).nodesHead = (t.con ws).nodesHead
  focusNew : (t'.con new).focusHead = (t.con ws).focusHead.filter (· ∈ (t.con ws).nodesHead)
  floating : (t'.con ws).focusHead.filter (· ∈ (t.con ws).floatingHead)
    = (t.con ws).focusHead.filter (· ∈ (t.con ws).floatingHead)

end Definitions

variable {cfg : Config} {t t' s b : Tree} {c d x ws new : ConId} {layout : Layout} {order rest : List ConId}
  {skip : ConId → Bool} {idx heads : ℕ} {queue : List ConId}

/-! ### Reading the array -/

/-- **What the loop reads**: the entries that are not skipped, if there are enough. -/
theorem refill_eq (hle : idx ≤ heads) : refill skip order idx heads queue =
    if heads - idx ≤ ((order.drop idx).filter fun d => ¬ skip d).length then
      some (queue ++ ((order.drop idx).filter fun d => ¬ skip d).take (heads - idx))
    else none := by
  induction hrest : order.drop idx generalizing idx heads queue with
  | nil =>
    rw [refill]
    split
    next hlt =>
      have hnone : order[idx]? = none := by
        rw [List.getElem?_eq_none_iff]
        exact List.drop_eq_nil_iff.mp hrest
      rw [if_neg (by simp; omega)]
      split
      next => rfl
      next heq => exact absurd (hnone.symm.trans heq) nofun
    next hnot => simp [Nat.sub_eq_zero_of_le (not_lt.mp hnot)]
  | cons d rest ih =>
    have hsome : order[idx]? = some d := by
      rw [← List.head?_drop, hrest, List.head?_cons]
    have hdrop : order.drop (idx + 1) = rest := by
      rw [← List.tail_drop, hrest, List.tail_cons]
    rw [refill]
    split
    next hlt =>
      split
      next heq => exact absurd (hsome.symm.trans heq) nofun
      next e heq =>
        obtain rfl : d = e := Option.some_inj.mp (hsome.symm.trans heq)
        obtain ⟨n, hn⟩ : ∃ n, heads - idx = n + 1 := ⟨heads - idx - 1, by omega⟩
        split
        next hskip =>
          -- the bound grows with the index
          rw [ih (by omega) hdrop, List.filter_cons_of_neg (by simpa using hskip),
            show heads + 1 - (idx + 1) = heads - idx by omega]
        next hskip =>
          rw [ih (by omega) hdrop, List.filter_cons_of_pos (by simpa using hskip), hn,
            show heads - (idx + 1) = n by omega, List.length_cons, List.take_succ_cons]
          simp
    next hnot => simp [Nat.sub_eq_zero_of_le (not_lt.mp hnot)]

/-- **`set_focus_order` stays within the array** exactly if it holds as many entries to keep as there
were in the focus stack. -/
theorem readFocusOrder_eq (t : Tree) (c : ConId) (order : List ConId) : t.readFocusOrder c order =
    if (t.con c).focusHead.length ≤
        (order.filter fun d => (t.con c).type = .workspace ∨ t.insideFloating d = none).length then
      some (t.setFocusOrder c order)
    else none := by
  have hkept : ∀ d, (¬ decide ((t.con c).type ≠ .workspace ∧ t.insideFloating d ≠ none))
      ↔ ((t.con c).type = .workspace ∨ t.insideFloating d = none) := by
    intro d
    rw [decide_eq_true_eq, not_and_or, not_not, not_not]
  rw [readFocusOrder, refill_eq (Nat.zero_le _)]
  simp only [hkept, List.drop_zero, Nat.sub_zero, List.nil_append]
  split
  · rfl
  · rfl

/-! ### The new container -/

theorem begins_newLike (cfg : Config) (t : Tree) (ws : ConId) : Begins t (t.newLike cfg ws) ws where
  creates :=
    { allCons := rfl
      croot := rfl
      nextCon := rfl
      new := by simp [newLike, conNew, setLayout, setParent]
      type := fun d hd => by simp [newLike, conNew, setLayout, setParent, hd]
      fullscreenMode := fun d hd => by simp [newLike, conNew, setLayout, setParent, hd]
      sticky := fun d hd => by simp [newLike, conNew, setLayout, setParent, hd]
      parent := fun d hd _ => by simp [newLike, conNew, setLayout, setParent, hd]
      nodesHead := fun d hd => by simp [newLike, conNew, setLayout, setParent, hd]
      floatingHead := fun d hd => by simp [newLike, conNew, setLayout, setParent, hd]
      focusHead := fun d hd => by simp [newLike, conNew, setLayout, setParent, hd] }
  old x hx := by simp [newLike, conNew, setLayout, setParent, hx]
  type := by simp [newLike, conNew, setLayout, setParent]
  floating := by simp [newLike, conNew, setLayout, setParent, isFloating, Floating.isOn]
  parent := by simp [newLike, conNew, setLayout, setParent]
  window := by simp [newLike, conNew, setLayout, setParent]
  nodesHead := by simp [newLike, conNew, setLayout, setParent]
  focusHead := by simp [newLike, conNew, setLayout, setParent]

section Wrap

variable (h : Wrappable t ws) (hb : Begins t b ws)
include h hb

/-- **What wrapping keeps**, where the new container ends as the only child of the workspace. -/
theorem Wrappable.keepsOrder (hnodesWs : (t'.con ws).nodesHead = [t.nextCon])
    (hnodesNew : (t'.con t.nextCon).nodesHead = ((b.movedChildren cfg ws t.nextCon).con t.nextCon).nodesHead)
    (hfocusNew : (t'.con t.nextCon).focusHead = t.tilingOrder ws)
    (hfocusWs : (t'.con ws).focusHead
      = ((b.movedChildren cfg ws t.nextCon).con ws).focusHead ++ [t.nextCon]) :
    KeepsOrder t (b.movedChildren cfg ws t.nextCon) t' ws t.nextCon := by
  have ht := h.healthy.rooted
  obtain ⟨hm, -, -, -⟩ := h.moveChildren cfg hb
  refine ⟨?_, hnodesWs, ?_, hfocusNew, ?_⟩
  · -- as many entries are kept as there are children
    have hlength : ((b.movedChildren cfg ws t.nextCon).con t.nextCon).focusHead.length
        = (t.tilingOrder ws).length := by
      rw [hm.focusNew, hb.focusHead, List.nil_append, h.tilingOrder_perm.length_eq]
    rw [readFocusOrder_eq, h.kept_eq hb hm, if_pos hlength.le]
  · rw [hnodesNew, hm.nodesNew, hb.nodesHead, List.nil_append]
  · -- the floating containers are no tiling children, and the new container is none of them
    have hnew : t.nextCon ∉ (t.con ws).floatingHead := fun hmem =>
      (ht.bounded ws _ (List.mem_append_right _ hmem)).ne rfl
    rw [hfocusWs, hm.focusWs, hb.old ws h.ne, List.filter_append, List.filter_filter,
      List.filter_cons_of_neg (by simpa using hnew), List.filter_nil, List.append_nil]
    refine List.filter_congr fun d _ => ?_
    by_cases hd : d ∈ (t.con ws).floatingHead
    · have hnot : d ∉ (t.con ws).nodesHead := fun hmem =>
        ht.typeNodes ws d hmem (ht.typeFloating ws d hd)
      simp [hd, hnot]
    · simp [hd]

/-- The new container is attached to the workspace, whose layout may change before that. -/
theorem Wrappable.keepsOrder_attach (cfg : Config) (ignoreFocus : Bool) {u : Tree}
    (hl : Links (b.moveChildren cfg ws t.nextCon) u) (hs : SameFocus (b.moveChildren cfg ws t.nextCon) u)
    (hwindow : (u.con t.nextCon).window = ((b.moveChildren cfg ws t.nextCon).con t.nextCon).window) :
    KeepsOrder t (b.movedChildren cfg ws t.nextCon) (u.conAttach cfg t.nextCon ws ignoreFocus) ws
      t.nextCon := by
  have htype := hl.type
  have hnodes := hl.nodesHead
  have hfocus := hs.focusHead
  obtain ⟨hm, hempty, hmovable, hmove⟩ := h.moveChildren cfg hb
  simp only [hmove, editFocus_type, editFocus_nodesHead, editFocus_focusHead] at htype hwindow hnodes hfocus
  have hwindow' : (u.con t.nextCon).window = none := by
    rw [hwindow, editFocus, modify_window _ _ _ rfl, hm.window, hb.window]
  have hattach : u.conAttach cfg t.nextCon ws ignoreFocus
      = ((u.setParent t.nextCon ws).editNodes ws (· ++ [t.nextCon])).editFocus ws (· ++ [t.nextCon]) := by
    apply conAttach_workspace ignoreFocus
    · rw [htype, hmovable.type]
    · rw [htype, hmovable.typeNew]
    · exact hwindow'
    · exact h.focusedTiling hb hm (by rw [hfocus, if_neg h.ne]) htype
  rw [hattach]
  apply h.keepsOrder hb
  · simp [hnodes, hempty]
  · simp [hnodes, h.ne.symm]
  · simp [hfocus, h.ne.symm]
  · simp [hfocus, h.ne]

end Wrap

/-! ### The three operations -/

/-- Only the lists count. -/
theorem KeepsOrder.congr (h : KeepsOrder t s t' ws new) {u : Tree}
    (hnodes : ∀ x, (u.con x).nodesHead = (t'.con x).nodesHead)
    (hfocus : ∀ x, (u.con x).focusHead = (t'.con x).focusHead) : KeepsOrder t s u ws new where
  reads := h.reads
  nodesWs := (hnodes ws).trans h.nodesWs
  nodesNew := (hnodes new).trans h.nodesNew
  focusNew := (hfocus new).trans h.focusNew
  floating := by rw [hfocus, h.floating]

/-- The new container of `workspace_encapsulate`. -/
theorem keepsOrder_encapsulate (h : Wrappable t ws) (hne : (t.con ws).nodesHead ≠ []) :
    ∃ t', t.workspaceEncapsulate cfg ws = some (t', t.nextCon)
      ∧ KeepsOrder t ((t.newLike cfg ws).movedChildren cfg ws t.nextCon) t' ws t.nextCon := by
  have hleaf : ¬ t.isLeaf ws := by simpa [isLeaf] using hne
  refine ⟨_, ?_, h.keepsOrder_attach (begins_newLike cfg t ws) cfg true (.refl _) (.refl _) rfl⟩
  rw [workspaceEncapsulate, if_neg hleaf]
  rfl

/-- The new container of `ws_force_orientation`. -/
theorem keepsOrder_force (h : Wrappable t ws) (o : Orientation) :
    KeepsOrder t ((t.newLike cfg ws).movedChildren cfg ws t.nextCon) (t.wsForceOrientation cfg ws o) ws
      t.nextCon := by
  have hattached := h.keepsOrder_attach (begins_newLike cfg t ws) cfg false
    (links_setLayout _ ws (if o = .horiz then .splith else .splitv))
    (.of_modify _ ws _ rfl) (by rw [setLayout, modify_window _ _ _ rfl])
  exact hattached.congr (links_conFixPercent _ ws).nodesHead (sameFocus_conFixPercent _ ws).focusHead

theorem links_fillLastSplit (t : Tree) (c : ConId) : Links t (t.fillLastSplit c) := by
  rw [fillLastSplit]
  split
  · exact .of_modify t c _ rfl rfl rfl rfl rfl rfl rfl
  · exact .refl t

/-- Filling in the last split layout changes nothing else. -/
theorem fillLastSplit_con (t : Tree) (c x : ConId) :
    ∃ last, (t.fillLastSplit c).con x = { t.con x with lastSplitLayout := last } := by
  rw [fillLastSplit]
  split
  · by_cases hx : x = c
    · exact ⟨(t.con c).layout, by rw [setLastSplitLayout, hx, modify_con_self]⟩
    · exact ⟨(t.con x).lastSplitLayout, by rw [setLastSplitLayout, modify_con_of_ne _ _ hx]⟩
  · exact ⟨(t.con x).lastSplitLayout, rfl⟩

/-- The layout of the workspace is noted before it is wrapped. -/
theorem Wrappable.fillLastSplit (h : Wrappable t ws) : Wrappable (t.fillLastSplit ws) ws := by
  have hl := links_fillLastSplit t ws
  have hfloating : ∀ x, (t.fillLastSplit ws).isFloating x = t.isFloating x := by
    intro x
    obtain ⟨last, hx⟩ := fillLastSplit_con t ws x
    rw [isFloating, hx, isFloating]
  refine ⟨h.healthy.links hl, h.stacked.links hl, hl.reach.mpr h.reach, (hl.type ws).trans h.type,
    (hfloating ws).trans h.notFloating, fun d hd => ?_⟩
  rw [hl.nodesHead] at hd
  rw [hl.type, hfloating]
  exact h.plain d hd

/-- The new container of `con_set_layout`, before the tree is flattened. -/
theorem keepsOrder_wrapChildren (h : Wrappable t ws) (layout : Layout) :
    KeepsOrder t ((t.newSplit cfg ws layout).movedChildren cfg ws t.nextCon) (t.wrapChildren cfg ws layout) ws
      t.nextCon :=
  h.keepsOrder_attach (begins_newSplit t ws layout) cfg false (.refl _) (.refl _) rfl

/-- Nothing is flattened where nothing is redundant. -/
theorem treeFlattenN_of_none (hnone : ∀ x, t.redundant x = none) (n : ℕ) (c : ConId) :
    treeFlattenN cfg n t c = t := by
  induction n generalizing c with
  | zero => rfl
  | succ n ih =>
    have hfold : ∀ l : List ConId, l.foldl (treeFlattenN cfg n) t = t := by
      intro l
      induction l with
      | nil => rfl
      | cons d l ihl => rw [List.foldl_cons, ih, ihl]
    rw [treeFlattenN, hnone]
    dsimp only
    rw [hfold, hfold]

/-- What is wrapped is the same when the layout of the workspace has been noted. -/
theorem keepsOrder_fillLastSplit (h : KeepsOrder (t.fillLastSplit ws) s t' ws new) :
    KeepsOrder t s t' ws new := by
  have hsame : ((t.fillLastSplit ws).con ws).nodesHead = (t.con ws).nodesHead
      ∧ ((t.fillLastSplit ws).con ws).focusHead = (t.con ws).focusHead
      ∧ ((t.fillLastSplit ws).con ws).floatingHead = (t.con ws).floatingHead := by
    rw [fillLastSplit]
    split
    · simp [setLastSplitLayout]
    · exact ⟨rfl, rfl, rfl⟩
  obtain ⟨hnodes, hfocus, hfloating⟩ := hsame
  obtain ⟨hreads, hws, hnew, hnewFocus, hwsFloating⟩ := h
  rw [hfocus] at hreads hnewFocus hwsFloating
  rw [hnodes] at hnew hnewFocus
  rw [hfloating] at hwsFloating
  exact ⟨hreads, hws, hnew, hnewFocus, hwsFloating⟩

/-- **Wrapping a workspace keeps the order and the focus.** What `con_set_layout` has wrapped is
flattened in the end, and stays as it is where nothing in it is redundant. -/
theorem keepsOrder_wrap (cfg : Config) (t : Tree) (ws : ConId) (h : Wrappable t ws) :
    (∀ o, KeepsOrder t ((t.newLike cfg ws).movedChildren cfg ws t.nextCon) (t.wsForceOrientation cfg ws o)
        ws t.nextCon)
      ∧ ((t.con ws).nodesHead ≠ [] → ∃ t', t.workspaceEncapsulate cfg ws = some (t', t.nextCon)
        ∧ KeepsOrder t ((t.newLike cfg ws).movedChildren cfg ws t.nextCon) t' ws t.nextCon)
      ∧ ∀ con layout, (t.con ws).nodesHead ≠ [] →
        (if (t.con con).type = .workspace then some con else (t.con con).parent) = some ws →
        ∃ t', t.conSetLayout cfg con layout = t'.treeFlatten cfg t'.croot
          ∧ KeepsOrder t (((t.fillLastSplit ws).newSplit cfg ws layout).movedChildren cfg ws t.nextCon) t' ws
            t.nextCon
          ∧ ((∀ c, t'.redundant c = none) → t.conSetLayout cfg con layout = t') := by
  refine ⟨keepsOrder_force h, keepsOrder_encapsulate h, fun con layout hne hcon => ?_⟩
  have hset := @conSetLayout_wrap cfg t con ws layout h.type hne hcon
  have hnext : (t.fillLastSplit ws).nextCon = t.nextCon := by
    rw [fillLastSplit]
    split <;> rfl
  have hwrap := @keepsOrder_wrapChildren cfg _ ws h.fillLastSplit layout
  rw [hnext] at hwrap
  refine ⟨_, hset, keepsOrder_fillLastSplit hwrap, fun hnone => ?_⟩
  rw [hset, treeFlatten, treeFlattenN_of_none hnone]

/-! ### A split container in a workspace that is split the same way -/

/-- A workspace with a split container of two windows for its only tiling child, and a floating window
that has been focused last but one. -/
def onlySplit : Tree := ofList [
  { type := .root, nodesHead := [1], focusHead := [1] },
  { type := .output, layout := .output, parent := some 0, nodesHead := [2], focusHead := [2] },
  { layout := .splith, parent := some 1, nodesHead := [3], focusHead := [3] },
  { type := .workspace, layout := .splith, name := "1", fullscreenMode := .output, parent := some 2,
    nodesHead := [4], floatingHead := [5], focusHead := [5, 4] },
  { layout := .splith, parent := some 3, nodesHead := [6, 7], focusHead := [7, 6] },
  { type := .floatingCon, layout := .splith, parent := some 3, nodesHead := [8], focusHead := [8] },
  { layout := .splith, parent := some 4, window := some { id := 6 } },
  { layout := .splith, parent := some 4, window := some { id := 7 } },
  { layout := .splith, parent := some 5, floating := .userOn, window := some { id := 8 } }] (some 8)

theorem wrappable_onlySplit : Wrappable onlySplit 3 := by
  have ht : Rooted onlySplit := rooted_ofList (by decide +kernel) (by decide +kernel)
  have hchain : List.IsChain (fun q c => c ∈ onlySplit.children q) [0, 1, 2, 3] := by decide +kernel
  refine ⟨healthy_ofList (3 < ·) ht ?_, stacked_ofList ?_, reach_of_isChain reach_croot hchain (by simp), rfl, rfl, ?_⟩
  · decide +kernel
  · decide +kernel
  · decide +kernel

theorem keepsOrder_onlySplit :
    (∀ o, KeepsOrder onlySplit ((onlySplit.newLike {} 3).movedChildren {} 3 9)
        (onlySplit.wsForceOrientation {} 3 o) 3 9)
      ∧ ((onlySplit.con 3).nodesHead ≠ [] → ∃ t', onlySplit.workspaceEncapsulate {} 3 = some (t', 9)
        ∧ KeepsOrder onlySplit ((onlySplit.newLike {} 3).movedChildren {} 3 9) t' 3 9)
      ∧ ∀ con layout, (onlySplit.con 3).nodesHead ≠ [] →
        (if (onlySplit.con con).type = .workspace then some con else (onlySplit.con con).parent) = some 3 →
        ∃ t', onlySplit.conSetLayout {} con layout = t'.treeFlatten {} t'.croot
          ∧ KeepsOrder onlySplit (((onlySplit.fillLastSplit 3).newSplit {} 3 layout).movedChildren {} 3 9) t' 3 9
          ∧ ((∀ c, t'.redundant c = none) → onlySplit.conSetLayout {} con layout = t') :=
  keepsOrder_wrap {} onlySplit 3 wrappable_onlySplit

/-- `layout splitv` of a workspace whose only split container is split the way the workspace is: the new
container is redundant, and flattening takes both away. -/
theorem not_keepsOrder_conSetLayout : ¬ ∀ (cfg : Config) (t : Tree) (ws : ConId) (layout : Layout),
    Wrappable t ws → (t.con ws).nodesHead ≠ [] →
      KeepsOrder t (((t.fillLastSplit ws).newSplit cfg ws layout).movedChildren cfg ws t.nextCon)
        (t.conSetLayout cfg ws layout) ws t.nextCon := by
  intro h
  have hkeeps := h {} onlySplit 3 .splitv wrappable_onlySplit (by decide +kernel)
  exact absurd hkeeps.nodesWs (by decide +kernel)

end Tree

end I3
