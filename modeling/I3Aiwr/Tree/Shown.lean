import I3Aiwr.Tree.Alters
import I3Aiwr.Tree.Held

/-!
# Moving a floating window while a workspace is shown

`_con_move_to_con` shows the focused workspace again when it has moved a container. If that is the visible
workspace of its output, nothing is closed by that, and the sticky windows that are pushed leave alone
what the workspaces hold.

## Main definitions

* `Tree.Shown o K v`: `v` is the visible workspace of the output `o`
* `Tree.Relocating v c u w`: what it takes to move the floating container `c` from `u` to `w`

## Main results

* `Tree.Shown.workspaceIsVisible`
* `Tree.HeldAll.workspaceShow`: showing the visible workspace
* `Tree.Relocating.conMoveToWorkspace_eq`: the steps of the move
* `Tree.Relocating.held_away`, `Tree.Relocating.held_here`: the container arrives
-/

namespace I3

namespace Tree

variable {cfg : Config} {t t' : Tree} {K c d f o p q u v w x y : ConId}

/-! ### The visible workspace -/

/-- The workspace `v` in the content container `K` is the visible one of the output `o`. -/
structure Shown (t : Tree) (o K v : ConId) : Prop where
  output : (t.con o).type = .output
  content : K ∈ t.children o
  workspace : v ∈ t.children K
  type : (t.con v).type = .workspace
  /-- The other children of the output are bars. -/
  bars : ∀ p ∈ t.children o, ((t.con p).type = .con ↔ p = K) ∧ (t.con p).type ≠ .workspace
    ∧ (t.con p).fullscreenMode ≠ .output
  flagged : (t.con v).fullscreenMode = .output
  only : ∀ p ∈ t.children o, ∀ y ∈ t.children p, y ≠ v → (t.con y).fullscreenMode ≠ .output

namespace Shown

theorem contentType (h : Shown t o K v) : (t.con K).type = .con := (h.bars K h.content).1.mpr rfl

theorem held (h : Shown t o K v) (ht : Healthy t) (hs : Stacked t) (hv : t.Reach v)
    (hx : Descent.Within t.children v x) : Held t K v x :=
  ⟨ht, hs, h.type, hv, h.workspace, h.only K h.content, hx⟩

/-- A change of the fullscreen modes and of what is on the workspaces. -/
theorem of_same (h : Shown t o K v) (htype : ∀ d, (t'.con d).type = (t.con d).type)
    (hchildren : ∀ p, (t.con p).type ≠ .workspace → ∀ x, x ∈ t'.children p ↔ x ∈ t.children p)
    (hv : (t'.con v).fullscreenMode = .output)
    (hmode : ∀ d ≠ v, (t.con d).fullscreenMode ≠ .output → (t'.con d).fullscreenMode ≠ .output) :
    Shown t' o K v := by
  have ho : ∀ p, p ∈ t'.children o ↔ p ∈ t.children o := hchildren o (by simp [h.output])
  refine ⟨(htype o).trans h.output, (ho K).mpr h.content, ?_, (htype v).trans h.type, fun p hp => ?_, hv,
    fun p hp y hy hne => ?_⟩
  · exact (hchildren K (by simp [h.contentType]) v).mpr h.workspace
  · obtain ⟨hcon, hws, hout⟩ := h.bars p ((ho p).mp hp)
    rw [htype]
    refine ⟨hcon, hws, hmode p ?_ hout⟩
    rintro rfl
    exact hws h.type
  · obtain ⟨-, hws, -⟩ := h.bars p ((ho p).mp hp)
    exact hmode y hne (h.only p ((ho p).mp hp) y ((hchildren p hws y).mp hy) hne)

theorem links (h : Shown t o K v) (hl : Links t t') : Shown t' o K v := by
  refine h.of_same hl.type (fun _ _ _ => hl.mem_children) ?_ fun d _ hd => ?_
  · rw [hl.fullscreenMode, h.flagged]
  · rwa [hl.fullscreenMode]

theorem conDisableFullscreen (h : Shown t o K v) (c : ConId) : Shown (t.conDisableFullscreen c) o K v := by
  unfold Tree.conDisableFullscreen
  split
  · exact h
  · next hc =>
    split
    · exact h
    · have hvc : v ≠ c := by
        rintro rfl
        exact hc h.type
      refine h.of_same (fun d => by rw [setFullscreenMode_con]) (fun p _ x => ?_) ?_ fun d _ hd => ?_
      · rw [setFullscreenMode_children]
      · rw [setFullscreenMode_fullscreenMode, if_neg hvc, h.flagged]
      · rw [setFullscreenMode_fullscreenMode]
        split
        · simp
        · exact hd

/-- A floating container moves from one workspace to another. -/
theorem relocates (h : Shown t o K v) (ht : Healthy t) (hc : t.Reach c) (hfloat : (t.con c).type = .floatingCon)
    (hp : (t.con p).type = .workspace) (hl : Relocates t t' c p) : Shown t' o K v := by
  refine h.of_same hl.type (fun q hq x => ?_) ?_ fun d _ hd => ?_
  · obtain ⟨u, hu, hutype, -, -⟩ := ht.floating_parent hc hfloat
    rw [hl.mem_children]
    constructor
    · rintro (⟨hx, -⟩ | ⟨rfl, -⟩)
      · exact hx
      · exact absurd hp hq
    · intro hx
      refine .inl ⟨hx, ?_⟩
      rintro rfl
      obtain rfl : q = u := Option.some_inj.mp ((ht.rooted.parent q x hx).symm.trans hu)
      exact hq hutype
  · exact (hl.fullscreenMode v).elim (fun hmode => hmode.trans h.flagged) fun hmode => absurd h.type hmode.1
  · rcases hl.fullscreenMode d with hmode | ⟨-, hmode⟩
    · rwa [hmode]
    · simp [hmode]

section Visible

variable (h : Shown t o K v) (ht : Rooted t) (hv : t.Reach v)
include h ht

theorem getOutput_eq (hv : t.Reach v) : t.getOutput v = some o := by
  have hov : Descent.Below t.children o v := (Descent.Below.single h.content).tail h.workspace
  refine ht.find?_chain hv hov.within (by simp [h.output]) fun z hoz hzv => ?_
  -- between the output and the workspace there is the content container
  rcases Descent.within_iff.mp hzv with rfl | hzv
  · simp [h.type]
  · have hzK := Descent.within_parent ht.parent hzv (ht.parent K v h.workspace)
    rcases Descent.within_iff.mp hzK with rfl | hzK
    · simp [h.contentType]
    · exact absurd (Descent.within_parent ht.parent hzK (ht.parent o K h.content))
        (ht.acyclic.not_within hoz)

theorem mem_nodesHead : K ∈ (t.con o).nodesHead ∧ v ∈ (t.con K).nodesHead := by
  constructor
  · rcases List.mem_append.mp h.content with hmem | hmem
    · exact hmem
    · exact absurd (ht.typeFloating o K hmem) (by simp [h.contentType])
  · rcases List.mem_append.mp h.workspace with hmem | hmem
    · exact hmem
    · exact absurd (ht.typeFloating K v hmem) (by simp [h.type])

theorem outputGetContent_eq : t.outputGetContent o = some K := by
  obtain ⟨p, hp⟩ : ∃ p, t.outputGetContent o = some p := by
    rw [← Option.isSome_iff_exists, outputGetContent, List.find?_isSome]
    exact ⟨K, (h.mem_nodesHead ht).1, by simp [h.contentType]⟩
  have hmem := List.mem_append_left (t.con o).floatingHead (List.mem_of_find?_eq_some hp)
  have htype : (t.con p).type = .con := by simpa using List.find?_some hp
  rw [hp, (h.bars p hmem).1.mp htype]

theorem flaggedWorkspace_eq : t.flaggedWorkspace K = some v := by
  obtain ⟨y, hy⟩ : ∃ y, t.flaggedWorkspace K = some y := by
    rw [← Option.isSome_iff_exists, flaggedWorkspace, List.find?_isSome]
    exact ⟨v, List.mem_reverse.mpr (h.mem_nodesHead ht).2, by simp [h.flagged]⟩
  have hmem := List.mem_append_left (t.con K).floatingHead (List.mem_reverse.mp (List.mem_of_find?_eq_some hy))
  have hmode : (t.con y).fullscreenMode = .output := by simpa using List.find?_some hy
  rw [hy]
  by_contra hne
  exact h.only K h.content y hmem (fun hyv => hne (hyv ▸ rfl)) hmode

/-- **The visible workspace is visible**: the search finds it on the second level below the output. -/
theorem workspaceIsVisible (hv : t.Reach v) : t.workspaceIsVisible v = true := by
  have hKo : K ≠ o := ht.acyclic.ne (.single h.content)
  -- two containers in the tree are enough to get down to the workspaces
  have hnext : ∀ a b n : ℕ, a < n → b < n → a ≠ b → ∃ m, n + 1 = m + 3 := by
    intro a b n ha hb hne
    exact ⟨n - 2, by omega⟩
  have hov : Descent.Below t.children o v := (Descent.Below.single h.content).tail h.workspace
  obtain ⟨n, hn⟩ := hnext K o t.nextCon (ht.bounded o K h.content)
    (ht.lt_nextCon (ht.reach_of_within hv hov.within)) hKo
  have hsearch : t.getFullscreenCon o .output = some v := by
    rw [getFullscreenCon, hn, Descent.search]
    have hself : [o].find? (fun x => decide (x ≠ o ∧ (t.con x).fullscreenMode = .output)) = none := by simp
    rw [hself]
    dsimp only
    rw [Descent.search, List.flatMap_singleton]
    have hbars : (t.children o).find? (fun x => decide (x ≠ o ∧ (t.con x).fullscreenMode = .output)) = none := by
      rw [List.find?_eq_none]
      intro p hp
      simp [(h.bars p hp).2.2]
    rw [hbars]
    dsimp only
    rw [Descent.search]
    have hvo : v ≠ o := ht.acyclic.ne ((Descent.Below.single h.content).tail h.workspace)
    obtain ⟨y, hy⟩ : ∃ y, ((t.children o).flatMap t.children).find?
        (fun x => decide (x ≠ o ∧ (t.con x).fullscreenMode = .output)) = some y := by
      rw [← Option.isSome_iff_exists, List.find?_isSome]
      exact ⟨v, List.mem_flatMap.mpr ⟨K, h.content, h.workspace⟩, by simp [hvo, h.flagged]⟩
    obtain ⟨p, hp, hyp⟩ := List.mem_flatMap.mp (List.mem_of_find?_eq_some hy)
    have hmode : y ≠ o ∧ (t.con y).fullscreenMode = .output := by simpa using List.find?_some hy
    rw [hy]
    by_contra hne
    exact h.only p hp y hyp (fun hyv => hne (hyv ▸ rfl)) hmode.2
  rw [Tree.workspaceIsVisible, h.getOutput_eq ht hv]
  simp [hsearch]

end Visible

end Shown

/-! ### Showing the visible workspace -/

theorem flagWorkspace_con (t : Tree) (ws content y : ConId) :
    (t.flagWorkspace ws content).con y = { t.con y with
      fullscreenMode := if y = ws then .output else if y ∈ (t.con content).nodesHead then .none
        else (t.con y).fullscreenMode } := by
  have hfold : ∀ (l : List ConId) (s : Tree),
      (l.foldl (fun t c => t.setFullscreenMode c .none) s).con y
        = { s.con y with fullscreenMode := if y ∈ l then .none else (s.con y).fullscreenMode } := by
    intro l
    induction l with
    | nil => intro s; simp
    | cons c l ih =>
      intro s
      rw [List.foldl_cons, ih, setFullscreenMode_con]
      by_cases hy : y ∈ l
      · simp [hy]
      · by_cases hyc : y = c
        · simp [hyc]
        · simp [hy, hyc]
  rw [flagWorkspace, setFullscreenMode_con, hfold]

theorem flagWorkspace_fields (t : Tree) (ws content : ConId) : (t.flagWorkspace ws content).focused = t.focused
    ∧ (t.flagWorkspace ws content).croot = t.croot ∧ (t.flagWorkspace ws content).nextCon = t.nextCon := by
  have hfold : ∀ (l : List ConId) (s : Tree),
      (l.foldl (fun t c => t.setFullscreenMode c .none) s).focused = s.focused
        ∧ (l.foldl (fun t c => t.setFullscreenMode c .none) s).croot = s.croot
        ∧ (l.foldl (fun t c => t.setFullscreenMode c .none) s).nextCon = s.nextCon := by
    intro l
    induction l with
    | nil => exact fun s => ⟨rfl, rfl, rfl⟩
    | cons c l ih => exact fun s => ih (s.setFullscreenMode c .none)
  exact hfold _ t

theorem Held.flagWorkspace (h : Held t K w x) (hv : (t.con v).type = .workspace)
    (hmode : (t.con v).fullscreenMode = .output) (content : ConId) : Held (t.flagWorkspace v content) K w x := by
  refine h.of_modes (calm_flagWorkspace h.healthy content hv).healthy
    (fun y => ⟨_, flagWorkspace_con t v content y⟩) (flagWorkspace_fields t v content).2.1 fun y _ _ hy => ?_
  rw [flagWorkspace_con]
  have hyv : y ≠ v := by
    rintro rfl
    exact hy hmode
  rw [if_neg hyv]
  split
  · simp
  · exact hy

namespace Shown

theorem flagWorkspace (h : Shown t o K v) (content : ConId) : Shown (t.flagWorkspace v content) o K v := by
  have hcon := flagWorkspace_con t v content
  refine h.of_same (fun d => by rw [hcon]) (fun p _ x => ?_) ?_ fun d hd hmode => ?_
  · rw [children, children, hcon]
  · rw [hcon, if_pos rfl]
  · rw [hcon, if_neg hd]
    split
    · simp
    · exact hmode

/-- A workspace that is visible is not closed. -/
theorem closeOld_eq (h : Shown t o K v) (ht : Rooted t) (hv : t.Reach v) : t.closeOld cfg (some v) = t := by
  rw [closeOld, if_neg]
  simp [closesOld, h.workspaceIsVisible ht hv]

end Shown

namespace HeldAll

variable {S S' : ConId → ConId → ConId → Prop}

theorem mono (hS : HeldAll S t) (h : ∀ K w x, S' K w x → S K w x) : HeldAll S' t :=
  ⟨hS.healthy, hS.stacked, fun hx => hS.held (h _ _ _ hx)⟩

theorem flagWorkspace (hS : HeldAll S t) (h : Shown t o K v) (content : ConId) :
    HeldAll S (t.flagWorkspace v content) where
  healthy := (calm_flagWorkspace hS.healthy content h.type).healthy
  stacked q y hy := by
    rw [children, flagWorkspace_con] at hy
    rw [flagWorkspace_con]
    exact hS.stacked q hy
  held hx := (hS.held hx).flagWorkspace h.type h.flagged content

/-- **Showing the workspace that is visible** takes nothing away from the workspaces. -/
theorem workspaceShow (hS : HeldAll S t) (h : Shown t o K v) (hv : t.Reach v) :
    HeldAll S (t.workspaceShow cfg v) := by
  unfold Tree.workspaceShow
  rw [workspaceShowN, hS.healthy.rooted.parent K v h.workspace]
  dsimp only
  split
  · exact hS
  · rw [h.flaggedWorkspace_eq hS.healthy.rooted]
    have hflag := hS.flagWorkspace h K
    have hshown := h.flagWorkspace K
    have hreach : (t.flagWorkspace v K).Reach v :=
      (h.held hS.healthy hS.stacked hv (.refl v)).flagWorkspace h.type h.flagged K |>.reach
    generalize t.flagWorkspace v K = s at hflag hshown hreach ⊢
    split
    · exact hflag
    · -- where the focus was on the workspace stays there too
      have hdown : Descent.Within s.children v (s.descendFocused v) :=
        hflag.healthy.rooted.descendFocusedN_within _ _
      have hall : HeldAll (fun K' w x => S K' w x ∨ K' = K ∧ w = v ∧ x = s.descendFocused v) s := by
        refine ⟨hflag.healthy, hflag.stacked, fun {K' w x} hx => ?_⟩
        rcases hx with hx | ⟨rfl, rfl, rfl⟩
        · exact hflag.held hx
        · exact hshown.held hflag.healthy hflag.stacked hreach hdown
      unfold showOther
      dsimp only
      rw [Option.map_some]
      have hl := (links_rememberWorkspace s (s.focused.bind s.getWorkspace)).trans
        ((links_reassignStickyN (s.rememberWorkspace (s.focused.bind s.getWorkspace)).nextCon
          (s.rememberWorkspace (s.focused.bind s.getWorkspace)) v).trans
        (stirs_showFocus cfg ((s.rememberWorkspace (s.focused.bind s.getWorkspace)).workspaceReassignSticky v) v
          (Tree.descendFocused
            ((s.rememberWorkspace (s.focused.bind s.getWorkspace)).workspaceReassignSticky v) v)).links)
      generalize s.descendFocused v = f at hall ⊢
      generalize showFocus cfg _ v _ = r at hl ⊢
      have hr := hall.links hl
      have hrs := hshown.links hl
      rw [hrs.closeOld_eq hr.healthy.rooted (hl.reach.mpr hreach)]
      have hmode : HeldAll (fun K' w x => S K' w x ∨ K' = K ∧ w = v ∧ x = f) (r.setFullscreenMode v .output) := by
        refine ⟨hr.healthy.setFullscreenMode fun _ => by simp, fun q y hy => ?_, fun hx => ?_⟩
        · rw [setFullscreenMode_con]
          exact hr.stacked q (by rwa [setFullscreenMode_children] at hy)
        · refine (hr.held hx).of_modes (hr.healthy.setFullscreenMode fun _ => by simp)
            (fun y => ⟨_, setFullscreenMode_con v .output r y⟩) rfl fun y _ _ hy => ?_
          rw [setFullscreenMode_fullscreenMode, if_neg]
          · exact hy
          · rintro rfl
            exact hy hrs.flagged
      have hold : ∀ g ∈ (if (some v).any r.closesOld ∧ some f = some v then none else some f),
          ∃ K' w, S K' w g ∨ K' = K ∧ w = v ∧ g = f := by
        intro g hg
        split at hg
        · cases hg
        · exact ⟨K, v, .inr ⟨rfl, rfl, (Option.some_inj.mp hg).symm⟩⟩
      exact (hmode.outputPushStickyWindows hold).mono fun _ _ _ hx => .inl hx

end HeldAll

/-- The workspace may be flagged once more. -/
theorem Held.flagWorkspace_self (h : Held t K v x) (content : ConId) : Held (t.flagWorkspace v content) K v x := by
  refine h.of_modes (calm_flagWorkspace h.healthy content h.workspace).healthy
    (fun y => ⟨_, flagWorkspace_con t v content y⟩) (flagWorkspace_fields t v content).2.1 fun y _ hne hy => ?_
  rw [flagWorkspace_con, if_neg hne]
  split
  · simp
  · exact hy

/-- With the focus on the workspace, only the modes change. -/
theorem Held.workspaceShow_eq (h : Held t K v f) (hf : t.focused = some f) :
    t.workspaceShow cfg v = t ∨ t.workspaceShow cfg v = t.flagWorkspace v K := by
  unfold workspaceShow
  rw [workspaceShowN, h.healthy.rooted.parent K v h.mem]
  dsimp only
  split
  · exact .inl rfl
  · have hfocused : (t.flagWorkspace v K).focused = some f := (flagWorkspace_fields t v K).1.trans hf
    rw [if_pos (by rw [hfocused, Option.bind_some, (h.flagWorkspace_self K).getWorkspace_eq])]
    exact .inr rfl

/-! ### Moving a floating container -/

/-- A floating container can be moved to every workspace. -/
theorem exists_moveTarget (ht : Healthy t) (hw : (t.con w).type = .workspace) (hreach : t.Reach w)
    (hx : Descent.Within t.children w x) (hfloat : (t.con c).type = .floatingCon) :
    ∃ anchor, t.moveTarget c x = some (anchor, w) := by
  have hr := ht.rooted
  have hget : ∀ y, Descent.Within t.children w y → t.getWorkspace y = some w := fun y hy =>
    hr.getWorkspace_eq ht.layered (hreach.trans hy) hw hy
  -- one level up, but not from the workspace
  obtain ⟨p, hp, hwp⟩ : ∃ p, t.moveParent x = some p ∧ Descent.Within t.children w p := by
    unfold moveParent
    split
    · exact ⟨x, rfl, hx⟩
    · next htype =>
      have hbelow : Descent.Below t.children w x := by
        refine (Descent.within_iff.mp hx).resolve_left ?_
        rintro rfl
        exact htype hw
      obtain ⟨p, hwp, hmem⟩ := Descent.below_iff_exists.mp hbelow
      exact ⟨p, hr.parent p x hmem, hwp⟩
  -- and past a floating container
  obtain ⟨anchor, q, hq, hwq⟩ : ∃ anchor q, t.moveBeside x p = some (anchor, q)
      ∧ Descent.Within t.children w q := by
    unfold moveBeside
    split
    · next htype =>
      have hbelow : Descent.Below t.children w p := by
        refine (Descent.within_iff.mp hwp).resolve_left ?_
        rintro rfl
        rw [hw] at htype
        cases htype
      obtain ⟨q, hwq, hmem⟩ := Descent.below_iff_exists.mp hbelow
      exact ⟨p, q, by rw [hr.parent q p hmem]; rfl, hwq⟩
    · exact ⟨x, p, rfl, hwp⟩
  refine ⟨anchor, ?_⟩
  rw [moveTarget, hp, Option.bind_some, hq, Option.bind_some]
  dsimp only
  rw [if_pos hfloat, hget q hwq]
  rfl

/-- A floating container to be moved from the workspace `u` to the workspace `w`, where `v` has the focus. -/
structure Relocating (t : Tree) (v c u w : ConId) : Prop where
  healthy : Healthy t
  reach : t.Reach c
  floatingCon : (t.con c).type = .floatingCon
  notFloating : t.isFloating c = false
  parent : (t.con c).parent = some u
  target : (t.con w).type = .workspace
  reachTarget : t.Reach w
  other : u ≠ w
  current : t.focused.bind t.getWorkspace = some v
  permits : t.fullscreenPermitsFocusing w = true

namespace Relocating

variable (h : Relocating t v c u w)
include h

theorem sourceSpec : (t.con u).type = .workspace ∧ t.Reach u ∧ c ∈ t.children u := by
  obtain ⟨q, hq, hqtype, hreach, hmem⟩ := h.healthy.floating_parent h.reach h.floatingCon
  obtain rfl : q = u := Option.some_inj.mp (hq.symm.trans h.parent)
  exact ⟨hqtype, hreach, hmem⟩

theorem getWorkspace_eq : t.getWorkspace c = some u := by
  obtain ⟨hu, -, hmem⟩ := h.sourceSpec
  exact h.healthy.rooted.getWorkspace_eq h.healthy.layered h.reach hu (.single hmem)

/-- **Moving a floating container to a workspace**: it lands there, the focused workspace is shown again,
and the workspace it came from may be closed. -/
theorem conMoveToWorkspace_eq : ∃ s r, Relocates t s c w
    ∧ (r = s ∨ r = s.moveFocus cfg c (t.getOutput w) (some v))
    ∧ t.conMoveToWorkspace cfg c w true false = ((r.workspaceShow cfg v).moveFocusBack cfg
      (t.moveFocusNext c w false)).moveEnd cfg c (t.con c).urgent (some u) (some u) := by
  have hdown : Descent.Within t.children w (t.descendFocused w) := h.healthy.rooted.descendFocusedN_within _ _
  have hget : t.getWorkspace (t.descendFocused w) = some w :=
    h.healthy.rooted.getWorkspace_eq h.healthy.layered (h.reachTarget.trans hdown) h.target hdown
  have hmoved : t.movedCon c = c := by simp [movedCon, h.notFloating]
  obtain ⟨anchor, hanchor⟩ := exists_moveTarget h.healthy h.target h.reachTarget hdown h.floatingCon
  have hrelocates := @relocates_movedOver cfg t c w h.healthy h.reach h.floatingCon h.target anchor true true
  have hparent : (((t.moveFixCoordinates c (t.getOutput w) true).moveFullscreen c w).1.con c).parent = some u := by
    rw [moveFullscreen_parent, (stirs_moveFixCoordinates t c _ true).links.parent, h.parent]
  rw [conMoveToWorkspace, if_neg (by simp [h.target, h.getWorkspace_eq, h.other]), conMoveToCon, hmoved,
    if_neg (by simp [h.floatingCon]), moveConWith, hget]
  dsimp only
  rw [hmoved, if_neg (by simp [h.floatingCon]), if_neg (by simp [h.permits]), moveCon, hanchor]
  dsimp only
  rw [hparent, h.current, h.getWorkspace_eq]
  unfold movedOver at hrelocates
  refine ⟨_, _, hrelocates, ?_, rfl⟩
  split
  · exact .inr rfl
  · exact .inl rfl

/-- Nothing in the container is a workspace. -/
theorem not_within (hx : (t.con x).type = .workspace) : ¬ Descent.Within t.children c x := by
  obtain ⟨hu, -, hmem⟩ := h.sourceSpec
  intro hcx
  exact h.healthy.layered.workspace u hu x ((Descent.Below.single hmem).trans_within hcx) hx

/-- **Moved away from the visible workspace**, which has the focus, a floating container arrives. -/
theorem held_away (hshown : Shown t o K v) (hv : t.Reach v) (huv : u = v)
    (hw : Held t p w w) : Held (t.conMoveToWorkspace cfg c w true false) p w c := by
  obtain ⟨s, r, hrelocates, hr, heq⟩ : ∃ s r, Relocates t s c w
      ∧ (r = s ∨ r = s.moveFocus cfg c (t.getOutput w) (some v)) ∧ _ := h.conMoveToWorkspace_eq
  have hl : Links s r := by
    rcases hr with rfl | rfl
    · exact .refl _
    · exact (stirs_moveFocus s c _ _).links
  have hrs := (hshown.relocates h.healthy h.reach h.floatingCon h.target hrelocates).links hl
  have hrv : r.Reach v := hl.reach.mpr (hrelocates.reach_of h.healthy hv (h.not_within hshown.type))
  have hheld := (hrelocates.held_self h.healthy hw (h.not_within h.target)).links hl
  -- both workspaces are held while the focused one is shown
  have hall : HeldAll (fun K' w' x => K' = p ∧ w' = w ∧ x = c ∨ K' = K ∧ w' = v ∧ x = v) r := by
    refine ⟨hheld.healthy, hheld.stacked, ?_⟩
    rintro K' w' x (⟨rfl, rfl, rfl⟩ | ⟨rfl, rfl, rfl⟩)
    · exact hheld
    · exact hrs.held hheld.healthy hheld.stacked hrv (.refl _)
  have hshow : HeldAll _ (r.workspaceShow cfg v) := hall.workspaceShow hrs hrv
  have hback := hshow.links (@stirs_moveFocusBack cfg _ (t.moveFocusNext c w false)).links
  have hc := hback.held (.inl ⟨rfl, rfl, rfl⟩)
  have hheldv := hback.held (.inr ⟨rfl, rfl, rfl⟩)
  rw [heq, huv]
  exact (vacates_moveEnd hback.healthy hback.stacked hheldv.workspace hheldv.reach
    (hc.not_within_workspace hheldv.workspace (huv ▸ h.other)) c (t.con c).urgent (some v)).held hc (huv ▸ h.other)

end Relocating

/-- The focus goes to the container moved, and back to where it was. -/
theorem moveFocus_focused (hshown : Shown t o K v) (hfirst : v ∈ t.heads K) (hf : t.focused = some f)
    (hfv : Descent.Within t.children v f) (hc : Held t K v c) :
    (t.moveFocus cfg c (some o) (some v)).focused = some f
      ∨ (t.moveFocus cfg c (some o) (some v)).focused = some (t.descendFocused c) := by
  have hr := hc.healthy.rooted
  have hdown : Descent.Within t.children v (t.descendFocused c) :=
    hc.within.trans (hr.descendFocusedN_within _ _)
  have hheld : ∀ x, Descent.Within t.children v x → Held t K v x := fun x hx => { hc with within := hx }
  have hl : Links t (t.conActivate cfg (t.descendFocused c)) := (stirs_conActivate cfg t _).links
  have hfocused : (t.conActivate cfg (t.descendFocused c)).focused = some (t.descendFocused c) :=
    hr.focused_conActivate (hheld _ hdown).sits
  unfold moveFocus
  rw [Option.bind_some, hshown.outputGetContent_eq hr, Option.bind_some, mem_heads.mp hfirst, hf]
  dsimp only
  split
  · exact .inl ((hr.links hl).focused_conActivate (hl.sits.mpr (hheld f hfv).sits))
  · have hget : (t.conActivate cfg (t.descendFocused c)).getWorkspace (t.descendFocused c) = some v :=
      ((hheld _ hdown).links hl).getWorkspace_eq
    rw [hfocused, Option.bind_some, hget, if_neg (by simp)]
    exact .inr hfocused

theorem sameFocus_moveUrgent (t : Tree) (c : ConId) (urgent : Bool) (sourceWs : Option ConId) :
    SameFocus t (if urgent then (t.workspaceUpdateUrgentFlag sourceWs).conSetUrgency c true else t) := by
  split
  · exact SameFocus.trans ⟨workspaceUpdateUrgentFlag_focused _, fun _ => workspaceUpdateUrgentFlag_focusHead _⟩
      (sameFocus_conSetUrgency _ c true)
  · exact .refl t

/-- **Moved to the workspace with the focus**, a floating container arrives, and the focus stays on the
workspace. -/
theorem Relocating.held_here (h : Relocating t v c u v) (hs : Stacked t) (hshown : Shown t o K v)
    (hfirst : v ∈ t.heads K) (hf : t.focused = some f) (hfv : Descent.Within t.children v f) :
    ∃ g, (t.conMoveToWorkspace cfg c v true false).focused = some g
      ∧ Held (t.conMoveToWorkspace cfg c v true false) K v g
      ∧ Held (t.conMoveToWorkspace cfg c v true false) K v c := by
  obtain ⟨s, r, hrelocates, hr, heq⟩ : ∃ s r, Relocates t s c v
      ∧ (r = s ∨ r = s.moveFocus cfg c (t.getOutput v) (some v)) ∧ _ := h.conMoveToWorkspace_eq
  obtain ⟨hu, hureach, hmem⟩ := h.sourceSpec
  have ht := h.healthy.rooted
  have hheldf := hshown.held h.healthy hs h.reachTarget hfv
  have hcf : ¬ Descent.Within t.children c f := fun hcf =>
    hheldf.not_within hu h.other ((Descent.Below.single hmem).trans_within hcf).within
  have hfs := hrelocates.held h.healthy hheldf h.target hcf
  have hcs := hrelocates.held_self h.healthy hheldf hcf
  have hus := hrelocates.reach_of h.healthy hureach (h.not_within hu)
  have hutype := (hrelocates.type u).trans hu
  have hshowns := hshown.relocates h.healthy h.reach h.floatingCon h.target hrelocates
  have hfirsts : v ∈ s.heads K := by
    have hKv : K ≠ v := by
      rintro rfl
      exact hheldf.content_type.1 h.target
    -- the container is on its old workspace, and not in the content container
    have hcK : c ∉ (t.con K).focusHead := by
      intro hcK
      obtain rfl : K = u := Option.some_inj.mp ((ht.parent K c (ht.focus K c hcK)).symm.trans h.parent)
      exact hheldf.content_type.1 hu
    rw [mem_heads, hrelocates.focusHead, if_neg hKv, List.erase_of_not_mem hcK, mem_heads.mp hfirst]
  -- the focus is on the workspace when it is shown
  obtain ⟨g, hg, hgr, hcr, hl⟩ : ∃ g, r.focused = some g ∧ Held r K v g ∧ Held r K v c ∧ Links s r := by
    rcases hr with rfl | rfl
    · exact ⟨f, hrelocates.focused.trans hf, hfs, hcs, .refl _⟩
    · have hl : Links s (s.moveFocus cfg c (t.getOutput v) (some v)) := (stirs_moveFocus s c _ _).links
      have hdown : Held s K v (s.descendFocused c) :=
        { hcs with within := hcs.within.trans (hcs.healthy.rooted.descendFocusedN_within _ _) }
      rw [hshown.getOutput_eq ht h.reachTarget] at hl ⊢
      have hfocused := @moveFocus_focused cfg s K c f o v hshowns hfirsts (hrelocates.focused.trans hf)
        hfs.within hcs
      rcases hfocused with hg | hg
      · exact ⟨f, hg, hfs.links hl, hcs.links hl, hl⟩
      · exact ⟨_, hg, hdown.links hl, hcs.links hl, hl⟩
  obtain ⟨z, hz, hgz, hfz, hcz, huz, hutz⟩ : ∃ z, r.workspaceShow cfg v = z ∧ Held z K v g ∧ z.focused = some g
      ∧ Held z K v c ∧ z.Reach u ∧ (z.con u).type = .workspace := by
    have hur := hl.reach.mpr hus
    have hutr := (hl.type u).trans hutype
    have hshow : r.workspaceShow cfg v = r ∨ r.workspaceShow cfg v = r.flagWorkspace v K := hgr.workspaceShow_eq hg
    rcases hshow with hz | hz
    · exact ⟨r, hz, hgr, hg, hcr, hur, hutr⟩
    · refine ⟨_, hz, hgr.flagWorkspace_self K, (flagWorkspace_fields r v K).1.trans hg, hcr.flagWorkspace_self K,
        ?_, ?_⟩
      · have hchildren : (r.flagWorkspace v K).children = r.children := by
          funext q
          rw [children, children, flagWorkspace_con]
        rw [Reach, hchildren, (flagWorkspace_fields r v K).2.1]
        exact hur
      · rw [flagWorkspace_con]
        exact hutr
  have hnext : t.moveFocusNext c v false = none := by
    rw [moveFocusNext, h.getWorkspace_eq, h.current]
    dsimp only
    rw [if_neg fun hall => h.other hall.2.1]
  rw [heq, hz, hnext, moveFocusBack]
  have hurgent := (stirs_moveUrgent z c (t.con c).urgent (some u)).links
  have hfocus := sameFocus_moveUrgent z c (t.con c).urgent (some u)
  have hvacates : Vacates z (z.moveEnd cfg c (t.con c).urgent (some u) (some u)) u :=
    vacates_moveEnd hgz.healthy hgz.stacked hutz huz (hgz.not_within_workspace hutz h.other) c _ _
  refine ⟨g, ?_, hvacates.held hgz h.other, hvacates.held hcz h.other⟩
  exact (hgz.links hurgent).focused_onRemoveChild ((hurgent.type u).trans hutz) h.other (hurgent.reach.mpr huz)
    (hfocus.focused.trans hfz)

end Tree

end I3
