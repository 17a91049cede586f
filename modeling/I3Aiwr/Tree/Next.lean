import I3Aiwr.Configuration.Directives
import I3Aiwr.Floating.ScratchpadShow
import I3Aiwr.Tree.Resize

/-!
# The next container in a direction

`get_tree_next` in `src/src/tree.c` climbs from a container until a sibling lies in the direction, and
remembers the opposite end of the first level it passes. A floating container has its own neighbours, a
container in fullscreen ends the climb, and from the workspace the next output is looked at.

## Main definitions

* `Tree.getTreeNextWorkspace`, `Tree.getTreeNext`
* `Tree.levels`: the containers from one up to its workspace
* `Tree.nextOnLevels`, `Tree.endOnLevels`: the sibling on the lowest level that has one, and the opposite
  end of the lowest level
* `Tree.NextWorkspace`: the visible workspace of the output in the direction

## Main results

* `getTreeNextLoop_permitted`, `getTreeNextLoop_within`: fullscreen containers
* `getTreeNextLoop_eq`: what the climb returns where nothing is in fullscreen
* `getTreeNext_directional`
* `not_next_force`: focus wrapping that is forced
-/

namespace I3

open Configuration (FocusWrapping)

/-- `get_output_containing` -/
def getOutputContaining (outputs : List Output) (x y : ℕ) : Option Output :=
  outputs.find? fun output =>
    output.active && decide (u32 output.rect.x ≤ x) && decide (x < u32 (output.rect.x + output.rect.width)) &&
      decide (u32 output.rect.y ≤ y) && decide (y < u32 (output.rect.y + output.rect.height))

namespace Tree

variable (t : Tree) (outputs : List Output) (focusWrapping : FocusWrapping) (direction : Direction)

/-! ### The climb -/

/-- `get_tree_next_workspace` -/
def getTreeNextWorkspace (con : ConId) : Option ConId :=
  if (t.getFullscreenCon con .global).isSome then none
  else
    let rect := (t.con con).rect
    let currentOutput := getOutputContaining outputs (u32 (rect.x + (rect.width / 2 : ℕ)))
      (u32 (rect.y + (rect.height / 2 : ℕ)))
    let nextOutput := currentOutput.bind fun current => getOutputNext outputs direction current .closest
    nextOutput.bind fun next => t.visibleWorkspace next.con

/-- The child at the end that one comes to when going round. -/
def wrapTowards (parent : ConId) : Option ConId :=
  match direction.beside with
  | .before => (t.con parent).nodesHead.getLast?
  | .after => (t.con parent).nodesHead.head?

/-- The next floating container, round at the end. -/
def floatingTowards (parent c : ConId) : Option ConId :=
  match direction.beside with
  | .before => (Queue.prev c (t.con parent).floatingHead).or (t.con parent).floatingHead.getLast?
  | .after => (Queue.next c (t.con parent).floatingHead).or (t.con parent).floatingHead.head?

/-- From `handle_workspace` on. -/
def handleWorkspace (con : ConId) (firstWrap : Option ConId) : Option ConId :=
  (t.getTreeNextWorkspace outputs direction con).or firstWrap

/-- What comes behind the loop. -/
def behindClimb (con : ConId) (firstWrap : Option ConId) : Option ConId :=
  if focusWrapping = .workspace then firstWrap else t.handleWorkspace outputs direction con firstWrap

/-- The loop of `get_tree_next`. -/
def getTreeNextLoop : ℕ → ConId → Option ConId → Option ConId
  | 0, _, _ => none
  | n + 1, con, firstWrap =>
    if (t.con con).type = .workspace then t.behindClimb outputs focusWrapping direction con firstWrap
    else if (t.con con).fullscreenMode = .output then
      (t.getWorkspace con).bind fun ws => t.behindClimb outputs focusWrapping direction ws firstWrap
    else if (t.con con).fullscreenMode = .global then firstWrap
    else match (t.con con).parent with
      | none => none
      | some parent =>
        if (t.con con).type = .floatingCon then
          if direction.orientation ≠ .horiz then none else t.floatingTowards direction parent con
        else if 1 < t.numChildren parent ∧ t.orientation parent = some direction.orientation then
          let next := t.siblingTowards parent con direction
          let wrap := (t.wrapTowards direction parent).filter t.fullscreenPermitsFocusing
          match next.filter t.fullscreenPermitsFocusing, focusWrapping with
          | some next, _ => some next
          | none, .off => getTreeNextLoop n parent firstWrap
          | none, .workspace => getTreeNextLoop n parent (firstWrap.or wrap)
          | none, .on => getTreeNextLoop n parent (firstWrap.or wrap)
          -- blocked by fullscreen
          | none, .force => if next.isSome then none else wrap
        else getTreeNextLoop n parent firstWrap

def getTreeNext (con : ConId) : Option ConId :=
  if (t.con con).type = .workspace then t.handleWorkspace outputs direction con none
  else t.getTreeNextLoop outputs focusWrapping direction t.nextCon con none

/-! ### What is to be returned -/

/-- The containers from this one up to its workspace, at most `n` of them. -/
def levelsN (n : ℕ) (con : ConId) : List ConId :=
  (t.chainN n con).takeWhile fun x => (t.con x).type ≠ .workspace

def levels (con : ConId) : List ConId := t.levelsN t.nextCon con

/-- The parent of the container, if its children are next to each other in the direction. -/
def parentAlong (c : ConId) : Option ConId :=
  (t.con c).parent.filter fun p => t.orientation p = some direction.orientation

/-- The next sibling on the lowest level that has one. -/
def nextOnLevels (levels : List ConId) : Option ConId :=
  levels.findSome? fun c => (t.parentAlong direction c).bind fun p => t.siblingTowards p c direction

/-- The opposite end of the lowest level with several children. -/
def endOnLevels (levels : List ConId) : Option ConId :=
  levels.findSome? fun c =>
    ((t.parentAlong direction c).filter fun p => 1 < t.numChildren p).bind fun p => t.wrapTowards direction p

/-- On the lowest level with several children the next sibling, or else the opposite end. -/
def roundOnLevels (levels : List ConId) : Option ConId :=
  levels.findSome? fun c =>
    ((t.parentAlong direction c).filter fun p => 1 < t.numChildren p).bind fun p =>
      (t.siblingTowards p c direction).or (t.wrapTowards direction p)

/-- The lowest parent of several children in the direction. -/
def lowestParent (levels : List ConId) : Option ConId :=
  levels.findSome? fun c => (t.parentAlong direction c).filter fun p => 1 < t.numChildren p

/-- What a tiling container leads to on a workspace where nothing is in fullscreen. -/
def directional (ws con : ConId) : Option ConId :=
  let next := t.nextOnLevels direction (t.levels con)
  let neighbour := t.getTreeNextWorkspace outputs direction ws
  let opposite := t.endOnLevels direction (t.levels con)
  match focusWrapping with
  | .off => next.or neighbour
  | .on => next.or (neighbour.or opposite)
  | .workspace => next.or opposite
  | .force => (t.roundOnLevels direction (t.levels con)).or neighbour

/-- The visible workspace of the output next to that of the workspace. -/
def NextWorkspace (ws w : ConId) : Prop :=
  ∃ current next, getOutputContaining outputs (u32 ((t.con ws).rect.x + ((t.con ws).rect.width / 2 : ℕ)))
      (u32 ((t.con ws).rect.y + ((t.con ws).rect.height / 2 : ℕ))) = some current ∧
    getOutputNext outputs direction current .closest = some next ∧ t.visibleWorkspace next.con = some w

variable {t outputs focusWrapping direction} {n : ℕ} {c con f g p q ws w : ConId} {firstWrap r : Option ConId}

/-! ### One level -/

theorem mem_wrapTowards (h : t.wrapTowards direction p = some q) : q ∈ (t.con p).nodesHead := by
  rw [wrapTowards] at h
  split at h
  · exact List.mem_of_getLast? h
  · exact List.mem_of_head? h

theorem mem_floatingTowards (h : t.floatingTowards direction p c = some q) :
    q ∈ (t.con p).floatingHead := by
  rw [floatingTowards] at h
  split at h
  · rcases Option.or_eq_some_iff.mp h with h | ⟨-, h⟩
    · exact Queue.mem_of_prev h
    · exact List.mem_of_getLast? h
  · rcases Option.or_eq_some_iff.mp h with h | ⟨-, h⟩
    · exact Queue.mem_of_next h
    · exact List.mem_of_head? h

theorem nextWorkspace_of_eq (h : t.getTreeNextWorkspace outputs direction ws = some w) :
    t.NextWorkspace outputs direction ws w := by
  rw [getTreeNextWorkspace] at h
  split at h
  · cases h
  · obtain ⟨next, hnext, hw⟩ := Option.bind_eq_some_iff.mp h
    obtain ⟨current, hcurrent, hnext⟩ := Option.bind_eq_some_iff.mp hnext
    exact ⟨current, next, hcurrent, hnext, hw⟩

/-- What one level of the climb can do. -/
inductive ClimbStep (t : Tree) (outputs : List Output) (focusWrapping : FocusWrapping)
    (direction : Direction) (n : ℕ) (con : ConId) (firstWrap : Option ConId) : Option ConId → Prop
  | workspace (htype : (t.con con).type = .workspace) :
    ClimbStep t outputs focusWrapping direction n con firstWrap
      (t.behindClimb outputs focusWrapping direction con firstWrap)
  | output {ws : ConId} (hws : t.getWorkspace con = some ws) :
    ClimbStep t outputs focusWrapping direction n con firstWrap
      (t.behindClimb outputs focusWrapping direction ws firstWrap)
  | global : ClimbStep t outputs focusWrapping direction n con firstWrap firstWrap
  | floating {p : ConId} {r : Option ConId} (hmode : (t.con con).fullscreenMode = .none)
    (hp : (t.con con).parent = some p) (htype : (t.con con).type = .floatingCon)
    (hr : ∀ c ∈ r, c ∈ t.children p) :
    ClimbStep t outputs focusWrapping direction n con firstWrap r
  | child {p : ConId} {r : Option ConId} (hmode : (t.con con).fullscreenMode = .none)
    (hp : (t.con con).parent = some p)
    (hr : ∀ c ∈ r, c ∈ t.children p ∧ t.fullscreenPermitsFocusing c = true) :
    ClimbStep t outputs focusWrapping direction n con firstWrap r
  | climb {p : ConId} {firstWrap' : Option ConId} (htype : (t.con con).type ≠ .workspace)
    (hmode : (t.con con).fullscreenMode = .none) (hp : (t.con con).parent = some p)
    (hwrap : ∀ c ∈ firstWrap',
      c ∈ firstWrap ∨ c ∈ t.children p ∧ t.fullscreenPermitsFocusing c = true) :
    ClimbStep t outputs focusWrapping direction n con firstWrap
      (t.getTreeNextLoop outputs focusWrapping direction n p firstWrap')
  | nowhere : ClimbStep t outputs focusWrapping direction n con firstWrap none

/-- **One level of the climb.** -/
theorem climbStep (n : ℕ) (con : ConId) (firstWrap : Option ConId) :
    ClimbStep t outputs focusWrapping direction n con firstWrap
      (t.getTreeNextLoop outputs focusWrapping direction (n + 1) con firstWrap) := by
  rw [getTreeNextLoop]
  by_cases htype : (t.con con).type = .workspace
  · rw [if_pos htype]
    exact .workspace htype
  rw [if_neg htype]
  by_cases houtput : (t.con con).fullscreenMode = .output
  · rw [if_pos houtput]
    cases hws : t.getWorkspace con with
    | none => exact .nowhere
    | some ws => exact .output hws
  rw [if_neg houtput]
  by_cases hglobal : (t.con con).fullscreenMode = .global
  · rw [if_pos hglobal]
    exact .global
  rw [if_neg hglobal]
  have hmode : (t.con con).fullscreenMode = .none := by
    cases h : (t.con con).fullscreenMode with
    | none => rfl
    | output => exact absurd h houtput
    | global => exact absurd h hglobal
  cases hp : (t.con con).parent with
  | none => exact .nowhere
  | some p =>
    dsimp only
    by_cases hfloating : (t.con con).type = .floatingCon
    · rw [if_pos hfloating]
      split
      · exact .nowhere
      · exact .floating hmode hp hfloating fun c hc => List.mem_append_right _ (mem_floatingTowards hc)
    rw [if_neg hfloating]
    have hwrap : ∀ c ∈ (t.wrapTowards direction p).filter t.fullscreenPermitsFocusing,
        c ∈ t.children p ∧ t.fullscreenPermitsFocusing c = true := by
      intro c hc
      obtain ⟨hc, hpermits⟩ := Option.mem_filter_iff.mp hc
      exact ⟨List.mem_append_left _ (mem_wrapTowards hc), hpermits⟩
    have hor : ∀ c ∈ firstWrap.or ((t.wrapTowards direction p).filter t.fullscreenPermitsFocusing),
        c ∈ firstWrap ∨ c ∈ t.children p ∧ t.fullscreenPermitsFocusing c = true := by
      intro c hc
      rcases Option.or_eq_some_iff.mp hc with hc | ⟨-, hc⟩
      · exact .inl hc
      · exact .inr (hwrap c hc)
    split
    · split
      · next next hnext =>
        obtain ⟨hnext, hpermits⟩ := Option.mem_filter_iff.mp hnext
        refine .child hmode hp fun c hc => ?_
        obtain rfl : next = c := Option.some.inj hc
        exact ⟨List.mem_append_left _ (mem_siblingTowards hnext), hpermits⟩
      · exact .climb htype hmode hp fun c hc => .inl hc
      · exact .climb htype hmode hp hor
      · exact .climb htype hmode hp hor
      · split
        · exact .nowhere
        · exact .child hmode hp hwrap
    · exact .climb htype hmode hp fun c hc => .inl hc

/-! ### Up to the workspace -/

/-- The parent is on the way up as long as the workspace has not been reached. -/
theorem chainN_succ_find? {k : ConId → Bool} (h : (t.chainN (n + 1) con).find? k = some ws) (hcon : k con = false)
    (hp : (t.con con).parent = some p) : (t.chainN n p).find? k = some ws := by
  rw [chainN, List.find?_cons, hcon, hp] at h
  exact h

theorem type_of_chainN (h : (t.chainN n con).find? (fun x => (t.con x).type = .workspace) = some ws) :
    (t.con ws).type = .workspace := by
  simpa using List.find?_some h

theorem eq_of_chainN_workspace (h : (t.chainN (n + 1) con).find? (fun x => (t.con x).type = .workspace) = some ws)
    (htype : (t.con con).type = .workspace) : con = ws := by
  rw [chainN, List.find?_cons, decide_eq_true htype] at h
  exact Option.some.inj h

/-- The workspace that the climb jumps to is the one above. -/
theorem Healthy.eq_of_chainN (ht : Healthy t) (hc : t.Reach con)
    (h : (t.chainN n con).find? (fun x => (t.con x).type = .workspace) = some ws)
    (hw : t.getWorkspace con = some w) : w = ws := by
  have hwithin := ht.rooted.within_of_mem_chainN hc (List.mem_of_find?_eq_some h)
  have heq := ht.rooted.getWorkspace_eq ht.layered hc (type_of_chainN h) hwithin
  exact Option.some.inj (hw.symm.trans heq)

theorem behindClimb_eq_some (h : t.behindClimb outputs focusWrapping direction ws firstWrap = some c) :
    t.NextWorkspace outputs direction ws c ∨ c ∈ firstWrap := by
  rw [behindClimb] at h
  split at h
  · exact .inr h
  · rcases Option.or_eq_some_iff.mp h with h | ⟨-, h⟩
    · exact .inl (nextWorkspace_of_eq h)
    · exact .inr h

/-! ### Fullscreen -/

/-- Nothing is forbidden while the focus is not in a fullscreen container of the workspace. -/
theorem permits_of_fullscreenAncestor (hfocused : t.focused = some f)
    (h : t.fullscreenAncestor f = some ws) (htype : (t.con ws).type = .workspace) (c : ConId) :
    t.fullscreenPermitsFocusing c = true := by
  have hbind : t.focused.bind t.fullscreenAncestor = some ws := by rw [hfocused]; exact h
  simp [fullscreenPermitsFocusing, hbind, htype]

/-- **What the climb returns may be focused**, or it is the workspace of the next output. -/
theorem getTreeNextLoop_permitted (ht : Healthy t) (hfocused : t.focused = some f)
    (hmode : (t.con ws).fullscreenMode ≠ .none) (n : ℕ) (con : ConId) (firstWrap : Option ConId)
    (hc : t.Reach con)
    (hws : (t.chainN n con).find? (fun x => (t.con x).type = .workspace) = some ws)
    (hfs : t.fullscreenAncestor f = (t.chainN n con).find? fun x => (t.con x).fullscreenMode ≠ .none)
    (hwrap : ∀ c ∈ firstWrap, t.fullscreenPermitsFocusing c = true) :
    ∀ c ∈ t.getTreeNextLoop outputs focusWrapping direction n con firstWrap,
      t.NextWorkspace outputs direction ws c ∨ t.fullscreenPermitsFocusing c = true := by
  induction n generalizing con firstWrap with
  | zero => cases hws
  | succ n ih =>
    intro c hc'
    have hbehind : ∀ c, t.behindClimb outputs focusWrapping direction ws firstWrap = some c →
        t.NextWorkspace outputs direction ws c ∨ t.fullscreenPermitsFocusing c = true :=
      fun c h => (behindClimb_eq_some h).imp_right (hwrap c)
    have hstep : ClimbStep t outputs focusWrapping direction n con firstWrap _ := climbStep n con firstWrap
    generalize t.getTreeNextLoop outputs focusWrapping direction (n + 1) con firstWrap = r at hc' hstep
    cases hstep with
    | workspace htype =>
      obtain rfl := eq_of_chainN_workspace hws htype
      exact hbehind c hc'
    | output hw =>
      obtain rfl := ht.eq_of_chainN hc hws hw
      exact hbehind c hc'
    | global => exact .inr (hwrap c hc')
    | floating hnone hp htype hr =>
      -- above a floating container is its workspace, so the focus is in no fullscreen container
      obtain ⟨q, hq, hqtype, -⟩ := ht.floating_parent hc htype
      have hrest := chainN_succ_find? hws (by simp [htype]) hq
      rw [chainN, List.find?_cons, hq] at hfs
      cases n with
      | zero => cases hrest
      | succ n =>
        obtain rfl := eq_of_chainN_workspace hrest hqtype
        simp only [hnone, chainN, List.find?_cons, ne_eq, not_true_eq_false, decide_false, hmode,
          not_false_eq_true, decide_true] at hfs
        exact .inr (permits_of_fullscreenAncestor hfocused hfs hqtype c)
    | child hnone hp hr => exact .inr (hr c hc').2
    | climb htype hnone hp hr =>
      refine ih _ _ (ht.rooted.reach_parent hc hp) (chainN_succ_find? hws (by simpa using htype) hp) ?_ ?_ c hc'
      · rw [hfs, chainN, List.find?_cons, hp]
        simp [hnone]
      · intro d hd
        rcases hr d hd with hd | hd
        · exact hwrap d hd
        · exact hd.2
    | nowhere => cases hc'

/-- **Inside a global fullscreen container** of the workspace the climb stays inside. -/
theorem getTreeNextLoop_within (ht : Healthy t) (hglobal : (t.con g).fullscreenMode = .global)
    (hwg : Descent.Below t.children ws g) (n : ℕ) (con : ConId) (firstWrap : Option ConId)
    (hc : t.Reach con) (hgc : Descent.Within t.children g con)
    (hws : (t.chainN n con).find? (fun x => (t.con x).type = .workspace) = some ws)
    (hwrap : ∀ c ∈ firstWrap, Descent.Within t.children g c) :
    ∀ c ∈ t.getTreeNextLoop outputs focusWrapping direction n con firstWrap,
      Descent.Within t.children g c := by
  induction n generalizing con firstWrap with
  | zero => cases hws
  | succ n ih =>
    intro c hc'
    have hwstype := type_of_chainN hws
    have hnot : ∀ x, Descent.Within t.children g x → (t.con x).type ≠ .workspace :=
      fun x hx => ht.layered.workspace ws hwstype x (hwg.trans_within hx)
    -- a container that is not in fullscreen is not the top
    have habove : ∀ {p}, (t.con con).fullscreenMode = .none → (t.con con).parent = some p →
        Descent.Within t.children g p := by
      intro p hnone hp
      have hne : con ≠ g := by
        rintro rfl
        rw [hnone] at hglobal
        cases hglobal
      exact Descent.within_parent ht.rooted.parent ((Descent.within_iff.mp hgc).resolve_left hne) hp
    have hstep : ClimbStep t outputs focusWrapping direction n con firstWrap _ := climbStep n con firstWrap
    generalize t.getTreeNextLoop outputs focusWrapping direction (n + 1) con firstWrap = r at hc' hstep
    cases hstep with
    | workspace htype => exact absurd htype (hnot con hgc)
    | output hw =>
      cases ht.eq_of_chainN hc hws hw
      obtain ⟨x, hx⟩ := ht.rooted.exists_getFullscreenCon hwg hglobal
      have hnone : t.getTreeNextWorkspace outputs direction ws = none := if_pos (by simp [hx])
      rw [behindClimb, handleWorkspace, hnone, Option.none_or, ite_self] at hc'
      exact hwrap c hc'
    | global => exact hwrap c hc'
    | floating hnone hp htype hr =>
      obtain ⟨q, hq, hqtype, -⟩ := ht.floating_parent hc htype
      exact absurd hqtype (hnot q (habove hnone hq))
    | child hnone hp hr => exact ((habove hnone hp).tail (hr c hc').1).within
    | climb htype hnone hp hr =>
      refine ih _ _ (ht.rooted.reach_parent hc hp) (habove hnone hp)
        (chainN_succ_find? hws (by simpa using htype) hp) ?_ c hc'
      intro d hd
      rcases hr d hd with hd | hd
      · exact hwrap d hd
      · exact ((habove hnone hp).tail hd.1).within
    | nowhere => cases hc'

/-! ### Tiling containers -/

/-- An only child has no siblings. -/
theorem siblingTowards_eq_none (h : ¬ 1 < t.numChildren p) : t.siblingTowards p c direction = none := by
  rw [numChildren] at h
  have hnone : ∀ l : List ConId, l.length ≤ 1 → Queue.next c l = none := by
    intro l hl
    cases l with
    | nil => rfl
    | cons a l =>
      obtain rfl : l = [] := by simpa using hl
      simp [Queue.next]
  cases direction
  all_goals first
    | exact hnone _ (by omega)
    | exact hnone _ (by rw [List.length_reverse]; omega)

/-- There is an opposite end where there are children. -/
theorem exists_wrapTowards (h : 1 < t.numChildren p) : ∃ d, t.wrapTowards direction p = some d := by
  have hne : (t.con p).nodesHead ≠ [] := by
    intro hnil
    simp [numChildren, hnil] at h
  rw [wrapTowards]
  split
  · exact ⟨_, List.getLast?_eq_some_getLast hne⟩
  · exact ⟨_, List.head?_eq_some_head hne⟩

theorem levelsN_eq_nil (htype : (t.con con).type = .workspace) : t.levelsN (n + 1) con = [] := by
  rw [levelsN, chainN, List.takeWhile_cons_of_neg (by simp [htype])]

theorem levelsN_succ (htype : (t.con con).type ≠ .workspace) (hp : (t.con con).parent = some p) :
    t.levelsN (n + 1) con = con :: t.levelsN n p := by
  rw [levelsN, chainN, List.takeWhile_cons_of_pos (by simp [htype]), hp, levelsN]

@[simp]
theorem nextOnLevels_cons (c : ConId) (l : List ConId) : t.nextOnLevels direction (c :: l) =
    ((t.parentAlong direction c).bind fun p => t.siblingTowards p c direction).or (t.nextOnLevels direction l) := by
  rw [nextOnLevels, List.findSome?_cons]
  cases (t.parentAlong direction c).bind fun p => t.siblingTowards p c direction <;> rfl

@[simp]
theorem endOnLevels_cons (c : ConId) (l : List ConId) : t.endOnLevels direction (c :: l) =
    (((t.parentAlong direction c).filter fun p => 1 < t.numChildren p).bind fun p =>
      t.wrapTowards direction p).or (t.endOnLevels direction l) := by
  rw [endOnLevels, List.findSome?_cons]
  cases ((t.parentAlong direction c).filter fun p => 1 < t.numChildren p).bind fun p =>
    t.wrapTowards direction p <;> rfl

@[simp]
theorem roundOnLevels_cons (c : ConId) (l : List ConId) : t.roundOnLevels direction (c :: l) =
    (((t.parentAlong direction c).filter fun p => 1 < t.numChildren p).bind fun p =>
      (t.siblingTowards p c direction).or (t.wrapTowards direction p)).or (t.roundOnLevels direction l) := by
  rw [roundOnLevels, List.findSome?_cons]
  cases ((t.parentAlong direction c).filter fun p => 1 < t.numChildren p).bind fun p =>
    (t.siblingTowards p c direction).or (t.wrapTowards direction p) <;> rfl

/-- Going round leads to a child of the lowest parent. -/
theorem exists_roundOnLevels {l : List ConId} (h : t.lowestParent direction l = some p) :
    ∃ c ∈ (t.con p).nodesHead, t.roundOnLevels direction l = some c := by
  induction l with
  | nil => cases h
  | cons x l ih =>
    rw [lowestParent, List.findSome?_cons] at h
    rw [roundOnLevels_cons]
    cases hx : (t.parentAlong direction x).filter fun p => 1 < t.numChildren p with
    | none =>
      rw [hx] at h
      simpa using ih h
    | some q =>
      rw [hx] at h
      obtain rfl := Option.some.inj h
      have hmany : 1 < t.numChildren q := by simpa using (Option.mem_filter_iff.mp hx).2
      obtain ⟨d, hd⟩ : ∃ d, t.wrapTowards direction q = some d := exists_wrapTowards hmany
      cases hnext : t.siblingTowards q x direction with
      | some next => exact ⟨next, mem_siblingTowards hnext, by simp [hnext]⟩
      | none => exact ⟨d, mem_wrapTowards hd, by simp [hnext, hd]⟩

/-- **What the climb returns where nothing is in fullscreen** and nothing floats: the next sibling on the
lowest level that has one, and then the neighbour and the opposite end as the focus wrapping wants it. -/
theorem getTreeNextLoop_eq (hpermits : ∀ c, t.fullscreenPermitsFocusing c = true) (n : ℕ) (con : ConId)
    (firstWrap : Option ConId)
    (hws : (t.chainN n con).find? (fun x => (t.con x).type = .workspace) = some ws)
    (htiling : ∀ x ∈ t.levelsN n con, (t.con x).type ≠ .floatingCon ∧ (t.con x).fullscreenMode = .none) :
    t.getTreeNextLoop outputs focusWrapping direction n con firstWrap =
      let next := t.nextOnLevels direction (t.levelsN n con)
      let neighbour := t.getTreeNextWorkspace outputs direction ws
      let opposite := t.endOnLevels direction (t.levelsN n con)
      match focusWrapping with
      | .off => next.or (neighbour.or firstWrap)
      | .on => next.or (neighbour.or (firstWrap.or opposite))
      | .workspace => next.or (firstWrap.or opposite)
      | .force => (t.roundOnLevels direction (t.levelsN n con)).or (neighbour.or firstWrap) := by
  have hfilter : ∀ o : Option ConId, o.filter t.fullscreenPermitsFocusing = o := by
    intro o
    cases o <;> simp [hpermits]
  induction n generalizing con firstWrap with
  | zero => cases hws
  | succ n ih =>
    rw [getTreeNextLoop]
    by_cases htype : (t.con con).type = .workspace
    · obtain rfl := eq_of_chainN_workspace hws htype
      rw [if_pos htype, levelsN_eq_nil htype]
      cases focusWrapping <;>
        simp [behindClimb, handleWorkspace, nextOnLevels, endOnLevels, roundOnLevels]
    cases hp : (t.con con).parent with
    | none => simp [chainN, hp, htype] at hws
    | some p =>
      have hrest := chainN_succ_find? hws (by simpa using htype) hp
      rw [levelsN_succ htype hp] at htiling ⊢
      obtain ⟨hfloating, hmode⟩ := htiling con List.mem_cons_self
      have ih := fun firstWrap => ih p firstWrap hrest fun x hx => htiling x (List.mem_cons_of_mem _ hx)
      rw [if_neg htype, if_neg (by simp [hmode]), if_neg (by simp [hmode])]
      dsimp only
      rw [if_neg hfloating]
      by_cases hlevel : 1 < t.numChildren p ∧ t.orientation p = some direction.orientation
      · obtain ⟨hmany, halong⟩ := hlevel
        have hparent : t.parentAlong direction con = some p := by simp [parentAlong, hp, halong]
        obtain ⟨d, hd⟩ : ∃ d, t.wrapTowards direction p = some d := exists_wrapTowards hmany
        rw [if_pos ⟨hmany, halong⟩]
        cases hnext : t.siblingTowards p con direction with
        | some next =>
          rw [hfilter]
          cases focusWrapping <;> simp [hparent, hnext, hmany, Option.filter_some]
        | none =>
          rw [hfilter, hfilter, hd]
          cases focusWrapping <;> simp [hparent, hnext, hmany, hd, ih, Option.filter_some]
      · rw [if_neg hlevel, ih]
        -- the level has no sibling in the direction and no opposite end
        have hlevel : t.parentAlong direction con = none ∨
            t.parentAlong direction con = some p ∧ ¬ 1 < t.numChildren p := by
          by_cases halong : t.orientation p = some direction.orientation
          · exact .inr ⟨by simp [parentAlong, hp, halong], fun hmany => hlevel ⟨hmany, halong⟩⟩
          · exact .inl (by simp [parentAlong, hp, halong])
        rcases hlevel with hnone | ⟨hparent, hfew⟩
        · simp [hnone]
        · simp [hparent, siblingTowards_eq_none hfew, hfew, Option.filter_some]

/-! ### From the focused container -/

/-- Nothing is forbidden while there is no fullscreen container up to the workspace. -/
theorem permits_of_levels (hfocused : t.focused = some f) (hws : t.getWorkspace f = some ws)
    (hmode : (t.con ws).fullscreenMode ≠ .none)
    (hnone : ∀ x ∈ t.levels f, (t.con x).fullscreenMode = .none) (c : ConId) :
    t.fullscreenPermitsFocusing c = true := by
  have hempty : t.fullscreensAbove f = [] := by
    rw [fullscreensAbove, List.filter_eq_nil_iff]
    intro x hx
    simpa using hnone x hx
  have hancestor := fullscreenAncestor_eq hws hmode
  rw [hempty] at hancestor
  exact permits_of_fullscreenAncestor hfocused hancestor (type_of_chainN hws) c

variable (outputs focusWrapping direction)

/-- **The next container in a direction**, from the focused one: what is returned may be focused or is the
workspace of the next output; inside a global fullscreen container one stays inside; and from a tiling
container one gets to where the siblings, the neighbour and the opposite end lead. -/
theorem getTreeNext_directional (t : Tree) (ht : Healthy t) (f ws : ConId) (hfocused : t.focused = some f)
    (hf : t.Reach f) (hws : t.getWorkspace f = some ws) (hmode : (t.con ws).fullscreenMode ≠ .none) :
    (∀ c ∈ t.getTreeNext outputs focusWrapping direction f,
        t.NextWorkspace outputs direction ws c ∨ t.fullscreenPermitsFocusing c = true) ∧
      (∀ g, (t.con g).fullscreenMode = .global → Descent.Below t.children ws g →
        Descent.Within t.children g f →
        ∀ c ∈ t.getTreeNext outputs focusWrapping direction f, Descent.Within t.children g c) ∧
      ((t.con f).type ≠ .workspace →
        (∀ x ∈ t.levels f, (t.con x).type ≠ .floatingCon ∧ (t.con x).fullscreenMode = .none) →
        t.getTreeNext outputs focusWrapping direction f = t.directional outputs focusWrapping direction ws f ∧
          (focusWrapping = .force → ∀ p, t.lowestParent direction (t.levels f) = some p →
            ∃ c ∈ (t.con p).nodesHead, t.getTreeNext outputs focusWrapping direction f = some c)) := by
  have hclimb : (t.con f).type ≠ .workspace → t.getTreeNext outputs focusWrapping direction f =
      t.getTreeNextLoop outputs focusWrapping direction t.nextCon f none := fun h => if_neg h
  refine ⟨?_, ?_, ?_⟩
  · intro c hc
    by_cases htype : (t.con f).type = .workspace
    · obtain rfl : f = ws := ht.layered.unique ht.rooted htype (type_of_chainN hws) (.refl _)
        (ht.rooted.within_of_mem_chainN hf (List.mem_of_find?_eq_some hws))
      rw [getTreeNext, if_pos htype, handleWorkspace, Option.or_none] at hc
      exact .inl (nextWorkspace_of_eq hc)
    · rw [hclimb htype] at hc
      exact getTreeNextLoop_permitted ht hfocused hmode _ f none hf hws rfl (by simp) c hc
  · intro g hglobal hwg hgf c hc
    have htype : (t.con f).type ≠ .workspace :=
      ht.layered.workspace ws (type_of_chainN hws) f (hwg.trans_within hgf)
    rw [hclimb htype] at hc
    exact getTreeNextLoop_within ht hglobal hwg _ f none hf hgf hws (by simp) c hc
  · intro htype htiling
    have hpermits := permits_of_levels hfocused hws hmode fun x hx => (htiling x hx).2
    have heq : t.getTreeNext outputs focusWrapping direction f =
        t.directional outputs focusWrapping direction ws f := by
      rw [hclimb htype, getTreeNextLoop_eq hpermits _ f none hws htiling]
      cases focusWrapping <;> simp [directional, levels]
    refine ⟨heq, ?_⟩
    rintro rfl p hp
    obtain ⟨c, hmem, hround⟩ := exists_roundOnLevels hp
    refine ⟨c, hmem, ?_⟩
    rw [heq, directional, hround, Option.some_or]

/-! ### Two levels -/

/-- A workspace split horizontally, whose first child is a horizontal split of two windows. -/
def twoLevels : Tree := ofList [
  { type := .root, layout := .splith, nodesHead := [1], focusHead := [1] },
  { type := .output, parent := some 0, name := "eDP-1", layout := .output, nodesHead := [2], focusHead := [2] },
  { parent := some 1, layout := .splith, nodesHead := [3], focusHead := [3] },
  { type := .workspace, parent := some 2, name := "1", num := 1, layout := .splith, nodesHead := [4, 7],
    focusHead := [4, 7], fullscreenMode := .output },
  { parent := some 3, layout := .splith, nodesHead := [5, 6], focusHead := [6, 5] },
  { parent := some 4, window := some { id := 1 } },
  { parent := some 4, window := some { id := 2 } },
  { parent := some 3, window := some { id := 3 } }] (some 6)

theorem healthy_twoLevels : Healthy twoLevels :=
  healthy_ofList (3 < ·) (rooted_ofList (by decide +kernel) (by decide +kernel)) (by decide +kernel)

theorem directional_twoLevels :
    twoLevels.getTreeNext [] .on .right 6 = some 7 ∧
      (∀ c ∈ twoLevels.getTreeNext [] .on .right 6,
        twoLevels.NextWorkspace [] .right 3 c ∨ twoLevels.fullscreenPermitsFocusing c = true) ∧
      (∀ g, (twoLevels.con g).fullscreenMode = .global → Descent.Below twoLevels.children 3 g →
        Descent.Within twoLevels.children g 6 →
        ∀ c ∈ twoLevels.getTreeNext [] .on .right 6, Descent.Within twoLevels.children g c) ∧
      ((twoLevels.con 6).type ≠ .workspace →
        (∀ x ∈ twoLevels.levels 6, (twoLevels.con x).type ≠ .floatingCon ∧
          (twoLevels.con x).fullscreenMode = .none) →
        twoLevels.getTreeNext [] .on .right 6 = twoLevels.directional [] .on .right 3 6 ∧
          (FocusWrapping.on = .force → ∀ p, twoLevels.lowestParent .right (twoLevels.levels 6) = some p →
            ∃ c ∈ (twoLevels.con p).nodesHead, twoLevels.getTreeNext [] .on .right 6 = some c)) :=
  ⟨by decide +kernel, getTreeNext_directional [] .on .right twoLevels healthy_twoLevels 6 3 rfl
    (reach_of_isChain (l := [1, 2, 3, 4, 6]) reach_croot (by decide +kernel) (by simp)) (by decide +kernel)
    (by decide +kernel)⟩

/-- Forced wrapping stays on the lower level, where there is no next sibling; the level above has one. -/
theorem not_next_force :
    Healthy twoLevels ∧ twoLevels.focused = some 6 ∧ twoLevels.getWorkspace 6 = some 3 ∧
      (∀ x ∈ twoLevels.levels 6, (twoLevels.con x).type ≠ .floatingCon ∧
        (twoLevels.con x).fullscreenMode = .none) ∧
      twoLevels.nextOnLevels .right (twoLevels.levels 6) = some 7 ∧
      twoLevels.getTreeNext [] .force .right 6 = some 5 :=
  ⟨healthy_twoLevels, rfl, by decide +kernel, by decide +kernel, by decide +kernel, by decide +kernel⟩

end Tree

end I3
