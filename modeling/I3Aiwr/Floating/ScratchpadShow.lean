import Mathlib.Data.List.TakeWhile
import I3Aiwr.Floating.Enable
import I3Aiwr.Tree.Exclusive
import I3Aiwr.Tree.Fullscreen
import I3Aiwr.Tree.Move
import I3Aiwr.Tree.Shown

/-!
# Showing and hiding scratchpad windows

`scratchpad_show` of `src/scratchpad.c` has three modes: without criteria it hides the focused scratchpad
window, or looks for one to be shown; with criteria it hides or shows the window that was matched. The
last mode asks the parent of the window whether it is in the scratchpad, where the others ask its floating
container, and it has disabled a fullscreen container before it refuses. Moving the window is refused too
if another container above the focus is fullscreen.

## Main definitions

* `Tree.scratchpadMove`, `Tree.scratchpadShow`
* `Tree.AtRest s v f`: the tree between two events
* `Tree.Toggles s c`: the window is hidden or shown, or nothing changes
* `Tree.Toggleable s v f c`: the condition for it, on the tree before

## Main results

* `Tree.AtRest.scratchpadMove_hides`, `Tree.AtRest.bringHere_shows`: where the window goes
* `Tree.AtRest.toggles_iff`: when a window is toggled
-/

namespace I3

/-- What the scratchpad takes from other parts: `checkSize t c` is the rectangle that
`floating_check_size` leaves for the floating container `c`. -/
structure ScratchpadConfig extends FloatingConfig where
  checkSize : Tree → ConId → Rect := fun t c => (t.con c).rect

namespace Tree

variable (cfg : Config) (sc : ScratchpadConfig) (t : Tree)

/-- `get_existing_workspace_by_name`: the last output with such a workspace counts. -/
def getExistingWorkspaceByName (name : String) : Option ConId :=
  (t.con t.croot).nodesHead.foldl (fun workspace output =>
    ((t.workspacesOf output).find? fun child => sameName (t.con child).name name).or workspace) none

def setScratchpadState (c : ConId) (state : ScratchpadState) : Tree :=
  t.modify c fun d => { d with scratchpadState := state }

/-- The floating container around `c` is in use as a scratchpad window. -/
def inScratchpad (c : ConId) : Bool :=
  (t.insideFloating c).any fun floating => (t.con floating).scratchpadState ≠ .none

/-! ### Moving to the scratchpad -/

/-- The floating container goes to `__i3_scratch`, and is known as a scratchpad window from now on. -/
def sendToScratch (scratch floating : ConId) (state : ScratchpadState) : Tree :=
  let t := t.conMoveToWorkspace cfg floating scratch true false
  if (t.con floating).scratchpadState = .none then t.setScratchpadState floating state else t

/-- `scratchpad_move` for a container that is no workspace; `none` where the source would follow a null
pointer. -/
def scratchpadMoveCon (scratch con : ConId) : Option Tree :=
  if t.getWorkspace con = some scratch then some t
  else
    let t := t.conDisableFullscreen con
    match t.insideFloating con with
    | some floating => some (t.sendToScratch cfg scratch floating .changed)
    | none =>
      let t := (t.floatingEnable cfg sc.toFloatingConfig con false).1
      (t.con con).parent.map fun floating => t.sendToScratch cfg scratch floating .fresh

/-- The loop over the focus stack of a workspace; the next one is taken before the move. There is no
workspace below another one. -/
def scratchpadMoveChildren (scratch ws : ConId) : ℕ → Tree → Option ConId → Option Tree
  | 0, t, _ | _ + 1, t, none => some t
  | n + 1, t, some current =>
    (t.scratchpadMoveCon cfg sc scratch current).bind fun t' =>
      scratchpadMoveChildren scratch ws n t' (Queue.next current (t.con ws).focusHead)

/-- `scratchpad_move`. -/
def scratchpadMove (scratch con : ConId) : Option Tree :=
  if (t.con con).type = .workspace then
    scratchpadMoveChildren cfg sc scratch con t.nextCon t (t.con con).focusHead.head?
  else t.scratchpadMoveCon cfg sc scratch con

/-! ### Showing -/

/-- The first fullscreen container at or above the focus leaves fullscreen mode. -/
def leaveFullscreen : Tree :=
  match t.focused.bind t.fullscreenAncestor with
  | none => t
  | some fs => if (t.con fs).type = .workspace then t else t.conToggleFullscreen cfg fs .output

/-- A scratchpad window on the focused workspace, other than the focused one. -/
def unfocusedScratchpad (focusedWs focused : ConId) : Option ConId :=
  (t.con focusedWs).floatingHead.find? fun walk =>
    t.inScratchpad walk ∧ t.insideFloating walk ≠ t.insideFloating focused

/-- A scratchpad window on another workspace that is not internal. -/
def visibleScratchpad (focusedWs : ConId) : Option ConId :=
  t.allCons.find? fun walk => (t.getWorkspace walk).any (fun ws => !t.isInternal ws && ws ≠ focusedWs)
    && t.inScratchpad walk

/-- Half the width and three quarters of the height of the output, in the middle of the workspace. -/
def adjustFresh (con : ConId) : Tree :=
  match t.getOutput con, t.getWorkspace con with
  | some output, some ws =>
    let t := t.modify con fun d => { d with rect := { d.rect with
      width := (t.con output).rect.width / 2
      height := (t.con output).rect.height * 3 / 4 } }
    let t := t.modify con fun d => { d with rect := sc.checkSize t con }
    let rect := (t.con ws).rect
    t.modify con fun d => { d with rect := { d.rect with
      x := rect.x + (rect.width / 2 : ℕ) - (d.rect.width / 2 : ℕ)
      y := rect.y + (rect.height / 2 : ℕ) - (d.rect.height / 2 : ℕ) } }
  | _, _ => t

/-- The size of a new scratchpad window is adjusted, and it is focused on the workspace `active`. -/
def present (con active : ConId) (current : Option ConId) : Tree :=
  let t := if (t.con con).scratchpadState = .fresh then t.adjustFresh sc con else t
  let t := if current ≠ some active then t.workspaceShow cfg active else t
  t.conActivate cfg (t.descendFocused con)

/-- The last steps of `scratchpad_show`: the floating container `con` comes from the workspace `current` to
the workspace `active`, and is focused. -/
def bringHere (con active : ConId) (current : Option ConId) : Tree :=
  (t.conMoveToWorkspace cfg con active true false).present cfg sc con active current

/-- `scratchpad_show` without criteria, from the point where no fullscreen container is in the way. -/
def scratchpadShowAny (scratch focused active : ConId) : Option (Tree × Bool) :=
  match t.unfocusedScratchpad active focused with
  | some walk => some (t.conActivate cfg (t.descendTilingFocused walk), true)
  | none => match t.visibleScratchpad active with
    | some walk => (t.insideFloating walk).map fun floating =>
      let t := t.conMoveToWorkspace cfg floating active true false
      (t.conActivate cfg (t.descendFocused walk), true)
    | none => match (t.con scratch).floatingHead with
      | [] => some (t, false)
      | con :: _ => some (t.bringHere cfg sc con active none, true)

/-- The same with criteria. -/
def scratchpadShowCon (scratch active con : ConId) : Option (Tree × Bool) :=
  (t.con con).parent.bind fun parent =>
    if (t.con parent).scratchpadState = .none then some (t, false)
    else
      let current := t.getWorkspace con
      if t.inScratchpad con ∧ current ≠ some scratch ∧ current = some active then
        (t.scratchpadMove cfg sc scratch con).map fun t => (t, true)
      else (t.insideFloating con).map fun floating => (t.bringHere cfg sc floating active current, true)

/-- `scratchpad_show`, where `__i3_scratch` exists; `none` where the source would follow a null pointer. -/
def scratchpadShow (con : Option ConId) : Option (Tree × Bool) := do
  let scratch ← t.getExistingWorkspaceByName "__i3_scratch"
  let focused ← t.focused
  if con = none ∧ t.inScratchpad focused then
    return (← t.scratchpadMove cfg sc scratch focused, true)
  let t := t.leaveFullscreen cfg
  let active ← t.getWorkspace focused
  match con with
  | none => t.scratchpadShowAny cfg sc scratch focused active
  | some con => t.scratchpadShowCon cfg sc scratch active con

theorem links_setScratchpadState (t : Tree) (c : ConId) (state : ScratchpadState) :
    Links t (t.setScratchpadState c state) := .of_modify t c _ rfl rfl rfl rfl rfl rfl rfl

theorem links_adjustFresh (t : Tree) (c : ConId) : Links t (t.adjustFresh sc c) := by
  unfold adjustFresh
  split
  · dsimp only
    exact ((Links.of_modify t c _ rfl rfl rfl rfl rfl rfl rfl).trans
      (.of_modify _ c _ rfl rfl rfl rfl rfl rfl rfl)).trans (.of_modify _ c _ rfl rfl rfl rfl rfl rfl rfl)
  · exact .refl t

theorem adjustFresh_focused (t : Tree) (c : ConId) : (t.adjustFresh sc c).focused = t.focused := by
  unfold adjustFresh
  split <;> rfl

/-! ### Fullscreen containers above the focus -/

section Fullscreens

variable {cfg sc t} {t' : Tree} {K c d f o p s u v w x y : ConId}

variable (t) in
/-- The fullscreen containers from `c` up to its workspace. -/
def fullscreensAbove (c : ConId) : List ConId :=
  ((t.chain c).takeWhile fun x => (t.con x).type ≠ .workspace).filter fun x => (t.con x).fullscreenMode ≠ .none

/-- The trees are the same but for fullscreen modes. -/
structure SameButModes (t t' : Tree) : Prop where
  con : ∀ x, ∃ mode, t'.con x = { t.con x with fullscreenMode := mode }
  focused : t'.focused = t.focused
  croot : t'.croot = t.croot
  nextCon : t'.nextCon = t.nextCon

namespace SameButModes

variable (h : SameButModes t t')
include h

theorem type (x : ConId) : (t'.con x).type = (t.con x).type := by
  obtain ⟨mode, hx⟩ := h.con x
  rw [hx]

theorem parent (x : ConId) : (t'.con x).parent = (t.con x).parent := by
  obtain ⟨mode, hx⟩ := h.con x
  rw [hx]

theorem scratchpadState (x : ConId) : (t'.con x).scratchpadState = (t.con x).scratchpadState := by
  obtain ⟨mode, hx⟩ := h.con x
  rw [hx]

theorem focusHead (x : ConId) : (t'.con x).focusHead = (t.con x).focusHead := by
  obtain ⟨mode, hx⟩ := h.con x
  rw [hx]

theorem isFloating (x : ConId) : t'.isFloating x = t.isFloating x := by
  obtain ⟨mode, hx⟩ := h.con x
  rw [Tree.isFloating, Tree.isFloating, hx]

theorem children : t'.children = t.children := by
  funext x
  obtain ⟨mode, hx⟩ := h.con x
  rw [Tree.children, Tree.children, hx]

theorem chain (x : ConId) : t'.chain x = t.chain x := by
  have hchain : ∀ n x, t'.chainN n x = t.chainN n x := by
    intro n
    induction n with
    | zero => exact fun _ => rfl
    | succ n ih =>
      intro x
      rw [chainN, chainN, h.parent]
      cases (t.con x).parent with
      | none => rfl
      | some p => exact congrArg (x :: ·) (ih p)
  rw [Tree.chain, Tree.chain, h.nextCon, hchain]

theorem getWorkspace (x : ConId) : t'.getWorkspace x = t.getWorkspace x := by
  simp only [Tree.getWorkspace, h.chain, h.type]

theorem insideFloating (x : ConId) : t'.insideFloating x = t.insideFloating x := by
  have hinside : ∀ n x, t'.insideFloatingN n x = t.insideFloatingN n x := by
    intro n
    induction n with
    | zero => exact fun _ => rfl
    | succ n ih =>
      intro x
      rw [insideFloatingN, insideFloatingN, h.type, h.isFloating, h.parent]
      cases (t.con x).parent with
      | none => rfl
      | some p =>
        dsimp only
        rw [ih p]
  rw [Tree.insideFloating, Tree.insideFloating, h.nextCon, hinside]

theorem inScratchpad (x : ConId) : t'.inScratchpad x = t.inScratchpad x := by
  simp only [Tree.inScratchpad, h.insideFloating, h.scratchpadState]

end SameButModes

theorem sameButModes_conDisableFullscreen (t : Tree) (c : ConId) : SameButModes t (t.conDisableFullscreen c) := by
  unfold conDisableFullscreen
  split_ifs
  · exact ⟨fun x => ⟨_, rfl⟩, rfl, rfl, rfl⟩
  · exact ⟨fun x => ⟨_, rfl⟩, rfl, rfl, rfl⟩
  · exact ⟨fun x => ⟨_, setFullscreenMode_con c .none t x⟩, rfl, rfl, rfl⟩

/-- One container less is fullscreen. -/
theorem fullscreensAbove_conDisableFullscreen (t : Tree) (c f : ConId) :
    (t.conDisableFullscreen c).fullscreensAbove f = (t.fullscreensAbove f).filter (· ≠ c) := by
  have hsame := sameButModes_conDisableFullscreen t c
  have hmode : ∀ x, (t.con x).type ≠ .workspace →
      (((t.conDisableFullscreen c).con x).fullscreenMode ≠ .none ↔ x ≠ c ∧ (t.con x).fullscreenMode ≠ .none) := by
    intro x hx
    unfold conDisableFullscreen
    split_ifs with hc hnone
    · have hxc : x ≠ c := by
        rintro rfl
        exact hx hc
      simp [hxc]
    · constructor
      · intro hmode
        refine ⟨?_, hmode⟩
        rintro rfl
        exact hmode hnone
      · exact And.right
    · rw [setFullscreenMode_fullscreenMode]
      by_cases hxc : x = c <;> simp [hxc]
  simp only [fullscreensAbove, hsame.chain, hsame.type, List.filter_filter]
  refine List.filter_congr fun x hx => ?_
  have htype : (t.con x).type ≠ .workspace := by simpa using List.mem_takeWhile_imp hx
  rw [← Bool.decide_and, decide_eq_decide]
  exact (hmode x htype)

/-- What is fullscreen above the focus is on the workspace. -/
theorem below_of_mem_fullscreensAbove (ht : Rooted t) (hf : t.Reach f) (hv : t.getWorkspace f = some v)
    (hx : x ∈ t.fullscreensAbove f) :
    (t.con x).type ≠ .workspace ∧ (t.con x).fullscreenMode ≠ .none ∧ Descent.Below t.children v x := by
  obtain ⟨hx, hmode⟩ := List.mem_filter.mp hx
  refine ⟨by simpa using List.mem_takeWhile_imp hx, by simpa using hmode, ?_⟩
  have : IsTrans ConId fun a b => Descent.Below t.children b a := ⟨fun _ _ _ h h' => h'.trans h⟩
  have hpair : (t.chain f).Pairwise fun a b => Descent.Below t.children b a :=
    ((ht.isChain_chainN t.nextCon hf).imp fun _ _ h => Descent.Below.single h).pairwise
  -- the way up passes it before the workspace
  obtain ⟨hvtype, l, l', hl, hfirst⟩ := List.find?_eq_some_iff_append.mp hv
  rw [hl] at hpair hx
  rw [List.takeWhile_append_of_pos (by simpa using hfirst), List.takeWhile_cons_of_neg (by simpa using hvtype),
    List.append_nil] at hx
  exact (List.pairwise_append.mp hpair).2.2 x hx v List.mem_cons_self

/-- The first one fullscreen is below the workspace, or the workspace, which is marked as visible. -/
theorem fullscreenAncestor_eq (hv : t.getWorkspace f = some v) (hmode : (t.con v).fullscreenMode ≠ .none) :
    t.fullscreenAncestor f = some ((t.fullscreensAbove f).headD v) := by
  have hlist : ∀ l : List ConId, (l.find? fun x => (t.con x).type = .workspace) = some v →
      (l.find? fun x => (t.con x).fullscreenMode ≠ .none)
        = some (((l.takeWhile fun x => (t.con x).type ≠ .workspace).filter
          fun x => (t.con x).fullscreenMode ≠ .none).headD v) := by
    intro l
    induction l with
    | nil => exact nofun
    | cons x l ih =>
      intro hl
      by_cases htype : (t.con x).type = .workspace
      · obtain rfl : x = v := by simpa [htype] using hl
        simp [htype, hmode]
      · have hl : (l.find? fun x => (t.con x).type = .workspace) = some v := by simpa [htype] using hl
        by_cases hx : (t.con x).fullscreenMode = .none
        · simpa [htype, hx] using ih hl
        · simp [htype, hx]
  exact hlist _ hv

/-- The tree between two events. The workspace `v` has the focus `f` and is visible, and it is the first one
in the focus order of its output; `s` is the only workspace of another output. -/
structure AtRest (t : Tree) (s v f : ConId) : Prop where
  healthy : Healthy t
  stacked : Stacked t
  focused : t.focused = some f
  reach : t.Reach v
  within : Descent.Within t.children v f
  shown : ∃ o K, Shown t o K v ∧ v ∈ t.heads K
  scratch : ∃ k, Held t k s s
  /-- What floats is in a floating container, which does not float itself. -/
  notFloating : ∀ x, (t.con x).type = .floatingCon → t.isFloating x = false
  floating : ∀ x, t.Reach x → t.isFloating x = true →
    ∃ p, (t.con x).parent = some p ∧ (t.con p).type = .floatingCon

namespace AtRest

variable (h : AtRest t s v f)
include h

theorem type : (t.con v).type = .workspace := by
  obtain ⟨o, K, hshown, -⟩ := h.shown
  exact hshown.type

theorem getWorkspace_eq : t.getWorkspace f = some v :=
  h.healthy.rooted.getWorkspace_eq h.healthy.layered (h.reach.trans h.within) h.type h.within

theorem conDisableFullscreen (c : ConId) : AtRest (t.conDisableFullscreen c) s v f := by
  have hsame := sameButModes_conDisableFullscreen t c
  obtain ⟨o, K, hshown, hfirst⟩ := h.shown
  obtain ⟨k, hscratch⟩ := h.scratch
  have hchildren := hsame.children
  refine ⟨(hscratch.conDisableFullscreen c).healthy, (hscratch.conDisableFullscreen c).stacked,
    hsame.focused.trans h.focused, ?_, ?_, ⟨o, K, hshown.conDisableFullscreen c, ?_⟩,
    ⟨k, hscratch.conDisableFullscreen c⟩, fun x hx => ?_, fun x hx hon => ?_⟩
  · rw [Reach, hchildren, hsame.croot]
    exact h.reach
  · rw [hchildren]
    exact h.within
  · rw [mem_heads, hsame.focusHead]
    exact mem_heads.mp hfirst
  · rw [hsame.type] at hx
    rw [hsame.isFloating]
    exact h.notFloating x hx
  · rw [Reach, hchildren, hsame.croot] at hx
    rw [hsame.isFloating] at hon
    obtain ⟨p, hp, hptype⟩ := h.floating x hx hon
    exact ⟨p, by rw [hsame.parent, hp], by rw [hsame.type, hptype]⟩

/-- **The focus may go to a workspace** if no other container is fullscreen above it, or if one is, but on its
own output only. -/
theorem permits_iff (hw : (t.con w).type = .workspace) (hreach : t.Reach w) :
    t.fullscreenPermitsFocusing w = true
      ↔ ∀ fs ∈ (t.fullscreensAbove f).head?, w ≠ v ∧ (t.con fs).fullscreenMode ≠ .global := by
  obtain ⟨o, K, hshown, -⟩ := h.shown
  have hr := h.healthy.rooted
  have hl := h.healthy.layered
  have hancestor := fullscreenAncestor_eq h.getWorkspace_eq (by simp [hshown.flagged])
  rw [fullscreenPermitsFocusing, h.focused, Option.bind_some, hancestor]
  dsimp only
  cases hhead : (t.fullscreensAbove f).head? with
  | none =>
    rw [List.headD_eq_head?_getD, hhead]
    simp [h.type]
  | some fs =>
    obtain ⟨htype, hmode, hbelow⟩ :=
      below_of_mem_fullscreensAbove hr (h.reach.trans h.within) h.getWorkspace_eq (List.mem_of_mem_head? hhead)
    have hfs : t.Reach fs := h.reach.trans hbelow.within
    have hget : t.getWorkspace fs = some v := hr.getWorkspace_eq hl hfs h.type hbelow.within
    have hgetw : t.getWorkspace w = some w := hr.getWorkspace_eq hl hreach hw (.refl w)
    have hne : w ≠ fs := by
      rintro rfl
      exact htype hw
    have hparent : t.hasParent w fs = false := by
      rw [← Bool.not_eq_true, hr.hasParent_iff hreach]
      exact fun hfw => hl.workspace v h.type w (hbelow.trans hfw) hw
    rw [List.headD_eq_head?_getD, hhead, Option.getD_some, hget, hgetw, hparent]
    -- the mode is one of two
    cases hm : (t.con fs).fullscreenMode with
    | none => exact absurd hm hmode
    | output => simp [htype, hne, hm]
    | global => simp [htype, hne, hm]

/-- The floating container found around `c` is one. -/
theorem insideFloating_spec (hc : t.Reach c) (hd : t.insideFloating c = some d) :
    (t.con d).type = .floatingCon ∧ Descent.Within t.children d c := by
  have hinside : ∀ n x, t.Reach x → t.insideFloatingN n x = some d →
      (t.con d).type = .floatingCon ∧ Descent.Within t.children d x := by
    intro n
    induction n with
    | zero => exact fun _ _ => nofun
    | succ n ih =>
      intro x hx hd
      rw [insideFloatingN] at hd
      split_ifs at hd with hfloat hon
      · obtain rfl := Option.some_inj.mp hd
        exact ⟨hfloat, .refl x⟩
      · obtain ⟨p, hp, hptype⟩ := h.floating x hx hon
        obtain rfl : d = p := Option.some_inj.mp (hd.symm.trans hp)
        exact ⟨hptype, (Descent.Below.single (h.healthy.rooted.mem_children_of_parent hx hp)).within⟩
      · split at hd
        · cases hd
        · next p hp =>
          obtain ⟨hdtype, hdp⟩ := ih p (h.healthy.rooted.reach_parent hx hp) hd
          exact ⟨hdtype, hdp.trans (Descent.Below.single (h.healthy.rooted.mem_children_of_parent hx hp)).within⟩
  exact hinside _ c hc hd

/-- A floating container with something in it, and the workspace it is on. -/
theorem exists_workspace (hc : t.Reach c) (hd : t.insideFloating c = some d) :
    ∃ u, (t.con d).parent = some u ∧ (t.con u).type = .workspace ∧ t.Reach u ∧ t.Reach d
      ∧ (t.con c).type ≠ .workspace ∧ t.getWorkspace c = some u ∧ t.getWorkspace d = some u := by
  obtain ⟨hfloat, hdc⟩ := h.insideFloating_spec hc hd
  have hr := h.healthy.rooted
  have hreach := hr.reach_of_within hc hdc
  obtain ⟨u, hu, hutype, hureach, hmem⟩ := h.healthy.floating_parent hreach hfloat
  have hud : Descent.Below t.children u d := .single hmem
  exact ⟨u, hu, hutype, hureach, hreach, h.healthy.layered.workspace u hutype c (hud.trans_within hdc),
    hr.getWorkspace_eq h.healthy.layered hc hutype (hud.trans_within hdc).within,
    hr.getWorkspace_eq h.healthy.layered hreach hutype hud.within⟩

/-- What it takes to move the container to the workspace `w`. -/
theorem relocating (hc : t.Reach c) (hd : t.insideFloating c = some d) (hu : (t.con d).parent = some u)
    (hw : (t.con w).type = .workspace) (hwreach : t.Reach w) (huw : u ≠ w)
    (hpermits : t.fullscreenPermitsFocusing w = true) : Relocating t v d u w := by
  obtain ⟨hfloat, hdc⟩ := h.insideFloating_spec hc hd
  exact ⟨h.healthy, h.healthy.rooted.reach_of_within hc hdc, hfloat, h.notFloating d hfloat, hu, hw, hwreach, huw,
    by rw [h.focused, Option.bind_some, h.getWorkspace_eq], hpermits⟩

/-- Where the move is refused, nothing happens. -/
theorem conMoveToWorkspace_refused (hc : t.Reach c) (hd : t.insideFloating c = some d)
    (hw : (t.con w).type = .workspace) (hwreach : t.Reach w)
    (hpermits : ¬ t.fullscreenPermitsFocusing w = true) : t.conMoveToWorkspace cfg d w true false = t := by
  obtain ⟨hfloat, -⟩ := h.insideFloating_spec hc hd
  have hdown : Descent.Within t.children w (t.descendFocused w) := h.healthy.rooted.descendFocusedN_within _ _
  have hget : t.getWorkspace (t.descendFocused w) = some w :=
    h.healthy.rooted.getWorkspace_eq h.healthy.layered (hwreach.trans hdown) hw hdown
  have hmoved : t.movedCon d = d := by simp [movedCon, h.notFloating d hfloat]
  rw [conMoveToWorkspace]
  split
  · rfl
  · rw [conMoveToCon, hmoved, if_neg (by simp [hfloat]), moveConWith, hget]
    dsimp only
    rw [hmoved, if_neg (by simp [hfloat]), if_pos ⟨by simp, hpermits⟩]

/-- **Hiding**: the window goes to the scratchpad if the focus may go there. -/
theorem scratchpadMove_hides (hc : t.Reach c) (hd : t.insideFloating c = some d)
    (hstate : (t.con d).scratchpadState ≠ .none) (hcv : t.getWorkspace c = some v) (hvs : v ≠ s) :
    ∃ t', t.scratchpadMove cfg sc s c = some t'
      ∧ (t'.getWorkspace d = some s ↔ (t.conDisableFullscreen c).fullscreenPermitsFocusing s = true) := by
  obtain ⟨u, hu, -, -, -, hctype, hcu, hdu⟩ := h.exists_workspace hc hd
  obtain rfl : u = v := Option.some_inj.mp (hcu.symm.trans hcv)
  have h' := h.conDisableFullscreen c
  have hsame := sameButModes_conDisableFullscreen t c
  obtain ⟨o, K, hshown, -⟩ := h'.shown
  obtain ⟨k, hscratch⟩ := h'.scratch
  have hc' : (t.conDisableFullscreen c).Reach c := by
    rw [Reach, hsame.children, hsame.croot]
    exact hc
  have hd' : (t.conDisableFullscreen c).insideFloating c = some d := (hsame.insideFloating c).trans hd
  have heq : t.scratchpadMove cfg sc s c = some ((t.conDisableFullscreen c).sendToScratch cfg s d .changed) := by
    rw [scratchpadMove, if_neg hctype, scratchpadMoveCon, if_neg (by simp [hcu, hvs])]
    dsimp only
    rw [hd']
  refine ⟨_, heq, ?_⟩
  unfold sendToScratch
  dsimp only
  constructor
  · intro hgot
    by_contra hrefused
    rw [h'.conMoveToWorkspace_refused hc' hd' hscratch.workspace hscratch.reach hrefused,
      if_neg (by rwa [hsame.scratchpadState]), hsame.getWorkspace, hdu] at hgot
    exact hvs (Option.some_inj.mp hgot)
  · intro hpermits
    have hmoves := h'.relocating hc' hd' (by rw [hsame.parent, hu]) hscratch.workspace hscratch.reach hvs hpermits
    have hheld : Held ((t.conDisableFullscreen c).conMoveToWorkspace cfg d s true false) k s d :=
      hmoves.held_away hshown h'.reach rfl hscratch
    split
    · exact (hheld.links (links_setScratchpadState _ d .changed)).getWorkspace_eq
    · exact hheld.getWorkspace_eq

end AtRest

/-- **The last steps** leave everything on its workspace, and focus what is on the workspace that has the focus
already. -/
theorem present_spec (hf : t.focused = some f) (hheld : Held t K v f) (d : ConId) (current : Option ConId) :
    SameShape t (t.present cfg sc d v current) ∧ Healthy (t.present cfg sc d v current)
      ∧ (Held t K v d → Held (t.present cfg sc d v current) K v d
        ∧ ∃ g, (t.present cfg sc d v current).focused = some g
          ∧ Descent.Within (t.present cfg sc d v current).children d g) := by
  unfold present
  dsimp only
  obtain ⟨r, hr, hl, hrf⟩ : ∃ r, (if (t.con d).scratchpadState = .fresh then t.adjustFresh sc d else t) = r
      ∧ Links t r ∧ r.focused = some f := by
    split
    · exact ⟨_, rfl, links_adjustFresh sc t d, (adjustFresh_focused sc t d).trans hf⟩
    · exact ⟨t, rfl, .refl t, hf⟩
  rw [hr]
  have hheldr := hheld.links hl
  obtain ⟨z, hz, hshape, hkeep⟩ : ∃ z, (if current ≠ some v then r.workspaceShow cfg v else r) = z
      ∧ SameShape r z ∧ ∀ x, Held r K v x → Held z K v x := by
    have hshow : r.workspaceShow cfg v = r ∨ r.workspaceShow cfg v = r.flagWorkspace v K :=
      hheldr.workspaceShow_eq hrf
    split
    · rcases hshow with hz | hz
      · exact ⟨r, hz, .refl r, fun _ hx => hx⟩
      · have hflag := flagWorkspace_con r v K
        obtain ⟨-, hroot, hnext⟩ := flagWorkspace_fields r v K
        refine ⟨_, hz, ⟨hroot, hnext, fun x => by rw [hflag], fun p x => ?_⟩, fun x hx => hx.flagWorkspace_self K⟩
        rw [children, children, hflag]
    · exact ⟨r, rfl, .refl r, fun _ hx => hx⟩
  rw [hz]
  have hlast : Links z (z.conActivate cfg (z.descendFocused d)) := (stirs_conActivate cfg z _).links
  refine ⟨(hl.sameShape.trans hshape).trans hlast.sameShape, (hkeep f hheldr).healthy.links hlast, fun hd => ?_⟩
  have hdz := hkeep d (hd.links hl)
  have hdown : Descent.Within z.children d (z.descendFocused d) := hdz.healthy.rooted.descendFocusedN_within _ _
  have hfocus : Held z K v (z.descendFocused d) := { hdz with within := hdz.within.trans hdown }
  exact ⟨hdz.links hlast, _, hdz.healthy.rooted.focused_conActivate hfocus.sits, hlast.within.mpr hdown⟩

namespace AtRest

variable (h : AtRest t s v f)
include h

/-- **Showing**: the window comes to the focused workspace, and the focus goes to it, if the focus may be
there. -/
theorem bringHere_shows (hc : t.Reach c) (hd : t.insideFloating c = some d) (hcu : t.getWorkspace c = some u)
    (huv : u ≠ v) :
    ((t.bringHere cfg sc d v (some u)).getWorkspace d = some v
        ∧ ∃ g, (t.bringHere cfg sc d v (some u)).focused = some g
          ∧ Descent.Within (t.bringHere cfg sc d v (some u)).children d g)
      ↔ t.fullscreenPermitsFocusing v = true := by
  obtain ⟨u', hu, hutype, hureach, hdreach, -, hcu', hdu⟩ := h.exists_workspace hc hd
  obtain rfl : u' = u := Option.some_inj.mp (hcu'.symm.trans hcu)
  obtain ⟨o, K, hshown, hfirst⟩ := h.shown
  unfold bringHere
  constructor
  · rintro ⟨hgot, -⟩
    by_contra hrefused
    rw [h.conMoveToWorkspace_refused hc hd h.type h.reach hrefused] at hgot
    obtain ⟨hshape, hhealthy, -⟩ := @present_spec cfg sc t K f v h.focused
      (hshown.held h.healthy h.stacked h.reach h.within) d (some u')
    -- it stays on its workspace
    obtain ⟨-, hud⟩ := h.healthy.rooted.getWorkspace_spec hdreach hdu
    have hstay := hhealthy.rooted.getWorkspace_eq hhealthy.layered (hshape.reach.mpr hdreach)
      ((hshape.type u').trans hutype) (hud.mono fun p x => (hshape.children p x).mpr)
    exact huv (Option.some_inj.mp (hstay.symm.trans hgot))
  · intro hpermits
    have hmoves := h.relocating hc hd hu h.type h.reach huv hpermits
    obtain ⟨g, hg, hheldg, hheldd⟩ := hmoves.held_here h.stacked hshown hfirst h.focused h.within
    obtain ⟨-, -, hd'⟩ := present_spec hg hheldg d (some u')
    obtain ⟨hheld, hfocus⟩ := hd' hheldd
    exact ⟨hheld.getWorkspace_eq, hfocus⟩

end AtRest

/-! ### Toggling -/

variable (t) in
/-- The floating container around `c`, if it is a scratchpad window. -/
def scratchpadCon (c : ConId) : Option ConId :=
  (t.insideFloating c).filter fun floating => (t.con floating).scratchpadState ≠ .none

variable (t) in
/-- What `scratchpad_show` with criteria is for: a scratchpad window is hidden from the focused workspace, or
comes there and is focused; for another container nothing happens. -/
def Toggles (s c : ConId) (r : Option (Tree × Bool)) : Prop :=
  match t.scratchpadCon c with
  | none => r = some (t, false)
  | some floating => ∃ t', r = some (t', true) ∧
      if t.getWorkspace c = t.focused.bind t.getWorkspace then t'.getWorkspace floating = some s
      else t'.getWorkspace floating = t.focused.bind t.getWorkspace
        ∧ ∃ g, t'.focused = some g ∧ Descent.Within t'.children floating g

variable (t) in
/-- The condition for it, where the focus `f` is on the workspace `v`. The parent of the container is known as
a scratchpad window if the floating container is. Of the fullscreen containers above the focus the first one
does not matter for a scratchpad window; another one is in the way of showing, and one that is fullscreen
on all outputs is in the way of hiding. -/
def Toggleable (s v f c : ConId) : Prop :=
  if t.inScratchpad c then
    (t.con c).parent.any (fun p => (t.con p).scratchpadState ≠ .none) ∧
      if t.getWorkspace c = some v then
        v = s ∨ ∀ fs ∈ ((t.fullscreensAbove f).filter fun x =>
          (t.fullscreensAbove f).head? ≠ some x ∧ x ≠ c).head?, (t.con fs).fullscreenMode ≠ .global
      else ∀ x ∈ t.fullscreensAbove f, (t.fullscreensAbove f).head? = some x
  else ¬ (t.con c).parent.any (fun p => (t.con p).scratchpadState ≠ .none) ∧ t.fullscreensAbove f = []

namespace AtRest

variable (h : AtRest t s v f)
include h

theorem leaveFullscreen_eq : t.leaveFullscreen cfg = match (t.fullscreensAbove f).head? with
    | none => t
    | some fs => t.conDisableFullscreen fs := by
  obtain ⟨o, K, hshown, -⟩ := h.shown
  have hancestor := fullscreenAncestor_eq h.getWorkspace_eq (by simp [hshown.flagged])
  rw [leaveFullscreen, h.focused, Option.bind_some, hancestor, List.headD_eq_head?_getD]
  cases hhead : (t.fullscreensAbove f).head? with
  | none => exact if_pos h.type
  | some fs =>
    obtain ⟨htype, hmode, -⟩ := below_of_mem_fullscreensAbove h.healthy.rooted (h.reach.trans h.within)
      h.getWorkspace_eq (List.mem_of_mem_head? hhead)
    dsimp only [Option.getD_some]
    rw [if_neg htype, conToggleFullscreen, if_neg htype, if_neg hmode]

/-- The first fullscreen container above the focus is not fullscreen any more. -/
theorem leaveFullscreen_spec : AtRest (t.leaveFullscreen cfg) s v f ∧ SameButModes t (t.leaveFullscreen cfg)
    ∧ (t.leaveFullscreen cfg).fullscreensAbove f
      = (t.fullscreensAbove f).filter (fun x => (t.fullscreensAbove f).head? ≠ some x)
    ∧ (∀ x, (t.fullscreensAbove f).head? ≠ some x →
      ((t.leaveFullscreen cfg).con x).fullscreenMode = (t.con x).fullscreenMode)
    ∧ (t.leaveFullscreen cfg = t ↔ t.fullscreensAbove f = []) := by
  rw [h.leaveFullscreen_eq]
  cases hhead : (t.fullscreensAbove f).head? with
  | none =>
    have hnil := List.head?_eq_none_iff.mp hhead
    exact ⟨h, ⟨fun x => ⟨_, rfl⟩, rfl, rfl, rfl⟩, by simp [hnil], fun _ _ => rfl, by simp [hnil]⟩
  | some fs =>
    have hmem := List.mem_of_mem_head? hhead
    refine ⟨h.conDisableFullscreen fs, sameButModes_conDisableFullscreen t fs, ?_, fun x hx => ?_, fun heq => ?_,
      fun hnil => ?_⟩
    · rw [fullscreensAbove_conDisableFullscreen]
      refine List.filter_congr fun x _ => ?_
      simp [eq_comm]
    · have hne : x ≠ fs := by
        rintro rfl
        exact hx rfl
      obtain ⟨htype, -, -⟩ :=
        below_of_mem_fullscreensAbove h.healthy.rooted (h.reach.trans h.within) h.getWorkspace_eq hmem
      exact (conDisableFullscreen_fullscreenMode t htype x).trans (if_neg hne)
    · -- it was fullscreen before
      have hgone := congrArg (fun u : Tree => u.fullscreensAbove f) heq
      dsimp only at hgone
      rw [fullscreensAbove_conDisableFullscreen] at hgone
      rw [← hgone] at hmem
      simp at hmem
    · simp [hnil] at hmem

/-- **Hiding or showing a scratchpad window**, from the point where the first fullscreen container has given
way. -/
theorem scratchpadShowCon_toggles (hc : t.Reach c) (hd : t.insideFloating c = some d)
    (hstate : (t.con d).scratchpadState ≠ .none) {p : ConId} (hp : (t.con c).parent = some p)
    (hpstate : (t.con p).scratchpadState ≠ .none) :
    (∃ t', t.scratchpadShowCon cfg sc s v c = some (t', true) ∧
      if t.getWorkspace c = some v then t'.getWorkspace d = some s
      else t'.getWorkspace d = some v ∧ ∃ g, t'.focused = some g ∧ Descent.Within t'.children d g)
    ↔ if t.getWorkspace c = some v then v = s ∨ (t.conDisableFullscreen c).fullscreenPermitsFocusing s = true
      else t.fullscreenPermitsFocusing v = true := by
  have hin : t.inScratchpad c = true := by simp [inScratchpad, hd, hstate]
  obtain ⟨u, hu, -, -, -, -, hcu, hdu⟩ := h.exists_workspace hc hd
  rw [scratchpadShowCon, hp, Option.bind_some, if_neg hpstate]
  dsimp only
  rw [hd, Option.map_some, hcu]
  by_cases huv : u = v
  · subst huv
    rw [if_pos rfl]
    by_cases hus : u = s
    · -- on the scratchpad already
      subst hus
      obtain ⟨k, hscratch⟩ := h.scratch
      have hstay : t.conMoveToWorkspace cfg d u true false = t := if_pos (.inr hdu)
      obtain ⟨hfloat, hdc⟩ := h.insideFloating_spec hc hd
      have hud : Descent.Within t.children u d :=
        (h.healthy.rooted.getWorkspace_spec (h.healthy.rooted.reach_of_within hc hdc) hdu).2
      have hfocus : Held t k u f := { hscratch with within := h.within }
      obtain ⟨-, -, hheld⟩ := @present_spec cfg sc t k f u h.focused hfocus d (some u)
      rw [if_neg (by simp)]
      refine iff_of_true ⟨_, rfl, ?_⟩ (.inl rfl)
      rw [if_pos rfl, bringHere, hstay]
      exact (hheld { hscratch with within := hud }).1.getWorkspace_eq
    · obtain ⟨t', ht', hhides⟩ := @scratchpadMove_hides cfg sc t c d f s u h hc hd hstate hcu hus
      rw [if_pos ⟨hin, by simp [hus], rfl⟩, ht', Option.map_some]
      constructor
      · rintro ⟨t'', heq, hgot⟩
        obtain rfl : t' = t'' := by simpa using heq
        rw [if_pos rfl] at hgot
        exact .inr (hhides.mp hgot)
      · intro hpermits
        refine ⟨t', rfl, ?_⟩
        rw [if_pos rfl]
        exact hhides.mpr (hpermits.resolve_left hus)
  · have hne : ¬ some u = some v := by simpa using huv
    rw [if_neg fun hall => hne hall.2.2, if_neg hne]
    have hshows := @bringHere_shows cfg sc t c d f s u v h hc hd hcu huv
    rw [← hshows]
    constructor
    · rintro ⟨t', heq, hgot⟩
      obtain rfl : t.bringHere cfg sc d v (some u) = t' := by simpa using heq
      rwa [if_neg hne] at hgot
    · intro hgot
      refine ⟨_, rfl, ?_⟩
      rwa [if_neg hne]

omit h in
/-- The condition, from the point where the first fullscreen container has given way. -/
theorem permits_toggle {t₁ : Tree} (h' : AtRest t₁ s v f) (hctype : (t₁.con c).type ≠ .workspace)
    (habove : t₁.fullscreensAbove f
      = (t.fullscreensAbove f).filter (fun x => (t.fullscreensAbove f).head? ≠ some x))
    (hmode : ∀ x, (t.fullscreensAbove f).head? ≠ some x → (t₁.con x).fullscreenMode = (t.con x).fullscreenMode) :
    (if t.getWorkspace c = some v then v = s ∨ (t₁.conDisableFullscreen c).fullscreenPermitsFocusing s = true
      else t₁.fullscreenPermitsFocusing v = true)
    ↔ if t.getWorkspace c = some v then
        v = s ∨ ∀ fs ∈ ((t.fullscreensAbove f).filter fun x =>
          (t.fullscreensAbove f).head? ≠ some x ∧ x ≠ c).head?, (t.con fs).fullscreenMode ≠ .global
      else ∀ x ∈ t.fullscreensAbove f, (t.fullscreensAbove f).head? = some x := by
  split
  · refine or_congr_right' fun hvs => ?_
    obtain ⟨k, hscratch⟩ := (h'.conDisableFullscreen c).scratch
    rw [(h'.conDisableFullscreen c).permits_iff hscratch.workspace hscratch.reach,
      fullscreensAbove_conDisableFullscreen, habove, List.filter_filter]
    have hlist : ((t.fullscreensAbove f).filter fun x => decide (x ≠ c) &&
        decide ((t.fullscreensAbove f).head? ≠ some x))
        = (t.fullscreensAbove f).filter fun x => (t.fullscreensAbove f).head? ≠ some x ∧ x ≠ c := by
      refine List.filter_congr fun x _ => ?_
      rw [← Bool.decide_and, decide_eq_decide, and_comm]
    rw [hlist]
    refine forall₂_congr fun fs hfs => ?_
    -- neither the window nor the first one
    obtain ⟨hfirst, hfc⟩ : (t.fullscreensAbove f).head? ≠ some fs ∧ fs ≠ c := by
      simpa using (List.mem_filter.mp (List.mem_of_mem_head? hfs)).2
    rw [conDisableFullscreen_fullscreenMode t₁ hctype, if_neg hfc, hmode fs hfirst]
    exact and_iff_right (Ne.symm hvs)
  · rw [h'.permits_iff h'.type h'.reach, habove]
    constructor
    · intro hnone x hx
      by_contra hfirst
      have hmem : x ∈ (t.fullscreensAbove f).filter fun x => (t.fullscreensAbove f).head? ≠ some x :=
        List.mem_filter.mpr ⟨hx, by simpa using hfirst⟩
      cases hhead : ((t.fullscreensAbove f).filter fun x => (t.fullscreensAbove f).head? ≠ some x).head? with
      | none =>
        rw [List.head?_eq_none_iff.mp hhead] at hmem
        cases hmem
      | some fs => exact (hnone fs hhead).1 rfl
    · intro hfirst fs hfs
      obtain ⟨hmem, hother⟩ := List.mem_filter.mp (List.mem_of_mem_head? hfs)
      exact absurd (hfirst fs hmem) (by simpa using hother)

/-- **A window is toggled exactly if its parent is known as a scratchpad window where its floating container
is, and no other fullscreen container is in the way**. -/
theorem toggles_iff (hs : t.getExistingWorkspaceByName "__i3_scratch" = some s) (hc : t.Sits c) :
    t.Toggles s c (t.scratchpadShow cfg sc (some c)) ↔ t.Toggleable s v f c := by
  obtain ⟨t₁, ht₁, h', hsame, habove, hmode, hleft⟩ : ∃ t₁, t.leaveFullscreen cfg = t₁ ∧ _ :=
    ⟨_, rfl, h.leaveFullscreen_spec⟩
  have heq : t.scratchpadShow cfg sc (some c) = t₁.scratchpadShowCon cfg sc s v c := by
    rw [ht₁] at h'
    simp [scratchpadShow, hs, h.focused, ht₁, h'.getWorkspace_eq]
  rw [ht₁] at h' hsame habove hmode hleft
  obtain ⟨p, hp, -, -⟩ := h.healthy.rooted.exists_parent hc
  have hp₁ : (t₁.con c).parent = some p := (hsame.parent c).trans hp
  have hstate₁ := hsame.scratchpadState p
  rw [heq]
  unfold Toggles Toggleable
  rw [hp, Option.any_some, decide_eq_true_iff]
  by_cases hin : t.inScratchpad c = true
  · obtain ⟨d, hd, hstate⟩ : ∃ d, t.insideFloating c = some d ∧ (t.con d).scratchpadState ≠ .none := by
      simpa [inScratchpad, Option.any_eq_true] using hin
    have hcon : t.scratchpadCon c = some d := by simp [scratchpadCon, hd, Option.filter, hstate]
    rw [hcon, if_pos hin, h.focused, Option.bind_some, h.getWorkspace_eq]
    dsimp only
    by_cases hpstate : (t.con p).scratchpadState = .none
    · rw [scratchpadShowCon, hp₁, Option.bind_some, if_pos (hstate₁.trans hpstate)]
      simp [hpstate]
    · have hc₁ : t₁.Reach c := by
        rw [Reach, hsame.children, hsame.croot]
        exact hc.1
      have htoggles := @scratchpadShowCon_toggles cfg sc t₁ c d f s v h' hc₁ ((hsame.insideFloating c).trans hd)
        ((hsame.scratchpadState d).trans_ne hstate) p hp₁ (hstate₁.trans_ne hpstate)
      rw [hsame.getWorkspace] at htoggles
      obtain ⟨-, -, -, -, -, hctype, -⟩ := h'.exists_workspace hc₁ ((hsame.insideFloating c).trans hd)
      rw [htoggles, permits_toggle h' hctype habove hmode]
      exact (and_iff_right hpstate).symm
  · have hcon : t.scratchpadCon c = none := by
      rw [scratchpadCon, Option.filter_eq_none_iff]
      intro d hd hstate
      exact hin (by simpa [inScratchpad, hd] using hstate)
    rw [hcon, if_neg hin, ← hleft]
    dsimp only
    by_cases hpstate : (t.con p).scratchpadState = .none
    · rw [scratchpadShowCon, hp₁, Option.bind_some, if_pos (hstate₁.trans hpstate)]
      simp [hpstate]
    · -- the parent is, and the floating container is not
      have hin₁ : ¬ t₁.inScratchpad c = true := by rwa [hsame.inScratchpad]
      rw [scratchpadShowCon, hp₁, Option.bind_some, if_neg (hstate₁.trans_ne hpstate)]
      dsimp only
      rw [if_neg fun hall => hin₁ hall.1]
      simp [hpstate]

end AtRest

end Fullscreens

/-- A fullscreen window has the focus. On `__i3_scratch` there are a floating container with two windows in a
split container, and one with a single window. -/
def hiddenSplit : Tree := ofList [
  { type := .root, layout := .splith, nodesHead := [1, 4], focusHead := [1, 4] },
  { type := .output, layout := .output, name := "DP-1", parent := some 0, nodesHead := [2], focusHead := [2] },
  { layout := .splith, name := "content", parent := some 1, nodesHead := [3], focusHead := [3] },
  { type := .workspace, layout := .splith, name := "1", fullscreenMode := .output, parent := some 2,
    nodesHead := [11], focusHead := [11] },
  { type := .output, layout := .output, name := "__i3", parent := some 0, nodesHead := [5], focusHead := [5] },
  { layout := .splith, name := "content", parent := some 4, nodesHead := [6], focusHead := [6] },
  { type := .workspace, layout := .splith, name := "__i3_scratch", fullscreenMode := .output, parent := some 5,
    floatingHead := [7, 12], focusHead := [7, 12] },
  { type := .floatingCon, layout := .splith, parent := some 6, nodesHead := [8], focusHead := [8],
    scratchpadState := .changed },
  { layout := .splith, floating := .userOn, parent := some 7, percent := 1, nodesHead := [9, 10],
    focusHead := [9, 10] },
  { layout := .splith, parent := some 8, percent := 1 / 2, window := some { id := 9 } },
  { layout := .splith, parent := some 8, percent := 1 / 2, window := some { id := 10 } },
  { layout := .splith, parent := some 3, percent := 1, fullscreenMode := .output, window := some { id := 11 } },
  { type := .floatingCon, layout := .splith, parent := some 6, nodesHead := [13], focusHead := [13],
    scratchpadState := .changed },
  { layout := .splith, floating := .userOn, parent := some 12, percent := 1, window := some { id := 13 } }]
  (some 11)

theorem scratch_hiddenSplit : hiddenSplit.getExistingWorkspaceByName "__i3_scratch" = some 6 := by
  decide +kernel

theorem atRest_hiddenSplit : AtRest hiddenSplit 6 3 11 := by
  have hrooted : Rooted hiddenSplit := rooted_ofList (by decide +kernel) (by decide +kernel)
  have hhealthy : Healthy hiddenSplit := healthy_ofList (6 < ·) hrooted (by decide +kernel)
  have hstacked : Stacked hiddenSplit := stacked_ofList (by decide +kernel)
  have hchain : List.IsChain (fun q c => c ∈ hiddenSplit.children q) [0, 1, 2, 3] := by decide +kernel
  have hchain' : List.IsChain (fun q c => c ∈ hiddenSplit.children q) [0, 4, 5, 6] := by decide +kernel
  have hshown : Shown hiddenSplit 1 2 3 := by
    refine ⟨rfl, ?_, ?_, rfl, ?_, rfl, ?_⟩
    all_goals decide +kernel
  have hscratch : Held hiddenSplit 5 6 6 := by
    refine ⟨hhealthy, hstacked, rfl, reach_of_isChain reach_croot hchain' (by simp), ?_, ?_, .refl 6⟩
    · decide +kernel
    · decide +kernel
  -- only the listed containers can float
  have hnew : ∀ x, ¬ x < 14 → hiddenSplit.con x = {} := fun x hx => ofList_con hx
  have hold : ∀ x < 14, ((hiddenSplit.con x).type = .floatingCon → hiddenSplit.isFloating x = false)
      ∧ (hiddenSplit.isFloating x = true →
        (hiddenSplit.con x).parent.any fun p => (hiddenSplit.con p).type = .floatingCon) := by
    decide +kernel
  refine ⟨hhealthy, hstacked, rfl, reach_of_isChain reach_croot hchain (by simp), ?_, ⟨1, 2, hshown, ?_⟩,
    ⟨5, hscratch⟩, fun x hx => ?_, fun x _ hx => ?_⟩
  · exact (Descent.Below.single (show 11 ∈ hiddenSplit.children 3 from List.mem_cons_self)).within
  · exact List.mem_cons_self
  · by_cases hlt : x < 14
    · exact (hold x hlt).1 hx
    · rw [hnew x hlt] at hx
      cases hx
  · by_cases hlt : x < 14
    · simpa [Option.any_eq_true] using (hold x hlt).2 hx
    · rw [isFloating, hnew x hlt] at hx
      cases hx

/-- The window alone in its floating container is shown. -/
theorem toggles_hiddenSplit : hiddenSplit.Toggles 6 13 (hiddenSplit.scratchpadShow {} {} (some 13)) := by
  refine (atRest_hiddenSplit.toggles_iff scratch_hiddenSplit ?_).mpr ?_
  · have hchain : List.IsChain (fun q c => c ∈ hiddenSplit.children q) [0, 4, 5, 6, 12, 13] := by decide +kernel
    exact ⟨reach_of_isChain reach_croot hchain (by simp), by decide⟩
  · have hin : hiddenSplit.inScratchpad 13 = true := by decide +kernel
    have hother : hiddenSplit.getWorkspace 13 ≠ some 3 := by decide +kernel
    have hfirst : ∀ x ∈ hiddenSplit.fullscreensAbove 11, (hiddenSplit.fullscreensAbove 11).head? = some x := by
      decide +kernel
    rw [Toggleable, if_pos hin, if_neg hother]
    exact ⟨by decide +kernel, hfirst⟩

/-- A window in the split container is refused, and so is one in no floating container; the window with the
focus is not fullscreen any more. -/
theorem not_toggles_hiddenSplit : ¬ hiddenSplit.Toggles 6 9 (hiddenSplit.scratchpadShow {} {} (some 9))
    ∧ ¬ hiddenSplit.Toggles 6 11 (hiddenSplit.scratchpadShow {} {} (some 11)) := by
  have hrefused : (hiddenSplit.scratchpadShow {} {} (some 9)).map Prod.snd = some false := by decide +kernel
  have hmode : (hiddenSplit.scratchpadShow {} {} (some 11)).map (fun r => (r.1.con 11).fullscreenMode)
      = some .none := by decide +kernel
  constructor
  · have hcon : hiddenSplit.scratchpadCon 9 = some 7 := by decide +kernel
    rw [Toggles, hcon]
    rintro ⟨t', ht', -⟩
    rw [ht'] at hrefused
    cases hrefused
  · have hcon : hiddenSplit.scratchpadCon 11 = none := by decide +kernel
    rw [Toggles, hcon]
    dsimp only
    intro hsame
    rw [hsame] at hmode
    cases hmode

end Tree

end I3
