import I3Aiwr.Tree.Rooted

/-!
# Closing containers

`tree_close_internal` closes a container after its tiling children, detaches and frees it, moves the
focus on, and then asks its parent to close itself when it is empty (`con_on_remove_child`, which
closes containers again). The calls are a stack of actions: one step does what lies between two
calls, and in particular each `con_free` is a step of its own.

## Main definitions

* `CloseAction`: what is left to do of a call
* `Closing`: the tree, the stack, and the result of the call that ended last
* `Closing.step cfg`: one step
* `Tree.treeCloseInternal`, `Tree.onRemoveChild`: the calls, run to their end
* `Closing.Sound`: the tree is healthy, and the actions are about containers below the root

## Main results

* `Closing.Sound.step`: a step keeps soundness
-/

namespace I3

inductive KillWindow
  | dontKillWindow | killWindow | killClient
  deriving DecidableEq, Repr

/-- What is left to do of a call of `tree_close_internal`. -/
inductive CloseAction
  /-- `tree_close_internal(con, kill, dontKillParent)`. -/
  | close (con : ConId) (kill : KillWindow) (dontKillParent : Bool)
  /-- The loop over the children of `con`, at `child`. -/
  | child (con : ConId) (kill : KillWindow) (dontKillParent : Bool) (child : Option ConId)
      (abortKill : Bool)
  /-- The same when the call for a child has returned; `next` is the child after it. -/
  | childClosed (con : ConId) (kill : KillWindow) (dontKillParent : Bool) (next : Option ConId)
      (abortKill : Bool)
  | free (con : ConId)
  | activate (next : ConId)
  /-- `CALL(con, on_remove_child)`. -/
  | removeChild (con : ConId)
  /-- `return true`. -/
  | returnTrue
  deriving DecidableEq

/-- The tree in the middle of a call. `killed` is the result of the call that returned last. -/
structure Closing where
  tree : Tree
  todo : List CloseAction := []
  killed : Bool := true

namespace Tree

variable (cfg : Config) (t : Tree)

def setWindow (c : ConId) (window : Option Window) : Tree := t.modify c fun d => { d with window }

/-- The timer is stopped, after the flag of the workspace was updated. -/
def stopUrgencyTimer (c : ConId) (ws : Option ConId) : Tree :=
  if (t.con c).urgencyTimer then
    (t.workspaceUpdateUrgentFlag ws).modify c fun d => { d with urgencyTimer := false }
  else t

/-- From `con_detach` to `tree_render`: the container leaves the tree, and the others take up its
space. -/
def closeDetach (c : ConId) (dontKillParent : Bool) : Tree :=
  let ws := t.getWorkspace c
  let t := (t.conDetach c).stopUrgencyTimer c ws
  let t := match (t.con c).parent with
    | none => t
    | some p => if (t.con c).type = .floatingCon then t else t.conFixPercent p
  if dontKillParent then t else t.treeRender cfg

end Tree

namespace Closing

variable (cfg : Config)

/-- The end of `tree_close_internal`, when all children are closed. The container to be focused next
is determined before the detaching. -/
def finish (t : Tree) (c : ConId) (dontKillParent : Bool) (rest : List CloseAction) (killed : Bool) :
    Closing :=
  let t := t.setWindow c none
  let next := if t.focused = some c then t.nextFocused c else none
  let parent := if dontKillParent then none else (t.con c).parent
  ⟨t.closeDetach cfg c dontKillParent,
    .free c :: ((next.map CloseAction.activate).toList ++ (parent.map CloseAction.removeChild).toList
      ++ .returnTrue :: rest), killed⟩

/-- `con_on_remove_child`: an invisible workspace is closed when nothing is on it, a split
container when it has no tiling children. -/
def removeChild (t : Tree) (c : ConId) (rest : List CloseAction) (killed : Bool) : Closing :=
  if (t.con c).type = .output ∨ (t.con c).type = .root ∨ (t.con c).type = .dockarea
      ∨ (t.con c).parent.any fun p => (t.con p).type = .output then ⟨t, rest, killed⟩
  else if (t.con c).type = .workspace then
    if (t.con c).focusHead = [] ∧ ¬ t.workspaceIsVisible c then
      ⟨t, .close c .dontKillWindow false :: rest, killed⟩
    else ⟨t, rest, killed⟩
  else
    let t := (t.setUrgent c (t.hasUrgentChild c)).updateParentsUrgency c
    if t.numChildren c = 0 then ⟨t, .close c .dontKillWindow false :: rest, killed⟩
    else ⟨t, rest, killed⟩

/-- One step of the innermost call. -/
def step (s : Closing) : Closing :=
  match s.todo with
  | [] => s
  | .close c kill dontKillParent :: rest =>
    let t := if (s.tree.con c).urgent then s.tree.clearUrgency c else s.tree
    ⟨t, .child c kill dontKillParent (t.con c).nodesHead.head? false :: rest, s.killed⟩
  | .child c kill dontKillParent (some d) abortKill :: rest =>
    ⟨s.tree, .close d kill true :: .childClosed c kill dontKillParent
      (Queue.next d (s.tree.con c).nodesHead) abortKill :: rest, s.killed⟩
  | .childClosed c kill dontKillParent next abortKill :: rest =>
    ⟨s.tree, .child c kill dontKillParent next (abortKill || !s.killed) :: rest, s.killed⟩
  | .child c kill dontKillParent none abortKill :: rest =>
    -- a window that is to be killed goes away by itself later
    if abortKill ∨ (s.tree.con c).window.isSome ∧ kill ≠ .dontKillWindow then ⟨s.tree, rest, false⟩
    else finish cfg s.tree c dontKillParent rest s.killed
  | .free c :: rest => ⟨s.tree.conFree c, rest, s.killed⟩
  | .activate c :: rest => ⟨s.tree.conActivate cfg c, rest, s.killed⟩
  | .removeChild c :: rest => removeChild s.tree c rest s.killed
  | .returnTrue :: rest => ⟨s.tree, rest, true⟩

/-- At most `n` steps. -/
def run : ℕ → Closing → Closing
  | 0, s => s
  | n + 1, s => run n (s.step cfg)

end Closing

namespace Tree

variable (cfg : Config) (t : Tree)

/-- Enough steps for any call: a container is closed once, in at most eight steps. -/
def closeSteps : ℕ := 8 * t.nextCon + 8

/-- `tree_close_internal`. -/
def treeCloseInternal (c : ConId) (kill : KillWindow) (dontKillParent : Bool) : Tree :=
  (Closing.run cfg t.closeSteps ⟨t, [.close c kill dontKillParent], true⟩).tree

/-- `CALL(con, on_remove_child)`. -/
def onRemoveChild (c : ConId) : Tree :=
  (Closing.run cfg t.closeSteps ⟨t, [.removeChild c], true⟩).tree

end Tree

/-! ### Soundness of the stack -/

namespace Tree

variable {cfg : Config} {t t' : Tree}

theorem stirs_stopUrgencyTimer (c : ConId) (ws : Option ConId) :
    Stirs t (t.stopUrgencyTimer c ws) := by
  rw [stopUrgencyTimer]
  split
  · exact (stirs_workspaceUpdateUrgentFlag t ws).trans (.of_modify _ c _ rfl (.refl _) (.refl _))
  · exact .refl t

theorem links_setWindow (t : Tree) (c : ConId) (window : Option Window) :
    Links t (t.setWindow c window) :=
  .of_modify t c _ rfl rfl rfl rfl rfl rfl rfl

/-- Closing detaches the container, and leaves all other links alone. -/
theorem links_closeDetach (c : ConId) (dontKillParent : Bool) :
    Links (t.conDetach c) (t.closeDetach cfg c dontKillParent) := by
  have htimer := (stirs_stopUrgencyTimer (t := t.conDetach c) c (t.getWorkspace c)).links
  have hpercent : Links (t.conDetach c)
      (match (((t.conDetach c).stopUrgencyTimer c (t.getWorkspace c)).con c).parent with
        | none => (t.conDetach c).stopUrgencyTimer c (t.getWorkspace c)
        | some p =>
          if (((t.conDetach c).stopUrgencyTimer c (t.getWorkspace c)).con c).type = .floatingCon then
            (t.conDetach c).stopUrgencyTimer c (t.getWorkspace c)
          else ((t.conDetach c).stopUrgencyTimer c (t.getWorkspace c)).conFixPercent p) := by
    split
    · exact htimer
    · split
      · exact htimer
      · exact htimer.trans (links_conFixPercent _ _)
  rw [closeDetach]
  cases dontKillParent
  · exact hpercent.trans (stirs_treeRender cfg _).links
  · exact hpercent

/-! ### Where the focus goes -/

namespace Rooted

variable (ht : Rooted t)
include ht

theorem descendFocusedN_below {c p : ConId} (hc : c ∈ t.children p) (n : ℕ) {d : ConId}
    (hd : Descent.Below t.children p d) (hcd : ¬ Descent.Within t.children c d) :
    Descent.Below t.children p (t.descendFocusedN n d)
      ∧ ¬ Descent.Within t.children c (t.descendFocusedN n d) := by
  induction n generalizing d with
  | zero => exact ⟨hd, hcd⟩
  | succ n ih =>
    rw [descendFocusedN]
    split
    · exact ⟨hd, hcd⟩
    · split
      · exact ⟨hd, hcd⟩
      · next e _ he =>
        have hmem : e ∈ t.children d := ht.focus d e (by simp [he])
        refine ih (hd.trans (.single hmem)) fun hce => ?_
        rcases Descent.within_iff.mp hce with rfl | hce
        · -- only the parent of `c` has `c` in its focus stack
          have : d = p := by simpa [ht.parent _ _ hc] using (ht.parent _ _ hmem).symm
          exact ht.acyclic.ne hd this
        · exact hcd (Descent.within_parent ht.parent hce (ht.parent d e hmem))

theorem descendFocusedN_within (n : ℕ) (d : ConId) :
    Descent.Within t.children d (t.descendFocusedN n d) := by
  induction n generalizing d with
  | zero => exact .refl _
  | succ n ih =>
    rw [descendFocusedN]
    split
    · exact .refl _
    · split
      · exact .refl _
      · next e _ he =>
        have hmem : e ∈ t.children d := ht.focus d e (by simp [he])
        exact (Descent.Below.single hmem).within.trans (ih e)

theorem descendExcludingN_within {c p : ConId} (n : ℕ) {d : ConId}
    (hd : Descent.Within t.children p d) (hcd : ¬ Descent.Within t.children c d) :
    Descent.Within t.children p (t.descendExcludingN c n d)
      ∧ ¬ Descent.Within t.children c (t.descendExcludingN c n d) := by
  induction n generalizing d with
  | zero => exact ⟨hd, hcd⟩
  | succ n ih =>
    rw [descendExcludingN]
    split
    · exact ⟨hd, hcd⟩
    · next e _ he =>
      split
      · exact ⟨hd, hcd⟩
      · next hne =>
        have hmem : e ∈ t.children d := ht.focus d e (by simp [he])
        refine ih (hd.tail hmem).within fun hce => hcd ?_
        exact Descent.within_parent ht.parent ((Descent.within_iff.mp hce).resolve_left hne)
          (ht.parent d e hmem)

theorem focusBeside_spec {c p : ConId} (hc : c ∈ t.children p) :
    Descent.Within t.children p (t.focusBeside c p)
      ∧ ¬ Descent.Within t.children c (t.focusBeside c p) := by
  have hparent : Descent.Within t.children p p ∧ ¬ Descent.Within t.children c p :=
    ⟨.refl _, ht.acyclic.not_within (.single hc)⟩
  have hother : ∀ e ∈ (t.con p).focusHead, e ≠ c →
      Descent.Within t.children p e ∧ ¬ Descent.Within t.children c e := by
    intro e he hne
    have hmem := ht.focus p e he
    exact ⟨(Descent.Below.single hmem).within,
      ht.acyclic.separate ht.parent hmem hc hne (.refl _)⟩
  rw [focusBeside]
  split
  · next hhead =>
    cases hfocus : (t.con p).focusHead.head? with
    | none => exact hparent
    | some e =>
      refine hother e (List.mem_of_mem_head? hfocus) ?_
      rintro rfl
      exact hhead hfocus
  · cases hnext : Queue.next c (t.con p).focusHead with
    | none => exact hparent
    | some e => exact hother e (Queue.mem_of_next hnext) (Queue.next_ne (ht.nodupFocus p) hnext)

/-- **The next focus beside `c`** is below the parent of `c`, and not below `c`. -/
theorem nextFocusedIn_spec {c p : ConId} (hc : c ∈ t.children p) :
    Descent.Within t.children p (t.nextFocusedIn c p)
      ∧ ¬ Descent.Within t.children c (t.nextFocusedIn c p) := by
  obtain ⟨hp, hcp⟩ := ht.focusBeside_spec hc
  obtain ⟨hwithin, hnot⟩ := ht.descendExcludingN_within t.nextCon hp hcp
  rw [nextFocusedIn]
  split
  · next hfloating =>
    have hbelow := (Descent.within_iff.mp hwithin).resolve_left hfloating.2
    obtain ⟨hb, hcb⟩ := ht.descendFocusedN_below hc t.nextCon hbelow hnot
    exact ⟨hb.within, hcb⟩
  · exact ⟨hwithin, hnot⟩

/-- **The next focus is elsewhere**: below the root, and not below the container that goes away. -/
theorem nextFocused_spec {c n : ConId} (hc : t.Sits c) (hn : t.nextFocused c = some n) :
    t.Reach n ∧ ¬ Descent.Within t.children c n := by
  obtain ⟨p, hp, hreach, hmem⟩ := ht.exists_parent hc
  simp only [nextFocused, hp] at hn
  split at hn
  · -- a dock client: the content is a sibling of the dock area
    next hdock =>
    obtain ⟨output, ho, hn⟩ := Option.bind_eq_some_iff.mp hn
    obtain ⟨content, hcontent, rfl⟩ := Option.map_eq_some_iff.mp hn
    have hroot : p ≠ t.croot := by
      rintro rfl
      rw [ht.typeRoot] at hdock
      cases hdock
    obtain ⟨q, hq, hqreach, hpq⟩ := ht.exists_parent ⟨hreach, hroot⟩
    cases hq.symm.trans ho
    have hcont : content ∈ t.children output :=
      List.mem_append_left _ (List.mem_of_find?_eq_some hcontent)
    have htype : (t.con content).type = .con := by simpa using List.find?_some hcontent
    have hne : content ≠ p := by
      rintro rfl
      rw [hdock] at htype
      cases htype
    have hdesc := ht.descendFocusedN_within t.nextCon content
    refine ⟨((hqreach.tail hcont).trans_within hdesc).within, fun hcn => ?_⟩
    exact ht.acyclic.separate ht.parent hcont hpq hne hdesc
      ((Descent.Below.single hmem).trans_within hcn).within
  · split at hn
    · -- a floating window: its floating container goes away with it
      obtain ⟨q, hq, rfl⟩ := Option.map_eq_some_iff.mp hn
      have hroot : p ≠ t.croot := by
        rintro rfl
        rw [ht.parentRoot] at hq
        cases hq
      obtain ⟨q', hq', hqreach, hpq⟩ := ht.exists_parent ⟨hreach, hroot⟩
      cases hq'.symm.trans hq
      obtain ⟨hwithin, hnot⟩ := ht.nextFocusedIn_spec hpq
      exact ⟨hqreach.trans hwithin, fun hcn =>
        hnot ((Descent.Below.single hmem).trans_within hcn).within⟩
    · cases hn
      obtain ⟨hwithin, hnot⟩ := ht.nextFocusedIn_spec hmem
      exact ⟨hreach.trans hwithin, hnot⟩

end Rooted

/-! ### The stack below a call -/

/-- The rest of the stack below a call for `c`. Below a call that leaves the parent alone is the
loop over the siblings of `c`; below any other call nothing is left to do. -/
def Under (t : Tree) : ConId → Bool → List CloseAction → Prop
  | _, false, rest => ∀ a ∈ rest, a = .returnTrue
  | _, true, [] => True
  | c, true, .childClosed p _ dontKillParent next _ :: rest =>
    t.Sits p ∧ c ∈ (t.con p).nodesHead ∧ (∀ n ∈ next, n ∈ (t.con p).nodesHead ∧ n ≠ c)
      ∧ Under t p dontKillParent rest
  | _, true, _ :: _ => False

/-- The actions on the stack are about containers below the root. A freed one is not. -/
def TodoOk (t : Tree) : List CloseAction → Prop
  | [] => True
  | .close c _ dontKillParent :: rest => t.Sits c ∧ Under t c dontKillParent rest
  | .child c _ dontKillParent d _ :: rest
  | .childClosed c _ dontKillParent d _ :: rest =>
    t.Sits c ∧ (∀ x ∈ d, x ∈ (t.con c).nodesHead) ∧ Under t c dontKillParent rest
  | .free c :: rest => (∀ p, c ∉ t.children p) ∧ c ≠ t.croot ∧ TodoOk t rest
  | .activate n :: rest => t.Reach n ∧ TodoOk t rest
  | .removeChild p :: rest => t.Reach p ∧ ∀ a ∈ rest, a = .returnTrue
  | .returnTrue :: rest => TodoOk t rest

theorem todoOk_of_forall {rest : List CloseAction} (h : ∀ a ∈ rest, a = .returnTrue) :
    TodoOk t rest := by
  induction rest with
  | nil => trivial
  | cons a rest ih =>
    obtain rfl := h a (by simp)
    exact ih fun b hb => h b (by simp [hb])

theorem under_false {c : ConId} {rest : List CloseAction} :
    Under t c false rest ↔ ∀ a ∈ rest, a = .returnTrue := by
  cases rest <;> exact Iff.rfl

theorem Under.todoOk {c : ConId} {dontKillParent : Bool} {rest : List CloseAction}
    (h : Under t c dontKillParent rest) : TodoOk t rest := by
  cases dontKillParent
  · exact todoOk_of_forall (under_false.mp h)
  · match rest with
    | [] => trivial
    | .childClosed p _ _ next _ :: rest =>
      exact ⟨h.1, fun x hx => (h.2.2.1 x hx).1, h.2.2.2⟩

section Congr

variable (hcroot : t'.croot = t.croot)
  (hchildren : ∀ p c, c ∈ t'.children p ↔ c ∈ t.children p)
include hcroot hchildren

theorem reach_congr {c : ConId} : t'.Reach c ↔ t.Reach c := by
  rw [Reach, Reach, hcroot]
  exact ⟨.mono fun p c => (hchildren p c).mp, .mono fun p c => (hchildren p c).mpr⟩

variable (hnodes : ∀ p, (t'.con p).nodesHead = (t.con p).nodesHead)
include hnodes

theorem Under.congr {c : ConId} {dontKillParent : Bool} {rest : List CloseAction}
    (h : Under t c dontKillParent rest) : Under t' c dontKillParent rest := by
  induction rest generalizing c dontKillParent with
  | nil => cases dontKillParent <;> exact h
  | cons a rest ih =>
    cases dontKillParent
    · exact under_false.mpr (under_false.mp h)
    · cases a with
      | childClosed p kill dkp next abort =>
        obtain ⟨⟨hreach, hne⟩, hc, hnext, hrest⟩ := h
        refine ⟨⟨(reach_congr hcroot hchildren).mpr hreach, by rwa [hcroot]⟩, ?_, ?_, ih hrest⟩
        · rwa [hnodes]
        · rwa [hnodes]
      | _ => exact h.elim

/-- The stack is sound by what the tree lists. -/
theorem TodoOk.congr {todo : List CloseAction} (h : TodoOk t todo) : TodoOk t' todo := by
  have hreach := @reach_congr t t' hcroot hchildren
  induction todo with
  | nil => trivial
  | cons a rest ih =>
    cases a with
    | close c kill dkp =>
      exact ⟨⟨hreach.mpr h.1.1, by rw [hcroot]; exact h.1.2⟩, h.2.congr hcroot hchildren hnodes⟩
    | child c kill dkp d abort =>
      exact ⟨⟨hreach.mpr h.1.1, by rw [hcroot]; exact h.1.2⟩, by rw [hnodes]; exact h.2.1,
        h.2.2.congr hcroot hchildren hnodes⟩
    | childClosed c kill dkp d abort =>
      exact ⟨⟨hreach.mpr h.1.1, by rw [hcroot]; exact h.1.2⟩, by rw [hnodes]; exact h.2.1,
        h.2.2.congr hcroot hchildren hnodes⟩
    | free c =>
      exact ⟨fun p hp => h.1 p ((hchildren p c).mp hp), by rw [hcroot]; exact h.2.1, ih h.2.2⟩
    | activate n => exact ⟨hreach.mpr h.1, ih h.2⟩
    | removeChild p => exact ⟨hreach.mpr h.1, h.2⟩
    | returnTrue => exact ih h

end Congr

theorem TodoOk.links {todo : List CloseAction} (h : TodoOk t todo) (hl : Links t t') :
    TodoOk t' todo :=
  h.congr hl.croot (fun _ _ => hl.mem_children) hl.nodesHead

theorem Under.links {c : ConId} {dontKillParent : Bool} {rest : List CloseAction}
    (h : Under t c dontKillParent rest) (hl : Links t t') : Under t' c dontKillParent rest :=
  h.congr hl.croot (fun _ _ => hl.mem_children) hl.nodesHead

theorem TodoOk.conFree {todo : List CloseAction} (h : TodoOk t todo) (c : ConId) :
    TodoOk (t.conFree c) todo :=
  h.congr (conFree_croot c) (by simp) (by simp)

namespace Rooted

variable (ht : Rooted t)
include ht

/-- What is above a container sits below the root without it. -/
theorem sits_conDetach {c p : ConId} (hp : t.Sits p) (hcp : Descent.Below t.children p c) :
    (t.conDetach c).Sits p :=
  ⟨ht.reach_conDetach c hp.1 (ht.acyclic.not_within hcp), by rw [conDetach_croot]; exact hp.2⟩

/-- The loops over children above a container go on without it. -/
theorem under_conDetach {c p : ConId} (hcp : Descent.Below t.children p c) {dontKillParent : Bool}
    {rest : List CloseAction} (h : Under t p dontKillParent rest) :
    Under (t.conDetach c) p dontKillParent rest := by
  induction rest generalizing p dontKillParent with
  | nil => cases dontKillParent <;> exact h
  | cons a rest ih =>
    cases dontKillParent
    · exact under_false.mpr (under_false.mp h)
    · cases a with
      | childClosed q kill dkp next abort =>
        obtain ⟨hq, hp, hnext, hrest⟩ := h
        have hpq : p ∈ t.children q := List.mem_append_left _ hp
        have hcq : Descent.Below t.children q c := (Descent.Below.single hpq).trans hcp
        refine ⟨ht.sits_conDetach hq hcq, ?_, fun n hn => ?_, ih hcq hrest⟩
        · exact (ht.mem_nodesHead_conDetach c).mpr ⟨hp, (ht.acyclic.ne hcp).symm⟩
        · obtain ⟨hn', hne⟩ := hnext n hn
          refine ⟨(ht.mem_nodesHead_conDetach c).mpr ⟨hn', ?_⟩, hne⟩
          rintro rfl
          exact ht.acyclic.not_within (.single hpq)
            (Descent.within_parent ht.parent hcp (ht.parent q n (List.mem_append_left _ hn')))
      | _ => exact h.elim

/-- The rest of the stack goes on when the container of the call is detached. -/
theorem todoOk_conDetach {c : ConId} {dontKillParent : Bool} {rest : List CloseAction}
    (h : Under t c dontKillParent rest) : TodoOk (t.conDetach c) rest := by
  cases dontKillParent
  · exact todoOk_of_forall (under_false.mp h)
  · match rest with
    | [] => trivial
    | .childClosed p _ _ next _ :: rest =>
      obtain ⟨hp, hc, hnext, hrest⟩ := h
      have hcp : Descent.Below t.children p c := .single (List.mem_append_left _ hc)
      refine ⟨ht.sits_conDetach hp hcp, fun n hn => ?_, ht.under_conDetach hcp hrest⟩
      exact (ht.mem_nodesHead_conDetach c).mpr (hnext n hn)

end Rooted

end Tree

namespace Closing

open I3.Tree

variable {cfg : Config} {t : Tree} {rest : List CloseAction} {killed : Bool}

/-- The tree is healthy, and the stack is about containers below the root. -/
structure Sound (s : Closing) : Prop where
  rooted : Rooted s.tree
  todo : TodoOk s.tree s.todo

theorem sound_finish (ht : Rooted t) {c : ConId} {dontKillParent : Bool} (hc : t.Sits c)
    (hrest : Under t c dontKillParent rest) : Sound (finish cfg t c dontKillParent rest killed) := by
  have hwindow := links_setWindow t c none
  have ht := ht.links hwindow
  have hc := hwindow.sits.mpr hc
  have hrest := hrest.links hwindow
  have hl := @links_closeDetach cfg (t.setWindow c none) c dontKillParent
  obtain ⟨p, hp, hreach, hmem⟩ := ht.exists_parent hc
  refine ⟨(ht.conDetach c).links hl, TodoOk.links ?_ hl⟩
  refine ⟨ht.notMem_children_conDetach c, by rw [conDetach_croot]; exact hc.2, ?_⟩
  -- the container to be focused next is elsewhere
  have hnext : ∀ n todo, (if (t.setWindow c none).focused = some c
        then (t.setWindow c none).nextFocused c else none) = some n →
      TodoOk ((t.setWindow c none).conDetach c) todo →
        TodoOk ((t.setWindow c none).conDetach c) (.activate n :: todo) := by
    intro n todo hn htodo
    split at hn
    · obtain ⟨hnreach, hnot⟩ := ht.nextFocused_spec hc hn
      exact ⟨ht.reach_conDetach c hnreach hnot, htodo⟩
    · cases hn
  have hparent : TodoOk ((t.setWindow c none).conDetach c)
      (((if dontKillParent then none else ((t.setWindow c none).con c).parent).map
        CloseAction.removeChild).toList ++ .returnTrue :: rest) := by
    cases dontKillParent
    · simp only [hp, Bool.false_eq_true, if_false, Option.map_some, Option.toList_some,
        List.singleton_append]
      refine ⟨ht.reach_conDetach c hreach (ht.acyclic.not_within (.single hmem)), ?_⟩
      simpa using under_false.mp hrest
    · have htodo := ht.todoOk_conDetach hrest
      exact htodo
  rw [List.append_assoc]
  cases hfocus : (if (t.setWindow c none).focused = some c
      then (t.setWindow c none).nextFocused c else none) with
  | none => exact hparent
  | some n => exact hnext n _ hfocus hparent

theorem sound_removeChild (ht : Rooted t) {c : ConId} (hc : t.Reach c)
    (hrest : ∀ a ∈ rest, a = .returnTrue) : Sound (removeChild t c rest killed) := by
  rw [removeChild]
  split
  · exact ⟨ht, todoOk_of_forall hrest⟩
  · next htype =>
    have hsits : t.Sits c := ⟨hc, fun h => htype (.inr (.inl (h ▸ ht.typeRoot)))⟩
    split
    · split
      · exact ⟨ht, hsits, under_false.mpr hrest⟩
      · exact ⟨ht, todoOk_of_forall hrest⟩
    · have hl := ((stirs_setUrgent t c (t.hasUrgentChild c)).trans
        (stirs_updateParentsUrgency _ c)).links
      dsimp only
      split
      · exact ⟨ht.links hl, hl.sits.mpr hsits, under_false.mpr hrest⟩
      · exact ⟨ht.links hl, todoOk_of_forall hrest⟩

/-- **A step keeps the stack sound.** -/
theorem Sound.step {s : Closing} (h : Sound s) : Sound (s.step cfg) := by
  obtain ⟨t, todo, killed⟩ := s
  obtain ⟨ht, htodo⟩ := h
  match todo with
  | [] => exact ⟨ht, htodo⟩
  | .close c kill dontKillParent :: rest =>
    have hl : Links t (if (t.con c).urgent then t.clearUrgency c else t) := by
      split
      · exact (stirs_clearUrgency t c).links
      · exact .refl t
    refine ⟨ht.links hl, hl.sits.mpr htodo.1, fun x hx => ?_, htodo.2.links hl⟩
    exact List.mem_of_mem_head? hx
  | .child c kill dontKillParent (some d) abortKill :: rest =>
    obtain ⟨hc, hd, hrest⟩ := htodo
    have hmem : d ∈ (t.con c).nodesHead := hd d rfl
    refine ⟨ht, ht.sits_of_mem hc.1 (List.mem_append_left _ hmem), hc, hmem, fun n hn => ?_, hrest⟩
    exact ⟨Queue.mem_of_next hn, Queue.next_ne (ht.nodupNodes c) hn⟩
  | .childClosed c kill dontKillParent next abortKill :: rest => exact ⟨ht, htodo⟩
  | .child c kill dontKillParent none abortKill :: rest =>
    rw [Closing.step]
    dsimp only
    split
    · exact ⟨ht, htodo.2.2.todoOk⟩
    · exact sound_finish ht htodo.1 htodo.2.2
  | .free c :: rest => exact ⟨ht.conFree c htodo.1 htodo.2.1, htodo.2.2.conFree c⟩
  | .activate n :: rest =>
    have hl := (stirs_conActivate cfg t n).links
    exact ⟨ht.links hl, htodo.2.links hl⟩
  | .removeChild c :: rest => exact sound_removeChild ht htodo.1 htodo.2
  | .returnTrue :: rest => exact ⟨ht, htodo⟩

theorem Sound.run {s : Closing} (h : Sound s) (n : ℕ) : Sound (s.run cfg n) := by
  induction n generalizing s with
  | zero => exact h
  | succ n ih => exact ih h.step

end Closing

end I3
