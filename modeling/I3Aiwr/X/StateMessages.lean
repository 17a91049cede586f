import I3Aiwr.Tree.Marks
import I3Aiwr.Tree.Windows

/-!
# Messages about the state of a window

The `_NET_WM_STATE` branch of `handle_client_message` in `src/handlers.c`, with
`handle_net_wm_state_change`. A message names up to four atoms, one after the other. When one of them changes
the urgency, a placeholder may swallow the window (`remanage_window` in `src/manage.c`): the container of the
window is merged into the placeholder and closed. `handle_net_wm_state_change` replaces its own copy of the
container then, and the loop in its caller keeps the old one.

Whether a criterion of a placeholder matches, and what the commands of the assignments do, is a parameter, for
each atom anew; the commands leave the tree as it is between two events.

## Main definitions

* `Managed`: the tree, and what of placeholders and windows is outside of it
* `Managed.remanageWindow`, `Managed.handleNetWmStateChange`
* `Managed.handleClientMessage`: in which state, and to which container, each atom is applied
* `Managed.AppliedToHolder`: that is the container of the window then
* `Managed.Undisturbed`: no placeholder swallows the window while atoms follow

## Main results

* `Managed.appliedToHolder_iff`
* `Managed.not_appliedToHolder_swallowed`: an attention atom before another one
-/

namespace I3

namespace X

open I3.Tree

/-- An atom of the message; `none` is `XCB_NONE`, and `other` one that i3 does not know. -/
inductive StateAtom
  | none | fullscreen | demandsAttention | sticky | other
  deriving DecidableEq, Repr

/-- `data32[0]`: `_NET_WM_STATE_REMOVE`, `_ADD`, `_TOGGLE`, or another number. -/
inductive StateChange
  | remove | add | toggle | other
  deriving DecidableEq, Repr

/-- i3 does something with the container for the atom. -/
def StateAtom.Known (atom : StateAtom) : Prop := atom ≠ .none ∧ atom ≠ .other

instance (atom : StateAtom) : Decidable atom.Known := inferInstanceAs (Decidable (_ ∧ _))

/-- The tree, the swallow criteria of its containers, the placeholder windows, and what is known about the
windows. -/
structure Managed (M : Type) where
  tree : Tree
  swallowHead : ConId → List M
  /-- The windows of `state_head`. -/
  placeholders : List ℕ
  /-- The windows with `swallowed` set. -/
  swallowed : List ℕ
  managedSince : ℕ → ℕ

/-- What is asked of other parts of i3 for one atom: `match_matches_window`, and `run_assignments` for a
window. -/
structure Environment (M : Type) where
  matchesWindow : Managed M → M → Window → Bool
  runAssignments : Managed M → ℕ → Managed M
  attended : ∀ s w, s.tree.Attended → (runAssignments s w).tree.Attended

namespace Managed

variable {M : Type} (cfg : Config) (env : Environment M) (s : Managed M)

def setTree (tree : Tree) : Managed M := { s with tree }

/-! ### Remanaging a window -/

/-- A criterion of the container matches. -/
def swallows (window : Window) (c : ConId) : Bool :=
  (s.swallowHead c).any fun m => env.matchesWindow s m window

/-- The recursion of `con_for_window`. -/
def conForWindowN (window : Window) : ℕ → ConId → Option ConId
  | 0, _ => none
  | n + 1, c => (s.tree.children c).findSome? fun d =>
    if s.swallows env window d then some d else conForWindowN window n d

def conForWindow (c : ConId) (window : Window) : Option ConId :=
  s.conForWindowN env window s.tree.nextCon c

/-- `placeholder_for_con`. -/
def placeholderForCon (con : ConId) : Option ConId :=
  match (s.tree.con con).window with
  | none => none
  | some window =>
    if window.id ∈ s.swallowed then none
    else match s.conForWindow env s.tree.croot window with
      | none => none
      | some nc => match (s.tree.con nc).window with
        | none => none
        | some placeholder =>
          if placeholder.id = window.id then none
          else if s.managedSince placeholder.id > s.managedSince window.id then none
          else some nc

/-- `restore_kill_placeholder`, and `_remove_matches` if there was one. -/
def killPlaceholder (nc : ConId) : Managed M :=
  match (s.tree.con nc).window with
  | none => s
  | some placeholder =>
    if placeholder.id ∈ s.placeholders then
      { s with
        placeholders := s.placeholders.erase placeholder.id
        swallowHead := Function.update s.swallowHead nc [] }
    else s

def runAssignments (con : ConId) : Managed M :=
  match (s.tree.con con).window with
  | none => s
  | some window => env.runAssignments s window.id

def setSwallowed (con : ConId) : Managed M :=
  match (s.tree.con con).window with
  | none => s
  | some window => { s with swallowed := window.id :: s.swallowed }

/-- `remanage_window`, with the container it returns. -/
def remanageWindow (con : ConId) : Managed M × ConId :=
  match s.placeholderForCon env con with
  | none => (s.runAssignments env con, con)
  | some nc =>
    let s := s.killPlaceholder nc
    let s := s.setTree (s.tree.conMergeInto cfg con nc)
    ((s.runAssignments env nc).setSwallowed nc, nc)

/-! ### The handler -/

/-- The urgency that the change asks for, if any. -/
def urgencyFor (con : ConId) : StateChange → Option Bool
  | .add => some true
  | .remove => some false
  | .toggle => some !(s.tree.con con).urgent
  | .other => none

/-- The fullscreen mode is to be toggled. -/
def togglesFullscreen (con : ConId) (change : StateChange) : Prop :=
  change = .toggle
    ∨ (s.tree.con con).fullscreenMode ≠ .none ∧ change = .remove
    ∨ (s.tree.con con).fullscreenMode = .none ∧ change = .add

instance (con : ConId) (change : StateChange) : Decidable (s.togglesFullscreen con change) :=
  inferInstanceAs (Decidable (_ ∨ _ ∨ _))

/-- The tree with the new sticky status of the container. -/
def changeSticky (con : ConId) (change : StateChange) : Tree :=
  s.tree.modify con fun d =>
    { d with
      sticky := match change with
        | .add => true
        | .remove => false
        | .toggle => !d.sticky
        | .other => d.sticky }

def render : Managed M := s.setTree (s.tree.treeRender cfg)

/-- The urgency is set. -/
def setUrgency (con : ConId) (urgent : Bool) : Managed M := s.setTree (s.tree.conSetUrgency con urgent)

/-- `handle_net_wm_state_change`, with its own copy of the container in the end. -/
def handleNetWmStateChange (con : ConId) (change : StateChange) : StateAtom → Managed M × ConId
  | .none | .other => (s, con)
  | .fullscreen =>
    let tree := if s.togglesFullscreen con change then s.tree.conToggleFullscreen cfg con .output else s.tree
    ((s.setTree tree).render cfg, con)
  | .demandsAttention => match s.urgencyFor con change with
    | none => (s.render cfg, con)
    | some urgent =>
      let (s, con) := (s.setUrgency con urgent).remanageWindow cfg env con
      (s.render cfg, con)
  | .sticky =>
    let tree := s.changeSticky con change
    ((s.setTree (tree.outputPushStickyWindows cfg (workspaceShow cfg) tree.focused)).render cfg, con)

end Managed

/-- An atom about to be applied to the container `con`; `merged` are the containers that were merged into
others and closed by then. -/
structure Handled (M : Type) where
  state : Managed M
  atom : StateAtom
  con : ConId
  merged : List ConId

/-- The atom is applied to the container that holds the window, and to none that was closed. -/
def Handled.ToHolder {M : Type} (h : Handled M) (window : ℕ) : Prop :=
  h.state.tree.conByWindowId window = some h.con ∧ h.con ∉ h.merged

namespace Managed

section Message

variable {M : Type} (cfg : Config) (con : ConId) (change : StateChange)

/-- The loop over the atoms. It keeps the container it has. -/
def handleAtoms : List ConId → Managed M → List (StateAtom × Environment M) → List (Handled M)
  | _, _, [] => []
  | merged, s, (atom, env) :: rest =>
    let r := s.handleNetWmStateChange cfg env con change atom
    ⟨s, atom, con, merged⟩ :: handleAtoms (if r.2 = con then merged else con :: merged) r.1 rest

variable (s : Managed M) (window : ℕ) (atoms : List (StateAtom × Environment M))

/-- `handle_client_message` for `_NET_WM_STATE`. -/
def handleClientMessage : List (Handled M) :=
  match s.tree.conByWindowId window with
  | none => []
  | some con => handleAtoms cfg con change [] s atoms

/-- Every atom that i3 knows is applied to the container that holds the window. -/
def AppliedToHolder : Prop :=
  ∀ h ∈ s.handleClientMessage cfg change window atoms, h.atom.Known → h.ToHolder window

/-- When the atom has set the urgency, no placeholder swallows the window, and the commands of the
assignments leave it in its container. -/
def Stays (env : Environment M) (atom : StateAtom) : Prop :=
  atom = .demandsAttention → ∀ urgent ∈ s.urgencyFor con change,
    (s.setUrgency con urgent).placeholderForCon env con = none
      ∧ (env.runAssignments (s.setUrgency con urgent) window).tree.conByWindowId window
        = (s.setUrgency con urgent).tree.conByWindowId window

/-- The window stays in its container at every atom that another one follows. -/
def Undisturbed : Managed M → List (StateAtom × Environment M) → Prop
  | _, [] => True
  | s, (atom, env) :: rest =>
    ((∃ a ∈ rest, a.1.Known) → s.Stays con change window env atom)
      ∧ Undisturbed (s.handleNetWmStateChange cfg env con change atom).1 rest

end Message

variable {M : Type} {cfg : Config} {con : ConId} {change : StateChange} {merged : List ConId} {s : Managed M}
  {window : ℕ} {env : Environment M} {atom : StateAtom} {rest : List (StateAtom × Environment M)}

/-! ### One atom -/

theorem exists_window (hcon : s.tree.conByWindowId window = some con) :
    ∃ w, (s.tree.con con).window = some w ∧ w.id = window := by
  have hfound := List.find?_some hcon
  cases hw : (s.tree.con con).window with
  | none => simp [hw] at hfound
  | some w => exact ⟨w, rfl, by simpa [hw] using hfound⟩

theorem attended_render (h : s.tree.Attended) : (s.render cfg).tree.Attended :=
  h.of_stirs (stirs_treeRender cfg _) (sameFocus_treeRender _).focused

theorem render_conByWindowId (s : Managed M) (id : ℕ) :
    (s.render cfg).tree.conByWindowId id = s.tree.conByWindowId id :=
  (KeepsWindows.of_stirs (stirs_treeRender cfg s.tree)).holder id

theorem reflags_changeSticky (s : Managed M) (con : ConId) (change : StateChange) :
    Reflags s.tree (s.changeSticky con change) := .of_modify s.tree con ⟨_, _, rfl⟩

theorem changeSticky_fullscreenMode (s : Managed M) (con : ConId) (change : StateChange) (y : ConId) :
    ((s.changeSticky con change).con y).fullscreenMode = (s.tree.con y).fullscreenMode := by
  rw [changeSticky, modify_con]
  split <;> rfl

/-- **One atom** at which the window stays: the container is kept, and so is the order of the tree. -/
theorem handleNetWmStateChange_stays (h : s.tree.Attended) (hcon : s.tree.conByWindowId window = some con)
    (hstays : s.Stays con change window env atom) :
    (s.handleNetWmStateChange cfg env con change atom).2 = con
      ∧ (s.handleNetWmStateChange cfg env con change atom).1.tree.Attended
      ∧ (s.handleNetWmStateChange cfg env con change atom).1.tree.conByWindowId window = some con := by
  cases atom with
  | none => exact ⟨rfl, h, hcon⟩
  | other => exact ⟨rfl, h, hcon⟩
  | fullscreen =>
    have htoggle : KeepsWindows s.tree (if s.togglesFullscreen con change then
          s.tree.conToggleFullscreen cfg con .output else s.tree)
        ∧ Attended (if s.togglesFullscreen con change then
          s.tree.conToggleFullscreen cfg con .output else s.tree) := by
      split
      · exact h.conToggleFullscreen (h.reach hcon)
      · exact ⟨.refl _, h⟩
    refine ⟨rfl, attended_render htoggle.2, ?_⟩
    rw [handleNetWmStateChange, render_conByWindowId]
    exact (htoggle.1.holder window).trans hcon
  | sticky =>
    have hsticky := h.of_reflags (reflags_changeSticky s con change) fun hheld =>
      (reflags_changeSticky s con change).held hheld (changeSticky_fullscreenMode s con change)
    have hpush : KeepsWindows (s.changeSticky con change) ((s.changeSticky con change).outputPushStickyWindows
          cfg (workspaceShow cfg) (s.changeSticky con change).focused)
        ∧ Attended ((s.changeSticky con change).outputPushStickyWindows cfg (workspaceShow cfg)
          (s.changeSticky con change).focused) := hsticky.2.outputPushStickyWindows
    refine ⟨rfl, attended_render hpush.2, ?_⟩
    rw [handleNetWmStateChange, render_conByWindowId]
    exact ((hpush.1.holder window).trans (hsticky.1.holder window)).trans hcon
  | demandsAttention =>
    rw [handleNetWmStateChange]
    cases hurgent : s.urgencyFor con change with
    | none =>
      refine ⟨rfl, attended_render h, ?_⟩
      rw [render_conByWindowId, hcon]
    | some urgent =>
      obtain ⟨hnone, hcommands⟩ := hstays rfl urgent hurgent
      have hstirs := stirs_conSetUrgency s.tree con urgent
      have hset : (s.setUrgency con urgent).tree.Attended :=
        h.of_stirs hstirs (sameFocus_conSetUrgency s.tree con urgent).focused
      have hholder : (s.setUrgency con urgent).tree.conByWindowId window = some con :=
        ((KeepsWindows.of_stirs hstirs).holder window).trans hcon
      obtain ⟨w, hw, hid⟩ := exists_window hholder
      have hremanage : (s.setUrgency con urgent).remanageWindow cfg env con
          = (env.runAssignments (s.setUrgency con urgent) window, con) := by
        rw [remanageWindow, hnone]
        dsimp only
        rw [runAssignments, hw]
        dsimp only
        rw [hid]
      dsimp only
      rw [hremanage]
      refine ⟨rfl, attended_render (env.attended _ window hset), ?_⟩
      dsimp only
      rw [render_conByWindowId, hcommands, hholder]

/-- A placeholder is another container. -/
theorem ne_of_placeholderForCon {nc : ConId} (h : s.placeholderForCon env con = some nc) : nc ≠ con := by
  rintro rfl
  unfold placeholderForCon at h
  cases hw : (s.tree.con nc).window with
  | none => simp [hw] at h
  | some w =>
    simp only [hw] at h
    split at h
    · cases h
    · split at h
      · cases h
      · next c hc =>
        split at h
        · cases h
        · next placeholder hplaceholder =>
          split at h
          · cases h
          · next hid =>
            split at h
            · cases h
            · obtain rfl := Option.some_inj.mp h
              rw [hw] at hplaceholder
              exact hid (by rw [Option.some_inj.mp hplaceholder])

/-- **One atom** at which the window does not stay: its container is closed, or another one holds it. -/
theorem handleNetWmStateChange_goes (hcon : s.tree.conByWindowId window = some con)
    (hgoes : ¬ s.Stays con change window env atom) :
    (s.handleNetWmStateChange cfg env con change atom).2 ≠ con
      ∨ (s.handleNetWmStateChange cfg env con change atom).1.tree.conByWindowId window ≠ some con := by
  unfold Stays at hgoes
  push Not at hgoes
  obtain ⟨rfl, urgent, hurgent, hgoes⟩ := hgoes
  rw [handleNetWmStateChange]
  rw [Option.mem_def] at hurgent
  rw [hurgent]
  dsimp only
  have hholder : (s.setUrgency con urgent).tree.conByWindowId window = some con :=
    ((KeepsWindows.of_stirs (stirs_conSetUrgency s.tree con urgent)).holder window).trans hcon
  unfold remanageWindow
  cases hnc : (s.setUrgency con urgent).placeholderForCon env con with
  | some nc => exact .inl (ne_of_placeholderForCon hnc)
  | none =>
    -- the commands moved the window
    obtain ⟨w, hw, rfl⟩ := exists_window hholder
    refine .inr fun hstill => hgoes hnc ?_
    dsimp only at hstill
    rw [render_conByWindowId, runAssignments, hw] at hstill
    rw [hholder]
    exact hstill

/-! ### The loop -/

theorem handleAtoms_atom (merged : List ConId) (s : Managed M) (atoms : List (StateAtom × Environment M)) :
    (handleAtoms cfg con change merged s atoms).map Handled.atom = atoms.map Prod.fst := by
  induction atoms generalizing merged s with
  | nil => rfl
  | cons a rest ih =>
    rw [handleAtoms]
    exact congrArg (a.1 :: ·) (ih _ _)

/-- Where no atom is known, none is applied. -/
theorem not_known_of_mem (hrest : ¬ ∃ a ∈ rest, a.1.Known) :
    ∀ h ∈ handleAtoms cfg con change merged s rest, ¬ h.atom.Known := by
  intro h hh hknown
  have hmem : h.atom ∈ rest.map Prod.fst := by
    rw [← handleAtoms_atom merged s]
    exact List.mem_map_of_mem hh
  obtain ⟨a, ha, heq⟩ := List.mem_map.mp hmem
  exact hrest ⟨a, ha, by rwa [heq]⟩

theorem undisturbed_of_not_known (hrest : ¬ ∃ a ∈ rest, a.1.Known) :
    Undisturbed cfg con change window s rest := by
  induction rest generalizing s with
  | nil => trivial
  | cons a rest ih =>
    have htail : ¬ ∃ b ∈ rest, b.1.Known := by
      rintro ⟨b, hb, hknown⟩
      exact hrest ⟨b, List.mem_cons_of_mem _ hb, hknown⟩
    exact ⟨fun h => absurd h htail, ih htail⟩

/-- Atoms that i3 does not know change nothing, so the next one that it knows finds this state. -/
theorem holder_of_known (hrest : ∃ a ∈ rest, a.1.Known)
    (happlied : ∀ h ∈ handleAtoms cfg con change merged s rest, h.atom.Known → h.ToHolder window) :
    s.tree.conByWindowId window = some con ∧ con ∉ merged := by
  induction rest with
  | nil =>
    obtain ⟨a, ha, -⟩ := hrest
    cases ha
  | cons a rest ih =>
    obtain ⟨atom, env⟩ := a
    rw [handleAtoms] at happlied
    obtain ⟨hfirst, hothers⟩ := List.forall_mem_cons.mp happlied
    by_cases hknown : atom.Known
    · exact hfirst hknown
    · have hsame : s.handleNetWmStateChange cfg env con change atom = (s, con) := by
        cases atom with
        | none => rfl
        | other => rfl
        | _ => exact absurd (by decide) hknown
      rw [hsame, if_pos rfl] at hothers
      refine ih ?_ hothers
      obtain ⟨b, hb, hb'⟩ := hrest
      rcases List.mem_cons.mp hb with rfl | hb
      · exact absurd hb' hknown
      · exact ⟨b, hb, hb'⟩

/-- **The loop** applies every atom to the container of the window if and only if that stays the container
of the window. -/
theorem handleAtoms_iff (h : s.tree.Attended) (hcon : s.tree.conByWindowId window = some con)
    (hmerged : con ∉ merged) (atoms : List (StateAtom × Environment M)) :
    (∀ h ∈ handleAtoms cfg con change merged s atoms, h.atom.Known → h.ToHolder window)
      ↔ Undisturbed cfg con change window s atoms := by
  induction atoms generalizing s with
  | nil => simp [handleAtoms, Undisturbed]
  | cons a rest ih =>
    obtain ⟨atom, env⟩ := a
    have hfirst : (⟨s, atom, con, merged⟩ : Handled M).ToHolder window := ⟨hcon, hmerged⟩
    rw [handleAtoms, List.forall_mem_cons, and_iff_right fun _ => hfirst, Undisturbed]
    by_cases hknown : ∃ a ∈ rest, a.1.Known
    · by_cases hstays : s.Stays con change window env atom
      · obtain ⟨hsame, hattended, hholder⟩ := @handleNetWmStateChange_stays M cfg con change s window env atom
          h hcon hstays
        rw [if_pos hsame, ih hattended hholder, and_iff_right fun _ => hstays]
      · refine ⟨fun happlied => ?_, fun hund => absurd (hund.1 hknown) hstays⟩
        obtain ⟨hholder, hnot⟩ := holder_of_known hknown happlied
        rcases @handleNetWmStateChange_goes M cfg con change s window env atom hcon hstays with hclosed | hmoved
        · rw [if_neg hclosed] at hnot
          exact absurd List.mem_cons_self hnot
        · exact absurd hholder hmoved
    · have hnone := @not_known_of_mem M cfg con change
      exact ⟨fun _ => ⟨fun hrest => absurd hrest hknown, undisturbed_of_not_known hknown⟩,
        fun _ h hh hk => absurd hk (hnone hknown h hh)⟩

/-- **A `_NET_WM_STATE` message** is applied to the container that holds the window if and only if the window
stays in its container at every atom that another one follows. -/
theorem appliedToHolder_iff (cfg : Config) (s : Managed M) (h : s.tree.Attended) (window : ℕ)
    (change : StateChange) (atoms : List (StateAtom × Environment M)) :
    s.AppliedToHolder cfg change window atoms
      ↔ ∀ con ∈ s.tree.conByWindowId window, Undisturbed cfg con change window s atoms := by
  unfold AppliedToHolder handleClientMessage
  cases hcon : s.tree.conByWindowId window with
  | none => simp
  | some con =>
    rw [handleAtoms_iff h hcon (by simp)]
    simp

/-! ### A placeholder that waits -/

/-- A window next to an older placeholder, which takes every window. -/
def waiting : Managed Unit where
  tree := ofList [
    { type := .root, layout := .splith, nodesHead := [1], focusHead := [1] },
    { type := .output, parent := some 0, name := "eDP-1", layout := .output, nodesHead := [2], focusHead := [2] },
    { parent := some 1, name := "content", layout := .splith, nodesHead := [3], focusHead := [3] },
    { type := .workspace, parent := some 2, name := "1", num := 1, layout := .splith, fullscreenMode := .output,
      nodesHead := [4, 5], focusHead := [4, 5] },
    { parent := some 3, window := some { id := 7 } },
    { parent := some 3, window := some { id := 9 } }] (some 4)
  swallowHead c := if c = 5 then [()] else []
  placeholders := [9]
  swallowed := []
  managedSince w := if w = 7 then 1 else 0

/-- Every criterion matches, and there are no assignments. -/
def taking : Environment Unit := ⟨fun _ _ _ => true, fun s _ => s, fun _ _ h => h⟩

theorem rooted_waiting : Rooted waiting.tree := rooted_ofList (by decide +kernel) (by decide +kernel)

theorem attended_waiting : waiting.tree.Attended where
  bare := bare_ofList (by decide +kernel)
  listed c hc hwindow := by
    have hcases : ∀ c ∈ waiting.tree.allCons, (waiting.tree.con c).window ≠ none → c = 4 ∨ c = 5 := by
      decide +kernel
    rcases hcases c hc hwindow with rfl | rfl
    · exact reach_of_isChain (l := [1, 2, 3, 4]) reach_croot (by decide +kernel) (by simp)
    · exact reach_of_isChain (l := [1, 2, 3, 5]) reach_croot (by decide +kernel) (by simp)
  focus := by
    refine ⟨2, 3, 4, rfl, healthy_ofList (· ∈ [4, 5]) rooted_waiting (by decide +kernel), ?_, rfl, ?_,
      by decide +kernel, by decide +kernel, ?_⟩
    · exact stacked_ofList (by decide +kernel)
    · exact reach_of_isChain (l := [1, 2, 3]) reach_croot (by decide +kernel) (by simp)
    · exact (Descent.Below.single (by decide +kernel)).within

/-- The attention atom comes last, so the placeholder may take the window. -/
theorem appliedToHolder_waiting :
    waiting.AppliedToHolder {} .add 7 [(.sticky, taking), (.fullscreen, taking), (.demandsAttention, taking)] := by
  apply (appliedToHolder_iff {} waiting attended_waiting 7 .add _).mpr
  intro con _
  refine ⟨(fun _ h => nomatch h), (fun _ h => nomatch h), ?_, trivial⟩
  rintro ⟨a, ha, -⟩
  cases ha

/-- The placeholder takes the window at the attention atom, and the sticky one is applied to the container
that was closed. -/
theorem not_appliedToHolder_swallowed : ¬ ∀ (M : Type) (cfg : Config) (s : Managed M) (window : ℕ)
    (change : StateChange) (atoms : List (StateAtom × Environment M)), s.tree.Attended →
      s.AppliedToHolder cfg change window atoms := by
  intro h
  have hswallowed : (waiting.handleNetWmStateChange {} taking 4 .add .demandsAttention).2 ≠ 4 := by
    decide +kernel
  have happlied := h Unit {} waiting 7 .add [(.demandsAttention, taking), (.sticky, taking)] attended_waiting
  have hcon : waiting.tree.conByWindowId 7 = some 4 := by decide +kernel
  rw [AppliedToHolder, handleClientMessage, hcon] at happlied
  simp only [handleAtoms, if_neg hswallowed, List.forall_mem_cons] at happlied
  exact (happlied.2.1 (by decide)).2 List.mem_cons_self

end Managed

end X

end I3
