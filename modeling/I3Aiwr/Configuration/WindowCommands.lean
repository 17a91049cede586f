import I3Aiwr.Lib.Runs
import I3Aiwr.Configuration.Assignments

/-!
# The commands of `for_window`

`run_assignments` in `src/src/assignments.c` runs the commands of the assignments that match a window. A
command may change what the window matches, call `run_assignments` for the same window again, and reload
the configuration: `free_configuration` frees the assignments and forgets which ones have run, and new ones
are allocated, perhaps where old ones were. A call finds out about a reload by the address of the first
assignment.

The window is any one window; what its commands do is up to them, and each of them returns. A call stops
where it would follow a pointer into an assignment that has been freed.

## Main definitions

* `Loaded`: the assignments of a configuration, with their addresses
* `Frame`: a call of `run_assignments` whose command has not returned
* `State`, `State.runAssignments`, `State.returns`
* `State.Sound`: what is to hold of the calls
* `Input.Noticed`: a reload is noticed

## Main results

* `kept_step`: what each step keeps
* `sound_iff_noticed`
* `not_sound_reused`: the first assignment is allocated where the old one was
-/

namespace I3.Configuration

namespace WindowCommands

abbrev Address := ℕ

/-- `assignments`. What is allocated at the same time has different addresses. -/
structure Loaded where
  list : List (Address × Assignment)
  nodup : (list.map Prod.fst).Nodup

/-- The addresses in the order of the list. -/
def Loaded.addresses (l : Loaded) : List Address := l.list.map Prod.fst

/-- `TAILQ_FIRST(&assignments)` -/
def Loaded.first (l : Loaded) : Option Address := l.addresses.head?

/-- A call of `run_assignments`, while it waits for a command or after it has ended. -/
structure Frame where
  /-- `old_first_assignment` -/
  oldFirst : Option Address
  /-- The load of the configuration whose list the call goes through. -/
  load : ℕ
  /-- The list as the call has seen it. -/
  listed : List Address
  /-- What comes after `current`. -/
  rest : List (Address × Assignment)
  /-- The assignments whose commands the call has executed. -/
  executed : List Address := []
  /-- How many of the commands have returned. -/
  returned : ℕ := 0

structure State where
  assignments : Loaded
  /-- How often the configuration has been loaded again. -/
  load : ℕ := 0
  /-- `match_matches_window` -/
  matchesWindow : Assignment → Bool
  /-- `window->ran_assignments` -/
  ranAssignments : List Address := []
  /-- The calls under way, the innermost one first. -/
  frames : List Frame := []
  finished : List Frame := []
  /-- The assignments whose commands have been executed, with the load they are from. -/
  executed : List (ℕ × Address) := []
  /-- A call has followed an assignment that was freed. -/
  followedFreed : Bool := false

/-- `current->type == A_COMMAND` -/
def isCommand (a : Assignment) : Bool :=
  match a.dest with
  | .command _ => true
  | _ => false

namespace State

variable (s : State)

/-- The loop of `run_assignments` from where the call is, up to the next command or the end. -/
def resume (f : Frame) : List (Address × Assignment) → State
  | [] => { s with finished := { f with rest := [] } :: s.finished }
  | (current, a) :: rest =>
    if !isCommand a || !s.matchesWindow a then resume f rest
    else if current ∈ s.ranAssignments then resume f rest
    else
      { s with
        ranAssignments := s.ranAssignments ++ [current]
        executed := s.executed ++ [(s.load, current)]
        frames := { f with rest := rest, executed := f.executed ++ [current] } :: s.frames }

/-- `run_assignments`, up to its first command. -/
def runAssignments : State :=
  s.resume { oldFirst := s.assignments.first, load := s.load, listed := s.assignments.addresses, rest := [] }
    s.assignments.list

/-- The command of the innermost call returns, and the call goes on. -/
def returns : State :=
  match s.frames with
  | [] => s
  | f :: frames =>
    let s := { s with frames := frames }
    let f := { f with returned := f.returned + 1 }
    if f.oldFirst ≠ s.assignments.first then { s with finished := f :: s.finished }
    else if f.load ≠ s.load then { s with followedFreed := true, finished := f :: s.finished }
    else s.resume f f.rest

/-- `free_configuration` and a new list. -/
def reload (l : Loaded) : State :=
  { s with assignments := l, load := s.load + 1, ranAssignments := [] }

end State

/-- What commands do. -/
inductive Input
  | change (matchesWindow : Assignment → Bool)
  | runAssignments
  | reload (l : Loaded)
  | returns

def step (s : State) : Input → State
  | .change matchesWindow => { s with matchesWindow := matchesWindow }
  | .runAssignments => s.runAssignments
  | .reload l => s.reload l
  | .returns => s.returns

/-- No assignment is followed or executed that was freed, each is executed once at most, and each call
executes the commands in the order of its list. A call does not go on for longer than its list has
assignments, if its commands return. -/
structure State.Sound (s : State) : Prop where
  intact : s.followedFreed = false
  once : s.executed.Nodup
  /-- What is executed since the last load is in the list. -/
  listed : ∀ a, (s.load, a) ∈ s.executed → a ∈ s.assignments.addresses
  ordered : ∀ f ∈ s.frames ++ s.finished, f.executed.Sublist f.listed
  ends : ∀ f ∈ s.frames ++ s.finished, f.returned ≤ f.listed.length

/-- A command returns to a call: if there was a reload, the first assignment is not where the first one was
when the call began. -/
def Input.Noticed (s : State) : Input → Prop
  | .returns => ∀ f ∈ s.frames.head?, f.load ≠ s.load → f.oldFirst ≠ s.assignments.first
  | _ => True

/-! ### What each step keeps -/

/-- The commands that a call has executed and those that it may still execute are in the order of its
list. -/
def Frame.Ordered (f : Frame) : Prop := (f.executed ++ f.rest.map Prod.fst).Sublist f.listed

theorem Frame.Ordered.executed {f : Frame} (h : f.Ordered) : f.executed.Sublist f.listed :=
  (List.sublist_append_left _ _).trans h

/-- What holds whether reloads are noticed or not. -/
structure State.Kept (s : State) : Prop where
  ran : ∀ a, a ∈ s.ranAssignments ↔ (s.load, a) ∈ s.executed
  past : ∀ p ∈ s.executed, p.1 ≤ s.load
  once : s.executed.Nodup
  listed : ∀ a, (s.load, a) ∈ s.executed → a ∈ s.assignments.addresses
  ordered : ∀ f ∈ s.frames ++ s.finished, f.Ordered
  waiting : ∀ f ∈ s.frames, f.returned + 1 = f.executed.length
  ended : ∀ f ∈ s.finished, f.returned = f.executed.length
  frames : ∀ f ∈ s.frames, f.load ≤ s.load ∧ (f.load = s.load → f.listed = s.assignments.addresses)

namespace State.Kept

variable {s : State} {f : Frame}

theorem resume (hs : s.Kept) (hload : f.load = s.load) (hlisted : f.listed = s.assignments.addresses)
    (hreturned : f.returned = f.executed.length) (rest : List (Address × Assignment)) (hrest : (f.executed ++ rest.map Prod.fst).Sublist f.listed) :
    (s.resume f rest).Kept := by
  induction rest with
  | nil =>
    refine ⟨hs.ran, hs.past, hs.once, hs.listed, ?_, hs.waiting, ?_, hs.frames⟩
    · intro g hg
      rcases List.mem_append.mp hg with hg | hg
      · exact hs.ordered g (List.mem_append_left _ hg)
      · rcases List.mem_cons.mp hg with rfl | hg
        · exact hrest
        · exact hs.ordered g (List.mem_append_right _ hg)
    · intro g hg
      rcases List.mem_cons.mp hg with rfl | hg
      · exact hreturned
      · exact hs.ended g hg
  | cons p rest ih =>
    obtain ⟨current, a⟩ := p
    have htail : (f.executed ++ rest.map Prod.fst).Sublist f.listed :=
      ((List.sublist_cons_self current _).append_left f.executed).trans hrest
    rw [State.resume]
    split
    · exact ih htail
    · split
      · exact ih htail
      · next hnew =>
        -- the command is executed
        have hmem : current ∈ s.assignments.addresses := by
          rw [← hlisted]
          exact hrest.subset (List.mem_append_right _ List.mem_cons_self)
        refine ⟨?_, ?_, ?_, ?_, ?_, ?_, hs.ended, ?_⟩
        · intro b
          simp only [List.mem_append, List.mem_singleton, hs.ran b, Prod.mk.injEq, true_and]
        · intro q hq
          rcases List.mem_append.mp hq with hq | hq
          · exact hs.past q hq
          · obtain rfl := List.mem_singleton.mp hq
            exact le_rfl
        · refine List.nodup_append.mpr ⟨hs.once, List.nodup_singleton _, ?_⟩
          rintro q hq _ hlast rfl
          rw [List.mem_singleton.mp hlast] at hq
          exact hnew ((hs.ran current).mpr hq)
        · intro b hb
          rcases List.mem_append.mp hb with hb | hb
          · exact hs.listed b hb
          · obtain ⟨-, rfl⟩ := Prod.mk.inj (List.mem_singleton.mp hb)
            exact hmem
        · intro g hg
          rcases List.mem_cons.mp hg with rfl | hg
          · change ((f.executed ++ [current]) ++ rest.map Prod.fst).Sublist f.listed
            rw [List.append_assoc]
            exact hrest
          · exact hs.ordered g hg
        · intro g hg
          rcases List.mem_cons.mp hg with rfl | hg
          · simp [hreturned]
          · exact hs.waiting g hg
        · intro g hg
          rcases List.mem_cons.mp hg with rfl | hg
          · exact ⟨hload.le, fun _ => hlisted⟩
          · exact hs.frames g hg

theorem runAssignments (hs : s.Kept) : s.runAssignments.Kept :=
  hs.resume rfl rfl rfl s.assignments.list (List.Sublist.refl _)

/-- The innermost call is taken out. -/
theorem tail {frames : List Frame} (hs : s.Kept) (h : s.frames = f :: frames) :
    State.Kept { s with frames := frames } := by
  have hmem : ∀ g ∈ frames, g ∈ s.frames := by
    intro g hg
    rw [h]
    exact List.mem_cons_of_mem _ hg
  refine ⟨hs.ran, hs.past, hs.once, hs.listed, ?_, fun g hg => hs.waiting g (hmem g hg), hs.ended,
    fun g hg => hs.frames g (hmem g hg)⟩
  intro g hg
  rcases List.mem_append.mp hg with hg | hg
  · exact hs.ordered g (List.mem_append_left _ (hmem g hg))
  · exact hs.ordered g (List.mem_append_right _ hg)

/-- A call ends. -/
theorem finish (hs : s.Kept) (hf : f.Ordered) (hreturned : f.returned = f.executed.length)
    (followedFreed : Bool) :
    State.Kept { s with followedFreed := followedFreed, finished := f :: s.finished } := by
  refine ⟨hs.ran, hs.past, hs.once, hs.listed, ?_, hs.waiting, ?_, hs.frames⟩
  · intro g hg
    rcases List.mem_append.mp hg with hg | hg
    · exact hs.ordered g (List.mem_append_left _ hg)
    · rcases List.mem_cons.mp hg with rfl | hg
      · exact hf
      · exact hs.ordered g (List.mem_append_right _ hg)
  · intro g hg
    rcases List.mem_cons.mp hg with rfl | hg
    · exact hreturned
    · exact hs.ended g hg

theorem returns (hs : s.Kept) : s.returns.Kept := by
  rw [State.returns]
  split
  · exact hs
  · next f frames h =>
    have hmem : f ∈ s.frames := by
      rw [h]
      exact List.mem_cons_self
    have hordered : Frame.Ordered { f with returned := f.returned + 1 } :=
      hs.ordered f (List.mem_append_left _ hmem)
    have hreturned := hs.waiting f hmem
    have htail := hs.tail h
    dsimp only
    split
    · exact htail.finish hordered hreturned s.followedFreed
    · split
      · exact htail.finish hordered hreturned true
      · next hload =>
        have hload := not_ne_iff.mp hload
        exact htail.resume (f := { f with returned := f.returned + 1 }) hload ((hs.frames f hmem).2 hload)
          hreturned f.rest hordered

theorem reload (hs : s.Kept) (l : Loaded) : (s.reload l).Kept := by
  have hnew : ∀ a, (s.load + 1, a) ∉ s.executed := by
    intro a ha
    exact absurd (hs.past _ ha) (Nat.not_succ_le_self _)
  refine ⟨?_, ?_, hs.once, ?_, hs.ordered, hs.waiting, hs.ended, ?_⟩
  · intro a
    exact iff_of_false List.not_mem_nil (hnew a)
  · intro q hq
    exact (hs.past q hq).trans (Nat.le_succ _)
  · intro a ha
    exact absurd ha (hnew a)
  · intro f hf
    have hle := (hs.frames f hf).1
    refine ⟨hle.trans (Nat.le_succ _), fun heq => ?_⟩
    change f.load = s.load + 1 at heq
    omega

end State.Kept

theorem kept_step {s : State} (hs : s.Kept) (e : Input) : (step s e).Kept := by
  cases e with
  | change matchesWindow => exact ⟨hs.ran, hs.past, hs.once, hs.listed, hs.ordered, hs.waiting, hs.ended, hs.frames⟩
  | runAssignments => exact hs.runAssignments
  | reload l => exact hs.reload l
  | returns => exact hs.returns

/-! ### Freed assignments -/

theorem State.resume_followedFreed (s : State) (f : Frame) (rest : List (Address × Assignment)) :
    (s.resume f rest).followedFreed = s.followedFreed := by
  induction rest with
  | nil => rfl
  | cons p rest ih =>
    rw [State.resume]
    split
    · exact ih
    · split
      · exact ih
      · rfl

/-- **A step** follows a freed assignment if it is a return after a reload that is not noticed. -/
theorem followedFreed_step {s : State} (hs : s.followedFreed = false) (e : Input) :
    (step s e).followedFreed = false ↔ Input.Noticed s e := by
  cases e with
  | change matchesWindow => exact iff_of_true hs trivial
  | runAssignments => exact iff_of_true ((s.resume_followedFreed _ _).trans hs) trivial
  | reload l => exact iff_of_true hs trivial
  | returns =>
    change s.returns.followedFreed = false ↔
      ∀ f ∈ s.frames.head?, f.load ≠ s.load → f.oldFirst ≠ s.assignments.first
    rw [State.returns]
    cases h : s.frames with
    | nil => simp [hs]
    | cons f frames =>
      simp only [List.head?_cons, Option.mem_def, Option.some.injEq, forall_eq']
      by_cases hfirst : f.oldFirst ≠ s.assignments.first
      · rw [if_pos hfirst]
        exact iff_of_true hs fun _ => hfirst
      · rw [if_neg hfirst]
        by_cases hload : f.load ≠ s.load
        · rw [if_pos hload]
          exact iff_of_false (by simp) fun himp => hfirst (himp hload)
        · rw [if_neg hload]
          exact iff_of_true ((State.resume_followedFreed _ _ _).trans hs) fun hne => absurd hne hload

theorem State.Kept.sound_iff {s : State} (hs : s.Kept) : s.Sound ↔ s.followedFreed = false := by
  refine ⟨State.Sound.intact, fun h => ⟨h, hs.once, hs.listed, ?_, ?_⟩⟩
  · intro f hf
    exact (hs.ordered f hf).executed
  · intro f hf
    have hle := (hs.ordered f hf).executed.length_le
    rcases List.mem_append.mp hf with hf | hf
    · have := hs.waiting f hf
      omega
    · have := hs.ended f hf
      omega

theorem kept_init (l : Loaded) (matchesWindow : Assignment → Bool) :
    State.Kept { assignments := l, matchesWindow := matchesWindow } :=
  ⟨by simp, by simp, List.nodup_nil, by simp, by simp, by simp, by simp, by simp⟩

/-- **In every run** everything is in order in each state exactly if each reload that a call sees is
noticed by the address of the first assignment. -/
theorem sound_iff_noticed (l : Loaded) (matchesWindow : Assignment → Bool) (es : List Input) :
    (∀ fs, fs <+: es →
      (Runs.after step { assignments := l, matchesWindow := matchesWindow } fs).Sound) ↔
      Runs.Meets step Input.Noticed { assignments := l, matchesWindow := matchesWindow } es := by
  rw [← Runs.invariant_iff (I := fun s => s.Kept ∧ s.Sound) ?_
    ⟨kept_init l matchesWindow, (kept_init l matchesWindow).sound_iff.mpr rfl⟩]
  · refine forall₂_congr fun fs _ => ?_
    have hkept := Runs.invariant_free (I := State.Kept) (fun _ e hs => kept_step hs e)
      (kept_init l matchesWindow) fs
    exact (and_iff_right hkept).symm
  · rintro s e ⟨hs, hsound⟩
    rw [and_iff_right (kept_step hs e), (kept_step hs e).sound_iff]
    exact followedFreed_step hsound.intact e

/-- An assignment for a window of a class. -/
def forClass (class_ command : String) : Assignment :=
  { match_ := { class_ := some class_.toList }, dest := .command command.toList }

/-- The second assignment reloads the configuration, whose only one is allocated where the first one
was. -/
theorem not_sound_reused :
    ¬ (Runs.after step
      { assignments := ⟨[(1, forClass "XTerm" "mark x"), (2, forClass "URxvt" "reload")], by decide⟩
        matchesWindow := fun a => decide (a.match_.class_ = some "URxvt".toList) }
      [.runAssignments, .reload ⟨[(1, forClass "XTerm" "mark x")], by decide⟩, .returns]).Sound := by
  intro h
  exact absurd h.intact (by decide +kernel)

end WindowCommands

end I3.Configuration
