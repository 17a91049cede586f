import Mathlib
import I3Aiwr.Lib.Runs
import I3Aiwr.Lib.Settings
import I3Aiwr.Bar.StatusLine

/-!
# The workspace lists of the bar

How i3bar takes in what i3 or a workspace command says of the workspaces: `parse_workspaces_json` in
`src/i3bar/src/workspaces.c` and the callbacks of the JSON parser there, with `get_output_by_name` and
`set_workspace_button_error`. The callbacks are written for an array of maps as i3 prints it, but a text
may be any JSON value. A map that is not within another one is a workspace.

The workspaces are on the heap, and the lists of the outputs hold pointers to them. Strings end at their
first NUL.

## Main definitions

* `State`, `State.callback`: the callbacks
* `Phase`, `Phase.next`: the grammar of JSON, with the members of the workspace so far
* `Config.workspaceOf`: what a workspace map says
* `Run`, `step`, `Run.Correct`
* `Input.Enabled`, `Input.Allowed`

## Main results

* `sound_callback`: what each event keeps
* `listed_run`: the lists of the outputs are as the text says
* `not_listed_scalar`: an array of a scalar
-/

namespace I3

namespace WorkspaceLists

open StatusLine (Event Value Member Frame)

/-- `i3_ws`. The output is by its place in the list of outputs. -/
structure Workspace where
  id : ℤ := 0
  num : ℤ := 0
  canonicalName : Option String := none
  name : Option String := none
  visible : Bool := false
  focused : Bool := false
  urgent : Bool := false
  output : Option ℕ := none
  deriving DecidableEq, Repr

structure Output where
  name : String
  primary : Bool
  deriving DecidableEq, Repr

/-- The configuration of the bar, and the outputs that it manages. -/
structure Config where
  stripWsNumbers : Bool := false
  stripWsName : Bool := false
  workspaceCommand : Bool := true
  outputs : List Output

/-- `struct workspaces_json_params`, the heap and the lists of the outputs. -/
structure State where
  workspacesWalk : Option ℕ := none
  curKey : Option String := none
  needOutput : Bool := false
  parsingRect : Bool := false
  /-- What has been freed is not there. -/
  heap : ℕ → Option Workspace := fun _ => none
  /-- The pointer of the next workspace. -/
  fresh : ℕ := 0
  lists : ℕ → List ℕ := fun _ => []

/-- Why a callback does not come to its end. -/
inductive Stop
  /-- The key that is compared is null. -/
  | nullKey
  /-- The workspace that is written to is null, or has been freed. -/
  | nullWorkspace
  /-- The callback cancels the parser. -/
  | cancelled
  deriving DecidableEq, Repr

/-- `(uintptr_t)val` -/
def toUintptr (val : ℤ) : ℤ := val % 2 ^ 64

/-- `(int)val` -/
def toInt (val : ℤ) : ℤ := val.bmod (2 ^ 32)

namespace Config

variable (config : Config)

/-- `get_output_by_name` -/
def getOutputByName (name : String) : Option ℕ :=
  config.outputs.findIdx? fun walk => (name.toLower == "primary" && walk.primary) || walk.name == name

/-- The output of a workspace that does not name one. -/
def fallback : Option ℕ :=
  (config.getOutputByName "primary").or (if config.outputs = [] then none else some 0)

/-- The name that is displayed, of a workspace of a number. -/
def display (num : ℤ) (val : String) : String :=
  if (config.stripWsNumbers || config.stripWsName) && decide (0 ≤ num) then
    let wsNum := toString num
    let span := val.toList.takeWhile (· ∈ wsNum.toList)
    let rest := val.toList.dropWhile (· ∈ wsNum.toList)
    if config.stripWsNumbers then
      let rest := if span ≠ [] ∧ rest.head? = some ':' then rest.tail else rest
      if rest = [] then wsNum else String.ofList rest
    else wsNum
  else val

end Config

namespace State

variable (config : Config) (s : State)

/-- The workspace that `workspaces_walk` points to. -/
def current : Option Workspace := s.workspacesWalk.bind s.heap

/-- Writes to the workspace, and frees the key. -/
def write (f : Workspace → Workspace) : Except Stop State :=
  match s.workspacesWalk, s.current with
  | some p, some ws => .ok { s with heap := Function.update s.heap p (some (f ws)), curKey := none }
  | _, _ => .error .nullWorkspace

/-- `workspaces_boolean_cb`, with the key. -/
def boolean (key : String) (val : Bool) : Except Stop State :=
  if key = "visible" then s.write fun ws => { ws with visible := val }
  else if key = "focused" then s.write fun ws => { ws with focused := val }
  else if key = "urgent" then s.write fun ws => { ws with urgent := val }
  else .error .cancelled

/-- `workspaces_integer_cb`, with the key. -/
def integer (key : String) (val : ℤ) : Except Stop State :=
  if key = "id" then s.write fun ws => { ws with id := toUintptr val }
  else if key = "num" then s.write fun ws => { ws with num := toInt val }
  else if key ∈ ["x", "y", "width", "height"] then .ok { s with curKey := none }
  else .error .cancelled

/-- `TAILQ_INSERT_TAIL` into the list of an output. A workspace that is in a list already breaks the
links of the list; here it is in the list once more. -/
def insertTail (p : ℕ) (ws : Workspace) (o : ℕ) : State :=
  { s with
    heap := Function.update s.heap p (some { ws with output := some o })
    lists := Function.update s.lists o (s.lists o ++ [p]) }

/-- `workspaces_string_cb`, with the key. -/
def string (key : String) (val : String) : Except Stop State :=
  if key = "name" then s.write fun ws =>
    { ws with canonicalName := some val, name := some (config.display ws.num val) }
  else if key = "output" then
    match config.getOutputByName val with
    | none => .ok { s with needOutput := false, curKey := none }
    | some target => match s.workspacesWalk, s.current with
      | some p, some ws => .ok { s.insertTail p ws target with needOutput := false, curKey := none }
      | _, _ => .error .nullWorkspace
  else .error .cancelled

/-- `workspaces_start_map_cb` -/
def startMap : State :=
  if s.curKey = none then
    { s with
      heap := Function.update s.heap s.fresh (some { num := -1 })
      fresh := s.fresh + 1
      workspacesWalk := some s.fresh
      needOutput := true
      parsingRect := false }
  else { s with parsingRect := true }

/-- `FREE(params->workspaces_walk)` -/
def freeWalk (p : ℕ) : State :=
  { s with heap := Function.update s.heap p none, workspacesWalk := none }

/-- `workspaces_end_map_cb` -/
def endMap : Except Stop State :=
  if s.parsingRect then .ok { s with parsingRect := false } else
    match s.workspacesWalk with
    | none => .ok s
    | some p => match s.heap p with
      | none => .error .nullWorkspace
      | some ws =>
        if ws.output.isSome then .ok s
        else if !s.needOutput then .ok (s.freeWalk p)
        else if ws.name = none ∨ config.outputs = [] then .ok (s.freeWalk p)
        else .ok (s.insertTail p ws ((config.getOutputByName "primary").getD 0))

/-- `workspaces_map_key_cb` -/
def mapKey (key : String) : State := { s with curKey := some key }

/-- A callback; `null`, numbers with a fraction and arrays have none. -/
def callback : Event → Except Stop State
  | .boolean val => match s.curKey with
    | some key => s.boolean key val
    | none => .error .nullKey
  | .integer val => match s.curKey with
    | some key => s.integer key val
    | none => .error .nullKey
  | .string val => match s.curKey with
    | some key => s.string config key val
    | none => .error .nullKey
  | .startMap => .ok s.startMap
  | .endMap => s.endMap config
  | .mapKey key => .ok (s.mapKey key)
  | .null => .ok s
  | .double => .ok s
  | .startArray => .ok s
  | .endArray => .ok s

/-- `free_workspaces` -/
def freeWorkspaces : State :=
  { s with
    heap := fun p => if ∃ o ∈ List.range config.outputs.length, p ∈ s.lists o then none else s.heap p
    lists := fun _ => [] }

/-- The workspace with the message of an error. -/
def fakeWorkspace (o : ℕ) : Workspace :=
  { name := some "Error: Could not parse workspace_command's JSON"
    num := -1
    urgent := true
    visible := true
    output := some o }

/-- `set_workspace_button_error`: each output gets a workspace with the message. -/
def setWorkspaceButtonError : State :=
  let s := s.freeWorkspaces config
  let n := config.outputs.length
  { s with
    heap := fun p => if s.fresh ≤ p ∧ p < s.fresh + n then some (fakeWorkspace (p - s.fresh)) else s.heap p
    fresh := s.fresh + n
    lists := fun o => if o < n then [s.fresh + o] else [] }

/-- What `parse_workspaces_json` does before the text is read. -/
def parseWorkspacesJson : State :=
  { s.freeWorkspaces config with
    workspacesWalk := none
    curKey := none
    needOutput := false
    parsingRect := false }

end State

/-! ### The text -/

/-- How far a text has come, with the arrays that are open around the workspaces, and the members of the
workspace that is not complete. -/
inductive Phase
  | idle
  | start
  | outside (arrays : ℕ)
  | workspace (arrays : ℕ) (members : List Member)
  | value (arrays : ℕ) (members : List Member) (key : String)
  | nested (arrays : ℕ) (members : List Member) (frames : List Frame)
  deriving DecidableEq, Repr

namespace Phase

/-- Outside of the arrays, the text is complete. -/
def close : ℕ → Phase
  | 0 => .idle
  | arrays + 1 => .outside (arrays + 1)

/-- The grammar of JSON. -/
def next : Phase → Event → Option Phase
  | .idle, _ => none
  | .start, .startArray => some (.outside 1)
  | .start, .startMap => some (.workspace 0 [])
  | .start, e => e.value?.map fun _ => .idle
  | .outside arrays, .startArray => some (.outside (arrays + 1))
  | .outside arrays, .endArray => some (close (arrays - 1))
  | .outside arrays, .startMap => some (.workspace arrays [])
  | .outside arrays, e => e.value?.map fun _ => .outside arrays
  | .workspace arrays members, .mapKey key => some (.value arrays members key)
  | .workspace arrays _, .endMap => some (close arrays)
  | .workspace _ _, _ => none
  | .value arrays members key, .startArray =>
    some (.nested arrays (members ++ [⟨key, .nested⟩]) [.array])
  | .value arrays members key, .startMap =>
    some (.nested arrays (members ++ [⟨key, .nested⟩]) [.mapKey])
  | .value arrays members key, e =>
    e.value?.map fun v => .workspace arrays (members ++ [⟨key, v⟩])
  | .nested arrays members frames, e => (StatusLine.Phase.nextFrames frames e).map fun frames =>
    if frames = [] then .workspace arrays members else .nested arrays members frames

/-- The workspace that an event completes. -/
def completed : Phase → Event → Option (List Member)
  | .workspace _ members, .endMap => some members
  | _, _ => none

/-- The workspace that is not complete. -/
def members? : Phase → Option (List Member)
  | .workspace _ members => some members
  | .value _ members _ => some members
  | .nested _ members _ => some members
  | _ => none

end Phase

/-- The value of a key in a member, if it is of the kind. -/
def stringFor (key : String) (m : Member) : Option String :=
  if m.key = key then match m.value with
    | .string val => some val
    | _ => none
  else none

def integerFor (key : String) (m : Member) : Option ℤ :=
  if m.key = key then match m.value with
    | .integer val => some val
    | _ => none
  else none

def booleanFor (key : String) (m : Member) : Option Bool :=
  if m.key = key then match m.value with
    | .boolean val => some val
    | _ => none
  else none

namespace Config

open Settings

variable (config : Config)

/-- What a workspace map says, each key by its last value; the output is given. -/
def workspaceOf (members : List Member) (output : Option ℕ) : Workspace :=
  let num := (last (integerFor "num") members).getD (-1)
  { id := (last (integerFor "id") members).getD 0
    num := num
    canonicalName := last (stringFor "name") members
    name := (last (stringFor "name") members).map (config.display num)
    visible := (last (booleanFor "visible") members).getD false
    focused := (last (booleanFor "focused") members).getD false
    urgent := (last (booleanFor "urgent") members).getD false
    output := output }

/-- The output that the map names, if the bar manages it. -/
def named (members : List Member) : Option ℕ :=
  (last (stringFor "output") members).bind config.getOutputByName

/-- The output of a workspace: the one that it names, if it names any. -/
def outputOf (members : List Member) : Option ℕ :=
  match last (stringFor "output") members with
  | some name => config.getOutputByName name
  | none => config.fallback

end Config

/-! ### Runs -/

/-- An event of the parser; or a text begins, or the parser finds that it is not JSON. -/
inductive Input
  | parse
  | json (e : Event)
  | error
  deriving DecidableEq, Repr

/-- The bar, and what the text says. -/
structure Run where
  bar : State := {}
  /-- What a callback has dereferenced. -/
  fault : Option Stop := none
  /-- The bar has exited. -/
  exited : Bool := false
  /-- The last text was not accepted. -/
  rejected : Bool := false
  phase : Phase := .idle
  /-- The workspaces of the last text that are complete. -/
  read : List (List Member) := []

variable (config : Config)

/-- The text is not accepted. -/
def Run.reject (r : Run) : Run :=
  { r with
    bar := if config.workspaceCommand then r.bar.setWorkspaceButtonError config else r.bar
    exited := !config.workspaceCommand
    rejected := true
    phase := .idle
    read := [] }

def step (r : Run) : Input → Run
  | .parse =>
    { r with bar := r.bar.parseWorkspacesJson config, rejected := false, phase := .start, read := [] }
  | .json e =>
    match r.bar.callback config e with
    | .ok bar =>
      { r with
        bar := bar
        phase := (r.phase.next e).getD r.phase
        read := r.read ++ (r.phase.completed e).toList }
    | .error .cancelled => r.reject config
    | .error fault => { r with fault := some fault }
  | .error => r.reject config

/-- A text begins where none is read; its events are those of JSON. -/
def Input.Enabled (r : Run) : Input → Prop
  | .parse => r.exited = false ∧ r.phase = .idle
  | .json e => (r.phase.next e).isSome
  | .error => r.exited = false

/-- The workspaces that are to be in the list of an output: the complete ones that belong there, and the
one that is not complete when it has named the output. -/
def Run.due (r : Run) (o : ℕ) : List Workspace :=
  ((r.read.filter fun members => config.outputOf members = some o).map fun members =>
      config.workspaceOf members (some o)) ++
    ((r.phase.members?.toList.filter fun members => config.named members = some o).map fun members =>
      config.workspaceOf members (some o))

/-- No null pointer is dereferenced, no list has a freed workspace, and after an accepted text each
workspace is in the list of its output, with its values, and in no list twice. -/
structure Run.Correct (r : Run) : Prop where
  fault : r.fault = none
  live : ∀ o, ∀ p ∈ r.bar.lists o, (r.bar.heap p).isSome
  lists : r.rejected = false → ∀ o, (r.bar.lists o).map r.bar.heap = (r.due config o).map some
  nodup : ∀ o, (r.bar.lists o).Nodup
  once : ∀ o o' p, p ∈ r.bar.lists o → p ∈ r.bar.lists o' → o = o'

/-- A value that a key takes. -/
def Takes (key : String) : Event → Prop
  | .boolean _ => key ∈ ["visible", "focused", "urgent"]
  | .integer _ => key ∈ ["id", "num"]
  | .string _ => key ∈ ["name", "output"]
  | _ => False

instance (key : String) : DecidablePred (Takes key) :=
  fun e => by unfold Takes; split <;> infer_instance

namespace State

variable (s : State)

/-- There is a key, and it does not take the value. -/
def Foreign (e : Event) : Prop := ∃ key ∈ s.curKey, ¬ Takes key e

/-- The output of the workspace is not set yet. -/
def Unplaced : Prop := ∀ ws ∈ s.current, ws.output = none

/-- The workspace has its output, or has named one, or it has a name and there are outputs. -/
def Placeable : Prop :=
  ∀ ws ∈ s.current, ws.output ≠ none ∨ s.needOutput = false ∨ ws.name ≠ none ∧ config.outputs ≠ []

/-- The name is displayed alike with another number. -/
def NameKept (num : ℤ) : Prop :=
  ∀ ws ∈ s.current, ∀ name ∈ ws.canonicalName, config.display num name = config.display ws.num name

instance (e : Event) : Decidable (s.Foreign e) :=
  inferInstanceAs (Decidable (∃ key ∈ s.curKey, ¬ Takes key e))

instance : Decidable s.Unplaced := inferInstanceAs (Decidable (∀ ws ∈ s.current, ws.output = none))

instance : Decidable (s.Placeable config) :=
  inferInstanceAs (Decidable (∀ ws ∈ s.current,
    ws.output ≠ none ∨ s.needOutput = false ∨ ws.name ≠ none ∧ config.outputs ≠ []))

instance (num : ℤ) : Decidable (s.NameKept config num) :=
  inferInstanceAs (Decidable (∀ ws ∈ s.current, ∀ name ∈ ws.canonicalName,
    config.display num name = config.display ws.num name))

end State

/-- What the events are to keep to, in the state before. Outside of the workspaces there are only values
that no callback takes, and a workspace begins without a key. A workspace names one output that the bar
manages at most, its numbers fit, and the number that comes after the name makes no difference to it. In
a map or an array within it there are only values that no callback writes, and maps whose end is not
taken for that of the workspace. -/
def Phase.Allowed (s : State) : Phase → Event → Prop
  | .idle, _ => True
  | .start, .startMap => s.curKey = none
  | .outside _, .startMap => s.curKey = none
  | .workspace _ _, .endMap => s.Placeable config
  | .workspace _ _, _ => True
  | .value _ _ key, .integer val =>
    (key = "id" → toUintptr val = val) ∧ (key = "num" → toInt val = val ∧ s.NameKept config val)
  | .value _ _ key, .string _ => key = "output" → s.Unplaced
  | .value _ _ _, _ => True
  | .nested _ _ _, .startMap => s.curKey ≠ none
  | .nested _ _ _, .endMap => s.parsingRect = true ∨ ¬ s.Unplaced
  | _, .boolean val => s.Foreign (.boolean val)
  | _, .integer val => s.Foreign (.integer val)
  | _, .string val => s.Foreign (.string val)
  | _, _ => True

instance (s : State) (phase : Phase) : DecidablePred (phase.Allowed config s) :=
  fun e => by unfold Phase.Allowed; split <;> infer_instance

def Input.Allowed (r : Run) : Input → Prop
  | .json e => r.phase.Allowed config r.bar e
  | _ => True

instance (r : Run) : DecidablePred (Input.Enabled r)
  | .parse => inferInstanceAs (Decidable (r.exited = false ∧ r.phase = .idle))
  | .json e => inferInstanceAs (Decidable ((r.phase.next e).isSome = true))
  | .error => inferInstanceAs (Decidable (r.exited = false))

instance (r : Run) : DecidablePred (Input.Allowed config r)
  | .json e => inferInstanceAs (Decidable (r.phase.Allowed config r.bar e))
  | .parse => inferInstanceAs (Decidable True)
  | .error => inferInstanceAs (Decidable True)

/-! ### Workspaces -/

open Settings

variable {config} {s s' : State} {read : List (List Member)} {l : ℕ → List ℕ}
  {members : List Member} {m : Member} {p : ℕ} {key : String} {e : Event} {v : Value}

/-- A member that says nothing of a workspace: its value is of no kind that the key takes. -/
structure Silent (m : Member) : Prop where
  string : ∀ key, key ∈ ["name", "output"] → stringFor key m = none
  integer : ∀ key, key ∈ ["id", "num"] → integerFor key m = none
  boolean : ∀ key, key ∈ ["visible", "focused", "urgent"] → booleanFor key m = none

theorem workspaceOf_silent (h : Silent m) (output : Option ℕ) :
    config.workspaceOf (members ++ [m]) output = config.workspaceOf members output := by
  simp [Config.workspaceOf, last_concat, h.string, h.integer, h.boolean]

theorem lastOutput_silent (h : Silent m) :
    last (stringFor "output") (members ++ [m]) = last (stringFor "output") members := by
  rw [last_concat, h.string "output" (by simp), Option.none_or]

/-- The values by kinds. -/
theorem stringFor_string (k val : String) :
    stringFor k ⟨key, .string val⟩ = if key = k then some val else none := rfl

theorem integerFor_integer (k : String) (val : ℤ) :
    integerFor k ⟨key, .integer val⟩ = if key = k then some val else none := rfl

theorem booleanFor_boolean (k : String) (val : Bool) :
    booleanFor k ⟨key, .boolean val⟩ = if key = k then some val else none := rfl

theorem stringFor_eq_none (k : String) (hv : ∀ val, v ≠ .string val) : stringFor k ⟨key, v⟩ = none := by
  rw [stringFor]
  split
  · cases v <;> first | rfl | exact absurd rfl (hv _)
  · rfl

theorem integerFor_eq_none (k : String) (hv : ∀ val, v ≠ .integer val) :
    integerFor k ⟨key, v⟩ = none := by
  rw [integerFor]
  split
  · cases v <;> first | rfl | exact absurd rfl (hv _)
  · rfl

theorem booleanFor_eq_none (k : String) (hv : ∀ val, v ≠ .boolean val) :
    booleanFor k ⟨key, v⟩ = none := by
  rw [booleanFor]
  split
  · cases v <;> first | rfl | exact absurd rfl (hv _)
  · rfl

theorem silent_value (hboolean : ∀ val, v ≠ .boolean val) (hinteger : ∀ val, v ≠ .integer val)
    (hstring : ∀ val, v ≠ .string val) : Silent ⟨key, v⟩ where
  string k _ := stringFor_eq_none k hstring
  integer k _ := integerFor_eq_none k hinteger
  boolean k _ := booleanFor_eq_none k hboolean

/-! ### Lists -/

/-- The lists with one workspace at the end of that of its output, if it has one. -/
def placed (l : ℕ → List ℕ) (p : ℕ) (output : Option ℕ) : ℕ → List ℕ :=
  fun o => l o ++ if output = some o then [p] else []

@[simp] theorem placed_none : placed l p none = l := by
  ext1 o
  simp [placed]

theorem placed_some (o : ℕ) : placed l p (some o) = Function.update l o (l o ++ [p]) := by
  ext1 o'
  by_cases h : o' = o
  · subst h
    simp [placed]
  · simp [placed, h, Ne.symm h]

theorem mem_placed {output : Option ℕ} {o q : ℕ} :
    q ∈ placed l p output o ↔ q ∈ l o ∨ output = some o ∧ q = p := by
  unfold placed
  split
  · next h => simp [h]
  · next h => simp [h]

theorem nodup_placed {output : Option ℕ} (h : ∀ o, (l o).Nodup) (hp : ∀ o, p ∉ l o) (o : ℕ) :
    (placed l p output o).Nodup := by
  rw [placed]
  split
  · refine List.nodup_append.mpr ⟨h o, List.nodup_singleton p, fun q hq q' hq' heq => hp o ?_⟩
    rwa [← List.mem_singleton.mp hq', ← heq]
  · rw [List.append_nil]
    exact h o

theorem once_placed {output : Option ℕ} (h : ∀ o o' q, q ∈ l o → q ∈ l o' → o = o')
    (hp : ∀ o, p ∉ l o) (o o' q : ℕ) (hq : q ∈ placed l p output o) (hq' : q ∈ placed l p output o') :
    o = o' := by
  rcases mem_placed.mp hq with hq | ⟨ho, rfl⟩ <;> rcases mem_placed.mp hq' with hq' | ⟨ho', hqp⟩
  · exact h o o' q hq hq'
  · exact absurd (hqp ▸ hq) (hp o)
  · exact absurd hq' (hp o')
  · exact Option.some_inj.mp (ho.symm.trans ho')

/-- The complete workspaces are in the lists `l`, as the text says. -/
structure Sound (config : Config) (s : State) (read : List (List Member)) (l : ℕ → List ℕ) : Prop where
  values : ∀ o, (l o).map s.heap =
    ((read.filter fun members => config.outputOf members = some o).map fun members =>
      config.workspaceOf members (some o)).map some
  nodup : ∀ o, (l o).Nodup
  once : ∀ o o' p, p ∈ l o → p ∈ l o' → o = o'
  bound : ∀ o, ∀ p ∈ l o, p < s.fresh

/-- The workspace that is not complete has what its members say, and is last in the list of the output
that it has named. -/
structure Open (config : Config) (s : State) (l : ℕ → List ℕ) (members : List Member) (p : ℕ) : Prop where
  walk : s.workspacesWalk = some p
  heap : s.heap p = some (config.workspaceOf members (config.named members))
  bound : p < s.fresh
  apart : ∀ o, p ∉ l o
  lists : s.lists = placed l p (config.named members)
  needOutput : s.needOutput = (last (stringFor "output") members).isNone

/-- What holds of the bar where a text has come. -/
def InPhase (config : Config) (s : State) (l : ℕ → List ℕ) : Phase → Prop
  | .workspace _ members => s.parsingRect = false ∧ ∃ p, Open config s l members p
  | .value _ members key =>
    s.parsingRect = false ∧ s.curKey = some key ∧ ∃ p, Open config s l members p
  | .nested _ members frames =>
    ((∀ f ∈ frames, f = .array) → s.parsingRect = false) ∧ ∃ p, Open config s l members p
  | _ => s.lists = l

/-- Nothing changes of the workspaces that are in the lists. -/
theorem Sound.of_eqOn (h : Sound config s read l) (hheap : ∀ o, ∀ p ∈ l o, s'.heap p = s.heap p)
    (hfresh : s.fresh ≤ s'.fresh) : Sound config s' read l where
  values o := by
    rw [← h.values o]
    exact List.map_congr_left fun p hp => hheap o p hp
  nodup := h.nodup
  once := h.once
  bound o p hp := (h.bound o p hp).trans_le hfresh

theorem Sound.of_update (h : Sound config s read l) (hp : ∀ o, p ∉ l o) {ws : Option Workspace}
    (hheap : s'.heap = Function.update s.heap p ws) (hfresh : s.fresh ≤ s'.fresh) :
    Sound config s' read l := by
  refine h.of_eqOn (fun o q hq => ?_) hfresh
  have hne : q ≠ p := fun heq => hp o (heq ▸ hq)
  rw [hheap, Function.update_of_ne hne]

/-- A workspace that is complete takes its place. -/
theorem Sound.close (h : Sound config s read l) (hp : ∀ o, p ∉ l o) (hbound : p < s.fresh)
    (hheap : ∀ o, config.outputOf members = some o →
      s.heap p = some (config.workspaceOf members (some o))) :
    Sound config s (read ++ [members]) (placed l p (config.outputOf members)) where
  values o := by
    rw [List.filter_append, List.map_append, List.map_append, ← h.values o, placed]
    split
    · next ho => simp [ho, hheap o ho]
    · next ho => simp [ho]
  nodup := nodup_placed h.nodup hp
  once := once_placed h.once hp
  bound o q hq := by
    rcases mem_placed.mp hq with hq | ⟨-, rfl⟩
    · exact h.bound o q hq
    · exact hbound

/-- What a text needs of the lists, accepted or not. -/
structure Linked (s : State) : Prop where
  live : ∀ o, ∀ p ∈ s.lists o, (s.heap p).isSome
  nodup : ∀ o, (s.lists o).Nodup
  once : ∀ o o' p, p ∈ s.lists o → p ∈ s.lists o' → o = o'

theorem Sound.live (h : Sound config s read l) (o : ℕ) (hp : p ∈ l o) : (s.heap p).isSome := by
  have hmem : s.heap p ∈ (l o).map s.heap := List.mem_map_of_mem hp
  rw [h.values o] at hmem
  obtain ⟨ws, -, hws⟩ := List.mem_map.mp hmem
  rw [← hws]
  rfl

theorem Sound.linked (h : Sound config s read l) (hlists : s.lists = l) : Linked s := by
  subst hlists
  exact ⟨fun o p hp => h.live o hp, h.nodup, h.once⟩

theorem Open.linked (ho : Open config s l members p) (h : Sound config s read l) : Linked s where
  live o q hq := by
    rw [ho.lists] at hq
    rcases mem_placed.mp hq with hq | ⟨-, rfl⟩
    · exact h.live o hq
    · rw [ho.heap]
      rfl
  nodup := by
    rw [ho.lists]
    exact nodup_placed h.nodup ho.apart
  once := by
    rw [ho.lists]
    exact once_placed h.once ho.apart

/-! ### Callbacks -/

theorem Open.current (h : Open config s l members p) :
    s.current = some (config.workspaceOf members (config.named members)) := by
  rw [State.current, h.walk]
  exact h.heap

/-- Writing to the workspace what a member says. -/
theorem Open.write (ho : Open config s l members p) (h : Sound config s read l) {f : Workspace → Workspace}
    (hf : ∀ output, config.workspaceOf (members ++ [m]) output = f (config.workspaceOf members output))
    (houtput : stringFor "output" m = none) :
    ∃ s', s.write f = .ok s' ∧ s'.parsingRect = s.parsingRect ∧ Sound config s' read l ∧
      Open config s' l (members ++ [m]) p := by
  have hlast : last (stringFor "output") (members ++ [m]) = last (stringFor "output") members := by
    rw [last_concat, houtput, Option.none_or]
  have hnamed : config.named (members ++ [m]) = config.named members := by
    rw [Config.named, Config.named, hlast]
  refine ⟨{ s with
      heap := Function.update s.heap p (some (config.workspaceOf (members ++ [m]) (config.named members)))
      curKey := none }, ?_, rfl, h.of_update ho.apart rfl le_rfl, ?_⟩
  · simp only [State.write, ho.walk, ho.current, hf]
  · refine ⟨ho.walk, ?_, ho.bound, ho.apart, ?_, ?_⟩
    · rw [hnamed]
      exact Function.update_self _ _ _
    · rw [hnamed]
      exact ho.lists
    · rw [hlast]
      exact ho.needOutput

/-- A member that says nothing of the workspace, and a key that may be freed. -/
theorem Open.silent (ho : Open config s l members p) (hm : Silent m) (curKey : Option String)
    (parsingRect : Bool) :
    Open config { s with curKey := curKey, parsingRect := parsingRect } l (members ++ [m]) p := by
  have hnamed : config.named (members ++ [m]) = config.named members := by
    rw [Config.named, Config.named, lastOutput_silent hm]
  refine ⟨ho.walk, ?_, ho.bound, ho.apart, ?_, ?_⟩
  · rw [hnamed, workspaceOf_silent hm]
    exact ho.heap
  · rw [hnamed]
    exact ho.lists
  · rw [lastOutput_silent hm]
    exact ho.needOutput

theorem Open.of_params (ho : Open config s l members p) (curKey : Option String) (parsingRect : Bool) :
    Open config { s with curKey := curKey, parsingRect := parsingRect } l members p :=
  ⟨ho.walk, ho.heap, ho.bound, ho.apart, ho.lists, ho.needOutput⟩

theorem Sound.of_params (h : Sound config s read l) (curKey : Option String) (parsingRect : Bool) :
    Sound config { s with curKey := curKey, parsingRect := parsingRect } read l :=
  ⟨h.values, h.nodup, h.once, h.bound⟩

/-- How a callback that takes the value of a member comes out. -/
def Taken (config : Config) (s : State) (read : List (List Member)) (l : ℕ → List ℕ)
    (members : List Member) (p : ℕ) (result : Except Stop State) : Prop :=
  result = .error .cancelled ∨ ∃ s', result = .ok s' ∧ s'.parsingRect = s.parsingRect ∧
    Sound config s' read l ∧ Open config s' l members p

theorem taken_boolean (ho : Open config s l members p) (h : Sound config s read l) (val : Bool) :
    Taken config s read l (members ++ [⟨key, .boolean val⟩]) p (s.boolean key val) := by
  have hstring : ∀ key k, stringFor k ⟨key, .boolean val⟩ = none := fun _ k =>
    stringFor_eq_none k fun _ h => nomatch h
  have hinteger : ∀ key k, integerFor k ⟨key, .boolean val⟩ = none := fun _ k =>
    integerFor_eq_none k fun _ h => nomatch h
  unfold State.boolean
  split
  · next hkey =>
    refine .inr (ho.write h (fun output => ?_) (hstring _ _))
    simp [Config.workspaceOf, last_concat, hstring, hinteger, booleanFor_boolean, hkey]
  split
  · next hkey =>
    refine .inr (ho.write h (fun output => ?_) (hstring _ _))
    simp [Config.workspaceOf, last_concat, hstring, hinteger, booleanFor_boolean, hkey]
  split
  · next hkey =>
    refine .inr (ho.write h (fun output => ?_) (hstring _ _))
    simp [Config.workspaceOf, last_concat, hstring, hinteger, booleanFor_boolean, hkey]
  · exact .inl rfl

theorem taken_integer (ho : Open config s l members p) (h : Sound config s read l) {val : ℤ}
    (hid : key = "id" → toUintptr val = val)
    (hnum : key = "num" → toInt val = val ∧ s.NameKept config val) :
    Taken config s read l (members ++ [⟨key, .integer val⟩]) p (s.integer key val) := by
  have hstring : ∀ key k, stringFor k ⟨key, .integer val⟩ = none := fun _ k =>
    stringFor_eq_none k fun _ h => nomatch h
  have hboolean : ∀ key k, booleanFor k ⟨key, .integer val⟩ = none := fun _ k =>
    booleanFor_eq_none k fun _ h => nomatch h
  unfold State.integer
  split
  · next hkey =>
    refine .inr (ho.write h (fun output => ?_) (hstring _ _))
    simp [Config.workspaceOf, last_concat, hstring, hboolean, integerFor_integer, hkey, hid hkey]
  split
  · next hkey =>
    obtain ⟨hval, hkept⟩ := hnum hkey
    refine .inr (ho.write h (fun output => ?_) (hstring _ _))
    -- the name has been displayed with the number before
    have hname : (last (stringFor "name") members).map (config.display val) =
        (last (stringFor "name") members).map
          (config.display ((last (integerFor "num") members).getD (-1))) :=
      Option.map_congr fun name hname => hkept _ ho.current name hname
    simp [Config.workspaceOf, last_concat, hstring, hboolean, integerFor_integer, hkey, hval, hname]
  · next hid hnum =>
    split
    · refine .inr ⟨_, rfl, rfl, h.of_params none _, ho.silent ⟨fun k _ => hstring _ k, fun k hk => ?_,
        fun k _ => hboolean _ k⟩ none _⟩
      rw [integerFor_integer, if_neg]
      rintro rfl
      simp [hid, hnum] at hk
    · exact .inl rfl

/-- The workspace gets an output. -/
theorem Open.insertTail (ho : Open config s l members p) (o : ℕ) (hnamed : config.named members = none) :
    (s.insertTail p (config.workspaceOf members none) o).lists = placed l p (some o) ∧
      (s.insertTail p (config.workspaceOf members none) o).heap p =
        some (config.workspaceOf members (some o)) := by
  refine ⟨?_, Function.update_self _ _ _⟩
  show Function.update s.lists o (s.lists o ++ [p]) = _
  rw [ho.lists, hnamed, placed_none, placed_some]

theorem taken_string (ho : Open config s l members p) (h : Sound config s read l) {val : String}
    (hallowed : key = "output" → s.Unplaced) :
    Taken config s read l (members ++ [⟨key, .string val⟩]) p (s.string config key val) := by
  have hinteger : ∀ key k, integerFor k ⟨key, .string val⟩ = none := fun _ k =>
    integerFor_eq_none k fun _ h => nomatch h
  have hboolean : ∀ key k, booleanFor k ⟨key, .string val⟩ = none := fun _ k =>
    booleanFor_eq_none k fun _ h => nomatch h
  unfold State.string
  split
  · next hkey =>
    refine .inr (ho.write h (fun output => ?_) ?_)
    · simp [Config.workspaceOf, last_concat, hinteger, hboolean, stringFor_string, hkey]
    · rw [stringFor_string, hkey]
      rfl
  split
  · next hkey =>
    subst hkey
    have hunplaced : config.named members = none := hallowed rfl _ ho.current
    have hlast : last (stringFor "output") (members ++ [⟨"output", .string val⟩]) = some val := by
      rw [last_concat, stringFor_string, if_pos rfl, Option.some_or]
    have hnamed : config.named (members ++ [⟨"output", .string val⟩]) = config.getOutputByName val := by
      rw [Config.named, hlast, Option.bind_some]
    have hsame : ∀ output, config.workspaceOf (members ++ [⟨"output", .string val⟩]) output =
        config.workspaceOf members output := by
      intro output
      simp [Config.workspaceOf, last_concat, hinteger, hboolean, stringFor_string]
    cases htarget : config.getOutputByName val with
    | none =>
      refine .inr ⟨_, rfl, rfl, ⟨h.values, h.nodup, h.once, h.bound⟩, ho.walk, ?_, ho.bound, ho.apart, ?_, ?_⟩
      · rw [hnamed, hsame, htarget, ← hunplaced]
        exact ho.heap
      · rw [hnamed, htarget, ← hunplaced]
        exact ho.lists
      · rw [hlast]
        rfl
    | some target =>
      have hcurrent := ho.current
      rw [hunplaced] at hcurrent
      obtain ⟨hlists, hheap⟩ := ho.insertTail target hunplaced
      refine .inr ⟨{ s.insertTail p (config.workspaceOf members none) target with
          needOutput := false, curKey := none }, ?_, rfl, h.of_update ho.apart rfl le_rfl, ho.walk, ?_,
        ho.bound, ho.apart, ?_, ?_⟩
      · simp only [ho.walk, hcurrent]
      · rw [hnamed, hsame, htarget]
        exact hheap
      · rw [hnamed, htarget]
        exact hlists
      · rw [hlast]
        rfl
  · exact .inl rfl

/-- A workspace begins. -/
theorem open_startMap (h : Sound config s read l) (hlists : s.lists = l) (hkey : s.curKey = none) :
    Sound config s.startMap read l ∧ s.startMap.parsingRect = false ∧
      Open config s.startMap l [] s.fresh := by
  have hapart : ∀ o, s.fresh ∉ l o := fun o hp => (h.bound o _ hp).false
  rw [State.startMap, if_pos hkey]
  refine ⟨h.of_update hapart rfl (Nat.le_succ _), rfl, rfl, ?_, Nat.lt_succ_self _, hapart, ?_, rfl⟩
  · exact Function.update_self _ _ _
  · rw [show config.named [] = none from rfl, placed_none]
    exact hlists

/-- A workspace is complete: it is in the list of its output, or it is freed. -/
theorem sound_endMap (h : Sound config s read l) (ho : Open config s l members p)
    (hrect : s.parsingRect = false) (hallowed : s.Placeable config) :
    ∃ s', s.endMap config = .ok s' ∧
      Sound config s' (read ++ [members]) (placed l p (config.outputOf members)) ∧
      s'.lists = placed l p (config.outputOf members) := by
  have hplaceable := hallowed _ ho.current
  rw [State.endMap, hrect, if_neg Bool.false_ne_true, ho.walk]
  simp only [ho.heap]
  cases hlast : last (stringFor "output") members with
  | some name =>
    have hnamed : config.named members = config.getOutputByName name := by
      rw [Config.named, hlast, Option.bind_some]
    have houtput : config.outputOf members = config.named members := by
      rw [Config.outputOf, hlast, hnamed]
    have hneed : s.needOutput = false := by
      rw [ho.needOutput, hlast]
      rfl
    rw [houtput]
    cases hset : config.named members with
    | some o =>
      -- the workspace is in the list already
      refine ⟨s, if_pos rfl, ?_, by rw [ho.lists, hset]⟩
      rw [← hset, ← houtput]
      refine h.close ho.apart ho.bound fun o' ho' => ?_
      rw [ho.heap, ← houtput, ho']
    | none =>
      refine ⟨s.freeWalk p, ?_, ?_, ?_⟩
      · rw [if_neg (by simp [Config.workspaceOf]), hneed, Bool.not_false, if_pos rfl]
      · rw [← hset, ← houtput]
        have hfree : Sound _ (s.freeWalk p) _ _ := h.of_update ho.apart rfl le_rfl
        refine hfree.close ho.apart ho.bound ?_
        intro o' ho'
        rw [houtput, hset] at ho'
        cases ho'
      · rw [placed_none, ← placed_none (p := p) (l := l), ← hset]
        exact ho.lists
  | none =>
    have hnamed : config.named members = none := by rw [Config.named, hlast, Option.bind_none]
    have hneed : s.needOutput = true := by
      rw [ho.needOutput, hlast]
      rfl
    rw [hnamed] at hplaceable ⊢
    -- the workspace has a name, and it falls back to an output
    obtain ⟨hname, houtputs⟩ := (hplaceable.resolve_left (· rfl)).resolve_left (by simp [hneed])
    have houtput : config.outputOf members = some ((config.getOutputByName "primary").getD 0) := by
      rw [Config.outputOf, hlast]
      show config.fallback = _
      rw [Config.fallback, if_neg houtputs]
      cases config.getOutputByName "primary" <;> rfl
    obtain ⟨hlists, hheap⟩ := ho.insertTail ((config.getOutputByName "primary").getD 0) hnamed
    refine ⟨s.insertTail p (config.workspaceOf members none)
      ((config.getOutputByName "primary").getD 0), ?_, ?_, ?_⟩
    · rw [if_neg (by simp [Config.workspaceOf]), hneed, Bool.not_true, if_neg Bool.false_ne_true,
        if_neg (by simp [hname, houtputs])]
    · have hkept : Sound config (s.insertTail p (config.workspaceOf members none)
          ((config.getOutputByName "primary").getD 0)) read l := h.of_update ho.apart rfl le_rfl
      refine hkept.close ho.apart ho.bound fun o ho' => ?_
      rw [houtput] at ho'
      rw [hheap, ← ho']
    · rw [houtput]
      exact hlists

/-- A value that no key of a workspace takes changes nothing but the key. -/
theorem callback_foreign {val : Value} (hval : e.value? = some val)
    (hforeign : (∃ val, e = .boolean val) ∨ (∃ val, e = .integer val) ∨ (∃ val, e = .string val) →
      s.Foreign e) :
    s.callback config e = .error .cancelled ∨ s.callback config e = .ok s ∨
      s.callback config e = .ok { s with curKey := none } := by
  cases e <;> simp only [Event.value?, reduceCtorEq] at hval
  case null => exact .inr (.inl rfl)
  case double => exact .inr (.inl rfl)
  case boolean val =>
    obtain ⟨key, hkey, htakes⟩ := hforeign (.inl ⟨val, rfl⟩)
    simp only [Takes, List.mem_cons, List.not_mem_nil, or_false, not_or] at htakes
    left
    rw [State.callback, Option.mem_def.mp hkey]
    simp only [State.boolean, if_neg htakes.1, if_neg htakes.2.1, if_neg htakes.2.2]
  case integer val =>
    obtain ⟨key, hkey, htakes⟩ := hforeign (.inr (.inl ⟨val, rfl⟩))
    simp only [Takes, List.mem_cons, List.not_mem_nil, or_false, not_or] at htakes
    rw [State.callback, Option.mem_def.mp hkey]
    simp only [State.integer, if_neg htakes.1, if_neg htakes.2]
    split
    · exact .inr (.inr rfl)
    · exact .inl rfl
  case string val =>
    obtain ⟨key, hkey, htakes⟩ := hforeign (.inr (.inr ⟨val, rfl⟩))
    simp only [Takes, List.mem_cons, List.not_mem_nil, or_false, not_or] at htakes
    left
    rw [State.callback, Option.mem_def.mp hkey]
    simp only [State.string, if_neg htakes.1, if_neg htakes.2]

/-- A map begins within a workspace, and its key is known. -/
theorem startMap_nested (hkey : s.curKey ≠ none) : s.startMap = { s with parsingRect := true } := by
  rw [State.startMap, if_neg hkey]

/-- A map within a workspace ends, and is not taken for the workspace. -/
theorem endMap_nested (ho : Open config s l members p)
    (hallowed : s.parsingRect = true ∨ ¬ s.Unplaced) :
    s.endMap config = .ok { s with parsingRect := false } := by
  rw [State.endMap]
  split
  · rfl
  · next hrect =>
    have hset : (config.workspaceOf members (config.named members)).output ≠ none := fun hnone =>
      hallowed.resolve_left hrect fun ws hws => by
        rw [ho.current] at hws
        rw [← Option.some_inj.mp hws]
        exact hnone
    have hself : { s with parsingRect := false } = s := by rw [← Bool.eq_false_iff.mpr hrect]
    rw [hself]
    simp only [ho.walk, ho.heap, if_pos (Option.isSome_iff_ne_none.mpr hset)]

variable {phase phase' : Phase}

/-- What an event keeps, if it does not cancel the parser. -/
def Kept (config : Config) (read : List (List Member)) (phase' : Phase) (result : Except Stop State) :
    Prop :=
  result = .error .cancelled ∨
    ∃ s' l', result = .ok s' ∧ Sound config s' read l' ∧ InPhase config s' l' phase'

theorem kept_value {arrays : ℕ} (h : Sound config s read l)
    (hp : InPhase config s l (.value arrays members key))
    (hnext : (Phase.value arrays members key).next e = some phase')
    (hallowed : (Phase.value arrays members key).Allowed config s e) :
    Kept config read phase' (s.callback config e) := by
  obtain ⟨hrect, hkey, p, ho⟩ := hp
  have htaken {m : Member} {result : Except Stop State}
      (ht : Taken config s read l (members ++ [m]) p result) :
      Kept config read (.workspace arrays (members ++ [m])) result := by
    rcases ht with hcancel | ⟨s', hs', hrect', hsound, hopen⟩
    · exact .inl hcancel
    · exact .inr ⟨s', l, hs', hsound, hrect'.trans hrect, p, hopen⟩
  have hnested : Silent ⟨key, .nested⟩ :=
    silent_value (by rintro _ ⟨⟩) (by rintro _ ⟨⟩) (by rintro _ ⟨⟩)
  cases e <;> simp only [Phase.next, Event.value?, Option.map_some, Option.map_none, Option.some_inj,
    reduceCtorEq] at hnext <;> subst hnext
  case boolean val =>
    rw [State.callback, hkey]
    exact htaken (taken_boolean ho h val)
  case integer val =>
    rw [State.callback, hkey]
    exact htaken (taken_integer ho h hallowed.1 hallowed.2)
  case string val =>
    rw [State.callback, hkey]
    exact htaken (taken_string ho h hallowed)
  case null =>
    refine .inr ⟨s, l, rfl, h, hrect, p, ho.silent ?_ s.curKey s.parsingRect⟩
    exact silent_value (by rintro _ ⟨⟩) (by rintro _ ⟨⟩) (by rintro _ ⟨⟩)
  case double =>
    refine .inr ⟨s, l, rfl, h, hrect, p, ho.silent ?_ s.curKey s.parsingRect⟩
    exact silent_value (by rintro _ ⟨⟩) (by rintro _ ⟨⟩) (by rintro _ ⟨⟩)
  case startArray =>
    exact .inr ⟨s, l, rfl, h, fun _ => hrect, p, ho.silent hnested s.curKey s.parsingRect⟩
  case startMap =>
    have hstart : s.startMap = { s with parsingRect := true } :=
      startMap_nested (by rw [hkey]; exact Option.some_ne_none key)
    refine .inr ⟨s.startMap, l, rfl, ?_, ?_⟩
    · rw [hstart]
      exact h.of_params s.curKey true
    · rw [hstart]
      refine ⟨fun hf => ?_, p, ho.silent hnested s.curKey true⟩
      cases hf .mapKey (by simp)

/-- Where the last array or map within a workspace is closed, no map is taken for a rect. -/
theorem inPhase_frames {arrays : ℕ} {frames : List Frame}
    (hrect : (∀ f ∈ frames, f = .array) → s.parsingRect = false) (ho : Open config s l members p) :
    InPhase config s l
      (if frames = [] then .workspace arrays members else .nested arrays members frames) := by
  split
  · next hnil =>
    subst hnil
    exact ⟨hrect (by simp), p, ho⟩
  · exact ⟨hrect, p, ho⟩

/-- An event other than the end of a map does not leave arrays only. -/
theorem arrays_of_nextFrames {frames frames' : List Frame}
    (hnext : StatusLine.Phase.nextFrames frames e = some frames') (he : e ≠ .endMap)
    (harray : ∀ f ∈ frames', f = .array) : e ≠ .startMap ∧ ∀ f ∈ frames, f = .array := by
  unfold StatusLine.Phase.nextFrames at hnext
  split at hnext <;> simp only [Option.some_inj, Option.map_eq_some_iff, reduceCtorEq] at hnext
  · subst hnext
    exact ⟨(nomatch ·), fun f hf => harray f (List.mem_cons_of_mem _ hf)⟩
  · subst hnext
    exact nomatch harray .mapKey (by simp)
  · subst hnext
    refine ⟨(nomatch ·), fun f hf => ?_⟩
    rcases List.mem_cons.mp hf with rfl | hf
    · rfl
    · exact harray f hf
  · obtain ⟨v, hv, rfl⟩ := hnext
    refine ⟨?_, harray⟩
    rintro rfl
    cases hv
  · subst hnext
    exact nomatch harray .mapValue (by simp)
  · exact absurd rfl he
  · subst hnext
    exact nomatch harray .mapKey (by simp)
  · subst hnext
    exact nomatch harray .mapKey (by simp)
  · obtain ⟨v, hv, rfl⟩ := hnext
    exact nomatch harray .mapKey (by simp)

theorem kept_nested {arrays : ℕ} {frames : List Frame} (h : Sound config s read l)
    (hp : InPhase config s l (.nested arrays members frames))
    (hnext : (Phase.nested arrays members frames).next e = some phase')
    (hallowed : (Phase.nested arrays members frames).Allowed config s e) :
    Kept config read phase' (s.callback config e) := by
  obtain ⟨hrect, p, ho⟩ := hp
  obtain ⟨frames', hframes, rfl⟩ := Option.map_eq_some_iff.mp hnext
  have hscalar {v : Value} (hv : e.value? = some v) (he : e ≠ .endMap)
      (hforeign : (∃ val, e = .boolean val) ∨ (∃ val, e = .integer val) ∨ (∃ val, e = .string val) →
        s.Foreign e) : Kept config read
          (if frames' = [] then .workspace arrays members else .nested arrays members frames')
          (s.callback config e) := by
    have hrect' := fun harray => hrect (arrays_of_nextFrames hframes he harray).2
    rcases callback_foreign hv hforeign with hcancel | hsame | hfreed
    · exact .inl hcancel
    · exact .inr ⟨s, l, hsame, h, inPhase_frames hrect' ho⟩
    · exact .inr ⟨_, l, hfreed, h.of_params none s.parsingRect,
        inPhase_frames (s := { s with curKey := none }) hrect' (ho.of_params none s.parsingRect)⟩
  have hquiet (he : e ≠ .endMap) (curKey : Option String)
      (hcallback : s.callback config e = .ok { s with curKey := curKey }) : Kept config read
        (if frames' = [] then .workspace arrays members else .nested arrays members frames')
        (s.callback config e) :=
    .inr ⟨_, l, hcallback, h.of_params curKey s.parsingRect,
      inPhase_frames (s := { s with curKey := curKey })
        (fun harray => hrect (arrays_of_nextFrames hframes he harray).2)
        (ho.of_params curKey s.parsingRect)⟩
  cases e with
  | null => exact hscalar rfl (nomatch ·) (by rintro (⟨_, h⟩ | ⟨_, h⟩ | ⟨_, h⟩) <;> cases h)
  | double => exact hscalar rfl (nomatch ·) (by rintro (⟨_, h⟩ | ⟨_, h⟩ | ⟨_, h⟩) <;> cases h)
  | boolean val => exact hscalar rfl (nomatch ·) fun _ => hallowed
  | integer val => exact hscalar rfl (nomatch ·) fun _ => hallowed
  | string val => exact hscalar rfl (nomatch ·) fun _ => hallowed
  | mapKey key => exact hquiet (nomatch ·) (some key) rfl
  | startArray => exact hquiet (nomatch ·) s.curKey rfl
  | endArray => exact hquiet (nomatch ·) s.curKey rfl
  | startMap =>
    have hstart : s.startMap = { s with parsingRect := true } := startMap_nested hallowed
    refine .inr ⟨_, l, congrArg Except.ok hstart, h.of_params s.curKey true,
      inPhase_frames (fun harray => ?_) (ho.of_params s.curKey true)⟩
    exact absurd rfl (arrays_of_nextFrames hframes (nomatch ·) harray).1
  | endMap =>
    exact .inr ⟨_, l, endMap_nested ho hallowed, h.of_params s.curKey false,
      inPhase_frames (fun _ => rfl) (ho.of_params s.curKey false)⟩

/-- Outside of the workspaces. -/
theorem kept_outside (h : Sound config s read l) (hlists : s.lists = l)
    (hphase : phase = .start ∨ ∃ arrays, phase = .outside arrays) (hnext : phase.next e = some phase')
    (hallowed : phase.Allowed config s e) : Kept config read phase' (s.callback config e) := by
  have hscalar {v : Value} (hv : e.value? = some v)
      (hforeign : (∃ val, e = .boolean val) ∨ (∃ val, e = .integer val) ∨ (∃ val, e = .string val) →
        s.Foreign e) (hin : ∀ s' : State, s'.lists = l → InPhase config s' l phase') :
      Kept config read phase' (s.callback config e) := by
    rcases callback_foreign hv hforeign with hcancel | hsame | hfreed
    · exact .inl hcancel
    · exact .inr ⟨s, l, hsame, h, hin s hlists⟩
    · exact .inr ⟨_, l, hfreed, h.of_params none s.parsingRect, hin _ hlists⟩
  have hclose (n : ℕ) : InPhase config s l (Phase.close n) := by
    cases n <;> exact hlists
  obtain rfl | ⟨arrays, rfl⟩ := hphase
  · cases e <;> simp only [Phase.next, Event.value?, Option.map_some, Option.map_none,
      Option.some_inj, reduceCtorEq] at hnext <;> subst hnext
    case startArray => exact .inr ⟨s, l, rfl, h, hlists⟩
    case startMap =>
      obtain ⟨hsound, hrect, hopen⟩ := open_startMap h hlists hallowed
      exact .inr ⟨_, l, rfl, hsound, hrect, _, hopen⟩
    case null => exact .inr ⟨s, l, rfl, h, hlists⟩
    case double => exact .inr ⟨s, l, rfl, h, hlists⟩
    all_goals exact hscalar rfl (fun _ => hallowed) fun _ hs => hs
  · cases e <;> simp only [Phase.next, Event.value?, Option.map_some, Option.map_none,
      Option.some_inj, reduceCtorEq] at hnext <;> subst hnext
    case startArray => exact .inr ⟨s, l, rfl, h, hlists⟩
    case endArray => exact .inr ⟨s, l, rfl, h, hclose _⟩
    case startMap =>
      obtain ⟨hsound, hrect, hopen⟩ := open_startMap h hlists hallowed
      exact .inr ⟨_, l, rfl, hsound, hrect, _, hopen⟩
    case null => exact .inr ⟨s, l, rfl, h, hlists⟩
    case double => exact .inr ⟨s, l, rfl, h, hlists⟩
    all_goals exact hscalar rfl (fun _ => hallowed) fun _ hs => hs

/-- **Each event** of a text that is allowed cancels the parser, or is taken in as the text says. -/
theorem sound_callback (h : Sound config s read l) (hp : InPhase config s l phase)
    (hnext : phase.next e = some phase') (hallowed : phase.Allowed config s e) :
    Kept config (read ++ (phase.completed e).toList) phase' (s.callback config e) := by
  cases phase with
  | idle => cases hnext
  | start =>
    show Kept config (read ++ []) _ _
    rw [List.append_nil]
    exact kept_outside h hp (.inl rfl) hnext hallowed
  | outside arrays =>
    show Kept config (read ++ []) _ _
    rw [List.append_nil]
    exact kept_outside h hp (.inr ⟨arrays, rfl⟩) hnext hallowed
  | workspace arrays members =>
    obtain ⟨hrect, p, ho⟩ := hp
    cases e <;> simp only [Phase.next, Option.some_inj, reduceCtorEq] at hnext <;> subst hnext
    case mapKey key =>
      show Kept config (read ++ []) _ _
      rw [List.append_nil]
      exact .inr ⟨s.mapKey key, l, rfl, h.of_params (some key) s.parsingRect, hrect, rfl, p,
        ho.of_params (some key) s.parsingRect⟩
    case endMap =>
      obtain ⟨s', hs', hsound, hlists⟩ := sound_endMap h ho hrect hallowed
      refine .inr ⟨s', _, hs', hsound, ?_⟩
      cases arrays <;> exact hlists
  | value arrays members key =>
    show Kept config (read ++ []) _ _
    rw [List.append_nil]
    exact kept_value h hp hnext hallowed
  | nested arrays members frames =>
    show Kept config (read ++ []) _ _
    rw [List.append_nil]
    exact kept_nested h hp hnext hallowed

/-! ### Texts -/

/-- What holds of the bar and the text together. -/
structure RunSound (config : Config) (r : Run) : Prop where
  fault : r.fault = none
  linked : r.rejected = true → Linked r.bar ∧ r.phase = .idle
  accepted : r.rejected = false → ∃ l, Sound config r.bar r.read l ∧ InPhase config r.bar l r.phase

/-- The lists where a text has come. -/
theorem InPhase.due {r : Run} (hp : InPhase config r.bar l r.phase) (h : Sound config r.bar r.read l) :
    Linked r.bar ∧ ∀ o, (r.bar.lists o).map r.bar.heap = (r.due config o).map some := by
  have hopen {members : List Member} (hmembers : r.phase.members? = some members)
      (ho : ∃ p, Open config r.bar l members p) :
      Linked r.bar ∧ ∀ o, (r.bar.lists o).map r.bar.heap = (r.due config o).map some := by
    obtain ⟨p, ho⟩ := ho
    refine ⟨ho.linked h, fun o => ?_⟩
    rw [ho.lists, placed, Run.due, hmembers, List.map_append, List.map_append, h.values o]
    refine congrArg _ ?_
    split
    · next hnamed => simp [hnamed, ho.heap]
    · next hnamed => simp [hnamed]
  have hclosed (hmembers : r.phase.members? = none) (hlists : r.bar.lists = l) :
      Linked r.bar ∧ ∀ o, (r.bar.lists o).map r.bar.heap = (r.due config o).map some := by
    refine ⟨h.linked hlists, fun o => ?_⟩
    rw [hlists, Run.due, hmembers, h.values o]
    simp
  cases hphase : r.phase <;> rw [hphase] at hp hopen hclosed
  case workspace => exact hopen rfl hp.2
  case value => exact hopen rfl hp.2.2
  case nested => exact hopen rfl hp.2
  all_goals exact hclosed rfl hp

theorem RunSound.linked' {r : Run} (h : RunSound config r) : Linked r.bar := by
  cases hrejected : r.rejected with
  | true => exact (h.linked hrejected).1
  | false =>
    obtain ⟨l, hsound, hphase⟩ := h.accepted hrejected
    exact (hphase.due hsound).1

theorem RunSound.correct {r : Run} (h : RunSound config r) : r.Correct config where
  fault := h.fault
  live := h.linked'.live
  lists hrejected := by
    obtain ⟨l, hsound, hphase⟩ := h.accepted hrejected
    exact (hphase.due hsound).2
  nodup := h.linked'.nodup
  once := h.linked'.once

/-- After an error each output has the workspace with the message, and no other. -/
theorem linked_setWorkspaceButtonError (s : State) : Linked (s.setWorkspaceButtonError config) where
  live o p hp := by
    simp only [State.setWorkspaceButtonError] at hp ⊢
    split at hp
    · rw [List.mem_singleton.mp hp, if_pos (by omega)]
      rfl
    · cases hp
  nodup o := by
    simp only [State.setWorkspaceButtonError]
    split
    · exact List.nodup_singleton _
    · exact List.nodup_nil
  once o o' p hp hp' := by
    simp only [State.setWorkspaceButtonError] at hp hp'
    split at hp
    · split at hp'
      · have := (List.mem_singleton.mp hp).symm.trans (List.mem_singleton.mp hp')
        omega
      · cases hp'
    · cases hp

theorem runSound_reject {r : Run} (h : RunSound config r) : RunSound config (r.reject config) where
  fault := h.fault
  linked _ := by
    refine ⟨?_, rfl⟩
    rw [Run.reject]
    split
    · exact linked_setWorkspaceButtonError r.bar
    · exact h.linked'
  accepted h := nomatch h

theorem runSound_step {r : Run} (i : Input) (h : RunSound config r) (hi : i.Enabled r)
    (hallowed : i.Allowed config r) : RunSound config (step config r i) := by
  cases i with
  | parse =>
    refine ⟨h.fault, (nomatch ·), fun _ => ⟨fun _ => [], ⟨fun o => rfl, fun _ => List.nodup_nil, ?_, ?_⟩, rfl⟩⟩
    · exact fun _ _ _ hp => nomatch hp
    · exact fun _ _ hp => nomatch hp
  | error => exact runSound_reject h
  | json e =>
    obtain ⟨phase', hnext⟩ := Option.isSome_iff_exists.mp hi
    have hrejected : r.rejected = false := by
      cases hrejected : r.rejected with
      | false => rfl
      | true =>
        rw [(h.linked hrejected).2] at hnext
        cases hnext
    obtain ⟨l, hsound, hphase⟩ := h.accepted hrejected
    rcases sound_callback hsound hphase hnext hallowed with hcancel | ⟨s', l', hs', hsound', hphase'⟩
    · rw [step, hcancel]
      exact runSound_reject h
    · rw [step, hs', hnext]
      refine ⟨h.fault, fun hr => ?_, fun _ => ⟨l', hsound', hphase'⟩⟩
      exact absurd (hr.symm.trans hrejected) (by simp)

theorem runSound_start : RunSound config {} where
  fault := rfl
  linked h := nomatch h
  accepted _ := ⟨fun _ => [], ⟨fun _ => rfl, fun _ => List.nodup_nil, (fun _ _ _ hp => nomatch hp),
    (fun _ _ hp => nomatch hp)⟩, rfl⟩

/-- **The lists of the outputs are as the text says**, at any time in a run of allowed events: no null
pointer is dereferenced, and each workspace is in the list of its output once. -/
theorem listed_run {is : List Input} (hrun : Runs.Meets (step config) Input.Enabled {} is)
    (hallowed : Runs.Meets (step config) (Input.Allowed config) {} is) :
    (Runs.after (step config) {} is).Correct config :=
  (Runs.invariant (fun _ i h hi => runSound_step i h hi.1 hi.2) runSound_start
    ((Runs.meets_and _ _).mpr ⟨hrun, hallowed⟩)).correct

/-- Two outputs, the second the primary one. -/
def twoOutputs : Config where
  stripWsNumbers := true
  outputs := [⟨"eDP-1", false⟩, ⟨"HDMI-1", true⟩]

/-- A workspace as i3 prints it, one that names no output, and one on an output of another bar. -/
theorem listed_example : (Runs.after (step twoOutputs) {} [.parse, .json .startArray, .json .startMap,
    .json (.mapKey "num"), .json (.integer 1), .json (.mapKey "name"), .json (.string "1: web"),
    .json (.mapKey "rect"), .json .startMap, .json (.mapKey "x"), .json (.integer 0), .json .endMap,
    .json (.mapKey "output"), .json (.string "eDP-1"), .json .endMap,
    .json .startMap, .json (.mapKey "name"), .json (.string "mail"), .json .endMap,
    .json .startMap, .json (.mapKey "output"), .json (.string "DP-3"), .json .endMap,
    .json .endArray]).Correct twoOutputs :=
  listed_run (by decide +kernel) (by decide +kernel)

/-- An array of a scalar: there is no key that could be compared. -/
theorem not_listed_scalar :
    Runs.Meets (step twoOutputs) Input.Enabled {} [.parse, .json .startArray, .json (.boolean true)] ∧
      ¬ (Runs.after (step twoOutputs) {}
        [.parse, .json .startArray, .json (.boolean true)]).Correct twoOutputs :=
  ⟨by decide +kernel, fun h => nomatch h.fault⟩

end WorkspaceLists

end I3
