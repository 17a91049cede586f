import I3Aiwr.Configuration.Values

/-!
# Criteria and assignments

The criteria of `src/match.c` as the directives `for_window`, `assign` and `no_focus` collect them,
and the two lists of assignments of `src/config_directives.c`: windows to workspaces, outputs and
commands; workspaces to outputs and gaps.

## Main definitions

* `Match`, `Match.parseProperty`: `Match`, `match_parse_property`
* `Assignment`, `CriteriaUse.assignment`: what a directive behind its criteria assigns
* `WorkspaceAssignment`, `assignWorkspace`, `createGapsAssignment`
-/

namespace I3.Configuration

open I3.Parser (Text sameCase)

/-! ### Criteria -/

inductive Urgent
  | dontcheck | latest | oldest
  deriving DecidableEq, Repr

inductive WindowMode
  | any | tilingAuto | tilingUser | tiling | floatingAuto | floatingUser | floating
  deriving DecidableEq, Repr

/-- The window types of a criterion. -/
inductive WindowType
  | normal | dialog | utility | toolbar | splash | menu | dropdownMenu | popupMenu | tooltip
  | notification
  deriving DecidableEq, Repr

/-- `Match`, with the values of `match_init`. A regular expression is its pattern, a container its
address; what the directives cannot set is left out. -/
structure Match where
  error : Option String := none
  title : Option Text := none
  class_ : Option Text := none
  instance_ : Option Text := none
  mark : Option Text := none
  windowRole : Option Text := none
  workspace : Option Text := none
  machine : Option Text := none
  windowType : Option WindowType := none
  urgent : Urgent := .dontcheck
  /-- `XCB_NONE` is `0` -/
  id : ℕ := 0
  windowMode : WindowMode := .any
  /-- `NULL` is `0` -/
  conId : ℤ := 0
  matchAllWindows : Bool := false
  deriving DecidableEq, Repr

namespace Match

/-- `match_is_empty`. -/
def isEmpty (m : Match) : Bool :=
  m.title.isNone && m.mark.isNone && m.class_.isNone && m.instance_.isNone && m.windowRole.isNone &&
    m.workspace.isNone && m.machine.isNone && m.urgent = .dontcheck && m.id = 0 &&
    m.windowType.isNone && m.conId = 0 && m.windowMode = .any && !m.matchAllWindows

/-- `regex_new`: a pattern that cannot be compiled leaves no expression. -/
def regexNew (env : Env) (pattern : Text) : Option Text :=
  if env.compiles pattern then some pattern else none

/-- The value of the criterion `window_type`. -/
def windowTypeOf (cvalue : Text) : Option WindowType :=
  ([("normal", .normal), ("dialog", .dialog), ("utility", .utility), ("toolbar", .toolbar),
    ("splash", .splash), ("menu", .menu), ("dropdown_menu", .dropdownMenu),
    ("popup_menu", .popupMenu), ("tooltip", .tooltip), ("notification", .notification)].find?
    fun w => sameCase cvalue (lit w.1)).map (·.2)

/-- The value of the criterion `urgent`. -/
def urgentOf (cvalue : Text) : Option Urgent :=
  if ["latest", "newest", "recent", "last"].any fun w => sameCase cvalue (lit w) then some .latest
  else if ["oldest", "first"].any fun w => sameCase cvalue (lit w) then some .oldest
  else none

/-- `match_parse_property`; the grammar gives every criterion but `tiling`, `floating` and `all` a
value. -/
def parseProperty (env : Env) (m : Match) (ctype : Text) (value : Option Text) : Match :=
  let cvalue := value.getD []
  if ctype = lit "class" then { m with class_ := regexNew env cvalue }
  else if ctype = lit "instance" then { m with instance_ := regexNew env cvalue }
  else if ctype = lit "window_role" then { m with windowRole := regexNew env cvalue }
  else if ctype = lit "con_id" then
    if cvalue = lit "__focused__" then { m with conId := (env.focused.map (↑)).getD 0 }
    else
      match parseLong strtolAny cvalue with
      | none => { m with error := some "invalid con_id" }
      | some n => { m with conId := n }
  else if ctype = lit "id" then
    match parseLong strtolAny cvalue with
    | none => { m with error := some "invalid id" }
    | some n => { m with id := toUInt32 n }
  else if ctype = lit "window_type" then
    match windowTypeOf cvalue with
    | none => { m with error := some "unknown window_type value" }
    | some t => { m with windowType := some t }
  else if ctype = lit "con_mark" then { m with mark := regexNew env cvalue }
  else if ctype = lit "title" then { m with title := regexNew env cvalue }
  else if ctype = lit "urgent" then
    match urgentOf cvalue with
    | none => m
    | some u => { m with urgent := u }
  else if ctype = lit "workspace" then { m with workspace := regexNew env cvalue }
  else if ctype = lit "machine" then { m with machine := regexNew env cvalue }
  else if ctype = lit "tiling" then { m with windowMode := .tiling }
  else if ctype = lit "tiling_from" ∧ value = some (lit "auto") then
    { m with windowMode := .tilingAuto }
  else if ctype = lit "tiling_from" ∧ value = some (lit "user") then
    { m with windowMode := .tilingUser }
  else if ctype = lit "floating" then { m with windowMode := .floating }
  else if ctype = lit "floating_from" ∧ value = some (lit "auto") then
    { m with windowMode := .floatingAuto }
  else if ctype = lit "floating_from" ∧ value = some (lit "user") then
    { m with windowMode := .floatingUser }
  else if ctype = lit "all" then { m with matchAllWindows := true }
  else m

end Match

/-! ### Assignments of windows -/

/-- The `type` and `dest` of an `Assignment`. -/
inductive Destination
  | command (command : Text)
  | toWorkspace (workspace : Text)
  | toWorkspaceNumber (workspace : Text)
  | toOutput (output : Text)
  | noFocus
  deriving DecidableEq, Repr

/-- `Assignment`. -/
structure Assignment where
  match_ : Match
  dest : Destination
  deriving DecidableEq, Repr

/-- `ws_name_to_number`, `none` for `-1`. -/
def wsNameToNumber (name : Text) : Option ℤ :=
  match Parser.strtol name with
  | none => none
  | some (n, _) => if 0 ≤ n ∧ n < 2 ^ 31 then some n else none

/-- The directives behind criteria, under the names of their functions. -/
inductive CriteriaUse
  | forWindow (command : Text)
  | assignOutput (output : Text)
  | assign (workspace : Text) (isNumber : Bool)
  | noFocus
  deriving DecidableEq, Repr

/-- `match_copy`, with the regular expressions compiled again. -/
def Match.copy (env : Env) (m : Match) : Match :=
  { m with
    title := m.title.bind (regexNew env)
    class_ := m.class_.bind (regexNew env)
    instance_ := m.instance_.bind (regexNew env)
    mark := m.mark.bind (regexNew env)
    windowRole := m.windowRole.bind (regexNew env)
    workspace := m.workspace.bind (regexNew env)
    machine := m.machine.bind (regexNew env) }

/-- `cfg_for_window`, `cfg_assign_output`, `cfg_assign` and `cfg_no_focus` on `current_match`. -/
def CriteriaUse.assignment (env : Env) (m : Match) : CriteriaUse → Option Assignment
  | .forWindow command =>
    if m.error.isSome ∨ m.isEmpty then none else some ⟨m.copy env, .command command⟩
  | .assignOutput output =>
    if m.error.isSome ∨ m.isEmpty ∨ m.windowMode ≠ .any then none
    else some ⟨m.copy env, .toOutput output⟩
  | .assign workspace isNumber =>
    if m.error.isSome ∨ m.isEmpty ∨ m.windowMode ≠ .any ∨
        (isNumber ∧ wsNameToNumber workspace = none) then none
    else
      some ⟨m.copy env, if isNumber then .toWorkspaceNumber workspace else .toWorkspace workspace⟩
  | .noFocus => if m.error.isSome ∨ m.isEmpty then none else some ⟨m.copy env, .noFocus⟩

/-! ### Assignments of workspaces -/

/-- `gaps_t`. -/
structure Gaps where
  inner : ℤ := 0
  top : ℤ := 0
  right : ℤ := 0
  bottom : ℤ := 0
  left : ℤ := 0
  deriving DecidableEq, Repr

/-- `gaps_mask_t`, by its bits. -/
structure GapsMask where
  inner : Bool := false
  top : Bool := false
  right : Bool := false
  bottom : Bool := false
  left : Bool := false
  deriving DecidableEq, Repr

/-- `gaps_scope_to_mask`. -/
def gapsScopeToMask (scope : Text) : GapsMask :=
  if scope = lit "inner" then { inner := true }
  else if scope = lit "outer" then { top := true, right := true, bottom := true, left := true }
  else if scope = lit "vertical" then { top := true, bottom := true }
  else if scope = lit "horizontal" then { right := true, left := true }
  else if scope = lit "top" then { top := true }
  else if scope = lit "right" then { right := true }
  else if scope = lit "bottom" then { bottom := true }
  else if scope = lit "left" then { left := true }
  else {}

/-- `apply_gaps`. -/
def applyGaps (gaps : Gaps) (mask : GapsMask) (value : ℤ) : Gaps :=
  { inner := if mask.inner then value else gaps.inner
    top := if mask.top then value else gaps.top
    right := if mask.right then value else gaps.right
    bottom := if mask.bottom then value else gaps.bottom
    left := if mask.left then value else gaps.left }

def GapsMask.or (m m' : GapsMask) : GapsMask :=
  { inner := m.inner || m'.inner
    top := m.top || m'.top
    right := m.right || m'.right
    bottom := m.bottom || m'.bottom
    left := m.left || m'.left }

/-- `struct Workspace_Assignment`. -/
structure WorkspaceAssignment where
  name : Text
  output : Option Text := none
  gaps : Gaps := {}
  gapsMask : GapsMask := {}
  deriving DecidableEq, Repr

/-- `create_gaps_assignment`: in the first assignment of the workspace, or in one of its own. -/
def createGapsAssignment (workspace : Text) (mask : GapsMask) (pixels : ℤ) :
    List WorkspaceAssignment → List WorkspaceAssignment
  | [] => [{ name := workspace, gaps := applyGaps {} mask pixels, gapsMask := mask }]
  | a :: as =>
    if sameCase a.name workspace then
      { a with gaps := applyGaps a.gaps mask pixels, gapsMask := a.gapsMask.or mask } :: as
    else a :: createGapsAssignment workspace mask pixels as

/-- `cfg_workspace`: the assignments, and the variable `current_workspace`. The grammar gives the
name with the first output of a line only. -/
def cfgWorkspace (workspace : Option Text) (output : Text) (current : Option Text)
    (as : List WorkspaceAssignment) : Option Text × List WorkspaceAssignment :=
  match workspace with
  | some workspace =>
    -- an assignment to an output is there already: the line is passed over
    if as.any fun a => sameCase a.name workspace ∧ a.output.isSome then (none, as)
    else (some workspace, as ++ [{ name := workspace, output := some output }])
  | none =>
    match current with
    | none => (none, as)
    | some workspace => (some workspace, as ++ [{ name := workspace, output := some output }])

end I3.Configuration
