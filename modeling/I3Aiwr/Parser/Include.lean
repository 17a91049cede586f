import I3Aiwr.Lib.Depth

/-!
# Included config files

`cfg_include` of `src/config_directives.c`, and `parse_file` of `src/config_parser.c`, which call each
other. The paths of the files that are processed are in the list `included_files`: a file that is in
the list is not processed again. A file is put in the list before it is processed, and taken out
again when that fails.

A file is read with the variables defined so far. What the text parser makes of its text, with the
variables replaced, are the calls of directives and the errors in the text, in order.

`Include.depthFirst` is what the user guide describes: a depth-first traversal of the files in which
each path is loaded once.

## Main definitions

* `Include.Files`: the config files, and what the library functions say about them
* `Include.cfgInclude`, `Include.parseConfig`, `Include.parseFile`, `Include.load`
* `Include.graph`, `Include.depthFirst`
-/

namespace I3

namespace Include

/-- What `parse_config` comes to: a directive, the words `wordexp` makes of the pattern of an
`include`, if it can, or an error in the text. -/
inductive Call (Word Directive : Type*)
  | directive (d : Directive)
  | includes (words : Option (List Word))
  | error
  deriving DecidableEq, Repr

/-- The text of a file, and whether it has a malformed `set` or `set_from_resource`. -/
structure Contents (Word Directive : Type*) where
  calls : List (Call Word Directive)
  invalidSets : Bool

/-- The config files. -/
structure Files (Path Word Directive Vars : Type*) where
  paths : List Path
  /-- `realpath`, in the directory of a file. -/
  realpath : Path → Word → Option Path
  realpath_mem : ∀ f w p, realpath f w = some p → p ∈ paths
  /-- The file is read; with the variables it defines. -/
  read : Path → Vars → Vars × Option (Contents Word Directive)
  /-- `chdir` back to the directory of the file with the `include`, or to that of the start. -/
  chdir : Option Path → Bool
  /-- `check_for_duplicate_bindings`, after the directives. -/
  duplicates : List Directive → Bool

/-- What is observed: a file is opened, a directive is executed, a file has an error of its own, or a
malformed assignment. -/
inductive Entry (Path Directive : Type*)
  | file (p : Path)
  | directive (d : Directive)
  | error (p : Path)
  | malformed (p : Path)
  deriving DecidableEq, Repr

structure State (Path Directive Vars : Type*) where
  includedFiles : List Path
  vars : Vars
  trace : List (Entry Path Directive)

/-- `parse_file_result_t` -/
inductive Result
  | failed
  | success
  | configErrors
  deriving DecidableEq, Repr

section Trace

variable {Path Directive : Type*}

/-- The files that are opened, in order. -/
def processed (trace : List (Entry Path Directive)) : List Path := trace.filterMap fun
  | .file p => some p
  | _ => none

def directives (trace : List (Entry Path Directive)) : List Directive := trace.filterMap fun
  | .directive d => some d
  | _ => none

end Trace

variable {Path Word Directive Vars : Type*} [DecidableEq Path]

def State.note (s : State Path Directive Vars) (entries : List (Entry Path Directive)) :
    State Path Directive Vars :=
  { s with trace := s.trace ++ entries }

/-- `parse_file` for a file, included by another one. -/
abbrev Parse (Path Directive Vars : Type*) :=
  Option Path → Path → State Path Directive Vars → Option (State Path Directive Vars × Result)

section Code

variable (files : Files Path Word Directive Vars)

/-- The loop of `cfg_include` in the file `f`. -/
def cfgInclude (parseFile : Parse Path Directive Vars) (f : Path) :
    List Word → State Path Directive Vars → Bool → Option (State Path Directive Vars × Bool)
  | [], s, hasErrors => some (s, hasErrors)
  | word :: words, s, hasErrors => match files.realpath f word with
    | none => cfgInclude parseFile f words s hasErrors
    | some path =>
      if path ∈ s.includedFiles then cfgInclude parseFile f words s hasErrors
      else
        (parseFile (some f) path { s with includedFiles := s.includedFiles ++ [path] }).bind
          fun (s, result) =>
            if result = .success then cfgInclude parseFile f words s hasErrors
            else cfgInclude parseFile f words
              { s with includedFiles := s.includedFiles.erase path } true

/-- The calls of `parse_config` for the file `f`. -/
def parseConfig (parseFile : Parse Path Directive Vars) (f : Path) :
    List (Call Word Directive) → State Path Directive Vars → Bool →
      Option (State Path Directive Vars × Bool)
  | [], s, hasErrors => some (s, hasErrors)
  | .directive d :: calls, s, hasErrors =>
    parseConfig parseFile f calls (s.note [.directive d]) hasErrors
  | .includes (some words) :: calls, s, hasErrors =>
    (cfgInclude files parseFile f words s hasErrors).bind fun (s, hasErrors) =>
      parseConfig parseFile f calls s hasErrors
  | .includes none :: calls, s, _ => parseConfig parseFile f calls (s.note [.error f]) true
  | .error :: calls, s, _ => parseConfig parseFile f calls (s.note [.error f]) true

/-- What is observed when a file is opened. -/
def opening (f : Path) (invalidSets : Bool) : List (Entry Path Directive) :=
  .file f :: if invalidSets then [.malformed f] else []

/-- The result of a file, and an error more where there is one. -/
def conclude (f : Path) (ok : Bool) (result otherwise : Result) (s : State Path Directive Vars) :
    State Path Directive Vars × Result :=
  if ok then (s, result) else (s.note [.error f], otherwise)

/-- `parse_file_inner` -/
def parseFileInner (parseFile : Parse Path Directive Vars) (f : Path) (s : State Path Directive Vars) :
    Option (State Path Directive Vars × Result) :=
  let s' := { s with vars := (files.read f s.vars).1 }
  match (files.read f s.vars).2 with
  | none => some (s'.note [.file f, .error f], .failed)
  | some contents =>
    (parseConfig files parseFile f contents.calls (s'.note (opening f contents.invalidSets)) false).map
      fun (s, hasErrors) => conclude f (!files.duplicates (directives s.trace))
        (if hasErrors then .configErrors else .success) .configErrors s

/-- `parse_file`, to a depth of nested calls. -/
def parseFile : ℕ → Parse Path Directive Vars
  | 0, _, _, _ => none
  | fuel + 1, dir, f, s => (parseFileInner files (parseFile fuel) f s).map fun (s, result) =>
    conclude f (files.chdir dir) result .failed s

/-- The part of `load_configuration` that processes the files. -/
def load (fuel : ℕ) (main : Path) (vars : Vars) :
    Option (State Path Directive Vars × Result) :=
  parseFile files fuel none main { includedFiles := [main], vars, trace := [] }

end Code

/-! ### Each path once -/

section Graph

/-- The state of the traversal: the variables, and what is observed. -/
abbrev Observed (Path Directive Vars : Type*) := Vars × List (Entry Path Directive)

/-- A reference to a file, in a file or at the start. -/
abbrev Reference (Path : Type*) := Option Path × Path

variable (files : Files Path Word Directive Vars)

def observe (entries : List (Entry Path Directive)) :
    Depth.Step (Reference Path) (Observed Path Directive Vars) :=
  .act fun s => (s.1, s.2 ++ entries)

/-- What a call in the file `f` does. -/
def callSteps (f : Path) :
    Call Word Directive → List (Depth.Step (Reference Path) (Observed Path Directive Vars))
  | .directive d => [observe [.directive d]]
  | .includes (some words) => (words.filterMap (files.realpath f)).map fun p => .visit (some f, p)
  | .includes none | .error => [observe [.error f]]

/-- An error where there is one. -/
def check (f : Path) (ok : List (Entry Path Directive) → Bool) :
    Depth.Step (Reference Path) (Observed Path Directive Vars) :=
  .act fun s => (s.1, if ok s.2 then s.2 else s.2 ++ [.error f])

def fileSteps (dir : Option Path) (f : Path) (s : Observed Path Directive Vars) :
    List (Depth.Step (Reference Path) (Observed Path Directive Vars)) :=
  .act (fun s => ((files.read f s.1).1, s.2)) :: (match (files.read f s.1).2 with
    | none => [observe [.file f, .error f]]
    | some contents => observe (opening f contents.invalidSets) ::
        (contents.calls.flatMap (callSteps files f) ++
          [check f fun trace => !files.duplicates (directives trace)])) ++
    [check f fun _ => files.chdir dir]

/-- The files and their includes. -/
def graph : Depth.Graph (Reference Path) Path (Observed Path Directive Vars) where
  node := Prod.snd
  body v := fileSteps files v.1 v.2

/-- The depth-first traversal from the main file. -/
def depthFirst (fuel : ℕ) (main : Path) (vars : Vars) :
    Option (Depth.Walk Path (Observed Path Directive Vars)) :=
  (graph files).visit fuel (none, main) { state := (vars, []), visited := [] }

end Graph

end Include

end I3
