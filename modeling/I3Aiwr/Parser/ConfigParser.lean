import Mathlib.Logic.Relation
import I3Aiwr.Parser.ConfigSpec

/-!
# The configuration parser

`parse_config` of `src/config_parser.c`, on the text after the variables were replaced. Beside the
current state it keeps the list of the states that lead to it; after an error the rest of the line
is skipped, and the nearest of these states with an `error` token takes over. Two directives change
the next state, `cfg_criteria_init` by remembering one and `cfg_criteria_pop_state` by returning to
it; what the files of an `include` leave there is a parameter.

## Main definitions

* `ConfigParser`: the parser between two iterations of its loop
* `ConfigParser.nextState`: moving to a state and calling directives
* `ConfigParser.step included`: an iteration; an error where the code exits
* `ConfigParser.Reaches included`: iterations one after the other
-/

namespace I3.Parser

/-- The span of a quoted string behind the character `prev`: to a quote not behind a backslash. -/
def configQuotedSpan (prev : Char) : Text → Text × Text
  | [] => ([], [])
  | c :: cs =>
    if c = '"' ∧ prev ≠ '\\' then ([], c :: cs)
    else (c :: (configQuotedSpan c cs).1, (configQuotedSpan c cs).2)

/-- `'\r'` or `'\n'`. -/
def isNewline (c : Char) : Bool := c = '\r' || c = '\n'

/-- The span of a string, or of a word, and the text behind it. -/
def configSpan (asWord : Bool) : Text → Text × Text
  | '"' :: cs => configQuotedSpan '"' cs
  | cs => cs.span fun c => if asWord then !isWordEnd c else !isNewline c

/-- Copying a string: only escaped double quotes are handled. -/
def configUnescape : Text → Text
  | [] => []
  | '\\' :: '"' :: cs => '"' :: configUnescape cs
  | c :: cs => c :: configUnescape cs

/-- `walk` stands at the end of a line, or of the text. -/
def Scan.lineEnd (walk : Text) : Scan :=
  match walk with
  | [] => .matched none (skipChar walk)
  | c :: _ => if isNewline c then .matched none (skipChar walk) else .failed walk

/-- Trying a token of the configuration. -/
def scanConfig (name : TokenName) (walk : Text) : Scan :=
  match name with
  | .literal text => Scan.literal text walk
  | .number => Scan.number walk
  | .string => Scan.span configUnescape (configSpan false walk).1 (configSpan false walk).2
  | .word => Scan.span configUnescape (configSpan true walk).1 (configSpan true walk).2
  | .line => .matched none (skipChar (walk.dropWhile fun c => !isNewline c))
  | .end_ => Scan.lineEnd walk
  | .error => .failed walk

/-- The error of a line: what was expected. -/
structure ConfigError where
  message : String
  line : ℕ
  deriving DecidableEq, Repr

/-- The parser between two iterations of its loop; `walk = none` past the terminating 0-byte.
`criteriaNext` is the variable `criteria_next_state` of `src/config_directives.c`. -/
structure ConfigParser where
  context : Context ConfigState ConfigIdentifier
  walk : Option Text
  statelist : List ConfigState
  criteriaNext : ConfigState
  linecnt : ℕ := 1
  hasErrors : Bool := false
  errors : List ConfigError := []

namespace ConfigParser

/-- `cfg_criteria_init` with the state `INITIAL`, called by the parser itself. -/
def criteriaInit (p : ConfigParser) : ConfigParser :=
  { p with
    context := p.context.callDirectly "cfg_criteria_init" [.state .initial]
    criteriaNext := .initial }

/-- `parse_config` before its loop. -/
def start (input : Text) : ConfigParser :=
  criteriaInit
    { context := { state := .initial }
      walk := some input
      statelist := [.initial]
      criteriaNext := .initial }

/-- The state list on entering a state: cut behind it where it is on the list, else extended. -/
def enter (statelist : List ConfigState) (s : ConfigState) : List ConfigState :=
  if s ∈ statelist then statelist.take (statelist.idxOf s + 1) else statelist ++ [s]

/-- What a directive leaves in `criteria_next_state`; `included` says it for the included files. -/
def criteriaNextAfter (included : ConfigParser → ConfigState) (p : ConfigParser)
    (function : String) (args : List (Arg ConfigState ConfigIdentifier)) : ConfigState :=
  match args with
  | [.state s] => if function = "cfg_criteria_init" then s else p.criteriaNext
  | _ => if function = "cfg_include" then included p else p.criteriaNext

/-- The state a directive leaves the parser in. -/
def stateAfter (function : String) (next criteriaNext : ConfigState) : ConfigState :=
  if function = "cfg_criteria_pop_state" then criteriaNext else next

/-- `next_state`. -/
def nextState (included : ConfigParser → ConfigState) (p : ConfigParser) :
    Action ConfigState ConfigIdentifier → ConfigParser
  | .goto s =>
    { p with context := p.context.goto .initial s, statelist := enter p.statelist s }
  | .call function args next =>
    let s := stateAfter function next p.criteriaNext
    { p with
      context := p.context.call function args s
      statelist := enter p.statelist s
      criteriaNext := criteriaNextAfter included p function args }

/-- A line has ended with an `end` or a `line` token. -/
def afterToken (name : TokenName) (p : ConfigParser) : ConfigParser :=
  match name with
  | .end_ => { p.criteriaInit with linecnt := p.linecnt + 1 }
  | .line => { p with linecnt := p.linecnt + 1 }
  | _ => p

/-- The first `error` token of a state. -/
def errorToken (s : ConfigState) : Option (Token ConfigState ConfigIdentifier) :=
  s.tokens.find? (·.name = .error)

/-- The parser at `walk` after an error: the rest of the line is skipped, and the nearest state with
an `error` token takes over. -/
def recover (included : ConfigParser → ConfigState) (p : ConfigParser) (walk : Text) :
    Except Abort ConfigParser :=
  let rest := walk.dropWhile (· ≠ '\n')
  let message := "Expected one of these tokens: " ++
    possibleTokens (p.context.state.tokens.map (·.name))
  let p := { p with
    context := p.context.clear
    walk := if rest.isEmpty then none else some rest
    hasErrors := true
    errors := p.errors.concat ⟨message, p.linecnt⟩ }
  match p.statelist.reverse.findSome? errorToken with
  | none => .error .noErrorToken
  | some token => .ok (p.nextState included token.action)

/-- The blanks skipped before every token. -/
def isBlank (c : Char) : Bool := c = ' ' || c = '\t'

/-- An iteration of the loop. -/
def step (included : ConfigParser → ConfigState) (p : ConfigParser) : Except Abort ConfigParser :=
  match p.walk with
  | none => .ok p
  | some walk =>
    match matchToken scanConfig p.context.state.tokens (walk.dropWhile isBlank) with
    | .inl walk => p.recover included walk
    | .inr m =>
      match p.context.store m.token.identifier m.value with
      | none => .error .stackFull
      | some c =>
        .ok { afterToken m.token.name (nextState included { p with context := c } m.token.action) with
          walk := m.rest }

/-- Iterations one after the other. -/
def Reaches (included : ConfigParser → ConfigState) : ConfigParser → ConfigParser → Prop :=
  Relation.ReflTransGen fun p p' => p.step included = .ok p'

end ConfigParser

end I3.Parser
