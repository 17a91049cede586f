import Mathlib.Logic.Relation
import I3Aiwr.Parser.CommandSpec

/-!
# The command parser

`parse_command` of `src/commands_parser.c`: one iteration of its loop skips blanks, matches a token
of the current state and moves on, or reports what it expected instead and ends. The calls include
those of `cmd_criteria_init` that the loop makes on its own.

## Main definitions

* `parseString asWord walk`: the span of a string or word
* `CommandParser`: the parser between two iterations
* `CommandParser.step`: an iteration; an error where the code exits
* `CommandParser.Reaches`: iterations one after the other
-/

namespace I3.Parser

/-- The span of a quoted string, behind the opening quote: to the closing quote, a backslash taking
the next character along. -/
def quotedSpan : Text → Text × Text
  | [] => ([], [])
  | '"' :: cs => ([], '"' :: cs)
  | '\\' :: c :: cs => ('\\' :: c :: (quotedSpan cs).1, (quotedSpan cs).2)
  | c :: cs => (c :: (quotedSpan cs).1, (quotedSpan cs).2)

/-- The delimiters of an unquoted string. -/
def isStringEnd (c : Char) : Bool := c = ';' || c = ',' || c = '\r' || c = '\n'

/-- `parse_string`: the span of a string, or of a word, and the text behind it. An empty span is no
token; an opening quote is skipped all the same. -/
def parseString (asWord : Bool) : Text → Text × Text
  | '"' :: cs => quotedSpan cs
  | cs => cs.span fun c => if asWord then !isWordEnd c else !isStringEnd c

/-- Copying a string: only escaped double quotes and backslashes are handled. Behind the span there
is never one of them after a backslash. -/
def unescape : Text → Text
  | [] => []
  | '\\' :: '"' :: cs => '"' :: unescape cs
  | '\\' :: '\\' :: cs => '\\' :: unescape cs
  | c :: cs => c :: unescape cs

/-- `walk` stands at the end of a command: `'\0'`, `','` or `';'`. -/
def Scan.commandEnd (walk : Text) : Scan :=
  match walk with
  | [] | ',' :: _ | ';' :: _ => .matched none (skipChar walk)
  | _ => .failed walk

/-- Trying a token of a command. -/
def scanCommand (name : TokenName) (walk : Text) : Scan :=
  match name with
  | .literal text => Scan.literal text walk
  | .number => Scan.number walk
  | .string => Scan.span unescape (parseString false walk).1 (parseString false walk).2
  | .word => Scan.span unescape (parseString true walk).1 (parseString true walk).2
  | .end_ => Scan.commandEnd walk
  | .line | .error => .failed walk

/-- The error of a command: what was expected, and the position it was expected at. -/
structure CommandError where
  message : String
  position : String
  deriving DecidableEq, Repr

/-- The command parser between two iterations of its loop; `walk = none` past the terminating
0-byte. -/
structure CommandParser where
  input : Text
  context : Context CommandState CommandIdentifier
  walk : Option Text
  parseError : Option CommandError := none

namespace CommandParser

/-- `cmd_criteria_init`, called by the parser itself. -/
def criteriaInit (c : Context CommandState CommandIdentifier) :
    Context CommandState CommandIdentifier :=
  c.callDirectly "cmd_criteria_init" []

/-- `parse_command` before its loop. -/
def start (input : Text) : CommandParser where
  input
  context := criteriaInit { state := .initial }
  walk := some input

/-- `next_state`. -/
def nextState (c : Context CommandState CommandIdentifier) :
    Action CommandState CommandIdentifier → Context CommandState CommandIdentifier
  | .goto s => c.goto .initial s
  | .call function args next => c.call function args next

/-- The error with the parser at `walk`. -/
def errorAt (p : CommandParser) (walk : Text) : CommandError where
  message := "Expected one of these tokens: " ++
    possibleTokens (p.context.state.tokens.map (·.name))
  position := String.ofList (List.replicate (p.input.length - walk.length) ' ' ++
    List.replicate walk.length '^')

/-- After an `end` token the criteria are initialised again, unless a comma follows. -/
def afterToken (m : Match CommandState CommandIdentifier)
    (c : Context CommandState CommandIdentifier) : Context CommandState CommandIdentifier :=
  if m.token.name = .end_ ∧ m.walk.head? ≠ some ',' then criteriaInit c else c

/-- The blanks skipped before every token. -/
def isBlank (c : Char) : Bool := c = ' ' || c = '\t' || c = '\r' || c = '\n'

/-- An iteration of the loop, which a parse error ends. -/
def step (p : CommandParser) : Except Abort CommandParser :=
  match p.walk, p.parseError with
  | some walk, none =>
    match matchToken scanCommand p.context.state.tokens (walk.dropWhile isBlank) with
    | .inl walk =>
      .ok { p with context := p.context.clear, walk := some walk, parseError := p.errorAt walk }
    | .inr m =>
      match p.context.store m.token.identifier m.value with
      | none => .error .stackFull
      | some c => .ok { p with context := afterToken m (nextState c m.token.action), walk := m.rest }
  | _, _ => .ok p

/-- Iterations one after the other. -/
def Reaches : CommandParser → CommandParser → Prop :=
  Relation.ReflTransGen fun p p' => p.step = .ok p'

/-- The first `n` iterations. -/
def run : ℕ → CommandParser → Except Abort CommandParser
  | 0, p => .ok p
  | n + 1, p => match p.step with
    | .ok p' => run n p'
    | .error a => .error a

/-- The only exit of the command parser is for want of a slot. -/
theorem eq_stackFull_of_step {p : CommandParser} {a : Abort} (h : p.step = .error a) :
    a = .stackFull := by
  rw [step] at h
  split at h
  · split at h
    · cases h
    · split at h <;> cases h
      rfl
  · cases h

/-- Iterations that end in an exit reach the iteration that exits. -/
theorem exists_reaches_of_run {n : ℕ} {p : CommandParser} {a : Abort} (h : run n p = .error a) :
    ∃ p', Reaches p p' ∧ p'.step = .error a := by
  induction n generalizing p with
  | zero => cases h
  | succ n ih =>
    rw [run] at h
    split at h
    · rename_i p₁ hstep
      obtain ⟨p', hreach, hp'⟩ := ih h
      exact ⟨p', .head hstep hreach, hp'⟩
    · rename_i a' hstep
      cases h
      exact ⟨p, .refl, hstep⟩

end CommandParser

end I3.Parser
