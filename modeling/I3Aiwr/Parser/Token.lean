import I3Aiwr.Parser.Stack

/-!
# Token tables

What the command parser and the config parser share: the tables `generate-command-parser.pl`
generates from the specifications in `parser-specs/`, matching a token of the current state, storing
it, and moving to the next state. The two parsers differ in how they read a token off the text, in
what they do to the next state, and in their error handling.

## Main definitions

* `Rule`, `Token`, `Action`: the rules of a specification and the tokens they generate
* `matchToken scan tokens walk`: the loop over the tokens of a state
* `Context`: the state, the stack and the calls made; `Context.store`, `Context.goto`,
  `Context.call`
* `stripLiteral`, `number`, `span`: reading literals, numbers and runs of characters
-/

namespace I3.Parser

/-! ### Tables -/

/-- The name of a token: a literal, or one of the words the parsers know. -/
inductive TokenName
  | literal (text : String)
  | number | string | word | line | end_ | error
  deriving DecidableEq, Repr

instance : Coe String TokenName := ⟨.literal⟩

/-- An argument of a call: the value of an identifier on the stack (`$i`, `&i`) or a constant. -/
inductive Arg (σ ι : Type)
  | string (identifier : ι)
  | long (identifier : ι)
  | text (text : String)
  | int (n : ℤ)
  | state (state : σ)
  | null
  deriving DecidableEq, Repr

/-- What follows a token: a state, or a call and the state `GENERATED_call` sets before it. -/
inductive Action (σ ι : Type)
  | goto (state : σ)
  | call (function : String) (args : List (Arg σ ι)) (next : σ)
  deriving DecidableEq, Repr

/-- A rule of a specification: `identifier = names -> action`. -/
structure Rule (σ ι : Type) where
  identifier : Option ι := none
  names : List TokenName
  action : Action σ ι

/-- `struct token`. -/
structure Token (σ ι : Type) where
  name : TokenName
  identifier : Option ι
  action : Action σ ι
  deriving DecidableEq, Repr

variable {σ ι : Type}

namespace Rule

/-- `names -> action`. -/
def on (names : List TokenName) (action : Action σ ι) : Rule σ ι := { names, action }

/-- `identifier = names -> action`. -/
def into (identifier : ι) (names : List TokenName) (action : Action σ ι) : Rule σ ι :=
  { identifier, names, action }

/-- The tokens of a rule. -/
def tokens (r : Rule σ ι) : List (Token σ ι) := r.names.map (⟨·, r.identifier, r.action⟩)

end Rule

/-- The tokens the error messages list, each but the last followed by a comma; `error` tokens are
used internally only. -/
def possibleTokens : List TokenName → String
  | [] => ""
  | .error :: names => possibleTokens names
  | name :: names => shown name ++ (if names.isEmpty then "" else ", ") ++ possibleTokens names
where
  shown : TokenName → String
    | .literal text => "'" ++ text ++ "'"
    | .number => "<number>"
    | .string => "<string>"
    | .word => "<word>"
    | .line => "<line>"
    | .end_ => "<end>"
    | .error => ""

/-! ### Reading a token -/

/-- What comes of trying a token at a position: the value to store and the text behind it (`none`
past the terminating 0-byte), or the position at which the next token is tried. -/
inductive Scan
  | matched (value : Option Value) (rest : Option Text)
  | failed (walk : Text)
  deriving DecidableEq, Repr

/-- `strncasecmp` with a literal, and the text behind it. -/
def stripLiteral : Text → Text → Option Text
  | [], walk => some walk
  | _ :: _, [] => none
  | l :: ls, c :: cs => if l.toLower = c.toLower then stripLiteral ls cs else none

def Scan.literal (text : String) (walk : Text) : Scan :=
  match stripLiteral text.toList walk with
  | none => .failed walk
  | some rest => .matched (some (.str text.toList)) (some rest)

/-- `isspace`. -/
def isSpace (c : Char) : Bool :=
  c = ' ' || c = '\t' || c = '\n' || c = '\x0b' || c = '\x0c' || c = '\r'

/-- The number the digits at the front make, from `n` on, and the text behind them. -/
def digits (n : ℕ) : Text → ℕ × Text
  | [] => (n, [])
  | c :: cs => if c.isDigit then digits (10 * n + (c.toNat - '0'.toNat)) cs else (n, c :: cs)

/-- The digits behind the sign, if there are any. -/
def signed (sign : ℤ) : Text → Option (ℤ × Text)
  | [] => none
  | c :: cs => if c.isDigit then some (sign * (digits 0 (c :: cs)).1, (digits 0 (c :: cs)).2) else none

/-- `strtol` to the base 10: the number, before its range is checked, and the text behind it. -/
def strtol (walk : Text) : Option (ℤ × Text) :=
  match walk.dropWhile isSpace with
  | '-' :: cs => signed (-1) cs
  | '+' :: cs => signed 1 cs
  | cs => signed 1 cs

/-- A number in the range of `long`; `strtol` reports `ERANGE` for the others. -/
def Scan.number (walk : Text) : Scan :=
  match strtol walk with
  | none => .failed walk
  | some (n, rest) =>
    if -2 ^ 63 ≤ n ∧ n < 2 ^ 63 then .matched (some (.num n)) (some rest) else .failed walk

/-- A string or word spanning `str`, with `walk` behind it: an empty one is no token, and a double
quote behind it is skipped. -/
def Scan.span (unescape : Text → Text) (str walk : Text) : Scan :=
  match str, walk with
  | [], walk => .failed walk
  | str, '"' :: rest => .matched (some (.str (unescape str))) (some rest)
  | str, walk => .matched (some (.str (unescape str))) (some walk)

/-- The delimiters of a word. -/
def isWordEnd (c : Char) : Bool :=
  c = ' ' || c = '\t' || c = ']' || c = ',' || c = ';' || c = '\r' || c = '\n'

/-- `walk++`: behind the character at `walk`, or past the terminating 0-byte. -/
def skipChar : Text → Option Text
  | [] => none
  | _ :: cs => some cs

/-- A token that matched at `walk`. -/
structure Match (σ ι : Type) where
  token : Token σ ι
  walk : Text
  value : Option Value
  rest : Option Text

/-- The loop over the tokens of a state: the first that matches, or the position where the last one
failed. -/
def matchToken (scan : TokenName → Text → Scan) : List (Token σ ι) → Text → Text ⊕ Match σ ι
  | [], walk => .inl walk
  | token :: tokens, walk =>
    match scan token.name walk with
    | .matched value rest => .inr ⟨token, walk, value, rest⟩
    | .failed walk => matchToken scan tokens walk

/-! ### Storing tokens and calling -/

/-- The value of an argument. -/
inductive ArgValue (σ : Type)
  | string (s : Option Text)
  | long (n : ℤ)
  | text (text : String)
  | int (n : ℤ)
  | state (state : σ)
  | null
  deriving DecidableEq, Repr

/-- An argument, given the values of the identifiers. -/
def Arg.eval (value : ι → Option Value) : Arg σ ι → ArgValue σ
  | .string i => .string (getString (value i))
  | .long i => .long (getLong (value i))
  | .text s => .text s
  | .int n => .int n
  | .state s => .state s
  | .null => .null

/-- A call: the function, its arguments as the generated code reads them off the stack, and, to
compare them with, as the tokens matched give them. -/
structure CallMade (σ : Type) where
  function : String
  args : List (ArgValue σ)
  intended : List (ArgValue σ)
  deriving DecidableEq, Repr

/-- The state and the stack of a parser, the calls it made, and the tokens it matched and stored
since the stack was last cleared. -/
structure Context (σ ι : Type) where
  state : σ
  stack : Stack ι := .empty
  calls : List (CallMade σ) := []
  matched : List (ι × Value) := []

namespace Context

variable (c : Context σ ι)

/-- `parser_clear_stack`. -/
def clear : Context σ ι := { c with stack := .empty, matched := [] }

variable [DecidableEq σ] [DecidableEq ι]

/-- Storing a token that has an identifier; `none` where the stack is full. -/
def store (identifier : Option ι) (value : Option Value) : Option (Context σ ι) :=
  match identifier, value with
  | some i, some (.str s) =>
    (c.stack.pushString i s).map fun stack =>
      { c with stack, matched := c.matched ++ [(i, .str s)] }
  | some i, some (.num n) =>
    (c.stack.pushLong i n).map fun stack =>
      { c with stack, matched := c.matched ++ [(i, .num n)] }
  | _, _ => some c

/-- Moving to a state; the stack is cleared on returning to `INITIAL`. -/
def goto (initial state : σ) : Context σ ι :=
  if state = initial then { c with state }.clear else { c with state }

/-- `GENERATED_call`, and clearing the stack. -/
def call (function : String) (args : List (Arg σ ι)) (next : σ) : Context σ ι :=
  { c with
    state := next
    calls := c.calls.concat
      ⟨function, args.map (Arg.eval c.stack.find), args.map (Arg.eval (valueOf c.matched))⟩ }.clear

/-- A call the parser makes on its own. -/
def callDirectly (function : String) (args : List (ArgValue σ)) : Context σ ι :=
  { c with calls := c.calls.concat ⟨function, args, args⟩ }

end Context

/-- Where a parser stops i3: `exit(EXIT_FAILURE)` with the stack full, or the assertion that an
`error` token is found. -/
inductive Abort
  | stackFull | noErrorToken
  deriving DecidableEq, Repr

end I3.Parser
