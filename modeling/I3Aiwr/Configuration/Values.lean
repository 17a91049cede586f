import I3Aiwr.Parser.Token
import I3Aiwr.Parser.Variables

/-!
# Values of the configuration

What the directives of `src/config_directives.c` make of their arguments: booleans, clamped
numbers, modifiers and colours. Doubles are `Float`. What depends on the machine, or is another
library's, stands in the environment.

## Main definitions

* `Env`: the machine
* `boolstr`, `aiwrBool`, `aiwrClamp`, `parseLong`
* `eventStateFromStr`: modifiers as a bit mask
* `Color`, `drawUtilHexToColor`
-/

namespace I3.Configuration

open I3.Parser (Text strtol sameCase isSpace)

/-- The text of a literal. -/
abbrev lit (s : String) : Text := s.toList

/-! ### Numbers -/

/-- A `long` as an `int`. -/
def toInt (n : ℤ) : ℤ := n.bmod (2 ^ 32)

/-- A `long` as a `uint32_t`. -/
def toUInt32 (n : ℤ) : ℕ := (n % 2 ^ 32).toNat

/-- `strtol` to the base 10, and `atoi`: `0` where there is no number. -/
def atol (s : Text) : ℤ := ((strtol s).map (·.1)).getD 0

/-- `aiwr_clamp`. -/
def aiwrClamp (v lo hi : ℤ) : ℤ := if v < lo then lo else if v > hi then hi else v

/-- The value of a digit to the base 16. -/
def hexDigit (c : Char) : Option ℕ :=
  if '0' ≤ c ∧ c ≤ '9' then some (c.toNat - '0'.toNat)
  else if 'a' ≤ c ∧ c ≤ 'f' then some (c.toNat - 'a'.toNat + 10)
  else if 'A' ≤ c ∧ c ≤ 'F' then some (c.toNat - 'A'.toNat + 10)
  else none

/-- The number the digits at the front make, from `n` on, and the text behind them. -/
def digitsIn (base n : ℕ) : Text → ℕ × Text
  | [] => (n, [])
  | c :: cs =>
    match hexDigit c with
    | some d => if d < base then digitsIn base (base * n + d) cs else (n, c :: cs)
    | none => (n, c :: cs)

/-- The digits of a number whose base is that of its prefix. -/
def digitsAny : Text → Option (ℕ × Text)
  | '0' :: x :: d :: cs =>
    if (x = 'x' ∨ x = 'X') ∧ (hexDigit d).isSome then some (digitsIn 16 0 (d :: cs))
    else some (digitsIn 8 0 ('0' :: x :: d :: cs))
  | '0' :: cs => some (digitsIn 8 0 ('0' :: cs))
  | c :: cs => if c.isDigit then some (digitsIn 10 0 (c :: cs)) else none
  | [] => none

/-- `strtol` to the base 0. -/
def strtolAny (walk : Text) : Option (ℤ × Text) :=
  match walk.dropWhile isSpace with
  | '-' :: cs => (digitsAny cs).map fun r => (-r.1, r.2)
  | '+' :: cs => (digitsAny cs).map fun r => ((r.1 : ℤ), r.2)
  | cs => (digitsAny cs).map fun r => ((r.1 : ℤ), r.2)

/-- `parse_long`, of what `strtol` gives: the whole text is a number that is not negative. -/
def parseLong (strtol : Text → Option (ℤ × Text)) (s : Text) : Option ℤ :=
  match strtol s with
  | none => if s = [] then some 0 else none
  | some (n, rest) => if 0 ≤ n ∧ n < 2 ^ 63 - 1 ∧ rest = [] then some n else none

/-! ### Booleans -/

/-- `boolstr`. -/
def boolstr (s : Text) : Bool :=
  ["1", "yes", "true", "on", "enable", "active"].any fun w => sameCase s (lit w)

/-- `aiwr_bool`. -/
def aiwrBool (value : Text) : Bool :=
  ["enabled", "yes", "true", "on", "1"].any fun w => value = lit w

/-! ### Modifiers -/

/-- The words of `event_state_from_str` with their bits: `XCB_KEY_BUT_MASK_*`, and the group masks
in the upper half. -/
def eventStateWords : List (String × ℕ) :=
  [("Mod1", 8), ("Mod2", 16), ("Mod3", 32), ("Mod4", 64), ("Mod5", 128), ("Control", 4),
    ("Ctrl", 4), ("Shift", 1), ("Group1", 1 <<< 16), ("Group2", 2 <<< 16),
    ("Mode_switch", 2 <<< 16), ("Group3", 4 <<< 16), ("Group4", 8 <<< 16)]

/-- `event_state_from_str`. -/
def eventStateFromStr : Option Text → ℕ
  | none => 0
  | some s => eventStateWords.foldl
      (fun mask w => if lit w.1 <:+: s then mask ||| w.2 else mask) 0

/-! ### Colours and fonts -/

/-- `color_t`. -/
structure Color where
  red : Float := 0
  green : Float := 0
  blue : Float := 0
  alpha : Float := 0
  colorpixel : ℕ := 0

/-- The components cairo is given. -/
def Color.rgba (c : Color) : Float × Float × Float × Float := (c.red, c.green, c.blue, c.alpha)

inductive FontType
  | none | xcb | pango
  deriving DecidableEq, Repr

/-- `i3Font`. -/
structure Font where
  type : FontType := .none
  height : ℤ := 0
  pattern : Text := []
  deriving DecidableEq, Repr

/-- What the directives take from the machine. -/
structure Env where
  /-- `logical_px`: the resolution of the screen. -/
  logicalPx : ℤ → ℤ
  /-- `get_colorpixel`: the colours of the screen. -/
  getColorpixel : Text → ℕ
  /-- `load_font`, with its fallback. -/
  loadFont : Text → Font
  /-- `resolve_tilde`: the home directories. -/
  resolveTilde : Text → Text
  /-- Whether `pcre2_compile` takes a pattern. -/
  compiles : Text → Bool
  /-- The focused container, as its address. -/
  focused : Option ℕ
  /-- `strtod`, in the locale. -/
  strtod : Text → Float
  /-- `%lf` of `sscanf`, in the locale: the number and the text behind it. -/
  scanDouble : Text → Option (Float × Text)

/-- `strtol` to the base 16 of a group of two characters. -/
def hexGroup (c d : Char) : ℤ :=
  match hexDigit c, hexDigit d with
  | some a, some b => 16 * a + b
  | some a, none => a
  | none, some b => if c = '-' then -b else if c = '+' ∨ isSpace c then b else 0
  | none, none => 0

/-- A colour from its digits. -/
def hexToColor (env : Env) (color : Text) : Color :=
  let at_ (i : ℕ) : Char := color.getD i '\x00'
  let channel (c d : Char) : Float := Float.ofInt (hexGroup c d) / 255.0
  { red := channel (at_ 1) (at_ 2)
    green := channel (at_ 3) (at_ 4)
    blue := channel (at_ 5) (at_ 6)
    alpha := if color.length = 9 then channel (at_ 7) (at_ 8) else channel 'F' 'F'
    colorpixel := env.getColorpixel color }

/-- `draw_util_hex_to_color`. -/
def drawUtilHexToColor (env : Env) (color : Text) : Color :=
  if color.length < 6 ∨ color.head? ≠ some '#' then hexToColor env (lit "#A9A9A9")
  else hexToColor env color

end I3.Configuration
