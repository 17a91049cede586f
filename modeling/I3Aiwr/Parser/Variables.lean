import Mathlib

/-!
# Variables in the config file

The variables of `src/config_parser.c`: `upsert_variable`, which keeps the list of variables sorted
by the lengths of their names, and the two passes of `parse_file_inner`. The first pass counts how
much longer the text gets: it looks for one variable after another and blanks each occurrence. The
second pass replaces the nearest occurrence again and again.

A text is the list of its bytes. The buffer has the size of the file; where it is shorter than the
file, 0-bytes follow, which are part of no variable.

## Main definitions

* `Variable`, `upsertVariable`, `variablesOf`
* `strcasestr`
* `countKey`, `extraBytes`: the first pass
* `nearest`, `replaceFrom`, `replaceVariables`: the second pass
* `longestFrom`, `leftmostLongest`: what the second pass is for
-/

namespace I3.Parser

structure Variable where
  key : List Char
  value : List Char
  deriving DecidableEq, Repr

/-- The first variable with the key gets the value. -/
def updateVariable (key value : List Char) : List Variable → Option (List Variable)
  | [] => none
  | current :: vars =>
    if current.key = key then some ({ current with value } :: vars)
    else (updateVariable key value vars).map (current :: ·)

/-- A new variable goes before those with keys of its length or shorter. -/
def insertVariable (new : Variable) (vars : List Variable) : List Variable :=
  vars.takeWhile (fun test => new.key.length < test.key.length) ++ new
    :: vars.dropWhile fun test => new.key.length < test.key.length

def upsertVariable (vars : List Variable) (key value : List Char) : List Variable :=
  match updateVariable key value vars with
  | some vars => vars
  | none => insertVariable { key, value } vars

/-- The variables after a sequence of assignments. -/
def variablesOf (sets : List (List Char × List Char)) : List Variable :=
  sets.foldl (fun vars set => upsertVariable vars set.1 set.2) []

/-- Equality up to the case of letters. -/
def sameCase (a b : List Char) : Prop := a.map Char.toLower = b.map Char.toLower

instance (a b : List Char) : Decidable (sameCase a b) := inferInstanceAs (Decidable (_ = _))

/-- The text begins with the key. -/
def matchesHere (key text : List Char) : Bool := sameCase (text.take key.length) key

/-- The offset of the first occurrence. -/
def strcasestr : List Char → List Char → Option ℕ
  | [], key => if matchesHere key [] then some 0 else none
  | c :: text, key =>
    if matchesHere key (c :: text) then some 0 else (strcasestr text key).map (· + 1)

/-! ### The first pass -/

/-- The loop that blanks the occurrences of a key, and how many there are. -/
def countKey (key : List Char) : ℕ → List Char → List Char × ℕ
  | 0, next => (next, 0)
  | n + 1, next => match strcasestr next key with
    | none => (next, 0)
    | some d =>
      let (rest, count) := countKey key n (next.drop (d + key.length))
      (next.take d ++ List.replicate key.length ' ' ++ rest, count + 1)

/-- How much longer an occurrence gets. -/
def Variable.extra (v : Variable) : ℤ := v.value.length - v.key.length

/-- The value of a computation in an `int`. -/
def wrapInt (n : ℤ) : ℤ := n.bmod (2 ^ 32)

/-- One variable: its occurrences are blanked and counted. -/
def countVariable (s : List Char × ℤ) (current : Variable) : List Char × ℤ :=
  let (bufcopy, count) := countKey current.key s.1.length s.1
  (bufcopy, wrapInt (s.2 + count * current.extra))

/-- The loop over the variables: the text with blanks, and the extra bytes. -/
def countVariables (vars : List Variable) (buf : List Char) : List Char × ℤ :=
  vars.foldl countVariable (buf, 0)

/-- `extra_bytes`. -/
def extraBytes (vars : List Variable) (buf : List Char) : ℤ := (countVariables vars buf).2

/-! ### The second pass -/

/-- One variable: its next occurrence, if that is nearer. -/
def nearer (walk : List Char) (s : ℤ × Option (ℕ × Variable)) (current : Variable) :
    ℤ × Option (ℕ × Variable) :=
  match strcasestr walk current.key with
  | none => s
  | some d => if (d : ℤ) < s.1 then (d, some (d, current)) else s

/-- The nearest occurrence of a variable, the first in the list where several are at the same place.
`distance` is an `int` too. -/
def nearest (vars : List Variable) (size : ℕ) (walk : List Char) : Option (ℕ × Variable) :=
  (vars.foldl (nearer walk) (wrapInt size, none)).2

/-- The loop of the second pass. -/
def replaceFrom (vars : List Variable) (size : ℕ) : ℕ → List Char → List Char
  | 0, _ => []
  | n + 1, walk =>
    if walk = [] then []
    else match nearest vars size walk with
      | none => walk
      | some (distance, v) =>
        walk.take distance ++ v.value
          ++ replaceFrom vars size n (walk.drop (distance + v.key.length))

/-- The text with the variables replaced. -/
def replaceVariables (vars : List Variable) (buf : List Char) : List Char :=
  replaceFrom vars buf.length (buf.length + 1) buf

/-! ### What the second pass is for -/

/-- The longest key that the text begins with, the first of the list among equally long ones. -/
def longest (vars : List Variable) (text : List Char) : Option Variable :=
  (vars.filter fun v => matchesHere v.key text).argmax fun v => v.key.length

/-- From left to right, the longest key at each position is replaced. -/
def longestFrom (vars : List Variable) : ℕ → List Char → List Char
  | 0, _ => []
  | _ + 1, [] => []
  | n + 1, c :: text => match longest vars (c :: text) with
    | some v => v.value ++ longestFrom vars n ((c :: text).drop v.key.length)
    | none => c :: longestFrom vars n text

def leftmostLongest (vars : List Variable) (buf : List Char) : List Char :=
  longestFrom vars (buf.length + 1) buf

end I3.Parser
