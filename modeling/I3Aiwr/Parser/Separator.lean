import I3Aiwr.Parser.Progress

/-!
# A command in front of a semicolon

What a token of a command does at a position does not depend on whether the text ends there or goes
on with a semicolon, unless a quoted string is open at its end: no literal, number, string or word goes
past a semicolon, and an `end` token takes a semicolon as it takes the terminating 0-byte.

## Main definitions

* `Scan.lift b`: what comes of a token where `';'` and `b` follow the text
* `opensQuote`: a token that is tried opens a quoted string that is not closed

## Main results

* `matchToken_append`
-/

namespace I3.Parser

/-- The text, a semicolon and `b`. -/
def andThen (walk b : Text) : Text := walk ++ ';' :: b

section Spans

variable {p : Char → Bool} {b : Text}

theorem dropWhile_andThen (hp : p ';' = false) (walk : Text) :
    (andThen walk b).dropWhile p = andThen (walk.dropWhile p) b := by
  induction walk with
  | nil => exact List.dropWhile_cons_of_neg (by simp [hp])
  | cons c cs ih =>
    rw [andThen, List.cons_append, List.dropWhile_cons, List.dropWhile_cons]
    split
    · exact ih
    · rfl

theorem takeWhile_andThen (hp : p ';' = false) (walk : Text) :
    (andThen walk b).takeWhile p = walk.takeWhile p := by
  induction walk with
  | nil => exact List.takeWhile_cons_of_neg (by simp [hp])
  | cons c cs ih =>
    rw [andThen, List.cons_append, List.takeWhile_cons, List.takeWhile_cons]
    split
    · exact congrArg (c :: ·) ih
    · rfl

theorem span_andThen (hp : p ';' = false) (walk : Text) :
    (andThen walk b).span p = ((walk.span p).1, andThen (walk.span p).2 b) := by
  rw [List.span_eq_takeWhile_dropWhile, List.span_eq_takeWhile_dropWhile, takeWhile_andThen hp,
    dropWhile_andThen hp]

end Spans

/-! ### Reading a token -/

/-- What comes of a token where `';'` and `b` follow the text: at the end of the text, the semicolon
was taken. -/
def Scan.lift (b : Text) : Scan → Scan
  | .matched value (some rest) => .matched value (some (andThen rest b))
  | .matched value none => .matched value (some b)
  | .failed walk => .failed (andThen walk b)

section Scans

variable {walk b : Text}

theorem stripLiteral_andThen {literal : Text} (h : ∀ l ∈ literal, l.toLower ≠ ';') :
    stripLiteral literal (andThen walk b) = (stripLiteral literal walk).map (andThen · b) := by
  induction literal generalizing walk with
  | nil => rfl
  | cons l ls ih =>
    rw [List.forall_mem_cons] at h
    cases walk with
    | nil => exact if_neg h.1
    | cons c cs =>
      rw [andThen, List.cons_append, stripLiteral, stripLiteral]
      split
      · exact ih h.2
      · rfl

theorem literal_andThen {text : String} (h : ∀ l ∈ text.toList, l.toLower ≠ ';') :
    Scan.literal text (andThen walk b) = (Scan.literal text walk).lift b := by
  rw [Scan.literal, Scan.literal, stripLiteral_andThen h]
  cases stripLiteral text.toList walk <;> rfl

theorem digits_andThen (n : ℕ) (walk : Text) :
    digits n (andThen walk b) = ((digits n walk).1, andThen (digits n walk).2 b) := by
  induction walk generalizing n with
  | nil => rfl
  | cons c cs ih =>
    rw [andThen, List.cons_append, digits, digits]
    split
    · exact ih _
    · rfl

theorem signed_andThen (sign : ℤ) (walk : Text) :
    signed sign (andThen walk b) = (signed sign walk).map fun r => (r.1, andThen r.2 b) := by
  cases walk with
  | nil => rfl
  | cons c cs =>
    have hdigits := digits_andThen (b := b) 0 (c :: cs)
    rw [andThen, List.cons_append] at hdigits ⊢
    rw [signed, signed, hdigits]
    split <;> rfl

theorem strtol_andThen (walk : Text) :
    strtol (andThen walk b) = (strtol walk).map fun r => (r.1, andThen r.2 b) := by
  rw [strtol, dropWhile_andThen rfl, strtol]
  cases hspaces : walk.dropWhile isSpace with
  | nil => exact signed_andThen 1 []
  | cons c cs =>
    by_cases hminus : c = '-'
    · rw [hminus]
      exact signed_andThen (-1) cs
    · by_cases hplus : c = '+'
      · rw [hplus]
        exact signed_andThen 1 cs
      · have hsigned := signed_andThen (b := b) 1 (c :: cs)
        rw [andThen, List.cons_append] at hsigned ⊢
        split
        · next heq => exact (hminus (List.cons.inj heq).1).elim
        · next heq => exact (hplus (List.cons.inj heq).1).elim
        · split
          · next heq => exact (hminus (List.cons.inj heq).1).elim
          · next heq => exact (hplus (List.cons.inj heq).1).elim
          · exact hsigned

theorem number_andThen : Scan.number (andThen walk b) = (Scan.number walk).lift b := by
  rw [Scan.number, Scan.number, strtol_andThen]
  cases strtol walk with
  | none => rfl
  | some r =>
    rw [Option.map_some]
    dsimp only
    split <;> rfl

theorem span_of_ne (f : Text → Text) {c r : Char} (cs rs : Text) (hr : r ≠ '"') :
    Scan.span f (c :: cs) (r :: rs) = .matched (some (.str (f (c :: cs)))) (some (r :: rs)) := by
  rw [Scan.span.eq_def]
  split
  · next heq => cases heq
  · next heq _ => exact (hr (List.cons.inj heq).1).elim
  · rfl

/-- The string, and the rest with the semicolon. -/
theorem span_lift (f : Text → Text) (str rest : Text) :
    Scan.span f str (andThen rest b) = (Scan.span f str rest).lift b := by
  cases str with
  | nil => rfl
  | cons c cs =>
    cases rest with
    | nil => rfl
    | cons r rs =>
      by_cases hquote : r = '"'
      · rw [hquote]
        rfl
      · rw [andThen, List.cons_append, span_of_ne f cs _ hquote, span_of_ne f cs _ hquote]
        rfl

/-- A quoted string is open at the end of the text. -/
def openQuote : Text → Prop
  | '"' :: cs => (quotedSpan cs).2 = []
  | _ => False

theorem quotedSpan_andThen {walk : Text} (h : (quotedSpan walk).2 ≠ []) :
    quotedSpan (andThen walk b) = ((quotedSpan walk).1, andThen (quotedSpan walk).2 b) := by
  fun_induction quotedSpan walk with
  | case1 => exact (h rfl).elim
  | case2 cs => rfl
  | case3 c cs ih =>
    have hih := ih h
    change quotedSpan ('\\' :: c :: andThen cs b) = _
    rw [quotedSpan, hih]
  | case4 c cs hquote hescape ih =>
    have hih := ih h
    change quotedSpan (c :: andThen cs b) = _
    rw [quotedSpan.eq_def]
    split
    · next heq => cases heq
    · next heq => exact (hquote (List.cons.inj heq).1).elim
    · next c' cs' heq =>
      -- a backslash at the end of the text
      obtain ⟨rfl, htail⟩ := List.cons.inj heq
      cases cs with
      | nil => exact (h rfl).elim
      | cons d ds => exact (hescape d ds rfl rfl).elim
    · next heq =>
      obtain ⟨rfl, rfl⟩ := List.cons.inj heq
      rw [hih]

theorem parseString_of_ne (asWord : Bool) {c : Char} (cs : Text) (hc : c ≠ '"') :
    parseString asWord (c :: cs) =
      (c :: cs).span fun c => if asWord then !isWordEnd c else !isStringEnd c := by
  rw [parseString.eq_def]
  split
  · next heq => exact (hc (List.cons.inj heq).1).elim
  · rfl

theorem parseString_andThen (asWord : Bool) (h : ¬ openQuote walk) :
    parseString asWord (andThen walk b) =
      ((parseString asWord walk).1, andThen (parseString asWord walk).2 b) := by
  have hstop : (if asWord then !isWordEnd ';' else !isStringEnd ';') = false := by
    cases asWord <;> rfl
  cases walk with
  | nil => exact span_andThen (p := fun c => if asWord then !isWordEnd c else !isStringEnd c) hstop []
  | cons c cs =>
    by_cases hquote : c = '"'
    · subst hquote
      exact quotedSpan_andThen h
    · have hspan := span_andThen (b := b)
        (p := fun c => if asWord then !isWordEnd c else !isStringEnd c) hstop (c :: cs)
      rw [andThen, List.cons_append] at hspan ⊢
      rw [parseString_of_ne asWord _ hquote, parseString_of_ne asWord _ hquote]
      exact hspan

theorem commandEnd_andThen : Scan.commandEnd (andThen walk b) = (Scan.commandEnd walk).lift b := by
  cases walk with
  | nil => rfl
  | cons c cs =>
    rw [andThen, List.cons_append, Scan.commandEnd.eq_def, Scan.commandEnd.eq_def]
    split <;> split <;> simp_all [Scan.lift, skipChar, andThen]

/-- The token is a string or a word that opens a quoted string. -/
def tokenOpens (name : TokenName) (walk : Text) : Prop :=
  (name = .string ∨ name = .word) ∧ openQuote walk

/-- **Trying a token** in front of a semicolon. -/
theorem scanCommand_andThen {name : TokenName}
    (hname : ∀ text, name = .literal text → ∀ l ∈ text.toList, l.toLower ≠ ';')
    (hquote : ¬ tokenOpens name walk) :
    scanCommand name (andThen walk b) = (scanCommand name walk).lift b := by
  cases name with
  | literal text => exact literal_andThen (hname text rfl)
  | number => exact number_andThen
  | string =>
    rw [scanCommand, parseString_andThen false fun h => hquote ⟨.inl rfl, h⟩]
    exact span_lift ..
  | word =>
    rw [scanCommand, parseString_andThen true fun h => hquote ⟨.inr rfl, h⟩]
    exact span_lift ..
  | end_ => exact commandEnd_andThen
  | line => rfl
  | error => rfl

end Scans

/-! ### The tokens of a state -/

section Tokens

variable {σ ι : Type} {walk b : Text} {tokens : List (Token σ ι)}

/-- A token that is tried opens a quoted string that is not closed. -/
def opensQuote : List (Token σ ι) → Text → Prop
  | [], _ => False
  | t :: ts, walk => tokenOpens t.name walk ∨ match scanCommand t.name walk with
    | .matched _ _ => False
    | .failed walk => opensQuote ts walk

/-- What is left behind a token, with the semicolon and `b`. -/
def restAndThen (b : Text) : Option Text → Text
  | none => b
  | some rest => andThen rest b

/-- **The token that matches** is the same in front of a semicolon. -/
theorem matchToken_append
    (hnames : ∀ t ∈ tokens, ∀ text, t.name = .literal text → ∀ l ∈ text.toList, l.toLower ≠ ';')
    (hquote : ¬ opensQuote tokens walk) {m : Match σ ι}
    (h : matchToken scanCommand tokens walk = .inr m) :
    matchToken scanCommand tokens (andThen walk b) =
      .inr { m with walk := andThen m.walk b, rest := some (restAndThen b m.rest) } := by
  induction tokens generalizing walk with
  | nil => cases h
  | cons t ts ih =>
    rw [List.forall_mem_cons] at hnames
    rw [opensQuote, not_or] at hquote
    rw [matchToken] at h ⊢
    rw [scanCommand_andThen hnames.1 hquote.1]
    cases hscan : scanCommand t.name walk with
    | matched value rest =>
      rw [hscan] at h
      obtain rfl := Sum.inr.inj h
      cases rest <;> rfl
    | failed walk' =>
      rw [hscan] at h hquote
      exact ih hnames.2 hquote.2 h

end Tokens

end I3.Parser
