import I3Aiwr.Parser.CommandEnds
import I3Aiwr.Parser.Separator

/-!
# Lists of commands

`parse_command` of two commands with a semicolon between them performs the calls of the first, then
those of the second: the first is parsed as if it were alone, and behind it the parser is in the state
it starts in. All that is carried over is the calls made. Where the first one makes the parser exit,
nothing of the second is performed.

## Main definitions

* `CommandParser.Performs input calls`
* `CommandParser.Unclosed input`: a quoted string is open at the end
* `seen`: the calls, each with the calls since the criteria were initialised
* `CommandParser.Composes`

## Main results

* `CommandParser.composes_iff`
* `CommandParser.Overflows.performs`
-/

namespace I3.Parser

/-! ### The table -/

/-- No literal has a semicolon. -/
def TokenName.plain : TokenName → Bool
  | .literal text => text.toList.all fun l => l.toLower ≠ ';'
  | _ => true

theorem CommandState.plain (s : CommandState) : ∀ t ∈ s.tokens, t.name.plain := by
  cases s <;> decide

/-- An `end` token leads back to `INITIAL`. -/
theorem CommandState.nextOf_end (s : CommandState) :
    ∀ t ∈ s.tokens, t.name = .end_ → nextOf t.action = .initial := by
  cases s <;> decide

namespace CommandParser

variable {p p' q r : CommandParser} {input a b walk : Text}

/-! ### In front of a semicolon -/

/-- A token is tried that opens a quoted string, which is not closed. -/
def Unclosed (input : Text) : Prop :=
  ∃ p walk, Reaches (start input) p ∧ p.walk = some walk ∧ p.parseError = none ∧
    opensQuote p.context.state.tokens (walk.dropWhile isBlank)

/-- The parser `r` of the text with `';'` and `b` behind it does what `p` does. -/
structure InFront (b : Text) (p r : CommandParser) : Prop where
  context : r.context = p.context
  walk : r.walk = some (restAndThen b p.walk)
  error : r.parseError = none

theorem afterToken_andThen (m : Match CommandState CommandIdentifier) (rest : Option Text)
    (c : Context CommandState CommandIdentifier) :
    afterToken { m with walk := andThen m.walk b, rest } c = afterToken m c := by
  rw [afterToken, afterToken]
  cases hwalk : m.walk <;> simp [andThen]

theorem literal_plain {name : TokenName} (h : name.plain) :
    ∀ text, name = .literal text → ∀ l ∈ text.toList, l.toLower ≠ ';' := by
  rintro text rfl l hl
  exact of_decide_eq_true (List.all_eq_true.mp h l hl)

/-- **An iteration** in front of a semicolon. -/
theorem InFront.step (h : InFront b p r) (hwalk : p.walk = some walk) (herror : p.parseError = none)
    (hquote : ¬ opensQuote p.context.state.tokens (walk.dropWhile isBlank))
    (hp : p.step = .ok p') (herror' : p'.parseError = none) :
    ∃ r', r.step = .ok r' ∧ InFront b p' r' := by
  have hr : r.walk = some (andThen walk b) := by rw [h.walk, hwalk, restAndThen]
  rw [step_some hwalk herror] at hp
  rw [step_some hr h.error, h.context, dropWhile_andThen rfl]
  split at hp
  · obtain rfl := Except.ok.inj hp
    cases herror'
  · next m hm =>
    have hmatch := matchToken_append (b := b)
      (fun t ht => literal_plain (CommandState.plain _ t ht)) hquote hm
    rw [hmatch]
    dsimp only
    split at hp
    · cases hp
    · next c hstore =>
      obtain rfl := Except.ok.inj hp
      exact ⟨_, rfl, afterToken_andThen m _ _, rfl, h.error⟩

theorem exists_inFront (hnone : ∀ p, Reaches (start a) p → p.parseError = none)
    (hclosed : ¬ Unclosed a) (hp : Reaches (start a) p) :
    ∃ r, Reaches (start (andThen a b)) r ∧ InFront b p r := by
  induction hp with
  | refl => exact ⟨start (andThen a b), .refl, rfl, rfl, rfl⟩
  | @tail p p' hreach hstep ih =>
    obtain ⟨r, hr, h⟩ := ih
    by_cases hreturned : p.Returned
    · rw [step_returned hreturned] at hstep
      obtain rfl := Except.ok.inj hstep
      exact ⟨r, hr, h⟩
    · obtain ⟨⟨walk, hwalk⟩, herror⟩ := exists_walk hreturned
      obtain ⟨r', hstep', h'⟩ := h.step hwalk herror
        (fun hopen => hclosed ⟨p, walk, hreach, hwalk, herror, hopen⟩) hstep
        (hnone p' (hreach.tail hstep))
      exact ⟨r', hr.tail hstep', h'⟩

/-! ### At the end of the text -/

/-- Only an `end` token goes past the terminating 0-byte. -/
theorem eq_end_of_scan {name : TokenName} {value : Option Value}
    (h : scanCommand name walk = .matched value none) : name = .end_ ∧ walk = [] := by
  cases name with
  | literal text =>
    rw [scanCommand, Scan.literal] at h
    split at h <;> cases h
  | number =>
    rw [scanCommand, Scan.number] at h
    split at h
    · cases h
    · split at h <;> cases h
  | string =>
    rw [scanCommand, Scan.span.eq_def] at h
    split at h <;> cases h
  | word =>
    rw [scanCommand, Scan.span.eq_def] at h
    split at h <;> cases h
  | end_ =>
    rw [scanCommand, Scan.commandEnd.eq_def] at h
    split at h
    · exact ⟨rfl, rfl⟩
    · cases h
    · cases h
    · cases h
  | line => cases h
  | error => cases h

/-- The parser is as at the start, but for the calls made, of which the last initialised the
criteria. -/
structure Fresh (c : Context CommandState CommandIdentifier) : Prop where
  state : c.state = .initial
  stack : c.stack = .empty
  matched : c.matched = []
  calls : ∃ pre, c.calls = pre ++ [⟨"cmd_criteria_init", [], []⟩]

theorem fresh_nextState {m : Match CommandState CommandIdentifier}
    {c : Context CommandState CommandIdentifier} (hend : m.token.name = .end_) (hwalk : m.walk = [])
    (hnext : nextOf m.token.action = .initial) :
    Fresh (afterToken m (nextState c m.token.action)) := by
  have hinit : m.token.name = .end_ ∧ m.walk.head? ≠ some ',' := ⟨hend, by simp [hwalk]⟩
  rw [afterToken, if_pos hinit]
  cases haction : m.token.action with
  | goto s =>
    rw [haction] at hnext
    obtain rfl : s = .initial := hnext
    exact ⟨rfl, rfl, rfl, _, List.concat_eq_append⟩
  | call function args next =>
    rw [haction] at hnext
    exact ⟨hnext, rfl, rfl, _, List.concat_eq_append⟩

/-- **Past the terminating 0-byte** the parser is in the state it started in. -/
theorem fresh_of_walk (hp : Reaches (start input) p) (hwalk : p.walk = none) : Fresh p.context := by
  induction hp with
  | refl => cases hwalk
  | @tail p p' _ hstep ih =>
    by_cases hreturned : p.Returned
    · rw [step_returned hreturned] at hstep
      obtain rfl := Except.ok.inj hstep
      exact ih hwalk
    · obtain ⟨⟨walk, hsome⟩, herror⟩ := exists_walk hreturned
      rw [step_some hsome herror] at hstep
      split at hstep
      · obtain rfl := Except.ok.inj hstep
        cases hwalk
      · next m hm =>
        split at hstep
        · cases hstep
        · next c hstore =>
          obtain rfl := Except.ok.inj hstep
          obtain ⟨hmem, hscan⟩ := mem_of_matchToken hm
          rw [show m.rest = none from hwalk] at hscan
          obtain ⟨hend, hnil⟩ := eq_end_of_scan hscan
          exact fresh_nextState hend hnil (CommandState.nextOf_end _ _ hmem hend)

/-! ### Lists of commands -/

/-- `parse_command` of the text performs the calls, and returns or exits. -/
def Performs (input : Text) (calls : List (CallMade CommandState)) : Prop :=
  ∃ p, Reaches (start input) p ∧ p.Stopped ∧ p.context.calls = calls

/-- The calls, each with those since the criteria were initialised, which made the criteria it
sees. -/
def seenFrom : List (CallMade CommandState) → List (CallMade CommandState) →
    List (CallMade CommandState × List (CallMade CommandState))
  | _, [] => []
  | since, m :: ms =>
    if m.function = "cmd_criteria_init" then seenFrom [] ms
    else (m, since) :: seenFrom (since.concat m) ms

@[inherit_doc seenFrom]
def seen (calls : List (CallMade CommandState)) :
    List (CallMade CommandState × List (CallMade CommandState)) := seenFrom [] calls

theorem seenFrom_append (since ms ns : List (CallMade CommandState)) :
    seenFrom since (ms ++ ⟨"cmd_criteria_init", [], []⟩ :: ns) = seenFrom since ms ++ seen ns := by
  induction ms generalizing since with
  | nil => rfl
  | cons m ms ih =>
    rw [List.cons_append, seenFrom, seenFrom]
    split
    · exact ih []
    · exact congrArg _ (ih _)

theorem seenFrom_concat (since ms : List (CallMade CommandState)) :
    seenFrom since (ms ++ [⟨"cmd_criteria_init", [], []⟩]) = seenFrom since ms := by
  rw [seenFrom_append]
  exact List.append_nil _

/-- **The text composes**: it is parsed to its end, inside of it, and in front of a semicolon it is
parsed as if it were alone. The call in front of the second command that initialises the criteria is
the last one of the first command. -/
structure Composes (a : Text) : Prop where
  returns : ∃ p, Reaches (start a) p ∧ p.Returned
  position : ∀ p, Reaches (start a) p → ∀ walk ∈ p.walk, walk <:+ a
  compose : (∀ p, Reaches (start a) p → p.parseError = none) → ¬ Unclosed a →
    ∀ b callsA callsB, Performs a callsA → Performs b callsB →
      Performs (andThen a b) (callsA ++ callsB.tail) ∧
        seen (callsA ++ callsB.tail) = seen callsA ++ seen callsB

/-- What the parser of a command does from its start, it does behind another command. -/
theorem calls_start {callsB : List (CallMade CommandState)} (hq : Performs b callsB)
    (ha : Fresh r.context) (hwalk : r.walk = some b) (herror : r.parseError = none) :
    ∃ r', Reaches r r' ∧ r'.Stopped ∧
      r'.context.calls = r.context.calls ++ callsB.tail ∧
        callsB = ⟨"cmd_criteria_init", [], []⟩ :: callsB.tail := by
  obtain ⟨q, hreach, hstopped, rfl⟩ := hq
  have hfollows : Follows [⟨"cmd_criteria_init", [], []⟩] r.context.calls (start b) r := by
    refine ⟨hwalk, by simp [herror, start], ha.state, ha.stack, ha.matched, [], rfl, ?_⟩
    exact (List.append_nil _).symm
  obtain ⟨r', hr', h'⟩ := hfollows.reaches hreach
  obtain ⟨tail, hq, hr⟩ := h'.context.calls
  refine ⟨r', hr', ?_, ?_, ?_⟩
  · rcases hstopped with hreturned | ⟨abort, hstep⟩
    · exact .inl (h'.returned.mpr hreturned)
    · exact .inr ⟨abort, h'.step_error hstep⟩
  · rw [hr, hq]
    rfl
  · rw [hq]
    rfl

/-- **Command lists compose** exactly when the parser is never at a number behind
`title_window_icon padding` with ten slots in use. -/
theorem composes_iff (a : Text) :
    Composes a ↔ ∀ p, Reaches (start a) p → ¬ p.Overflows := by
  constructor
  · intro h p hp hoverflows
    obtain ⟨q, hq, hreturned⟩ := h.returns
    exact not_returned_of_error hp hq hoverflows.step hreturned
  · intro hnone
    have hnoexit : ∀ p, Reaches (start a) p → p.Stopped → p.Returned := by
      rintro p hp (hreturned | ⟨abort, hstep⟩)
      · exact hreturned
      · exact (hnone p hp ((padded_of_reaches hp).overflows hstep)).elim
    refine ⟨?_, fun p hp walk hwalk => ?_, ?_⟩
    · obtain ⟨p, hp, hstopped⟩ := exists_stopped (start a)
      exact ⟨p, hp, hnoexit p hp hstopped⟩
    · obtain ⟨input, hinput, hsuffix⟩ := suffix_of_reaches hp walk hwalk
      obtain rfl : a = input := Option.some.inj hinput
      exact hsuffix
    · rintro herror hclosed b _ callsB ⟨p, hp, hstopped, rfl⟩ hb
      have hwalk : p.walk = none := (hnoexit p hp hstopped).resolve_right (· (herror p hp))
      have hfresh := fresh_of_walk hp hwalk
      obtain ⟨r, hr, hfront⟩ := exists_inFront (b := b) herror hclosed hp
      have hrest : r.walk = some b := by rw [hfront.walk, hwalk, restAndThen]
      obtain ⟨r', hr', hstopped', hcalls, hinit⟩ :=
        calls_start hb (hfront.context ▸ hfresh) hrest hfront.error
      rw [hfront.context] at hcalls
      refine ⟨⟨r', hr.trans hr', hstopped', hcalls⟩, ?_⟩
      -- the criteria are initialised behind the first command, as in front of the second
      obtain ⟨pre, hpre⟩ := hfresh.calls
      rw [hpre, seen, seen, seen, seenFrom_concat, hinit, List.append_assoc, List.singleton_append,
        List.tail_cons, seenFrom_append]
      rfl

/-! ### The command that exits -/

/-- A quoted string that is open at the end of the text takes all of it. -/
theorem scan_of_tokenOpens {name : TokenName} (h : tokenOpens name walk) :
    scanCommand name walk = .failed [] ∨ ∃ value, scanCommand name walk = .matched value (some []) := by
  obtain ⟨hname, hopen⟩ := h
  rw [openQuote.eq_def] at hopen
  split at hopen
  · next cs =>
    have hspan : scanCommand name ('"' :: cs) = Scan.span unescape (quotedSpan cs).1 [] := by
      rcases hname with rfl | rfl
      · exact congrArg (Scan.span unescape _) hopen
      · exact congrArg (Scan.span unescape _) hopen
    rw [hspan]
    cases (quotedSpan cs).1 with
    | nil => exact .inl rfl
    | cons c str => exact .inr ⟨_, rfl⟩
  · exact hopen.elim

/-- Behind a quoted string that is open at the end of the text, nothing is left. -/
theorem eq_nil_of_opensQuote {tokens : List (Token CommandState CommandIdentifier)}
    (h : opensQuote tokens walk) :
    (∀ rest, matchToken scanCommand tokens walk = .inl rest → rest = []) ∧
      ∀ m, matchToken scanCommand tokens walk = .inr m → ∀ rest ∈ m.rest, rest = [] := by
  induction tokens generalizing walk with
  | nil => exact h.elim
  | cons t ts ih =>
    rw [opensQuote] at h
    rw [matchToken]
    rcases h with hopens | hopens
    · rcases scan_of_tokenOpens hopens with hscan | ⟨value, hscan⟩
      · -- the other tokens are tried at the end of the text
        rw [hscan]
        exact ⟨fun rest hrest => List.suffix_nil.mp (matchToken_failed hrest),
          fun m hm rest hrest => List.suffix_nil.mp (matchToken_suffix hm hrest)⟩
      · rw [hscan]
        refine ⟨fun _ hinl => (Sum.inr_ne_inl hinl).elim, fun m hm rest hrest => ?_⟩
        obtain rfl := Sum.inr.inj hm
        exact (Option.some.inj hrest).symm
    · cases hscan : scanCommand t.name walk with
      | matched value rest =>
        rw [hscan] at hopens
        exact hopens.elim
      | failed walk' =>
        rw [hscan] at hopens
        exact ih hopens

/-- No string is read behind `title_window_icon padding`. -/
theorem not_opensQuote_padding (walk : Text) :
    ¬ opensQuote (CommandState.tokens .titleWindowIconPadding) walk := by
  suffices h : ∀ tokens : List (Token CommandState CommandIdentifier),
      (∀ t ∈ tokens, t.name ≠ .string ∧ t.name ≠ .word) → ∀ walk, ¬ opensQuote tokens walk from
    h _ (by decide) walk
  intro tokens hnames
  induction tokens with
  | nil => exact fun _ => id
  | cons t ts ih =>
    rw [List.forall_mem_cons] at hnames
    rintro walk (⟨hname, -⟩ | hopens)
    · exact hname.elim hnames.1.1 hnames.1.2
    · split at hopens
      · exact hopens
      · exact ih hnames.2 _ hopens

/-- Up to an exit there is no error. -/
theorem Overflows.error_eq_none (h : p.Overflows) (hp : Reaches (start a) p)
    (hq : Reaches (start a) q) : q.parseError = none := by
  by_contra herror
  exact not_returned_of_error hp hq h.step (.inr herror)

/-- There is no number behind an open quoted string. -/
theorem Overflows.not_unclosed (h : p.Overflows) (hp : Reaches (start a) p) : ¬ Unclosed a := by
  rintro ⟨q, walk, hq, hwalk, herror, hopens⟩
  obtain ⟨hstate, -, -, rest, hrest, value, behind, hnumber⟩ := id h
  have hne : q ≠ p := by
    rintro rfl
    rw [hstate] at hopens
    exact not_opensQuote_padding _ hopens
  rcases reaches_total hp hq with hpq | hqp
  · exact hne (eq_of_reaches_error h.step hpq)
  · rcases Relation.ReflTransGen.cases_head hqp with heq | ⟨q', hstep, hreach⟩
    · exact hne heq
    · obtain ⟨rest', hrest', hsuffix⟩ := suffix_of_reaches hreach rest hrest
      have hnil : rest' = [] := by
        obtain ⟨hfailed, hmatched⟩ := eq_nil_of_opensQuote hopens
        rw [step_some hwalk herror] at hstep
        split at hstep
        · next hm =>
          obtain rfl := Except.ok.inj hstep
          obtain rfl := Option.some.inj hrest'
          exact hfailed _ hm
        · next m hm =>
          split at hstep
          · cases hstep
          · obtain rfl := Except.ok.inj hstep
            exact hmatched m hm rest' hrest'
      rw [hnil, List.suffix_nil] at hsuffix
      rw [hsuffix] at hnumber
      cases hnumber

/-- **Where the parser exits**, the command behind the semicolon is not performed. -/
theorem Overflows.performs (h : p.Overflows) (hp : Reaches (start a) p)
    {calls : List (CallMade CommandState)} (hperforms : Performs (andThen a b) calls) :
    calls = p.context.calls := by
  obtain ⟨q, hq, hstopped, rfl⟩ := hperforms
  obtain ⟨r, hr, hfront⟩ := exists_inFront (b := b) (fun q hq => h.error_eq_none hp hq)
    (h.not_unclosed hp) hp
  obtain ⟨hstate, herror, hlength, walk, hwalk, value, rest, hnumber⟩ := h
  have hoverflows : r.Overflows := by
    refine ⟨by rw [hfront.context, hstate], hfront.error, by rw [hfront.context, hlength],
      andThen walk b, ?_, ?_⟩
    · rw [hfront.walk, show p.walk = some walk from hwalk]
      rfl
    · rw [dropWhile_andThen rfl, number_andThen, hnumber]
      cases rest <;> exact ⟨_, _, rfl⟩
  rw [Stopped.unique hq hr hstopped (.inr ⟨_, hoverflows.step⟩), hfront.context]

/-- Eleven numbers make the parser exit, and the command behind the semicolon is not performed. -/
theorem not_composes_elevenPaddings : ¬ ∀ a, Composes a := by
  intro h
  have hrun : (run 13 (start "title_window_icon padding 1 2 3 4 5 6 7 8 9 10 11".toList)).isOk =
      false := by
    decide +kernel
  have hnop : (run 3 (start "nop".toList)).toOption.map (fun q => (q.walk, q.context.calls.length)) =
      some (none, 3) := by
    decide +kernel
  cases hexit : run 13 (start "title_window_icon padding 1 2 3 4 5 6 7 8 9 10 11".toList) with
  | ok p =>
    rw [hexit] at hrun
    cases hrun
  | error abort =>
    obtain ⟨p, hp, hstep⟩ := exists_reaches_of_run hexit
    have hoverflows := (padded_of_reaches hp).overflows hstep
    cases hq : run 3 (start "nop".toList) with
    | error abort =>
      rw [hq] at hnop
      cases hnop
    | ok q =>
      rw [hq] at hnop
      obtain ⟨hwalk, hlength⟩ := Prod.mk.inj (Option.some.inj hnop)
      have hperforms := ((h _).compose (fun q hq => hoverflows.error_eq_none hp hq)
        (hoverflows.not_unclosed hp) "nop".toList _ _ ⟨p, hp, .inr ⟨abort, hstep⟩, rfl⟩
        ⟨q, reaches_of_run hq, .inl (.inl hwalk), rfl⟩).1
      have hcalls := congrArg List.length (hoverflows.performs hp hperforms)
      rw [List.length_append, List.length_tail, hlength] at hcalls
      omega

end CommandParser

end I3.Parser
