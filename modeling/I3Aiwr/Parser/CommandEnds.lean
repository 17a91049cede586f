import I3Aiwr.Parser.Progress
import I3Aiwr.Parser.Slots

/-!
# The command parser ends

`parse_command` goes forward in its text, but for the empty literal of `FULLSCREEN`, which is left at
once: it returns, or exits because the stack is full. That needs ten slots in use behind
`title_window_icon padding`, the only state that is not left when a number is stored. The calls made
so far have no part in it.

## Main definitions

* `CommandParser.Returned`, `CommandParser.Stopped`
* `CommandParser.Follows pre pre' p r`: `r` made the calls `pre'` where `p` made the calls `pre`
* `CommandParser.Overflows`: the parser is at a number, with ten slots in use

## Main results

* `CommandParser.Follows.reaches`: the same iterations behind other calls
* `CommandParser.suffix_of_reaches`: the position
* `CommandParser.exists_stopped`: the loop ends
* `CommandParser.Padded.overflows`: what an exit needs
-/

namespace I3.Parser

/-- The state behind an action. -/
def nextOf : Action CommandState CommandIdentifier → CommandState
  | .goto s => s
  | .call _ _ next => next

/-- There is one empty literal. -/
theorem CommandState.eq_fullscreen (s : CommandState) :
    ∀ t ∈ s.tokens, t.name = .literal "" → s = .fullscreen ∧ t.action = .goto .fullscreenCompat := by
  cases s <;> decide

namespace CommandParser

variable {p p' q r : CommandParser} {input walk : Text}

/-! ### Parsing behind other calls -/

/-- The contexts differ in the calls they start with. -/
structure Shifted (pre pre' : List (CallMade CommandState))
    (c c' : Context CommandState CommandIdentifier) : Prop where
  state : c'.state = c.state
  stack : c'.stack = c.stack
  matched : c'.matched = c.matched
  calls : ∃ tail, c.calls = pre ++ tail ∧ c'.calls = pre' ++ tail

namespace Shifted

variable {pre pre' : List (CallMade CommandState)}
  {c c' d : Context CommandState CommandIdentifier} {identifier : Option CommandIdentifier}
  {value : Option Value}

theorem store_none (h : Shifted pre pre' c c') (hc : c.store identifier value = none) :
    c'.store identifier value = none := by
  rw [Context.store.eq_def] at hc ⊢
  rw [h.stack, h.matched]
  split at hc
  · simpa using hc
  · simpa using hc
  · cases hc

theorem store_some (h : Shifted pre pre' c c') (hc : c.store identifier value = some d) :
    ∃ d', c'.store identifier value = some d' ∧ Shifted pre pre' d d' := by
  rw [Context.store.eq_def] at hc ⊢
  rw [h.stack, h.matched]
  split at hc
  · obtain ⟨stack, hstack, rfl⟩ := Option.map_eq_some_iff.mp hc
    rw [hstack]
    exact ⟨_, rfl, h.state, rfl, rfl, h.calls⟩
  · obtain ⟨stack, hstack, rfl⟩ := Option.map_eq_some_iff.mp hc
    rw [hstack]
    exact ⟨_, rfl, h.state, rfl, rfl, h.calls⟩
  · obtain rfl := Option.some.inj hc
    exact ⟨c', rfl, h⟩

theorem clear (h : Shifted pre pre' c c') : Shifted pre pre' c.clear c'.clear :=
  ⟨h.state, rfl, rfl, h.calls⟩

theorem concat (h : Shifted pre pre' c c') (m : CallMade CommandState) :
    Shifted pre pre' { c with calls := c.calls.concat m } { c' with calls := c'.calls.concat m } := by
  obtain ⟨tail, hc, hc'⟩ := h.calls
  refine ⟨h.state, h.stack, h.matched, tail ++ [m], ?_, ?_⟩
  · rw [hc, List.concat_eq_append, List.append_assoc]
  · rw [hc', List.concat_eq_append, List.append_assoc]

theorem nextState (h : Shifted pre pre' c c') (action : Action CommandState CommandIdentifier) :
    Shifted pre pre' (nextState c action) (CommandParser.nextState c' action) := by
  cases action with
  | goto s =>
    change Shifted pre pre' (c.goto .initial s) (c'.goto .initial s)
    rw [Context.goto, Context.goto]
    split
    · exact ⟨rfl, rfl, rfl, h.calls⟩
    · exact ⟨rfl, h.stack, h.matched, h.calls⟩
  | call function args next =>
    have hmade := (h.concat ⟨function, args.map (Arg.eval c.stack.find),
      args.map (Arg.eval (valueOf c.matched))⟩).clear
    obtain ⟨tail, hc, hc'⟩ := hmade.calls
    refine ⟨rfl, rfl, rfl, tail, hc, ?_⟩
    rw [← hc']
    change (c'.calls.concat _) = (c'.calls.concat _)
    rw [h.stack, h.matched]

theorem afterToken (h : Shifted pre pre' c c') (m : Match CommandState CommandIdentifier) :
    Shifted pre pre' (afterToken m c) (CommandParser.afterToken m c') := by
  rw [CommandParser.afterToken, CommandParser.afterToken]
  split
  · exact h.concat _
  · exact h

end Shifted

/-- The parsers are at the same position, and differ in the calls they start with. -/
structure Follows (pre pre' : List (CallMade CommandState)) (p r : CommandParser) : Prop where
  walk : r.walk = p.walk
  error : r.parseError = none ↔ p.parseError = none
  context : Shifted pre pre' p.context r.context

/-- An iteration that matches tokens. -/
theorem step_some (hwalk : p.walk = some walk) (herror : p.parseError = none) : p.step =
    match matchToken scanCommand p.context.state.tokens (walk.dropWhile isBlank) with
    | .inl walk =>
      .ok { p with context := p.context.clear, walk := some walk, parseError := p.errorAt walk }
    | .inr m => match p.context.store m.token.identifier m.value with
      | none => .error .stackFull
      | some c => .ok { p with context := afterToken m (nextState c m.token.action), walk := m.rest } := by
  rw [step]
  split
  · next walk' hwalk' herror' =>
    obtain rfl : walk' = walk := Option.some.inj (hwalk'.symm.trans hwalk)
    rfl
  · next hnot => exact (hnot walk hwalk herror).elim

/-- The parser has returned. -/
def Returned (p : CommandParser) : Prop := p.walk = none ∨ p.parseError ≠ none

/-- The parser has returned, or exits. -/
def Stopped (p : CommandParser) : Prop := p.Returned ∨ ∃ abort, p.step = .error abort

theorem step_returned (h : p.Returned) : p.step = .ok p := by
  rw [step]
  split
  · next hwalk herror =>
    rcases h with h | h
    · rw [h] at hwalk
      cases hwalk
    · exact (h herror).elim
  · rfl

theorem exists_walk (h : ¬ p.Returned) : (∃ walk, p.walk = some walk) ∧ p.parseError = none := by
  rw [Returned, not_or, not_not] at h
  exact ⟨Option.ne_none_iff_exists'.mp h.1, h.2⟩

namespace Follows

variable {pre pre' : List (CallMade CommandState)}

theorem returned (h : Follows pre pre' p r) : r.Returned ↔ p.Returned := by
  rw [Returned, Returned, h.walk, ne_eq, ne_eq, h.error]

theorem step_error (h : Follows pre pre' p r) {abort : Abort} (hp : p.step = .error abort) :
    r.step = .error abort := by
  by_cases hreturned : p.Returned
  · rw [step_returned hreturned] at hp
    cases hp
  · obtain ⟨⟨walk, hwalk⟩, herror⟩ := exists_walk hreturned
    rw [step_some hwalk herror] at hp
    rw [step_some (h.walk.trans hwalk) (h.error.mpr herror), h.context.state]
    split at hp
    · cases hp
    · next m hm =>
      split at hp
      · next hstore =>
        obtain rfl := Except.error.inj hp
        simp only [h.context.store_none hstore]
      · cases hp

theorem step_ok (h : Follows pre pre' p r) (hp : p.step = .ok p') :
    ∃ r', r.step = .ok r' ∧ Follows pre pre' p' r' := by
  by_cases hreturned : p.Returned
  · rw [step_returned hreturned] at hp
    obtain rfl := Except.ok.inj hp
    exact ⟨r, step_returned (h.returned.mpr hreturned), h⟩
  · obtain ⟨⟨walk, hwalk⟩, herror⟩ := exists_walk hreturned
    rw [step_some hwalk herror] at hp
    rw [step_some (h.walk.trans hwalk) (h.error.mpr herror), h.context.state]
    split at hp
    · next walk' hm =>
      obtain rfl := Except.ok.inj hp
      exact ⟨_, rfl, rfl, by simp, h.context.clear⟩
    · next m hm =>
      split at hp
      · cases hp
      · next c hstore =>
        obtain rfl := Except.ok.inj hp
        obtain ⟨c', hc', hshifted⟩ := h.context.store_some hstore
        simp only [hc']
        exact ⟨_, rfl, rfl, h.error, (hshifted.nextState _).afterToken m⟩

theorem reaches (h : Follows pre pre' p r) (hp : Reaches p p') :
    ∃ r', Reaches r r' ∧ Follows pre pre' p' r' := by
  induction hp with
  | refl => exact ⟨r, .refl, h⟩
  | tail _ hstep ih =>
    obtain ⟨r₁, hr₁, h₁⟩ := ih
    obtain ⟨r', hr', h'⟩ := h₁.step_ok hstep
    exact ⟨r', hr₁.tail hr', h'⟩

end Follows

/-! ### The iterations -/

theorem eq_of_reaches_returned (h : p.Returned) (hp : Reaches p q) : q = p := by
  induction hp with
  | refl => rfl
  | tail _ hstep ih =>
    rw [ih, step_returned h] at hstep
    exact (Except.ok.inj hstep).symm

theorem eq_of_reaches_error {abort : Abort} (h : p.step = .error abort) (hp : Reaches p q) :
    q = p := by
  induction hp with
  | refl => rfl
  | tail _ hstep ih =>
    rw [ih, h] at hstep
    cases hstep

/-- The iterations are in a row. -/
theorem reaches_total (hp : Reaches (start input) p) (hq : Reaches (start input) q) :
    Reaches p q ∨ Reaches q p :=
  Relation.ReflTransGen.total_of_right_unique
    (fun _ _ _ h h' => Except.ok.inj (h.symm.trans h')) hp hq

/-- The parser stops once. -/
theorem Stopped.eq_of_reaches (h : p.Stopped) (hp : Reaches p q) : q = p := by
  rcases h with hreturned | ⟨abort, hstep⟩
  · exact eq_of_reaches_returned hreturned hp
  · exact eq_of_reaches_error hstep hp

theorem Stopped.unique (hp : Reaches (start input) p) (hq : Reaches (start input) q)
    (hstopped : p.Stopped) (hstopped' : q.Stopped) : p = q := by
  rcases reaches_total hp hq with hpq | hqp
  · exact (hstopped.eq_of_reaches hpq).symm
  · exact hstopped'.eq_of_reaches hqp

/-- A parser that exits does not return. -/
theorem not_returned_of_error (hp : Reaches (start input) p) (hq : Reaches (start input) q)
    {abort : Abort} (hstep : p.step = .error abort) : ¬ q.Returned := by
  intro hreturned
  obtain rfl := Stopped.unique hp hq (.inr ⟨abort, hstep⟩) (.inl hreturned)
  rw [step_returned hreturned] at hstep
  cases hstep

theorem reaches_of_run {n : ℕ} (h : run n p = .ok q) : Reaches p q := by
  induction n generalizing p with
  | zero =>
    obtain rfl := Except.ok.inj h
    exact .refl
  | succ n ih =>
    rw [run] at h
    split at h
    · next p₁ hstep => exact .head hstep (ih h)
    · cases h

/-! ### The position -/

theorem failed_suffix {name : TokenName} {walk' : Text} (h : scanCommand name walk = .failed walk') :
    walk' <:+ walk := by
  by_cases hname : name = .literal ""
  · rw [hname] at h
    cases h
  · have hadvances := advances_scanCommand hname walk
    rw [h] at hadvances
    exact hadvances

theorem matchToken_walk {tokens : List (Token CommandState CommandIdentifier)}
    {m : Match CommandState CommandIdentifier} (h : matchToken scanCommand tokens walk = .inr m) :
    m.walk <:+ walk := by
  induction tokens generalizing walk with
  | nil => cases h
  | cons t ts ih =>
    rw [matchToken] at h
    split at h
    · obtain rfl := Sum.inr.inj h
      exact List.suffix_refl walk
    · next walk' hfailed => exact (ih h).trans (failed_suffix hfailed)

theorem matchToken_failed {tokens : List (Token CommandState CommandIdentifier)} {walk' : Text}
    (h : matchToken scanCommand tokens walk = .inl walk') : walk' <:+ walk := by
  induction tokens generalizing walk with
  | nil =>
    obtain rfl := Sum.inl.inj h
    exact List.suffix_refl walk
  | cons t ts ih =>
    rw [matchToken] at h
    split at h
    · cases h
    · next walk₁ hfailed => exact (ih h).trans (failed_suffix hfailed)

theorem scan_suffix {name : TokenName} {value : Option Value} {rest : Text}
    (h : scanCommand name walk = .matched value (some rest)) : rest <:+ walk := by
  by_cases hname : name = .literal ""
  · rw [hname] at h
    obtain ⟨-, hrest⟩ := Scan.matched.inj h
    exact Option.some.inj hrest ▸ List.suffix_refl walk
  · have hadvances := advances_scanCommand hname walk
    rw [h] at hadvances
    obtain ⟨pre, -, rfl, -⟩ := hadvances rest rfl
    exact List.suffix_append pre rest

theorem matchToken_suffix {tokens : List (Token CommandState CommandIdentifier)}
    {m : Match CommandState CommandIdentifier} {rest : Text}
    (h : matchToken scanCommand tokens walk = .inr m) (hrest : m.rest = some rest) :
    rest <:+ walk :=
  (scan_suffix (hrest ▸ (mem_of_matchToken h).2)).trans (matchToken_walk h)

/-- **A token that matches** takes something off the front, but for the empty literal of
`FULLSCREEN`. -/
theorem matchToken_length {s : CommandState} {m : Match CommandState CommandIdentifier} {rest : Text}
    (h : matchToken scanCommand s.tokens walk = .inr m) (hrest : m.rest = some rest) :
    rest.length < walk.length ∨ s = .fullscreen ∧ m.token.action = .goto .fullscreenCompat := by
  obtain ⟨hmem, hscan⟩ := mem_of_matchToken h
  by_cases hname : m.token.name = .literal ""
  · exact .inr (CommandState.eq_fullscreen s _ hmem hname)
  · have hadvances := advances_scanCommand hname m.walk
    rw [hscan, hrest] at hadvances
    obtain ⟨pre, hpre, heq, -⟩ := hadvances rest rfl
    have hlength : m.walk.length = pre.length + rest.length := by rw [heq, List.length_append]
    have hpos := List.length_pos_iff.mpr hpre
    have hle := (matchToken_walk h).length_le
    exact .inl (by omega)

/-- An iteration goes forward. -/
theorem suffix_of_step (hstep : p.step = .ok p') :
    ∀ rest ∈ p'.walk, ∃ walk ∈ p.walk, rest <:+ walk := by
  by_cases hreturned : p.Returned
  · rw [step_returned hreturned] at hstep
    obtain rfl := Except.ok.inj hstep
    exact fun walk hwalk => ⟨walk, hwalk, List.suffix_refl _⟩
  · obtain ⟨⟨walk, hwalk⟩, herror⟩ := exists_walk hreturned
    rw [step_some hwalk herror] at hstep
    split at hstep
    · next walk' hm =>
      obtain rfl := Except.ok.inj hstep
      intro r hr
      obtain rfl : walk' = r := Option.some.inj hr
      exact ⟨walk, hwalk, (matchToken_failed hm).trans (List.dropWhile_suffix isBlank)⟩
    · next m hm =>
      split at hstep
      · cases hstep
      · obtain rfl := Except.ok.inj hstep
        intro r hr
        exact ⟨walk, hwalk, (matchToken_suffix hm hr).trans (List.dropWhile_suffix isBlank)⟩

/-- **The position** goes forward, in the text or one past the terminating 0-byte. -/
theorem suffix_of_reaches (hp : Reaches p q) : ∀ rest ∈ q.walk, ∃ walk ∈ p.walk, rest <:+ walk := by
  induction hp with
  | refl => exact fun rest hrest => ⟨rest, hrest, List.suffix_refl _⟩
  | tail _ hstep ih =>
    intro rest hrest
    obtain ⟨walk', hwalk', hsuffix'⟩ := suffix_of_step hstep rest hrest
    obtain ⟨walk, hwalk, hsuffix⟩ := ih walk' hwalk'
    exact ⟨walk, hwalk, hsuffix'.trans hsuffix⟩

/-- What is left to do: the text left, twice, since `FULLSCREEN` is left without taking anything off
it, and the last iteration. -/
def left (p : CommandParser) : ℕ :=
  match p.walk, p.parseError with
  | some walk, none => 2 * walk.length + (if p.context.state = .fullscreen then 1 else 0) + 1
  | _, _ => 0

theorem left_some (hwalk : p.walk = some walk) (herror : p.parseError = none) :
    p.left = 2 * walk.length + (if p.context.state = .fullscreen then 1 else 0) + 1 := by
  rw [left]
  split
  · next walk' hwalk' herror' =>
    obtain rfl : walk' = walk := Option.some.inj (hwalk'.symm.trans hwalk)
    rfl
  · next hnot => exact (hnot walk hwalk herror).elim

theorem left_returned (h : p.Returned) : p.left = 0 := by
  rw [left]
  split
  · next hwalk herror =>
    rcases h with h | h
    · rw [h] at hwalk
      cases hwalk
    · exact (h herror).elim
  · rfl

/-- **An iteration** leaves less to do. -/
theorem left_step (hreturned : ¬ p.Returned) (hstep : p.step = .ok p') : p'.left < p.left := by
  obtain ⟨⟨walk, hwalk⟩, herror⟩ := exists_walk hreturned
  rw [left_some hwalk herror]
  by_cases hreturned' : p'.Returned
  · rw [left_returned hreturned']
    omega
  · obtain ⟨⟨rest, hrest⟩, herror'⟩ := exists_walk hreturned'
    rw [left_some hrest herror']
    rw [step_some hwalk herror] at hstep
    have hblanks := (List.dropWhile_suffix (l := walk) isBlank).length_le
    split at hstep
    · obtain rfl := Except.ok.inj hstep
      cases herror'
    · next m hm =>
      split at hstep
      · cases hstep
      · next c hstore =>
        obtain rfl := Except.ok.inj hstep
        rcases matchToken_length hm hrest with hless | ⟨hstate, haction⟩
        · split <;> omega
        · -- the empty literal leads to another state
          have hle := (matchToken_suffix hm hrest).length_le
          have hnext : (afterToken m (nextState c m.token.action)).state = .fullscreenCompat := by
            rw [haction, afterToken]
            split <;> rfl
          rw [if_pos hstate, if_neg (by simp [hnext])]
          omega

/-- **The loop ends**: it returns, or an iteration exits. -/
theorem exists_stopped (p : CommandParser) :
    ∃ q, Reaches p q ∧ q.Stopped := by
  induction hn : p.left using Nat.strong_induction_on generalizing p with
  | h n ih =>
    by_cases hreturned : p.Returned
    · exact ⟨p, .refl, .inl hreturned⟩
    · cases hstep : p.step with
      | error abort => exact ⟨p, .refl, .inr ⟨abort, hstep⟩⟩
      | ok p' =>
        obtain ⟨q, hreach, hq⟩ := ih p'.left (hn ▸ left_step hreturned hstep) p' rfl
        exact ⟨q, .head hstep hreach, hq⟩

/-! ### Exits -/

/-- The parser is at a number behind `title_window_icon padding`, with ten slots in use. -/
def Overflows (p : CommandParser) : Prop :=
  p.context.state = .titleWindowIconPadding ∧ p.parseError = none ∧
    p.context.stack.entries.length = 10 ∧
    ∃ walk ∈ p.walk, ∃ value rest, Scan.number (walk.dropWhile isBlank) = .matched value rest

/-- The stack stores the tokens matched, in the slots of the state. -/
structure InOrder (c : Context CommandState CommandIdentifier) : Prop where
  stores : Stack.Stores c.stack.entries c.matched
  within : Stack.Within c.stack.entries c.state.slots

/-- The parser, without the calls it made. -/
def uncalled (p : CommandParser) : CommandParser := { p with context := { p.context with calls := [] } }

theorem follows_uncalled (p : CommandParser) : Follows p.context.calls [] p p.uncalled where
  walk := rfl
  error := Iff.rfl
  context := ⟨rfl, rfl, rfl, [], by simp, rfl⟩

theorem InOrder.sound (h : InOrder p.context) : p.uncalled.context.Sound CommandState.slots :=
  ⟨h.stores, h.within, by simp [uncalled]⟩

/-- Outside of the padding, an iteration does not exit. -/
theorem InOrder.step (h : InOrder p.context) (hstate : p.context.state ≠ .titleWindowIconPadding) :
    ∃ p', p.step = .ok p' ∧ InOrder p'.context := by
  obtain ⟨q, hq, hsound⟩ := step_sound h.sound fun hsecond => hstate hsecond.1
  cases hp : p.step with
  | error abort =>
    rw [(follows_uncalled p).step_error hp] at hq
    cases hq
  | ok p' =>
    obtain ⟨r, hr, hfollows⟩ := (follows_uncalled p).step_ok hp
    obtain rfl : r = q := Except.ok.inj (hr.symm.trans hq)
    refine ⟨p', rfl, ?_, ?_⟩
    · rw [← hfollows.context.stack, ← hfollows.context.matched]
      exact hsound.stores
    · rw [← hfollows.context.stack, ← hfollows.context.state]
      exact hsound.within

theorem inOrder_cleared {c : Context CommandState CommandIdentifier} (hstack : c.stack = .empty)
    (hmatched : c.matched = []) : InOrder c := by
  refine ⟨?_, ?_⟩
  · rw [hstack, hmatched]
    exact Stack.stores_nil
  · rw [hstack]
    exact fun e he => (List.not_mem_nil he).elim

/-- The tokens behind `title_window_icon padding`. -/
theorem padding_tokens : ∀ t ∈ CommandState.tokens .titleWindowIconPadding,
    t = paddingToken ∨ t.identifier = none ∧ nextOf t.action = .initial := by
  decide

theorem afterToken_stack (m : Match CommandState CommandIdentifier)
    (c : Context CommandState CommandIdentifier) :
    (afterToken m c).stack = c.stack ∧ (afterToken m c).matched = c.matched ∧
      (afterToken m c).state = c.state := by
  rw [afterToken]
  split <;> exact ⟨rfl, rfl, rfl⟩

theorem nextState_initial {c : Context CommandState CommandIdentifier}
    {action : Action CommandState CommandIdentifier} (h : nextOf action = .initial) :
    (nextState c action).stack = .empty ∧ (nextState c action).matched = [] := by
  cases action with
  | goto s =>
    obtain rfl : s = .initial := h
    exact ⟨rfl, rfl⟩
  | call function args next => exact ⟨rfl, rfl⟩

/-- The stack is in order, or the parser is behind `title_window_icon padding`. -/
def Padded (p : CommandParser) : Prop :=
  InOrder p.context ∨ p.context.state = .titleWindowIconPadding

theorem Padded.step (h : p.Padded) (hstep : p.step = .ok p') : p'.Padded := by
  by_cases hstate : p.context.state = .titleWindowIconPadding
  · by_cases hreturned : p.Returned
    · rw [step_returned hreturned] at hstep
      obtain rfl := Except.ok.inj hstep
      exact h
    · obtain ⟨⟨walk, hwalk⟩, herror⟩ := exists_walk hreturned
      rw [step_some hwalk herror, hstate] at hstep
      split at hstep
      · obtain rfl := Except.ok.inj hstep
        exact .inl (inOrder_cleared rfl rfl)
      · next m hm =>
        split at hstep
        · cases hstep
        · next c hstore =>
          obtain rfl := Except.ok.inj hstep
          obtain ⟨hstack, hmatched, hstate'⟩ := afterToken_stack m (nextState c m.token.action)
          rcases padding_tokens _ (mem_of_matchToken hm).1 with htoken | ⟨-, hnext⟩
          · right
            rw [hstate', htoken]
            rfl
          · left
            obtain ⟨hempty, hnil⟩ := nextState_initial (c := c) hnext
            exact inOrder_cleared (hstack.trans hempty) (hmatched.trans hnil)
  · obtain ⟨q, hq, horder⟩ := (h.resolve_right hstate).step hstate
    obtain rfl : q = p' := Except.ok.inj (hq.symm.trans hstep)
    exact .inl horder

theorem padded_of_reaches (hp : Reaches (start input) p) : p.Padded := by
  induction hp with
  | refl => exact .inl (inOrder_cleared rfl rfl)
  | tail _ hstep ih => exact ih.step hstep

/-- **An exit** needs a full stack behind `title_window_icon padding`. -/
theorem Padded.overflows (h : p.Padded) {abort : Abort} (hstep : p.step = .error abort) :
    p.Overflows := by
  by_cases hstate : p.context.state = .titleWindowIconPadding
  · by_cases hreturned : p.Returned
    · rw [step_returned hreturned] at hstep
      cases hstep
    · obtain ⟨⟨walk, hwalk⟩, herror⟩ := exists_walk hreturned
      rw [step_some hwalk herror, hstate] at hstep
      split at hstep
      · cases hstep
      · next m hm =>
        split at hstep
        · next hstore =>
          rcases padding_tokens _ (mem_of_matchToken hm).1 with htoken | ⟨hidentifier, -⟩
          · have hnumber := number_of_matchToken_padding hm htoken
            have hkind := kind_number hnumber
            refine ⟨hstate, herror, ?_, walk, hwalk, _, _, hnumber⟩
            rcases hvalue : m.value with _ | s | n
            · rw [hvalue] at hkind
              cases hkind
            · rw [hvalue] at hkind
              cases hkind
            · rw [htoken, hvalue] at hstore
              -- `parser_push_long` takes a new slot
              have hpush : p.context.stack.pushLong .padding n = none :=
                Option.map_eq_none_iff.mp hstore
              rw [Stack.pushLong, Stack.ofEntries] at hpush
              split at hpush
              · cases hpush
              · next hlength =>
                have hle := p.context.stack.length_le
                rw [List.length_append, List.length_singleton] at hlength
                omega
          · rw [hidentifier] at hstore
            cases hstore
        · cases hstep
  · obtain ⟨q, hq, -⟩ := (h.resolve_right hstate).step hstate
    rw [hq] at hstep
    cases hstep

/-- A number with a full stack makes the parser exit. -/
theorem Overflows.step (h : p.Overflows) : p.step = .error .stackFull := by
  obtain ⟨hstate, herror, hlength, walk, hwalk, value, rest, hnumber⟩ := h
  have hkind := kind_number hnumber
  rw [step_some hwalk herror, hstate, matchToken_padding hnumber]
  rcases value with _ | s | n
  · cases hkind
  · cases hkind
  · have hpush : p.context.stack.pushLong .padding n = none :=
      dif_neg (by rw [List.length_append, List.length_singleton]; omega)
    have hstore : p.context.store (some .padding) (some (.num n)) = none := by
      rw [Context.store, hpush]
      rfl
    simp only [paddingToken, hstore]

end CommandParser

end I3.Parser
