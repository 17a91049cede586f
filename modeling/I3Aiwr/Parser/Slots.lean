import Mathlib
import I3Aiwr.Parser.CommandParser
import I3Aiwr.Parser.ConfigParser

/-!
# The slots of the parsers

The slots that can be in use in a state are found from its table: they are those of the states
leading to it and of the tokens on the way. A table is checked when no token of it overflows them,
pushes a number a second time, or gives an identifier both a string and a number; a parser with a
checked table keeps its stack in order over every text. The table of the configuration is checked.
That of the commands is, but for the number of `title_window_icon padding`, whose state it does not
leave: a second number takes a second slot.

## Main definitions

* `Token.Checked`: what a token does to the slots of its state
* `Context.Sound`: the stack stores the tokens matched, in the slots allowed
* `CommandParser.Sound`, `ConfigParser.Sound`: no exit, one slot for each identifier, and the calls
  as intended
* `CommandParser.SecondPadding`: the parser is about to match a second padding number

## Main results

* `Context.store_sound`: storing a checked token
* `ConfigParser.reaches_sound`: the configuration parser is sound on every text
* `parsers_sound_iff`: both parsers are, iff the command has no second padding number
-/

namespace I3.Parser

variable {σ ι : Type}

/-! ### Checked tables -/

/-- The kind of the value that a token stores. -/
def TokenName.kind : TokenName → Option Kind
  | .literal _ | .string | .word => some .str
  | .number => some .num
  | .line | .end_ | .error => none

/-- A way of reading tokens that gives numbers for `number` and strings for words. -/
def Typed (scan : TokenName → Text → Scan) : Prop :=
  ∀ name walk value rest, scan name walk = .matched value rest → value.map Value.kind = name.kind

/-- The slots behind a token, from those in front of it. -/
def Token.slotsAfter (slots : List (ι × Kind)) (t : Token σ ι) : List (ι × Kind) :=
  match t.identifier, t.name.kind with
  | some i, some kind => (i, kind) :: slots
  | _, _ => slots

/-- What a token of a state stores fits behind the slots of the state, and, unless the parser goes
back to `INITIAL`, into those of the next one; a number is not stored again, but for `again`, and no
identifier has both a string and a number. -/
def Token.Checked (initial : σ) (slots : σ → List (ι × Kind)) (again : Option ι) (s : σ)
    (t : Token σ ι) : Prop :=
  (t.slotsAfter (slots s)).length ≤ 10 ∧
    (t.name = .number → t.identifier = again ∨ ∀ i ∈ t.identifier, i ∉ (slots s).map Prod.fst) ∧
    (t.name.kind = some .str → ∀ i ∈ t.identifier, (i, Kind.num) ∉ slots s) ∧
    match t.action with
    | .goto s' => s' = initial ∨ t.slotsAfter (slots s) ⊆ slots s'
    | .call _ _ _ => True

instance [DecidableEq σ] [DecidableEq ι] (initial : σ) (slots : σ → List (ι × Kind))
    (again : Option ι) (s : σ) (t : Token σ ι) : Decidable (t.Checked initial slots again s) :=
  have : Decidable (match t.action with
      | .goto s' => s' = initial ∨ t.slotsAfter (slots s) ⊆ slots s'
      | .call _ _ _ => True) :=
    match t.action with
    | .goto _ => inferInstanceAs (Decidable (_ ∨ _))
    | .call _ _ _ => inferInstanceAs (Decidable True)
  inferInstanceAs (Decidable (_ ∧ _ ∧ _ ∧ _))

/-! ### The stack of a context -/

/-- The stack stores the tokens matched, in the slots of the state, and the calls were made with the
arguments the tokens matched give. -/
structure Context.Sound [DecidableEq ι] (slots : σ → List (ι × Kind)) (c : Context σ ι) : Prop where
  stores : Stack.Stores c.stack.entries c.matched
  within : Stack.Within c.stack.entries (slots c.state)
  calls : ∀ m ∈ c.calls, m.args = m.intended

namespace Context

variable [DecidableEq ι] {slots : σ → List (ι × Kind)} {c c' : Context σ ι} {initial : σ}
  {again : Option ι} {t : Token σ ι} {value : Option Value}

theorem sound_clear (hcalls : ∀ m ∈ c.calls, m.args = m.intended) : c.clear.Sound slots :=
  ⟨Stack.stores_nil, fun _ he => (List.not_mem_nil he).elim, hcalls⟩

/-- A call gets the arguments intended, and leaves the stack empty. -/
theorem Sound.call {before : σ → List (ι × Kind)} (h : c.Sound before) (function : String)
    (args : List (Arg σ ι)) (next : σ) : (c.call function args next).Sound slots := by
  refine sound_clear fun m hm => ?_
  rw [List.concat_eq_append, List.mem_append, List.mem_singleton] at hm
  rcases hm with hm | rfl
  · exact h.calls m hm
  · rw [show c.stack.find = valueOf c.matched from funext h.stores.lookup_eq]

theorem Sound.callDirectly (h : c.Sound slots) (function : String) (args : List (ArgValue σ)) :
    (c.callDirectly function args).Sound slots := by
  refine ⟨h.stores, h.within, fun m hm => ?_⟩
  rw [Context.callDirectly, List.concat_eq_append, List.mem_append, List.mem_singleton] at hm
  rcases hm with hm | rfl
  · exact h.calls m hm
  · rfl

variable [DecidableEq σ]

theorem Sound.goto {s : σ} (h : c.Sound fun _ => slots s) : (c.goto initial s).Sound slots := by
  rw [Context.goto]
  split_ifs
  · exact sound_clear h.calls
  · exact ⟨h.stores, h.within, h.calls⟩

theorem goto_initial_sound (hcalls : ∀ m ∈ c.calls, m.args = m.intended) :
    (c.goto initial initial).Sound slots := by
  rw [Context.goto, if_pos rfl]
  exact sound_clear hcalls

omit [DecidableEq σ] in
/-- **Storing a token**: a checked one is stored, in the slots behind it. -/
theorem Sound.store (h : c.Sound slots) (ht : t.Checked initial slots again c.state)
    (hv : value.map Value.kind = t.name.kind)
    (hagain : t.name = .number → t.identifier = again →
      ∀ i ∈ t.identifier, valueOf c.matched i = none) :
    ∃ c', c.store t.identifier value = some c' ∧
      c'.Sound fun _ => t.slotsAfter (slots c.state) := by
  obtain ⟨hten, hnum, hstr, -⟩ := ht
  rcases hid : t.identifier with _ | i
  · refine ⟨c, rfl, h.stores, ?_, h.calls⟩
    rw [Token.slotsAfter, hid]
    exact h.within
  · have hsub : ∀ kind, t.name.kind = some kind →
        t.slotsAfter (slots c.state) = (i, kind) :: slots c.state := by
      intro kind hkind
      rw [Token.slotsAfter, hid, hkind]
    rcases value with _ | s | n
    · refine ⟨c, rfl, h.stores, ?_, h.calls⟩
      rw [Token.slotsAfter, hid, ← hv]
      exact h.within
    · have hkind : t.name.kind = some .str := hv.symm
      have hfree : ∀ n, Stack.lookup i c.stack.entries ≠ some (.num n) := fun n hn =>
        hstr hkind i hid (Stack.kind_of_lookup h.within hn)
      obtain ⟨stack, hpush, hstores, hwithin⟩ := h.stores.pushString
        (h.within.mono (List.subset_cons_self (i, Kind.str) _)) hfree s List.mem_cons_self
        (hsub _ hkind ▸ hten)
      refine ⟨{ c with stack, matched := c.matched ++ [(i, .str s)] }, ?_, hstores, ?_, h.calls⟩
      · rw [Context.store, hpush]
        rfl
      · rw [hsub _ hkind]
        exact hwithin
    · have hkind : t.name.kind = some .num := hv.symm
      have hname : t.name = .number := by
        cases hn : t.name <;> rw [hn] at hkind <;> first | rfl | cases hkind
      have hfree : Stack.lookup i c.stack.entries = none := by
        rcases hnum hname with heq | hnot
        · rw [h.stores.lookup_eq]
          exact hagain hname heq i hid
        · rw [Stack.lookup_eq_none_iff]
          intro hi
          obtain ⟨e, he, rfl⟩ := List.mem_map.mp hi
          exact hnot _ hid (List.mem_map.mpr ⟨_, h.within e he, rfl⟩)
      obtain ⟨stack, hpush, hstores, hwithin⟩ := h.stores.pushLong n
        (h.within.mono (List.subset_cons_self (i, Kind.num) _)) hfree List.mem_cons_self
        (hsub _ hkind ▸ hten)
      refine ⟨{ c with stack, matched := c.matched ++ [(i, .num n)] }, ?_, hstores, ?_, h.calls⟩
      · rw [Context.store, hpush]
        rfl
      · rw [hsub _ hkind]
        exact hwithin

end Context

/-! ### The tables -/

/-- The slots that can be in use in each state of the commands. -/
def CommandState.slots : CommandState → List (CommandIdentifier × Kind)
  | .criterion | .criterionFrom | .criterionFromStrStart | .criterionFromStr | .criterionStr =>
      [(.ctype, .str)]
  | .criterionFromStrEnd => [(.ctype, .str), (.kind, .str)]
  | .exec => [(.nosn, .str)]
  | .borderWidth => [(.borderStyle, .str)]
  | .gapsWithType => [(.type, .str)]
  | .gapsWithScope => [(.type, .str), (.scope, .str)]
  | .gapsWithMode => [(.type, .str), (.scope, .str), (.mode, .str)]
  | .gapsEnd => [(.type, .str), (.scope, .str), (.mode, .str), (.value, .str)]
  | .workspace | .workspaceNumber | .move | .moveWorkspace | .moveWorkspaceNumber
  | .moveToOutput | .moveToMark | .moveWorkspaceToOutput | .moveWorkspaceToOutputWord =>
      [(.noAutoBackAndForth, .str)]
  | .focusAuto => [(.direction, .str)]
  | .fullscreenMode | .fullscreenCompat => [(.action, .str)]
  | .mark => [(.mode, .str), (.toggle, .str)]
  | .resizeDirection => [(.way, .str)]
  | .resizePx => [(.way, .str), (.direction, .str)]
  | .resizeTiling | .resizeTilingOr => [(.way, .str), (.direction, .str), (.resizePx, .num)]
  | .resizeTilingFinal => [(.way, .str), (.direction, .str), (.resizePx, .num), (.resizePpt, .num)]
  | .resizeSet => [(.set, .str)]
  | .resizeWidth | .resizeHeightGetNumber => [(.set, .str), (.width, .num), (.modeWidth, .str)]
  | .resizeHeight =>
      [(.set, .str), (.width, .num), (.modeWidth, .str), (.height, .num), (.modeHeight, .str)]
  | .renameWorkspaceTo | .renameWorkspaceToNewName => [(.oldName, .str)]
  | .moveDirection => [(.noAutoBackAndForth, .str), (.direction, .str)]
  | .moveDirectionNumber => [(.noAutoBackAndForth, .str), (.direction, .str), (.amount, .num)]
  | .moveToAbsolutePosition | .moveToPosition => [(.noAutoBackAndForth, .str), (.method, .str)]
  | .moveToPositionX =>
      [(.noAutoBackAndForth, .str), (.method, .str), (.coordX, .num), (.modeX, .str)]
  | .moveToPositionY =>
      [(.noAutoBackAndForth, .str), (.method, .str), (.coordX, .num), (.modeX, .str),
      (.coordY, .num)]
  | .swapArgument => [(.mode, .str)]
  | .titleWindowIconPadding => [(.enable, .str), (.padding, .num)]
  | .barHiddenStateId | .barModeId => [(.barValue, .str), (.barId, .str)]
  | _ => []

/-- The slots that can be in use in each state of the configuration. -/
def ConfigState.slots : ConfigState → List (ConfigIdentifier × Kind)
  | .gaps | .workspaceCommand | .workspaceOutputWord => [(.workspace, .str)]
  | .gapsWithScope => [(.scope, .str), (.workspace, .str)]
  | .gapsEnd => [(.scope, .str), (.value, .num), (.workspace, .str)]
  | .floatingMinimumSizeX | .floatingMinimumSizeHeight | .floatingMaximumSizeX
  | .floatingMaximumSizeHeight | .barWorkspaceMinWidthPx => [(.width, .num)]
  | .floatingModifier | .barModifier => [(.modifiers, .str)]
  | .tilingDragSwapModifier => [(.modifiers, .str), (.swapModifier, .str)]
  | .defaultBorder => [(.windowtype, .str)]
  | .defaultBorderPixels => [(.windowtype, .str), (.border, .str)]
  | .defaultBorderPixelsPx => [(.windowtype, .str), (.border, .str), (.width, .num)]
  | .criterion | .criterionFrom | .criterionFromStrStart | .criterionFromStr | .criterionStr =>
      [(.ctype, .str)]
  | .criterionFromStrEnd => [(.ctype, .str), (.kind, .str)]
  | .forceDisplayUrgencyHintMs => [(.durationMs, .num)]
  | .tilingDragMode => [(.value, .str)]
  | .colorSingle | .colorBorder | .barColorsSingle | .barColorsBorder => [(.colorclass, .str)]
  | .colorBackground | .barColorsBackground => [(.colorclass, .str), (.border, .str)]
  | .colorText | .barColorsText => [(.colorclass, .str), (.border, .str), (.background, .str)]
  | .colorIndicator => [(.colorclass, .str), (.border, .str), (.background, .str), (.text, .str)]
  | .colorChildBorder =>
      [(.colorclass, .str), (.border, .str), (.background, .str), (.text, .str), (.indicator, .str)]
  | .exec => [(.exectype, .str), (.noStartupId, .str)]
  | .binding | .modeBinding =>
      [(.bindtype, .str), (.release, .str), (.border, .str), (.wholeWindow, .str),
      (.excludeTitlebar, .str), (.modifiers, .str)]
  | .bindcommand | .modeBindcommand =>
      [(.bindtype, .str), (.release, .str), (.border, .str), (.wholeWindow, .str),
      (.excludeTitlebar, .str), (.modifiers, .str), (.key, .str)]
  | .modename => [(.pangoMarkup, .str)]
  | .barBindsym => [(.release, .str)]
  | .barBindsymCommand => [(.release, .str), (.button, .str)]
  | .barTrayPaddingPx => [(.paddingPx, .num)]
  | .barPaddingTop => [(.topOrAll, .num)]
  | .barPaddingRight => [(.topOrAll, .num), (.rightOrRightAndLeft, .num)]
  | .barPaddingBottom => [(.topOrAll, .num), (.rightOrRightAndLeft, .num), (.bottom, .num)]
  | .barPaddingLeft =>
      [(.topOrAll, .num), (.rightOrRightAndLeft, .num), (.bottom, .num), (.left, .num)]
  | _ => []

theorem CommandState.checked (s : CommandState) :
    ∀ t ∈ s.tokens, t.Checked .initial slots (some .padding) s := by
  cases s <;> decide

theorem ConfigState.checked (s : ConfigState) :
    ∀ t ∈ s.tokens, t.Checked .initial slots none s := by
  cases s <;> decide

/-! ### Reading tokens -/

theorem kind_literal {text : String} {walk : Text} {value : Option Value} {rest : Option Text}
    (h : Scan.literal text walk = .matched value rest) : value.map Value.kind = some .str := by
  rw [Scan.literal] at h
  split at h <;> cases h
  rfl

theorem kind_number {walk : Text} {value : Option Value} {rest : Option Text}
    (h : Scan.number walk = .matched value rest) : value.map Value.kind = some .num := by
  rw [Scan.number] at h
  split at h
  · cases h
  · split_ifs at h
    cases h
    rfl

theorem kind_span {f : Text → Text} {str walk : Text} {value : Option Value} {rest : Option Text}
    (h : Scan.span f str walk = .matched value rest) : value.map Value.kind = some .str := by
  rw [Scan.span.eq_def] at h
  split at h <;> cases h <;> rfl

theorem typed_scanCommand : Typed scanCommand := by
  intro name walk value rest h
  cases name with
  | literal text => exact kind_literal h
  | number => exact kind_number h
  | string | word => exact kind_span h
  | line | error => cases h
  | end_ =>
    rw [scanCommand, Scan.commandEnd.eq_def] at h
    split at h <;> cases h <;> rfl

theorem typed_scanConfig : Typed scanConfig := by
  intro name walk value rest h
  cases name with
  | literal text => exact kind_literal h
  | number => exact kind_number h
  | string | word => exact kind_span h
  | line => cases h; rfl
  | error => cases h
  | end_ =>
    rw [scanConfig, Scan.lineEnd.eq_def] at h
    split at h
    · cases h; rfl
    · split_ifs at h
      cases h
      rfl

/-- The token that matched is one of those tried, and it matched where it was tried. -/
theorem mem_of_matchToken {scan : TokenName → Text → Scan} {tokens : List (Token σ ι)}
    {walk : Text} {m : Match σ ι} (h : matchToken scan tokens walk = .inr m) :
    m.token ∈ tokens ∧ scan m.token.name m.walk = .matched m.value m.rest := by
  induction tokens generalizing walk with
  | nil => cases h
  | cons t ts ih =>
    rw [matchToken] at h
    split at h
    · cases h
      exact ⟨List.mem_cons_self, by assumption⟩
    · obtain ⟨hmem, hscan⟩ := ih h
      exact ⟨List.mem_cons_of_mem t hmem, hscan⟩

/-! ### The command parser -/

namespace CommandParser

variable {p : CommandParser}

/-- No exit, one slot for each identifier, and the calls as intended. -/
structure Sound (p : CommandParser) : Prop where
  noExit : p.step ≠ .error .stackFull
  nodup : (p.context.stack.entries.map (·.identifier)).Nodup
  calls : ∀ m ∈ p.context.calls, m.args = m.intended

/-- The parser is behind `title_window_icon padding` and a number, and at another number. -/
def SecondPadding (p : CommandParser) : Prop :=
  p.context.state = .titleWindowIconPadding ∧ p.parseError = none ∧
    (∃ v, (.padding, v) ∈ p.context.matched) ∧
    ∃ walk ∈ p.walk, ∃ value rest, Scan.number (walk.dropWhile isBlank) = .matched value rest

/-- The number of `title_window_icon padding`. -/
def paddingToken : Token CommandState CommandIdentifier :=
  ⟨.number, some .padding, .goto .titleWindowIconPadding⟩

theorem eq_paddingToken (s : CommandState) : ∀ t ∈ s.tokens, t.identifier = some .padding →
    s = .titleWindowIconPadding ∧ t = paddingToken := by
  cases s <;> decide

theorem eq_of_failed_commandEnd {walk walk' : Text} (h : Scan.commandEnd walk = .failed walk') :
    walk' = walk := by
  rw [Scan.commandEnd.eq_def] at h
  split at h <;> cases h
  rfl

theorem eq_of_failed_literal {text : String} {walk walk' : Text}
    (h : Scan.literal text walk = .failed walk') : walk' = walk := by
  rw [Scan.literal] at h
  split at h <;> cases h
  rfl

theorem eq_of_toLower_eq {c : Char} (h : c.toLower = 'p') : c = 'p' ∨ c = 'P' := by
  rw [Char.toLower] at h
  split at h
  · right
    rename_i hupper
    have hle : c.toNat ≤ 90 := hupper.2
    have hval : (c.toNat + 32) % 4294967296 = 112 := by
      simpa using congrArg (fun c : Char => c.val.toNat) h
    apply Char.ext
    apply UInt32.toNat_inj.mp
    show c.toNat = 80
    omega
  · exact Or.inl h

/-- At a number there is neither the end of a command nor the literal `px`. -/
theorem matchToken_padding {walk : Text} {value : Option Value} {rest : Option Text}
    (h : Scan.number walk = .matched value rest) :
    matchToken scanCommand (CommandState.tokens .titleWindowIconPadding) walk =
      .inr ⟨paddingToken, walk, value, rest⟩ := by
  have hend : Scan.commandEnd walk = .failed walk := by
    rcases walk with _ | ⟨c, cs⟩
    · cases h
    · rw [Scan.commandEnd.eq_def]
      split <;> rename_i heq
      · cases heq
      · cases heq
        cases h
      · cases heq
        cases h
      · rfl
  have hpx : Scan.literal "px" walk = .failed walk := by
    rcases walk with _ | ⟨c, cs⟩
    · rfl
    · have hp : ¬ 'p'.toLower = c.toLower := by
        intro hlower
        rcases eq_of_toLower_eq hlower.symm with rfl | rfl <;> cases h
      have hnone : stripLiteral "px".toList (c :: cs) = none := if_neg hp
      rw [Scan.literal, hnone]
  have htokens : CommandState.tokens .titleWindowIconPadding =
      [⟨.end_, none, .call "cmd_title_window_icon" [.string .enable, .long .padding] .initial⟩,
        ⟨"px", none, .call "cmd_title_window_icon" [.string .enable, .long .padding] .initial⟩,
        paddingToken] := rfl
  simp only [htokens, matchToken, scanCommand, hend, hpx, paddingToken, h]

/-- Only a number stores a padding, and it is matched where the blanks end. -/
theorem number_of_matchToken_padding {walk : Text}
    {m : Match CommandState CommandIdentifier}
    (h : matchToken scanCommand (CommandState.tokens .titleWindowIconPadding) walk = .inr m)
    (hm : m.token = paddingToken) : Scan.number walk = .matched m.value m.rest := by
  have htokens : CommandState.tokens .titleWindowIconPadding =
      [⟨.end_, none, .call "cmd_title_window_icon" [.string .enable, .long .padding] .initial⟩,
        ⟨"px", none, .call "cmd_title_window_icon" [.string .enable, .long .padding] .initial⟩,
        paddingToken] := rfl
  have hscan := (mem_of_matchToken h).2
  have hwalk : m.walk = walk := by
    rw [htokens, matchToken] at h
    split at h
    · cases h
      cases hm
    · rename_i w₁ hw₁
      rw [matchToken] at h
      split at h
      · cases h
        cases hm
      · rename_i w₂ hw₂
        rw [matchToken] at h
        split at h
        · cases h
          exact (eq_of_failed_literal hw₂).trans (eq_of_failed_commandEnd hw₁)
        · cases h
  rw [hm, hwalk] at hscan
  exact hscan

theorem context_nextState_sound {slots : CommandState → List (CommandIdentifier × Kind)}
    {before : List (CommandIdentifier × Kind)} {c : Context CommandState CommandIdentifier}
    (h : c.Sound fun _ => before) {a : Action CommandState CommandIdentifier}
    (ha : ∀ s, a = .goto s → s = .initial ∨ before ⊆ slots s) : (nextState c a).Sound slots := by
  cases a with
  | goto s =>
    rcases ha s rfl with rfl | hsub
    · exact Context.goto_initial_sound h.calls
    · have hs : c.Sound fun _ => slots s := ⟨h.stores, h.within.mono hsub, h.calls⟩
      exact hs.goto
  | call function args next => exact h.call function args next

theorem context_afterToken_sound {slots : CommandState → List (CommandIdentifier × Kind)}
    {c : Context CommandState CommandIdentifier} (h : c.Sound slots)
    (m : Match CommandState CommandIdentifier) : (afterToken m c).Sound slots := by
  rw [afterToken]
  split_ifs
  · exact h.callDirectly _ _
  · exact h

/-- **One iteration** keeps the context in order and does not exit, unless it matches a second
padding number. -/
theorem step_sound (h : p.context.Sound CommandState.slots) (hsecond : ¬ p.SecondPadding) :
    ∃ p', p.step = .ok p' ∧ p'.context.Sound CommandState.slots := by
  rw [step]
  split
  · rename_i walk hwalk herror
    split
    · exact ⟨_, rfl, Context.sound_clear h.calls⟩
    · rename_i m hm
      obtain ⟨hmem, hscan⟩ := mem_of_matchToken hm
      have hcheck := CommandState.checked p.context.state m.token hmem
      have hagain : ∀ i ∈ m.token.identifier, m.token.identifier = some .padding →
          valueOf p.context.matched i = none := by
        intro i hi hpadding
        rw [hpadding] at hi
        cases hi
        rw [valueOf_eq_none_iff]
        intro v hv
        obtain ⟨hstate, htoken⟩ := eq_paddingToken _ _ hmem hpadding
        rw [hstate] at hm
        exact hsecond ⟨hstate, herror, ⟨v, hv⟩, walk, hwalk, _, _,
          number_of_matchToken_padding hm htoken⟩
      obtain ⟨c, hstore, hc⟩ := h.store hcheck (typed_scanCommand _ _ _ _ hscan)
        fun _ hpadding i hi => hagain i hi hpadding
      rw [hstore]
      have hgoto := hcheck.2.2.2
      exact ⟨_, rfl, context_afterToken_sound
        (context_nextState_sound hc fun s hs => by rw [hs] at hgoto; exact hgoto) m⟩
  · exact ⟨p, rfl, h⟩

/-- **A second padding number** takes a second slot, or finds no slot. -/
theorem not_sound_of_secondPadding (h : p.context.Sound CommandState.slots)
    (hsecond : p.SecondPadding) : ∃ p', p.step = .error .stackFull ∨
      p.step = .ok p' ∧ ¬ (p'.context.stack.entries.map (·.identifier)).Nodup := by
  obtain ⟨hstate, herror, ⟨v, hv⟩, walk, hwalk, value, rest, hnumber⟩ := hsecond
  have hmatch := matchToken_padding hnumber
  rw [← hstate] at hmatch
  obtain ⟨n, rfl⟩ : ∃ n, value = some (.num n) := by
    have hkind := kind_number hnumber
    rcases value with _ | s | n
    · cases hkind
    · cases hkind
    · exact ⟨n, rfl⟩
  have hused : CommandIdentifier.padding ∈ p.context.stack.entries.map (·.identifier) := by
    by_contra hnot
    rw [← Stack.lookup_eq_none_iff, h.stores.lookup_eq, valueOf_eq_none_iff] at hnot
    exact hnot v hv
  rw [step, hwalk, herror]
  simp only [hmatch, paddingToken, Context.store, Stack.pushLong]
  cases hpush : Stack.ofEntries (p.context.stack.entries ++ [⟨.padding, .num n⟩]) with
  | none => exact ⟨p, Or.inl rfl⟩
  | some stack =>
    refine ⟨_, Or.inr ⟨rfl, ?_⟩⟩
    have hentries := Stack.entries_of_ofEntries hpush
    simp only [afterToken, nextState, Context.goto, reduceCtorEq, false_and, if_false, hentries,
      List.map_append, List.map_singleton]
    exact fun hnodup => List.disjoint_of_nodup_append hnodup hused (List.mem_singleton_self _)

/-- The context is in order as long as no second padding number is matched. -/
theorem context_sound {input : Text} (hnone : ∀ p, Reaches (start input) p → ¬ p.SecondPadding)
    (hp : Reaches (start input) p) : p.context.Sound CommandState.slots := by
  induction hp with
  | refl =>
    exact Context.Sound.callDirectly ⟨Stack.stores_nil, by simp [Stack.Within, Stack.empty], by simp⟩
      _ _
  | tail hreach hstep ih =>
    obtain ⟨p', hp', hsound⟩ := step_sound ih (hnone _ hreach)
    rw [hp'] at hstep
    cases hstep
    exact hsound

/-- **The command parser is sound** iff no second padding number is matched. -/
theorem reaches_sound_iff (input : Text) :
    (∀ p, Reaches (start input) p → p.Sound) ↔
      ∀ p, Reaches (start input) p → ¬ p.SecondPadding := by
  constructor
  · intro hsound
    -- along the run, the context is in order up to the first second number
    have hboth : ∀ p, Reaches (start input) p →
        p.context.Sound CommandState.slots ∧ ¬ p.SecondPadding := by
      have hnot : ∀ p, Reaches (start input) p → p.context.Sound CommandState.slots →
          ¬ p.SecondPadding := by
        intro p hp hc hsecond
        obtain ⟨p', hexit | ⟨hstep, hdup⟩⟩ := not_sound_of_secondPadding hc hsecond
        · exact (hsound p hp).noExit hexit
        · exact hdup (hsound p' (hp.tail hstep)).nodup
      intro p hp
      induction hp with
      | refl =>
        have hstart : (start input).context.Sound CommandState.slots :=
          Context.Sound.callDirectly ⟨Stack.stores_nil, by simp [Stack.Within, Stack.empty],
            by simp⟩ _ _
        exact ⟨hstart, hnot _ .refl hstart⟩
      | tail hreach hstep ih =>
        obtain ⟨p', hp', hc⟩ := step_sound ih.1 ih.2
        rw [hp'] at hstep
        cases hstep
        exact ⟨hc, hnot _ (hreach.tail hp') hc⟩
    exact fun p hp => (hboth p hp).2
  · intro hnone p hp
    have hc := context_sound hnone hp
    obtain ⟨p', hp', -⟩ := step_sound hc (hnone p hp)
    exact ⟨by simp [hp'], hc.stores.nodup, hc.calls⟩

end CommandParser

/-! ### The configuration parser -/

namespace ConfigParser

variable {included : ConfigParser → ConfigState} {p : ConfigParser}

/-- No exit, one slot for each identifier, and the calls as intended. -/
structure Sound (included : ConfigParser → ConfigState) (p : ConfigParser) : Prop where
  noExit : p.step included ≠ .error .stackFull
  nodup : (p.context.stack.entries.map (·.identifier)).Nodup
  calls : ∀ m ∈ p.context.calls, m.args = m.intended

theorem context_nextState_sound {slots : ConfigState → List (ConfigIdentifier × Kind)}
    {before : List (ConfigIdentifier × Kind)} (h : p.context.Sound fun _ => before)
    {a : Action ConfigState ConfigIdentifier}
    (ha : ∀ s, a = .goto s → s = .initial ∨ before ⊆ slots s) :
    (p.nextState included a).context.Sound slots := by
  cases a with
  | goto s =>
    rcases ha s rfl with rfl | hsub
    · exact (Context.goto_initial_sound h.calls : (p.context.goto .initial .initial).Sound slots)
    · have hs : p.context.Sound fun _ => slots s := ⟨h.stores, h.within.mono hsub, h.calls⟩
      exact (hs.goto : (p.context.goto .initial s).Sound slots)
  | call function args next =>
    exact (h.call function args (stateAfter function next p.criteriaNext) :
      (p.context.call ..).Sound slots)

theorem context_afterToken_sound {slots : ConfigState → List (ConfigIdentifier × Kind)}
    (h : p.context.Sound slots) (name : TokenName) : (afterToken name p).context.Sound slots := by
  cases name with
  | end_ => exact h.callDirectly _ _
  | _ => exact h

theorem context_recover_sound {p' : ConfigParser} {walk : Text}
    (h : p.context.Sound ConfigState.slots) (hp : p.recover included walk = .ok p') :
    p'.context.Sound ConfigState.slots := by
  have hcleared : p.context.clear.Sound fun _ => [] := Context.sound_clear h.calls
  rw [recover] at hp
  split at hp
  · cases hp
  · cases hp
    exact context_nextState_sound hcleared fun s _ => Or.inr (List.nil_subset _)

/-- **One iteration** keeps the context in order, and does not exit for want of a slot. -/
theorem step_sound (h : p.context.Sound ConfigState.slots) :
    p.step included ≠ .error .stackFull ∧
      ∀ p', p.step included = .ok p' → p'.context.Sound ConfigState.slots := by
  rw [step]
  split
  · exact ⟨by simp, fun p' hp' => by cases hp'; exact h⟩
  · split
    · refine ⟨?_, fun p' hp' => context_recover_sound h hp'⟩
      rw [recover]
      split <;> simp
    · rename_i m hm
      obtain ⟨hmem, hscan⟩ := mem_of_matchToken hm
      have hcheck := ConfigState.checked p.context.state m.token hmem
      obtain ⟨c, hstore, hc⟩ := h.store hcheck (typed_scanConfig _ _ _ _ hscan)
        fun _ hnone i hi => by rw [hnone] at hi; cases hi
      rw [hstore]
      refine ⟨by simp, fun p' hp' => ?_⟩
      cases hp'
      have hgoto := hcheck.2.2.2
      exact context_afterToken_sound (context_nextState_sound (p := { p with context := c }) hc
        fun s hs => by rw [hs] at hgoto; exact hgoto) m.token.name

/-- **The configuration parser is sound** on every text. -/
theorem reaches_sound {input : Text} (hp : Reaches included (start input) p) :
    p.Sound included := by
  have hinv : p.context.Sound ConfigState.slots := by
    induction hp with
    | refl => exact Context.Sound.callDirectly ⟨Stack.stores_nil, by simp [Stack.Within, Stack.empty],
        by simp⟩ _ _
    | tail _ hstep ih => exact (step_sound ih).2 _ hstep
  exact ⟨(step_sound hinv).1, hinv.stores.nodup, hinv.calls⟩

end ConfigParser

/-- **No input makes the parsers give up**, and each call gets what was matched for its arguments,
iff the command has no `title_window_icon padding` with a second number. -/
theorem parsers_sound_iff (command config : Text) (included : ConfigParser → ConfigState) :
    ((∀ p, CommandParser.Reaches (.start command) p → p.Sound) ∧
      ∀ p, ConfigParser.Reaches included (.start config) p → p.Sound included) ↔
      ∀ p, CommandParser.Reaches (.start command) p → ¬ p.SecondPadding := by
  rw [← CommandParser.reaches_sound_iff]
  exact and_iff_left fun p hp => ConfigParser.reaches_sound hp

/-- Eleven padding numbers do not fit into the ten slots. -/
theorem elevenPaddings_stackFull :
    ¬ ∀ (command config : Text) (included : ConfigParser → ConfigState),
    (∀ p, CommandParser.Reaches (.start command) p → p.Sound) ∧
      ∀ p, ConfigParser.Reaches included (.start config) p → p.Sound included := by
  intro h
  have hrun : (CommandParser.run 13
      (.start "title_window_icon padding 1 2 3 4 5 6 7 8 9 10 11".toList)).isOk = false := by
    decide +kernel
  cases hexit : CommandParser.run 13
      (.start "title_window_icon padding 1 2 3 4 5 6 7 8 9 10 11".toList) with
  | ok p =>
    rw [hexit] at hrun
    cases hrun
  | error a =>
    obtain ⟨p, hp, hstep⟩ := CommandParser.exists_reaches_of_run hexit
    obtain rfl := CommandParser.eq_stackFull_of_step hstep
    exact ((h _ [] (·.criteriaNext)).1 p hp).noExit hstep

end I3.Parser
