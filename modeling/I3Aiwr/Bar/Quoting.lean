import I3Aiwr.Parser.CommandEnds

/-!
# Quoting workspace names

What i3bar sends for a click on a workspace button: `quote_workspace_name` of `src/i3bar/src/xcb.c`,
which puts the name in quotes and escapes it, in a buffer of twice the size. The command parser reads it
back: a scan that lets a backslash take the next character along finds the closing quote, as each
backslash the quoting has put in stands before the character it is for.

## Main definitions

* `quoteWorkspaceName name`: the buffer that is returned; `none` where a write would be outside of it
* `cString out`: the text of a buffer

## Main results

* `quoteWorkspaceName_eq`: the quoted name, and zeroes
* `parse_quoteWorkspaceName`: the command parser calls `cmd_workspace_name` with the name
-/

namespace I3

namespace Quoting

open I3.Parser

/-- The text of a buffer, up to its first 0-byte. -/
def cString (out : Text) : Text := out.takeWhile (· ≠ '\x00')

/-- `out[outpos] = c` -/
def store (out : Text) (outpos : ℕ) (c : Char) : Option Text :=
  if outpos < out.length then some (out.set outpos c) else none

/-- `memcpy` to the beginning of a buffer. -/
def memcpy (out text : Text) : Option Text :=
  if text.length ≤ out.length then some (text ++ out.drop text.length) else none

/-- The loop of `quote_workspace_name`: the buffer and the position in it afterwards. -/
def quoteLoop : Text → Text → ℕ → Option (Text × ℕ)
  | [], out, outpos => some (out, outpos)
  | c :: cs, out, outpos =>
    if c = '"' ∨ c = '\\' then
      (store out outpos '\\').bind fun out =>
        (store out (outpos + 1) c).bind fun out => quoteLoop cs out (outpos + 2)
    else (store out outpos c).bind fun out => quoteLoop cs out (outpos + 1)

/-- The command up to the name. -/
def opening : Text := "workspace \"".toList

/-- `quote_workspace_name` -/
def quoteWorkspaceName (name : Text) : Option Text :=
  let len := name.length + "workspace \"\"".length + 1
  (memcpy (List.replicate (2 * len) '\x00') opening).bind fun out =>
    (quoteLoop name out opening.length).bind fun (out, outpos) => store out outpos '"'

/-- A name with its quotes and backslashes escaped. -/
def escape : Text → Text
  | [] => []
  | c :: cs => if c = '"' ∨ c = '\\' then '\\' :: c :: escape cs else c :: escape cs

/-- The calls the command parser makes for a command that it reads as `call`: it initialises the
criteria before and after it. -/
def callsWith (call : CallMade CommandState) : List (CallMade CommandState) :=
  [⟨"cmd_criteria_init", [], []⟩, call, ⟨"cmd_criteria_init", [], []⟩]

/-- `cmd_workspace_name` with a name and without the option. -/
def workspaceNameCall (name : Text) : CallMade CommandState where
  function := "cmd_workspace_name"
  args := [.string (some name), .string none]
  intended := [.string (some name), .string none]

variable {name pre rest : Text} {c x : Char}

/-! ### Quoting -/

theorem store_append (pre rest : Text) (x c : Char) :
    store (pre ++ x :: rest) pre.length c = some (pre ++ c :: rest) := by
  rw [store, if_pos (by rw [List.length_append, List.length_cons]; omega), List.set_append_right _ _ le_rfl,
    Nat.sub_self, List.set_cons_zero]

theorem length_escape_le (name : Text) : (escape name).length ≤ 2 * name.length := by
  induction name with
  | nil => rfl
  | cons c cs ih =>
    rw [escape]
    split <;> simp only [List.length_cons] <;> omega

theorem escape_ne_nil (hname : name ≠ []) : escape name ≠ [] := by
  cases name with
  | nil => exact absurd rfl hname
  | cons c cs =>
    rw [escape]
    split <;> simp

theorem notMem_escape (hname : '\x00' ∉ name) : '\x00' ∉ escape name := by
  induction name with
  | nil => simp [escape]
  | cons c cs ih =>
    obtain ⟨hc, hcs⟩ := List.ne_and_not_mem_of_not_mem_cons hname
    rw [escape]
    split
    · simp only [List.mem_cons, not_or]
      exact ⟨by decide, hc, ih hcs⟩
    · exact List.not_mem_cons_of_ne_of_not_mem hc (ih hcs)

/-- **The loop** replaces as much of what follows as the escaped name takes. -/
theorem quoteLoop_eq (pre : Text) (hrest : (escape name).length ≤ rest.length) :
    quoteLoop name (pre ++ rest) pre.length =
      some (pre ++ escape name ++ rest.drop (escape name).length, pre.length + (escape name).length) := by
  induction name generalizing pre rest with
  | nil => simp [quoteLoop, escape]
  | cons c cs ih =>
    rw [escape] at hrest ⊢
    rw [quoteLoop]
    split at hrest
    · next hc =>
      obtain ⟨x, y, rest, rfl⟩ : ∃ x y l, rest = x :: y :: l := by
        match rest with
        | [] | [_] => simp at hrest
        | x :: y :: l => exact ⟨x, y, l, rfl⟩
      have hsnd := store_append (pre ++ ['\\']) rest y c
      have hloop := @ih rest (pre ++ ['\\', c]) (by simpa using hrest)
      simp only [List.append_assoc, List.length_append, List.length_cons, List.length_nil,
        List.cons_append, List.nil_append] at hsnd hloop
      rw [if_pos hc, if_pos hc, store_append, Option.bind_some, hsnd, Option.bind_some, hloop]
      simp only [List.append_assoc, List.cons_append, List.length_cons, List.drop_succ_cons]
      congr 2
      omega
    · next hc =>
      obtain ⟨x, rest, rfl⟩ : ∃ x l, rest = x :: l := List.exists_cons_of_length_pos (by
        simp only [List.length_cons] at hrest
        omega)
      have hloop := @ih rest (pre ++ [c]) (by simpa using hrest)
      simp only [List.append_assoc, List.length_append, List.length_cons, List.length_nil,
        List.cons_append, List.nil_append] at hloop
      rw [if_neg hc, if_neg hc, store_append, Option.bind_some, hloop]
      simp only [List.append_assoc, List.cons_append, List.length_cons, List.drop_succ_cons]
      congr 2
      omega

/-- **The buffer** has the quoted name, and at least one 0-byte after it. -/
theorem quoteWorkspaceName_eq (name : Text) : ∃ zeroes, quoteWorkspaceName name =
    some (opening ++ escape name ++ '"' :: List.replicate (zeroes + 1) '\x00') := by
  have hescape := length_escape_le name
  have hopening : opening.length = 11 := by decide
  have hquotes : "workspace \"\"".length = 12 := by decide
  obtain ⟨zeroes, hzeroes⟩ : ∃ zeroes, 2 * (name.length + 12 + 1) =
      11 + ((escape name).length + (zeroes + 1 + 1)) :=
    ⟨2 * name.length - (escape name).length + 13, by omega⟩
  refine ⟨zeroes, ?_⟩
  simp only [quoteWorkspaceName, hquotes]
  rw [memcpy, if_pos (by rw [List.length_replicate]; omega), Option.bind_some, hzeroes, hopening,
    List.replicate_add 11, List.drop_left' List.length_replicate, ← hopening,
    quoteLoop_eq _ (by rw [List.length_replicate]; omega), Option.bind_some]
  simp only [List.replicate_add (escape name).length, List.drop_left' List.length_replicate]
  rw [← List.length_append, List.replicate_succ, store_append]

theorem cString_append (hpre : '\x00' ∉ pre) : cString (pre ++ '\x00' :: rest) = pre := by
  rw [cString, List.takeWhile_append_of_pos]
  · simp
  · intro c hc
    simpa using ne_of_mem_of_not_mem hc hpre

theorem cString_quoteWorkspaceName (hname : '\x00' ∉ name) : ∃ out,
    quoteWorkspaceName name = some out ∧ '\x00' ∈ out ∧
      cString out = opening ++ escape name ++ ['"'] := by
  obtain ⟨zeroes, hquote⟩ := quoteWorkspaceName_eq name
  have hnotMem : '\x00' ∉ opening ++ escape name ++ ['"'] := by
    simp only [List.mem_append, not_or]
    exact ⟨⟨by decide, notMem_escape hname⟩, by decide⟩
  refine ⟨_, hquote, ?_, ?_⟩
  · rw [List.replicate_succ]
    simp
  · rw [List.append_cons, List.replicate_succ, cString_append hnotMem]

/-! ### Reading it back -/

/-- The scan for the closing quote passes the escaped name. -/
theorem quotedSpan_escape : quotedSpan (escape name ++ '"' :: rest) = (escape name, '"' :: rest) := by
  induction name with
  | nil => rfl
  | cons c cs ih =>
    rw [escape]
    split
    · rw [List.cons_append, List.cons_append, quotedSpan, ih]
    · next hc =>
      rw [not_or] at hc
      rw [List.cons_append, quotedSpan, ih]
      · exact hc.1
      · intro _ _ h
        exact absurd h hc.2

/-- **What is copied** is the name. -/
theorem unescape_escape : unescape (escape name) = name := by
  induction name with
  | nil => rfl
  | cons c cs ih =>
    rw [escape]
    split
    · next hc =>
      rcases hc with rfl | rfl
      · rw [unescape, ih]
      · rw [unescape, ih]
    · next hc =>
      rw [not_or] at hc
      rw [unescape, ih]
      · intro _ h
        exact absurd h hc.2
      · intro _ h
        exact absurd h hc.2

theorem scan_string (hname : name ≠ []) :
    scanCommand .string ('"' :: (escape name ++ ['"'])) = .matched (some (.str name)) (some []) := by
  rw [scanCommand, parseString, quotedSpan_escape, Scan.span, unescape_escape]
  exact escape_ne_nil hname

/-- The first token is the command. -/
theorem matchToken_workspace (walk : Text) :
    matchToken scanCommand CommandState.initial.tokens ("workspace".toList ++ walk) =
      .inr ⟨⟨"workspace", none, .goto .workspace⟩, "workspace".toList ++ walk,
        some (.str "workspace".toList), some walk⟩ := by
  rfl

/-- **No keyword begins with a quote**, so the second token is the name. -/
theorem matchToken_name (hname : name ≠ []) :
    matchToken scanCommand CommandState.workspace.tokens ('"' :: (escape name ++ ['"'])) =
      .inr ⟨⟨.string, some .workspace,
          .call "cmd_workspace_name" [.string .workspace, .string .noAutoBackAndForth] .initial⟩,
        '"' :: (escape name ++ ['"']), some (.str name), some []⟩ := by
  have hkeywords : ∀ walk, matchToken scanCommand CommandState.workspace.tokens ('"' :: walk) =
      matchToken scanCommand [⟨.string, some .workspace,
        .call "cmd_workspace_name" [.string .workspace, .string .noAutoBackAndForth] .initial⟩]
        ('"' :: walk) := fun _ => rfl
  rw [hkeywords, matchToken, scan_string hname]

/-- An iteration that matches a token. -/
theorem step_eq_of_match {p : CommandParser} {walk : Text} {m : Match CommandState CommandIdentifier}
    {context : Context CommandState CommandIdentifier} (hwalk : p.walk = some walk)
    (herror : p.parseError = none)
    (hmatch : matchToken scanCommand p.context.state.tokens (walk.dropWhile CommandParser.isBlank) = .inr m)
    (hstore : p.context.store m.token.identifier m.value = some context) :
    p.step = .ok { p with
      context := CommandParser.afterToken m (CommandParser.nextState context m.token.action)
      walk := m.rest } := by
  rw [CommandParser.step_some hwalk herror, hmatch]
  simp only [hstore]

/-- **The parser** makes its call in the second of three iterations, and reads all of the text. -/
theorem reaches_quoted (hname : name ≠ []) : ∃ p : CommandParser,
    CommandParser.Reaches (CommandParser.start (opening ++ escape name ++ ['"'])) p ∧
      p.walk = none ∧ p.parseError = none ∧ p.context.calls = callsWith (workspaceNameCall name) := by
  have hopening : opening ++ escape name ++ ['"'] =
      "workspace".toList ++ (' ' :: '"' :: (escape name ++ ['"'])) := by
    rw [List.append_assoc]
    rfl
  rw [hopening]
  have hcommand := step_eq_of_match (p := CommandParser.start
    ("workspace".toList ++ (' ' :: '"' :: (escape name ++ ['"'])))) rfl rfl
    (matchToken_workspace (' ' :: '"' :: (escape name ++ ['"']))) rfl
  have hstring := step_eq_of_match (p := { (CommandParser.start
    ("workspace".toList ++ (' ' :: '"' :: (escape name ++ ['"'])))) with
      context := { CommandParser.criteriaInit { state := .initial } with state := .workspace }
      walk := some (' ' :: '"' :: (escape name ++ ['"'])) }) rfl rfl (matchToken_name hname) rfl
  refine ⟨_, .head hcommand (.head hstring (.single rfl)), rfl, rfl, rfl⟩

/-- **Quoting and parsing are inverse**: for a name that is not empty, the quoting stays in its buffer, and
what it returns is read as the one call for that name, whatever is in the name. -/
theorem parse_quoteWorkspaceName (hne : name ≠ []) (hname : '\x00' ∉ name) :
    ∃ (out : Text) (p : CommandParser), quoteWorkspaceName name = some out ∧ '\x00' ∈ out ∧
      CommandParser.Reaches (CommandParser.start (cString out)) p ∧
      p.walk = none ∧ p.parseError = none ∧ p.context.calls = callsWith (workspaceNameCall name) := by
  obtain ⟨out, hout, hzero, htext⟩ := cString_quoteWorkspaceName hname
  obtain ⟨p, hp⟩ := reaches_quoted hne
  exact ⟨out, p, hout, hzero, htext ▸ hp⟩

/-- A name that is a keyword, with a quote and a backslash behind it. -/
theorem parse_quoteWorkspaceName_next : ∃ (out : Text) (p : CommandParser),
    quoteWorkspaceName "next\"\\".toList = some out ∧ '\x00' ∈ out ∧
      CommandParser.Reaches (CommandParser.start (cString out)) p ∧ p.walk = none ∧ p.parseError = none ∧
      p.context.calls = callsWith (workspaceNameCall "next\"\\".toList) :=
  parse_quoteWorkspaceName (by decide) (by decide)

end Quoting

end I3
