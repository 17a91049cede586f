import Mathlib.Data.List.Basic
import I3Aiwr.Lib.Runs

/-!
# The lines of a workspace command

How i3bar reads the output of the child that provides the workspaces: `get_buffer`, `ws_stdin_io_cb` and
`cleanup` of `src/i3bar/src/child.c`, and the end of `parse_workspaces_json` of
`src/i3bar/src/workspaces.c`, where a child whose line is no JSON is killed. Whether a text is rejected
is up to the JSON parser, `bad` here. Beside it is what the children print, a byte at a time: the lines
that i3bar should parse are those that are complete and not blank, up to one that is rejected.

## Main definitions

* `Bar`, `getBuffer`, `Bar.wsStdinIoCb`, `Bar.parseWorkspacesJson`, `Bar.killWsChild`, `Bar.cleanup`
* `Printed`, `Printed.byte`: the lines of the children
* `Event`, `Event.Enabled`, `step`
* `Event.Allowed`: what keeps the two together

## Main results

* `related_readStrings`: the texts of a read are the lines it completes
* `framed_run`: in runs of allowed events the texts parsed are the lines of the children
* `not_framed_joined`: what follows a line that is no JSON is joined with the output of the next child
-/

namespace I3

namespace WorkspaceCommand

abbrev Text := List UInt8

def newline : UInt8 := 10

/-- `isspace` -/
def isSpace (b : UInt8) : Bool := b = 32 || (9 ≤ b && b ≤ 13)

/-- `isempty` -/
def isEmpty (s : Text) : Bool := s.all isSpace

/-- How a sequence of `read` calls ends: with `EAGAIN`, or with the end of file. -/
inductive ReadEnd
  | again
  | eof
  deriving DecidableEq, Repr

/-- `get_buffer`: what has been received is given up at the end of file. -/
def getBuffer (last : ReadEnd) : Text → List Text → Option Text
  | received, t :: reads => getBuffer last (received ++ t) reads
  | received, [] =>
    match last with
    | .eof => none
    | .again => if received = [] then none else some received

/-- `append_string` -/
def appendString (previous : Option Text) (str : Text) : Text := previous.getD [] ++ str

/-- `ws_child`, and the texts parsed with the number of the child that is the last one started then. -/
structure Bar where
  /-- `ws_child.pid > 0` -/
  alive : Bool := false
  pendingLine : Option Text := none
  wsLastJson : Option Text := none
  started : ℕ := 0
  parsed : List (ℕ × Text) := []
  deriving Repr

namespace Bar

/-- `cleanup` -/
def cleanup (b : Bar) : Bar := { b with alive := false, pendingLine := none }

/-- `kill_ws_child` -/
def killWsChild (b : Bar) : Bar := if b.alive then b.cleanup else b

/-- `start_ws_child` -/
def startWsChild (b : Bar) : Bar := { b with alive := true, started := b.started + 1 }

variable (bad : Text → Bool)

/-- `parse_workspaces_json` -/
def parseWorkspacesJson (json : Text) (b : Bar) : Bar :=
  let b := { b with parsed := b.parsed ++ [(b.started, json)] }
  if bad json then b.killWsChild else b

/-- The loop of `ws_stdin_io_cb` over the strings between newlines. -/
def readStrings : Bar → List Text → Bar
  | b, [] => b
  | b, str :: rest =>
    if b.pendingLine = none ∧ isEmpty str then readStrings b rest
    else if rest = [] then
      -- data that is incomplete is saved for later
      readStrings { b with pendingLine := some (appendString b.pendingLine str) } rest
    else
      let json := appendString b.pendingLine str
      readStrings (parseWorkspacesJson bad json
        { b with wsLastJson := some json, pendingLine := none }) rest

/-- `ws_stdin_io_cb` -/
def wsStdinIoCb (last : ReadEnd) (reads : List Text) (b : Bar) : Bar :=
  match getBuffer last [] reads with
  | none => b
  | some buffer => b.readStrings bad (buffer.splitOn newline)

end Bar

/-- What the children have printed: the incomplete line of the current one, and the lines to parse. -/
structure Printed where
  /-- No line of the child has been rejected, and it has not been stopped. -/
  alive : Bool := false
  line : Text := []
  started : ℕ := 0
  lines : List (ℕ × Text) := []
  deriving Repr

/-- A byte that is printed. -/
def Printed.byte (bad : Text → Bool) (p : Printed) (b : UInt8) : Printed :=
  if !p.alive then p
  else if b ≠ newline then { p with line := p.line ++ [b] }
  else if isEmpty p.line then { p with line := [] }
  else { p with alive := !bad p.line, line := [], lines := p.lines ++ [(p.started, p.line)] }

def Printed.print (bad : Text → Bool) (p : Printed) (data : Text) : Printed :=
  data.foldl (Printed.byte bad) p

/-- The bar, and what the children have printed. -/
structure State where
  bar : Bar := {}
  printed : Printed := {}
  /-- The output of the child has come to its end. -/
  atEof : Bool := false
  deriving Repr

inductive Event
  /-- The output of the child is read. -/
  | input (reads : List Text) (last : ReadEnd)
  /-- The child exits: `child_sig_cb`. -/
  | exited
  /-- The configuration of the bar has a new command, or none. -/
  | start
  | stop
  deriving DecidableEq, Repr

def step (bad : Text → Bool) (s : State) : Event → State
  | .input reads last =>
    { bar := s.bar.wsStdinIoCb bad last reads
      printed := s.printed.print bad reads.flatten
      atEof := s.atEof || decide (last = .eof) }
  | .exited => { s with bar := s.bar.cleanup, printed := { s.printed with alive := false } }
  | .start =>
    { bar := s.bar.killWsChild.startWsChild
      printed := { s.printed with alive := true, line := [], started := s.printed.started + 1 } }
  | .stop => { s with bar := s.bar.killWsChild, printed := { s.printed with alive := false } }

/-- The output of a child is read as long as it lives, without NUL; nothing comes after its end. -/
def Event.Enabled (s : State) : Event → Prop
  | .input reads last => s.bar.alive = true ∧ (∀ t ∈ reads, t ≠ [] ∧ 0 ∉ t) ∧
      (s.atEof = true → reads = [] ∧ last = .eof)
  | .exited => s.bar.alive = true
  | .start | .stop => True

/-- The texts parsed are the lines of the children. -/
def State.Framed (s : State) : Prop := s.bar.parsed = s.printed.lines

/-- After a line that is rejected there is nothing but white space. -/
def EndsAtError (bad : Text → Bool) : List Text → Prop
  | [] => True
  | [_] => True
  | line :: rest => ((!isEmpty line && bad line) = true → ∀ u ∈ rest, isEmpty u = true) ∧
      EndsAtError bad rest

/-- What is read with the start of its first line, which has been read before. -/
def State.strings (s : State) (reads : List Text) : List Text :=
  (s.printed.line ++ reads.flatten).splitOn newline

/-- What the events are to keep to. At the end of file nothing is received that completes a line. In a
read, white space that begins a line and was dropped is followed by white space up to the end of the
line; and a line that is rejected is the end of what was read. -/
def Event.Allowed (bad : Text → Bool) (s : State) : Event → Prop
  | .input reads .eof => ∀ line ∈ (s.strings reads).dropLast, isEmpty line = true
  | .input reads .again =>
    (s.bar.pendingLine = none → s.printed.line = [] ∨
      ((reads.flatten.splitOn newline).head?.all isEmpty) = true) ∧
    EndsAtError bad (s.strings reads)
  | _ => True

instance EndsAtError.instDecidable (bad : Text → Bool) : DecidablePred (EndsAtError bad)
  | [] => inferInstanceAs (Decidable True)
  | [_] => inferInstanceAs (Decidable True)
  | line :: u :: us =>
    have := EndsAtError.instDecidable bad (u :: us)
    inferInstanceAs (Decidable (((!isEmpty line && bad line) = true →
      ∀ v ∈ u :: us, isEmpty v = true) ∧ EndsAtError bad (u :: us)))

instance (s : State) : DecidablePred (Event.Enabled s)
  | .input reads last => inferInstanceAs (Decidable (s.bar.alive = true ∧
      (∀ t ∈ reads, t ≠ [] ∧ 0 ∉ t) ∧ (s.atEof = true → reads = [] ∧ last = .eof)))
  | .exited => inferInstanceAs (Decidable (s.bar.alive = true))
  | .start => inferInstanceAs (Decidable True)
  | .stop => inferInstanceAs (Decidable True)

instance (bad : Text → Bool) (s : State) : DecidablePred (Event.Allowed bad s)
  | .input reads .eof =>
    inferInstanceAs (Decidable (∀ line ∈ (s.strings reads).dropLast, isEmpty line = true))
  | .input reads .again => inferInstanceAs (Decidable ((s.bar.pendingLine = none →
      s.printed.line = [] ∨ ((reads.flatten.splitOn newline).head?.all isEmpty) = true) ∧
      EndsAtError bad (s.strings reads)))
  | .exited => inferInstanceAs (Decidable True)
  | .start => inferInstanceAs (Decidable True)
  | .stop => inferInstanceAs (Decidable True)

instance (s : State) : Decidable s.Framed := inferInstanceAs (Decidable (_ = _))

variable {bad : Text → Bool} {b : Bar} {p : Printed} {data t rest : Text} {reads : List Text}

theorem getBuffer_eof (received : Text) : getBuffer .eof received reads = none := by
  induction reads generalizing received with
  | nil => rfl
  | cons t reads ih => exact ih _

theorem getBuffer_again (received : Text) : getBuffer .again received reads =
    if received ++ reads.flatten = [] then none else some (received ++ reads.flatten) := by
  induction reads generalizing received with
  | nil => simp [getBuffer]
  | cons t reads ih => rw [getBuffer, ih, List.flatten_cons, List.append_assoc]

/-! ### Strings between newlines -/

theorem splitOn_line (ht : newline ∉ t) : t.splitOn newline = [t] := by
  rw [List.splitOn_eq_splitOnP]
  exact List.splitOnP_eq_singleton fun b hb => beq_false_of_ne (ne_of_mem_of_not_mem hb ht)

theorem splitOn_cons (ht : newline ∉ t) :
    (t ++ newline :: rest).splitOn newline = t :: rest.splitOn newline := by
  rw [List.splitOn_eq_splitOnP, List.splitOn_eq_splitOnP]
  exact List.splitOnP_append_cons_of_forall_mem
    (fun b hb => beq_false_of_ne (ne_of_mem_of_not_mem hb ht)) newline (beq_self_eq_true _) rest

theorem splitOn_ne_nil : data.splitOn newline ≠ [] := by
  rw [List.splitOn_eq_splitOnP]
  exact List.splitOnP_ne_nil _ _

/-- Induction over lines: data is one incomplete line, or begins with a complete one. -/
theorem lines_induction {P : Text → Prop} (line : ∀ t, newline ∉ t → P t)
    (cons : ∀ t rest, newline ∉ t → P rest → P (t ++ newline :: rest)) (data : Text) : P data := by
  suffices h : ∀ n, ∀ data : Text, data.length = n → P data from h _ data rfl
  intro n
  induction n using Nat.strongRecOn with
  | _ n ih =>
    intro data hlen
    by_cases hmem : newline ∈ data
    · obtain ⟨t, rest, rfl, ht⟩ := List.eq_append_cons_of_mem hmem
      refine cons t rest ht (ih rest.length ?_ rest rfl)
      rw [← hlen, List.length_append, List.length_cons]
      omega
    · exact line data hmem

theorem isEmpty_append (s t : Text) : isEmpty (s ++ t) = (isEmpty s && isEmpty t) := List.all_append

/-! ### What is printed -/

theorem print_append (p : Printed) (s t : Text) :
    p.print bad (s ++ t) = (p.print bad s).print bad t := List.foldl_append

theorem print_of_dead (hp : p.alive = false) : p.print bad data = p := by
  induction data with
  | nil => rfl
  | cons b data ih =>
    have hbyte : p.byte bad b = p := by rw [Printed.byte, hp]; rfl
    rw [Printed.print, List.foldl_cons, hbyte]
    exact ih

/-- The line goes on. -/
theorem print_line (hp : p.alive = true) (ht : newline ∉ t) :
    p.print bad t = { p with line := p.line ++ t } := by
  induction t generalizing p with
  | nil => simp [Printed.print]
  | cons b t ih =>
    obtain ⟨hb, ht⟩ := not_or.mp (List.mem_cons.not.mp ht)
    have hbyte : p.byte bad b = { p with line := p.line ++ [b] } := by
      have hne : b ≠ newline := Ne.symm hb
      simp [Printed.byte, hp, hne]
    rw [Printed.print, List.foldl_cons, hbyte]
    refine (ih (p := { p with line := p.line ++ [b] }) hp ht).trans ?_
    rw [List.append_assoc, List.singleton_append]

/-- The line ends. -/
theorem print_newline (hp : p.alive = true) (ht : newline ∉ t) :
    p.print bad (t ++ newline :: rest) = Printed.print bad
      (if isEmpty (p.line ++ t) then { p with line := [] }
        else { p with
          alive := !bad (p.line ++ t)
          line := []
          lines := p.lines ++ [(p.started, p.line ++ t)] }) rest := by
  rw [print_append, print_line hp ht]
  show (Printed.byte bad _ newline).print bad rest = _
  simp [Printed.byte, hp]

/-- Lines of white space are not to be parsed. -/
theorem print_blank (hp : p.alive = true) (hline : newline ∉ p.line)
    (h : ∀ line ∈ ((p.line ++ data).splitOn newline).dropLast, isEmpty line = true) :
    (p.print bad data).alive = true ∧ (p.print bad data).started = p.started ∧
      (p.print bad data).lines = p.lines := by
  induction data using lines_induction generalizing p with
  | line t ht =>
    rw [print_line hp ht]
    exact ⟨hp, rfl, rfl⟩
  | cons t rest ht ih =>
    have hwhole : newline ∉ p.line ++ t := by simp [hline, ht]
    rw [← List.append_assoc, splitOn_cons hwhole, List.dropLast_cons_of_ne_nil splitOn_ne_nil] at h
    rw [print_newline hp ht, if_pos (h _ List.mem_cons_self)]
    have hnext := ih (p := { p with line := [] }) hp (by simp)
      fun line hmem => h line (List.mem_cons_of_mem _ hmem)
    exact hnext

/-! ### What is parsed -/

/-- The bar knows the lines of the children. Of an incomplete line it has dropped white space at most,
and then all of it. -/
structure Related (b : Bar) (p : Printed) : Prop where
  alive : b.alive = p.alive
  started : b.started = p.started
  parsed : b.parsed = p.lines
  dead : b.alive = false → b.pendingLine = none
  line : b.alive = true → newline ∉ p.line ∧
    (b.pendingLine = some p.line ∧ isEmpty p.line = false ∨
      b.pendingLine = none ∧ isEmpty p.line = true)

theorem parse_rejected (hb : b.alive = true) (ht : bad t = true) : b.parseWorkspacesJson bad t =
    Bar.cleanup { b with parsed := b.parsed ++ [(b.started, t)] } := by
  simp only [Bar.parseWorkspacesJson, ht, if_true, Bar.killWsChild, hb]

theorem parse_accepted (ht : bad t = false) : b.parseWorkspacesJson bad t =
    { b with parsed := b.parsed ++ [(b.started, t)] } := by
  simp [Bar.parseWorkspacesJson, ht]

/-- There is nothing left to parse. -/
theorem readStrings_blank {strings : List Text} (hb : b.pendingLine = none)
    (h : ∀ u ∈ strings, isEmpty u = true) : b.readStrings bad strings = b := by
  induction strings with
  | nil => rfl
  | cons str rest ih =>
    rw [Bar.readStrings, if_pos ⟨hb, h str List.mem_cons_self⟩]
    exact ih fun u hu => h u (List.mem_cons_of_mem _ hu)

/-- A string that ends a line: with what is pending it is the whole line. -/
theorem Related.appendString (h : Related b p) (hb : b.alive = true)
    (hblank : b.pendingLine = none → p.line = [] ∨ isEmpty t = true)
    (hskip : ¬ (b.pendingLine = none ∧ isEmpty t = true)) :
    appendString b.pendingLine t = p.line ++ t ∧ isEmpty (p.line ++ t) = false := by
  rw [isEmpty_append]
  obtain ⟨-, ⟨hpending, hempty⟩ | ⟨hpending, hempty⟩⟩ := h.line hb
  · rw [WorkspaceCommand.appendString, hpending, hempty]
    exact ⟨rfl, rfl⟩
  · have ht : isEmpty t = false := by
      rw [← Bool.not_eq_true]
      exact fun ht => hskip ⟨hpending, ht⟩
    obtain hnil | ht' := hblank hpending
    · rw [WorkspaceCommand.appendString, hpending, hnil, ht]
      exact ⟨rfl, rfl⟩
    · exact absurd ht' (by simp [ht])

/-- **The texts of a read** are the lines that it completes. -/
theorem related_readStrings (h : Related b p) (hb : b.alive = true)
    (hblank : b.pendingLine = none → p.line = [] ∨
      ((data.splitOn newline).head?.all isEmpty) = true)
    (herror : EndsAtError bad ((p.line ++ data).splitOn newline)) :
    Related (b.readStrings bad (data.splitOn newline)) (p.print bad data) := by
  induction data using lines_induction generalizing b p with
  | line t ht =>
    have hp : p.alive = true := h.alive.symm.trans hb
    have hline := (h.line hb).1
    rw [splitOn_line ht] at hblank ⊢
    rw [print_line hp ht, Bar.readStrings]
    by_cases hskip : b.pendingLine = none ∧ isEmpty t = true
    · rw [if_pos hskip, Bar.readStrings]
      have hempty : isEmpty p.line = true := by
        obtain ⟨-, ⟨hpending, -⟩ | ⟨-, hempty⟩⟩ := h.line hb
        · rw [hskip.1] at hpending
          cases hpending
        · exact hempty
      refine ⟨h.alive, h.started, h.parsed, h.dead, fun _ => ⟨by simp [hline, ht], .inr ?_⟩⟩
      exact ⟨hskip.1, by rw [isEmpty_append, hempty, hskip.2]; rfl⟩
    · -- the data is saved for later
      obtain ⟨hwhole, hempty⟩ := h.appendString hb hblank hskip
      rw [if_neg hskip, if_pos rfl, Bar.readStrings, hwhole]
      refine ⟨h.alive, h.started, h.parsed, fun hdead => ?_, fun _ => ⟨by simp [hline, ht], .inl ?_⟩⟩
      · exact absurd hb (by simpa using hdead)
      · exact ⟨rfl, hempty⟩
  | cons t rest ht ih =>
    have hp : p.alive = true := h.alive.symm.trans hb
    have hline := (h.line hb).1
    have hwhole : newline ∉ p.line ++ t := by simp [hline, ht]
    rw [← List.append_assoc, splitOn_cons hwhole] at herror
    rw [splitOn_cons ht] at hblank ⊢
    rw [print_newline hp ht, Bar.readStrings, if_neg splitOn_ne_nil]
    have herrors : ((!isEmpty (p.line ++ t) && bad (p.line ++ t)) = true →
        ∀ u ∈ rest.splitOn newline, isEmpty u = true) ∧ EndsAtError bad (rest.splitOn newline) := by
      obtain ⟨u, us, hrest⟩ := List.exists_cons_of_ne_nil (splitOn_ne_nil : rest.splitOn newline ≠ [])
      rw [hrest] at herror ⊢
      exact herror
    by_cases hskip : b.pendingLine = none ∧ isEmpty t = true
    · have hempty : isEmpty p.line = true := by
        obtain ⟨-, ⟨hpending, -⟩ | ⟨-, hempty⟩⟩ := h.line hb
        · rw [hskip.1] at hpending
          cases hpending
        · exact hempty
      rw [if_pos hskip, isEmpty_append, hempty, hskip.2, Bool.and_self, if_pos rfl]
      have hnext : Related b { p with line := [] } :=
        ⟨h.alive, h.started, h.parsed, h.dead, fun _ => ⟨by simp, .inr ⟨hskip.1, rfl⟩⟩⟩
      exact ih hnext hb (fun _ => .inl rfl) herrors.2
    · obtain ⟨hstring, hempty⟩ := h.appendString hb hblank hskip
      rw [if_neg hskip, hstring, hempty, if_neg (by simp)]
      have hparsed : b.parsed ++ [(b.started, p.line ++ t)] =
          p.lines ++ [(p.started, p.line ++ t)] := by rw [h.parsed, h.started]
      by_cases hbad : bad (p.line ++ t) = true
      · -- the child is killed
        have hrest := herrors.1 (by simp [hempty, hbad])
        have hkilled := parse_rejected
          (b := { b with wsLastJson := some (p.line ++ t), pendingLine := none }) hb hbad
        dsimp only
        rw [print_of_dead (by simp [hbad]), hkilled, readStrings_blank rfl hrest]
        exact ⟨by simp [Bar.cleanup, hbad], h.started, hparsed, fun _ => rfl,
          fun halive => nomatch halive⟩
      · rw [Bool.not_eq_true] at hbad
        dsimp only
        rw [parse_accepted hbad, hbad]
        refine ih ?_ hb (fun _ => .inl rfl) herrors.2
        exact ⟨hb, h.started, hparsed, fun _ => rfl, fun _ => ⟨by simp, .inr ⟨rfl, rfl⟩⟩⟩

/-- The same up to the end of the output. -/
structure Sound (s : State) : Prop where
  alive : s.bar.alive = s.printed.alive
  started : s.bar.started = s.printed.started
  framed : s.Framed
  dead : s.bar.alive = false → s.bar.pendingLine = none
  related : s.atEof = false → Related s.bar s.printed

theorem Related.sound {s : State} (h : Related s.bar s.printed) : Sound s :=
  ⟨h.alive, h.started, h.parsed, h.dead, fun _ => h⟩

theorem Sound.alive_killed {s : State} (h : Sound s) :
    s.bar.killWsChild = { s.bar with alive := false, pendingLine := none } := by
  rw [Bar.killWsChild]
  split
  · rfl
  · next halive =>
    rw [Bool.not_eq_true] at halive
    rw [← halive, ← h.dead halive]

/-- Every allowed event keeps the bar and the children together. -/
theorem sound_step {s : State} (e : Event) (h : Sound s) (he : e.Enabled s)
    (ha : e.Allowed bad s) : Sound (step bad s e) := by
  cases e with
  | input reads last =>
    obtain ⟨hb, -, heof⟩ := he
    have hp : s.printed.alive = true := h.alive.symm.trans hb
    cases last with
    | eof =>
      -- the bar has received nothing, and there was no line to parse
      have hbar : s.bar.wsStdinIoCb bad .eof reads = s.bar := by
        rw [Bar.wsStdinIoCb, getBuffer_eof]
      have hprinted : (s.printed.print bad reads.flatten).alive = true ∧
          (s.printed.print bad reads.flatten).started = s.printed.started ∧
          (s.printed.print bad reads.flatten).lines = s.printed.lines := by
        by_cases hend : s.atEof = true
        · rw [(heof hend).1]
          exact ⟨hp, rfl, rfl⟩
        · rw [Bool.not_eq_true] at hend
          exact print_blank hp ((h.related hend).line hb).1 ha
      obtain ⟨halive, hstarted, hlines⟩ := hprinted
      refine ⟨?_, ?_, ?_, fun hdead => ?_, fun hopen => ?_⟩
      · exact (congrArg Bar.alive hbar).trans (hb.trans halive.symm)
      · exact (congrArg Bar.started hbar).trans (h.started.trans hstarted.symm)
      · exact (congrArg Bar.parsed hbar).trans (h.framed.trans hlines.symm)
      · exact absurd ((congrArg Bar.alive hbar).symm.trans hdead) (by simp [hb])
      · exact absurd hopen (by simp [step])
    | again =>
      have hopen : s.atEof = false := by
        rw [← Bool.not_eq_true]
        exact fun hend => nomatch (heof hend).2
      have hread : Related (s.bar.wsStdinIoCb bad .again reads)
          (s.printed.print bad reads.flatten) := by
        rw [Bar.wsStdinIoCb, getBuffer_again, List.nil_append]
        by_cases hnil : reads.flatten = []
        · rw [if_pos hnil, hnil]
          exact h.related hopen
        · rw [if_neg hnil]
          exact related_readStrings (h.related hopen) hb ha.1 ha.2
      exact ⟨hread.alive, hread.started, hread.parsed, hread.dead, fun _ => hread⟩
  | exited =>
    refine ⟨rfl, h.started, h.framed, fun _ => rfl, fun _ => ?_⟩
    exact ⟨rfl, h.started, h.framed, fun _ => rfl, fun halive => nomatch halive⟩
  | start =>
    refine Related.sound ?_
    show Related s.bar.killWsChild.startWsChild _
    rw [h.alive_killed]
    exact ⟨rfl, congrArg (· + 1) h.started, h.framed, (fun hdead => nomatch hdead),
      fun _ => ⟨List.not_mem_nil, .inr ⟨rfl, rfl⟩⟩⟩
  | stop =>
    refine Related.sound ?_
    show Related s.bar.killWsChild _
    rw [h.alive_killed]
    exact ⟨rfl, h.started, h.framed, fun _ => rfl, fun halive => nomatch halive⟩

theorem sound_start : Sound {} :=
  Related.sound ⟨rfl, rfl, rfl, fun _ => rfl, fun halive => nomatch halive⟩

/-- **The output is framed by lines**: after any run of allowed events the texts parsed are the lines
of each child that are complete and not blank, up to one that is rejected. -/
theorem framed_run {es : List Event} (hrun : Runs.Meets (step bad) Event.Enabled {} es)
    (hallowed : Runs.Meets (step bad) (Event.Allowed bad) {} es) :
    (Runs.after (step bad) {} es).Framed :=
  (Runs.invariant (fun _ e h he => sound_step e h he.1 he.2) sound_start
    ((Runs.meets_and _ _).mpr ⟨hrun, hallowed⟩)).framed

/-- A child prints `[]` in two pieces, a line without JSON that kills it, and a blank line; the next one
prints `[]`, a blank line and an incomplete line, and exits. -/
theorem framed_example : (Runs.after (step (· == [120])) {} [.start,
    .input [[91], [93, 10, 10]] .again, .input [[120]] .again, .input [[10, 32, 10]] .again,
    .start, .input [[91, 93, 10], [32, 10, 91]] .again, .input [[91]] .eof, .exited]).Framed :=
  framed_run (by decide +kernel) (by decide +kernel)

/-- A line without JSON is followed, in one read, by the start of another one. The child is killed, and
the start is joined with what the next child prints. -/
theorem not_framed_joined :
    Runs.Meets (step (· == [120])) Event.Enabled {}
      [.start, .input [[120, 10, 91]] .again, .start, .input [[91, 93, 10]] .again] ∧
    ¬ (Runs.after (step (· == [120])) {}
      [.start, .input [[120, 10, 91]] .again, .start, .input [[91, 93, 10]] .again]).Framed := by
  decide +kernel

end WorkspaceCommand

end I3
