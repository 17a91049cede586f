import Mathlib.Logic.Function.Basic
import Mathlib.Algebra.Order.Group.Int
import I3Aiwr.Lib.Runs
import I3Aiwr.Lib.Settings

/-!
# The status line

How i3bar takes in the output of a status command that uses the i3bar protocol: the callbacks of the
JSON parser in `src/i3bar/src/child.c`, and `read_json_input` with the call of `draw_bars` after it. The
output is an array of status lines, each an array of blocks, each a map; the values in a block are of any
kind. Beside the callbacks is what the protocol says of the same events: the blocks of the last status
line that is complete, and whether a line that came to its end in a read has an urgent block.

Texts are strings on the heap, and a block refers to them; blocks are copied without their texts. Strings
end at their first NUL.

## Main definitions

* `Event`: what the parser reports
* `State`, `State.callback`: the callbacks
* `Phase`, `Phase.next`: the grammar of the protocol, with the blocks of the line so far
* `BlockValue.ofMembers`: what a block says
* `Run`, `step`, `Run.Correct`
* `Input.Enabled`, `Input.Allowed`

## Main results

* `sound_json`: what each event keeps
* `correct_run`: the status line that is shown is the last complete one
* `not_correct_nested`: a map within a block adds a block
-/

namespace I3

namespace StatusLine

/-- The keys that the callbacks know. -/
inductive Key
  | fullText
  | shortText
  | color
  | background
  | border
  | markup
  | align
  | minWidth
  | name
  | instanceName
  | urgent
  | separator
  | separatorBlockWidth
  | borderTop
  | borderRight
  | borderBottom
  | borderLeft
  deriving DecidableEq, Repr

def Key.text : Key → String
  | .fullText => "full_text"
  | .shortText => "short_text"
  | .color => "color"
  | .background => "background"
  | .border => "border"
  | .markup => "markup"
  | .align => "align"
  | .minWidth => "min_width"
  | .name => "name"
  | .instanceName => "instance"
  | .urgent => "urgent"
  | .separator => "separator"
  | .separatorBlockWidth => "separator_block_width"
  | .borderTop => "border_top"
  | .borderRight => "border_right"
  | .borderBottom => "border_bottom"
  | .borderLeft => "border_left"

/-- The keys of texts that a block refers to. -/
def Key.texts : List Key :=
  [.fullText, .shortText, .color, .background, .border, .minWidth, .name, .instanceName]

def Key.numbers : List Key :=
  [.minWidth, .separatorBlockWidth, .borderTop, .borderRight, .borderBottom, .borderLeft]

def Key.all : List Key :=
  texts ++ [.markup, .align, .urgent, .separator, .separatorBlockWidth, .borderTop, .borderRight,
    .borderBottom, .borderLeft]

/-- The key that is meant: `strcasecmp` against each. -/
def key? (s : String) : Option Key := Key.all.find? fun k => s.toLower == k.text

inductive Align
  | left
  | center
  | right
  deriving DecidableEq, Repr

/-- A string on the heap. -/
structure Text where
  ref : ℕ
  value : String
  deriving DecidableEq, Repr

/-- `struct status_block`: the texts and the numbers by their keys. The text of `minWidth` is
`min_width_str`. -/
structure Block where
  texts : Key → Option Text := fun _ => none
  numbers : Key → ℕ := fun _ => 0
  urgent : Bool := false
  noSeparator : Bool := false
  pangoMarkup : Bool := false
  align : Align := .left

/-- The texts that `clear_statusline` frees. -/
def Block.refs (block : Block) : List ℕ :=
  Key.texts.filterMap fun k => (block.texts k).map Text.ref

/-- What the parser reports. -/
inductive Event
  | null
  | boolean (val : Bool)
  | integer (val : ℤ)
  | double
  | string (val : String)
  | startMap
  | mapKey (key : String)
  | endMap
  | startArray
  | endArray
  deriving DecidableEq, Repr

/-- The parser context, the two status lines and the heap. -/
structure State where
  hasUrgent : Bool := false
  lastMapKey : Option String := none
  block : Block := {}
  buffer : List Block := []
  head : List Block := []
  /-- The reference of the next string. -/
  fresh : ℕ := 0
  freed : List ℕ := []

/-- What the font measures, and the default width of a separator block. -/
structure Config where
  predictTextWidth : String → Bool → ℕ
  sepBlockWidth : ℕ

/-- `(uint32_t)val` -/
def toUint32 (val : ℤ) : ℕ := (val % 2 ^ 32).toNat

/-- A number that is not given. -/
def Config.default (config : Config) : Key → ℕ
  | .separatorBlockWidth => config.sepBlockWidth
  | .borderTop | .borderRight | .borderBottom | .borderLeft => 1
  | _ => 0

/-- The text of a block without `full_text`. -/
def specViolation : String := "SPEC VIOLATION: full_text is NULL!"

def isPango (val : String) : Bool := val.toLower == "pango"

def alignOf (val : String) : Align :=
  if val = "center" then .center else if val = "right" then .right else .left

namespace State

variable (config : Config) (s : State)

/-- `clear_statusline(&statusline_buffer, false)` -/
def startArray : State := { s with buffer := [] }

/-- `stdin_start_map` -/
def startMap : State := { s with block := { numbers := config.default } }

/-- `stdin_map_key` -/
def mapKey (key : String) : State := { s with lastMapKey := some key }

/-- `stdin_boolean`, with the key. -/
def boolean (key : String) (val : Bool) : State :=
  match key? key with
  | some .urgent => { s with block := { s.block with urgent := val } }
  | some .separator => { s with block := { s.block with noSeparator := !val } }
  | _ => s

/-- `stdin_string`, with the key. -/
def string (key : String) (val : String) : State :=
  match key? key with
  | some .markup => { s with block := { s.block with pangoMarkup := isPango val } }
  | some .align => { s with block := { s.block with align := alignOf val } }
  | some k =>
    if k ∈ Key.texts then
      { s with
        block := { s.block with texts := Function.update s.block.texts k (some ⟨s.fresh, val⟩) }
        fresh := s.fresh + 1 }
    else s
  | none => s

/-- `stdin_integer`, with the key. -/
def integer (key : String) (val : ℤ) : State :=
  match key? key with
  | some k =>
    if k ∈ Key.numbers then
      { s with
        block := { s.block with numbers := Function.update s.block.numbers k (toUint32 val) } }
    else s
  | none => s

/-- The block that `stdin_end_map` puts into the buffer. -/
def finished : Block :=
  { s.block with
    texts := Function.update s.block.texts .fullText
      (some ((s.block.texts .fullText).getD ⟨s.fresh, specViolation⟩))
    numbers :=
      match s.block.texts .minWidth with
      | some text => Function.update s.block.numbers .minWidth
          (config.predictTextWidth text.value s.block.pangoMarkup)
      | none => s.block.numbers }

/-- `stdin_end_map` -/
def endMap : State :=
  { s with
    hasUrgent := s.hasUrgent || s.block.urgent
    buffer := s.buffer ++ [s.finished config]
    fresh := s.fresh + 1 }

/-- `stdin_end_array`: what is shown is freed, and the buffer copied without its texts. -/
def endArray : State :=
  { s with
    freed := s.freed ++ s.head.flatMap Block.refs
    head := s.buffer }

/-- A callback. Without a key, a value cancels the parser. -/
def callback : Event → Option State
  | .null => some s
  | .double => some s
  | .boolean val => s.lastMapKey.map fun key => s.boolean key val
  | .integer val => s.lastMapKey.map fun key => s.integer key val
  | .string val => s.lastMapKey.map fun key => s.string key val
  | .startMap => some (s.startMap config)
  | .mapKey key => some (s.mapKey key)
  | .endMap => some (s.endMap config)
  | .startArray => some s.startArray
  | .endArray => some s.endArray

end State

/-! ### The protocol -/

/-- A value in a block. -/
inductive Value
  | null
  | boolean (val : Bool)
  | integer (val : ℤ)
  | double
  | string (val : String)
  | nested
  deriving DecidableEq, Repr

structure Member where
  key : String
  value : Value
  deriving DecidableEq, Repr

/-- The value of an event that is one. -/
def Event.value? : Event → Option Value
  | .null => some .null
  | .boolean val => some (.boolean val)
  | .integer val => some (.integer val)
  | .double => some .double
  | .string val => some (.string val)
  | _ => none

/-- An array or a map within a block; in a map a key comes next, or the value of one. -/
inductive Frame
  | array
  | mapKey
  | mapValue
  deriving DecidableEq, Repr

/-- How far the output has come, with the blocks of the line that is not complete yet. -/
inductive Phase
  | start
  | outer
  | line (blocks : List (List Member))
  | block (blocks : List (List Member)) (members : List Member)
  | value (blocks : List (List Member)) (members : List Member) (key : String)
  | nested (blocks : List (List Member)) (members : List Member) (frames : List Frame)
  | closed
  deriving DecidableEq, Repr

namespace Phase

/-- Within a value: the frames that are open after an event. -/
def nextFrames : List Frame → Event → Option (List Frame)
  | .array :: frames, .startArray => some (.array :: .array :: frames)
  | .array :: frames, .startMap => some (.mapKey :: .array :: frames)
  | .array :: frames, .endArray => some frames
  | .array :: frames, e => e.value?.map fun _ => .array :: frames
  | .mapKey :: frames, .mapKey _ => some (.mapValue :: frames)
  | .mapKey :: frames, .endMap => some frames
  | .mapValue :: frames, .startArray => some (.array :: .mapKey :: frames)
  | .mapValue :: frames, .startMap => some (.mapKey :: .mapKey :: frames)
  | .mapValue :: frames, e => e.value?.map fun _ => .mapKey :: frames
  | _, _ => none

/-- The grammar of the protocol. -/
def next : Phase → Event → Option Phase
  | .start, .startArray => some .outer
  | .outer, .startArray => some (.line [])
  | .outer, .endArray => some .closed
  | .line blocks, .startMap => some (.block blocks [])
  | .line _, .endArray => some .outer
  | .block blocks members, .mapKey key => some (.value blocks members key)
  | .block blocks members, .endMap => some (.line (blocks ++ [members]))
  | .value blocks members key, .startArray =>
    some (.nested blocks (members ++ [⟨key, .nested⟩]) [.array])
  | .value blocks members key, .startMap =>
    some (.nested blocks (members ++ [⟨key, .nested⟩]) [.mapKey])
  | .value blocks members key, e => e.value?.map fun v => .block blocks (members ++ [⟨key, v⟩])
  | .nested blocks members frames, e => (nextFrames frames e).map fun frames =>
    if frames = [] then .block blocks members else .nested blocks members frames
  | _, _ => none

/-- The line that an event completes. -/
def completed : Phase → Event → Option (List (List Member))
  | .line blocks, .endArray => some blocks
  | _, _ => none

end Phase

/-- What a block says. -/
structure BlockValue where
  texts : Key → Option String
  numbers : Key → ℕ
  urgent : Bool
  noSeparator : Bool
  pangoMarkup : Bool
  align : Align

namespace Member

variable (m : Member)

def textFor (k : Key) : Option String :=
  if key? m.key = some k then match m.value with
    | .string val => some val
    | _ => none
  else none

def numberFor (k : Key) : Option ℕ :=
  if key? m.key = some k then match m.value with
    | .integer val => some (toUint32 val)
    | _ => none
  else none

def booleanFor (k : Key) : Option Bool :=
  if key? m.key = some k then match m.value with
    | .boolean val => some val
    | _ => none
  else none

/-- `min_width` is a number, or a text that is measured. -/
def widthFor : Option (ℕ ⊕ String) := ((m.numberFor .minWidth).map .inl).or ((m.textFor .minWidth).map .inr)

end Member

open Settings in
/-- What a block says: of each key the last value of a kind that the key takes. -/
def BlockValue.ofMembers (config : Config) (members : List Member) : BlockValue :=
  let pangoMarkup := ((last (Member.textFor · .markup) members).map isPango).getD false
  { texts := fun k => if k = .fullText then
        some ((last (Member.textFor · .fullText) members).getD specViolation)
      else if k ∈ Key.texts then last (Member.textFor · k) members else none
    numbers := fun k => if k = .minWidth then
        match last Member.widthFor members with
        | some (.inl n) => n
        | some (.inr text) => config.predictTextWidth text pangoMarkup
        | none => 0
      else if k ∈ Key.numbers then (last (Member.numberFor · k) members).getD (config.default k)
      else config.default k
    urgent := (last (Member.booleanFor · .urgent) members).getD false
    noSeparator := ((last (Member.booleanFor · .separator) members).map not).getD false
    pangoMarkup := pangoMarkup
    align := ((last (Member.textFor · .align) members).map alignOf).getD .left }

/-- What a block of the status line says. -/
def Block.value (block : Block) : BlockValue where
  texts k := (block.texts k).map Text.value
  numbers := block.numbers
  urgent := block.urgent
  noSeparator := block.noSeparator
  pangoMarkup := block.pangoMarkup
  align := block.align

/-- An event of the parser, or the end of a read, after which the bars are drawn. -/
inductive Input
  | json (e : Event)
  | endOfRead
  deriving DecidableEq, Repr

/-- The bar, and what the protocol says of the events. -/
structure Run where
  bar : State := {}
  /-- A callback has cancelled the parser. -/
  cancelled : Bool := false
  phase : Phase := .start
  /-- The last status line that is complete. -/
  shown : List (List Member) := []
  /-- A line with an urgent block came to its end in this read. -/
  urgentLine : Bool := false
  /-- What `draw_bars` has been called with, and what it should have been called with. -/
  unhide : List Bool := []
  due : List Bool := []

/-- The block is urgent. -/
def isUrgent (members : List Member) : Bool :=
  (Settings.last (Member.booleanFor · .urgent) members).getD false

variable (config : Config)

def step (r : Run) : Input → Run
  | .json e =>
    { r with
      bar := if r.cancelled then r.bar else (r.bar.callback config e).getD r.bar
      cancelled := r.cancelled || (r.bar.callback config e).isNone
      phase := (r.phase.next e).getD r.phase
      shown := (r.phase.completed e).getD r.shown
      urgentLine := r.urgentLine || (r.phase.completed e).any (·.any isUrgent) }
  | .endOfRead =>
    { r with
      unhide := r.unhide ++ [!r.cancelled && r.bar.hasUrgent]
      due := r.due ++ [r.urgentLine]
      urgentLine := false }

/-- The events are those of the protocol. -/
def Input.Enabled (r : Run) : Input → Prop
  | .json e => (r.phase.next e).isSome
  | .endOfRead => True

/-- No text that has been freed is referred to. -/
def State.Live (s : State) : Prop := ∀ block ∈ s.head ++ s.buffer, ∀ ref ∈ block.refs, ref ∉ s.freed

/-- What is shown is the last complete status line, no text of it has been freed, and the bars were to
unhide when a line with an urgent block was complete. -/
structure Run.Correct (r : Run) : Prop where
  shown : r.bar.head.map Block.value = r.shown.map (BlockValue.ofMembers config)
  live : r.bar.Live
  unhide : r.unhide = r.due

/-- The last `min_width` of the block is a text, if any is. -/
def WidthLast (members : List Member) : Prop :=
  Settings.last (Member.textFor · .minWidth) members ≠ none →
    Settings.last Member.widthFor members =
      (Settings.last (Member.textFor · .minWidth) members).map .inr

/-- What the events are to keep to, when the last complete line is `shown`: there are no arrays and maps
within blocks, and the outer array is not closed after a line with blocks. -/
def Phase.Allowed (shown : List (List Member)) : Phase → Event → Prop
  | .value _ _ _, .startArray => False
  | .value _ _ _, .startMap => False
  | .outer, .endArray => shown = []
  | .block _ members, .endMap => WidthLast members
  | _, _ => True

instance (members : List Member) : Decidable (WidthLast members) :=
  inferInstanceAs (Decidable (_ → _))

instance (phase : Phase) (shown : List (List Member)) : DecidablePred (phase.Allowed shown) :=
  fun e => by unfold Phase.Allowed; split <;> infer_instance

/-- Besides, once there was an urgent block, each read ends a line with one. -/
def Input.Allowed (r : Run) : Input → Prop
  | .json e => r.phase.Allowed r.shown e
  | .endOfRead => r.bar.hasUrgent = true → r.urgentLine = true

instance (r : Run) : DecidablePred (Input.Enabled r)
  | .json e => inferInstanceAs (Decidable ((r.phase.next e).isSome = true))
  | .endOfRead => inferInstanceAs (Decidable True)

instance (r : Run) : DecidablePred (Input.Allowed r)
  | .json e => inferInstanceAs (Decidable (r.phase.Allowed r.shown e))
  | .endOfRead => inferInstanceAs (Decidable (r.bar.hasUrgent = true → r.urgentLine = true))

/-! ### Blocks -/

open Settings

variable {config} {s s' : State} {members : List Member} {blocks shown : List (List Member)}
  {key : String} {e : Event} {v : Value}

/-- The block under construction has the values of the members so far. -/
structure Built (config : Config) (members : List Member) (block : Block) : Prop where
  texts : ∀ k, (block.texts k).map Text.value =
    if k ∈ Key.texts then last (Member.textFor · k) members else none
  numbers : ∀ k, block.numbers k = (if k ∈ Key.numbers then last (Member.numberFor · k) members
    else none).getD (config.default k)
  urgent : block.urgent = (last (Member.booleanFor · .urgent) members).getD false
  noSeparator :
    block.noSeparator = ((last (Member.booleanFor · .separator) members).map not).getD false
  pangoMarkup : block.pangoMarkup = ((last (Member.textFor · .markup) members).map isPango).getD false
  align : block.align = ((last (Member.textFor · .align) members).map alignOf).getD .left

theorem built_nil : Built config [] { numbers := config.default } := by
  constructor <;> intros <;> simp [last]

/-- What a value does to the block under construction, and to nothing else. -/
structure Extended (config : Config) (s s' : State) (members : List Member) : Prop where
  built : Built config members s'.block
  head : s'.head = s.head
  buffer : s'.buffer = s.buffer
  freed : s'.freed = s.freed
  hasUrgent : s'.hasUrgent = s.hasUrgent
  fresh : s.fresh ≤ s'.fresh
  refs : ∀ ref ∈ s'.block.refs, ref ∈ s.block.refs ∨ s.fresh = ref ∧ ref < s'.fresh

/-- A value that is of no kind that its key takes. -/
theorem built_ignored (h : Built config members s.block)
    (htext : ∀ k, k ∈ Key.texts ∨ k = .markup ∨ k = .align → Member.textFor ⟨key, v⟩ k = none)
    (hnumber : ∀ k ∈ Key.numbers, Member.numberFor ⟨key, v⟩ k = none)
    (hboolean : ∀ k, k = .urgent ∨ k = .separator → Member.booleanFor ⟨key, v⟩ k = none) :
    Built config (members ++ [⟨key, v⟩]) s.block where
  texts k := by
    rw [h.texts]
    split
    · next hk => rw [last_concat, htext k (.inl hk), Option.none_or]
    · rfl
  numbers k := by
    rw [h.numbers]
    split
    · next hk => rw [last_concat, hnumber k hk, Option.none_or]
    · rfl
  urgent := by rw [h.urgent, last_concat, hboolean _ (.inl rfl), Option.none_or]
  noSeparator := by rw [h.noSeparator, last_concat, hboolean _ (.inr rfl), Option.none_or]
  pangoMarkup := by rw [h.pangoMarkup, last_concat, htext _ (.inr (.inl rfl)), Option.none_or]
  align := by rw [h.align, last_concat, htext _ (.inr (.inr rfl)), Option.none_or]

/-- The values by kinds. -/
theorem textFor_string (k : Key) (val : String) :
    Member.textFor ⟨key, .string val⟩ k = if key? key = some k then some val else none := rfl

theorem numberFor_integer (k : Key) (val : ℤ) :
    Member.numberFor ⟨key, .integer val⟩ k = if key? key = some k then some (toUint32 val) else none :=
  rfl

theorem booleanFor_boolean (k : Key) (val : Bool) :
    Member.booleanFor ⟨key, .boolean val⟩ k = if key? key = some k then some val else none := rfl

theorem textFor_eq_none (k : Key) (hv : ∀ val, v ≠ .string val) :
    Member.textFor ⟨key, v⟩ k = none := by
  rw [Member.textFor]
  split
  · cases v <;> first | rfl | exact absurd rfl (hv _)
  · rfl

theorem numberFor_eq_none (k : Key) (hv : ∀ val, v ≠ .integer val) :
    Member.numberFor ⟨key, v⟩ k = none := by
  rw [Member.numberFor]
  split
  · cases v <;> first | rfl | exact absurd rfl (hv _)
  · rfl

theorem booleanFor_eq_none (k : Key) (hv : ∀ val, v ≠ .boolean val) :
    Member.booleanFor ⟨key, v⟩ k = none := by
  rw [Member.booleanFor]
  split
  · cases v <;> first | rfl | exact absurd rfl (hv _)
  · rfl

/-- Nothing but the values of one key changes. -/
theorem Extended.of_block {block : Block} (hbuilt : Built config members block)
    (hrefs : block.texts = s.block.texts) : Extended config s { s with block := block } members where
  built := hbuilt
  head := rfl
  buffer := rfl
  freed := rfl
  hasUrgent := rfl
  fresh := le_refl _
  refs ref hr := by
    rw [Block.refs, hrefs] at hr
    exact .inl hr

theorem extended_boolean (h : Built config members s.block) (val : Bool) :
    Extended config s (s.boolean key val) (members ++ [⟨key, .boolean val⟩]) := by
  have htext : ∀ k, Member.textFor ⟨key, .boolean val⟩ k = none := fun k =>
    textFor_eq_none k fun _ h => nomatch h
  have hnumber : ∀ k, Member.numberFor ⟨key, .boolean val⟩ k = none := fun k =>
    numberFor_eq_none k fun _ h => nomatch h
  rw [State.boolean]
  split
  · next hkey =>
    refine .of_block ?_ rfl
    constructor <;> intros <;> simp [last_concat, htext, hnumber, booleanFor_boolean, hkey, h.texts,
      h.numbers, h.noSeparator, h.pangoMarkup, h.align]
  · next hkey =>
    refine .of_block ?_ rfl
    constructor <;> intros <;> simp [last_concat, htext, hnumber, booleanFor_boolean, hkey, h.texts,
      h.numbers, h.urgent, h.pangoMarkup, h.align]
  · next hurgent hseparator =>
    refine .of_block (built_ignored h (fun k _ => htext k) (fun k _ => hnumber k) ?_) rfl
    rintro k (rfl | rfl) <;> rw [booleanFor_boolean, if_neg]
    · exact hurgent
    · exact hseparator

theorem extended_integer (h : Built config members s.block) (val : ℤ) :
    Extended config s (s.integer key val) (members ++ [⟨key, .integer val⟩]) := by
  have htext : ∀ k, Member.textFor ⟨key, .integer val⟩ k = none := fun k =>
    textFor_eq_none k fun _ h => nomatch h
  have hboolean : ∀ k, Member.booleanFor ⟨key, .integer val⟩ k = none := fun k =>
    booleanFor_eq_none k fun _ h => nomatch h
  rw [State.integer]
  split
  · next k hkey =>
    split
    · next hk =>
      refine .of_block ⟨fun k' => ?_, fun k' => ?_, ?_, ?_, ?_, ?_⟩ rfl
      · simp [last_concat, htext, h.texts]
      · by_cases hk' : k' = k
        · subst hk'
          simp [last_concat, numberFor_integer, hkey, hk]
        · have hne : ¬ some k = some k' := fun heq => hk' (Option.some_inj.mp heq).symm
          simp [last_concat, numberFor_integer, hkey, hne, Function.update_of_ne hk', h.numbers]
      all_goals simp [last_concat, htext, hboolean, h.urgent, h.noSeparator, h.pangoMarkup, h.align]
    · next hk =>
      refine .of_block (built_ignored h (fun k _ => htext k) (fun k' hk' => ?_)
        fun k _ => hboolean k) rfl
      rw [numberFor_integer, hkey, if_neg]
      exact fun heq => hk (Option.some_inj.mp heq ▸ hk')
  · next hkey =>
    refine .of_block (built_ignored h (fun k _ => htext k) (fun k' hk' => ?_)
      fun k _ => hboolean k) rfl
    rw [numberFor_integer, hkey, if_neg]
    exact fun heq => nomatch heq

theorem refs_update {block : Block} {k : Key} {t : Text} {ref : ℕ}
    (h : ref ∈ Block.refs { block with texts := Function.update block.texts k (some t) }) :
    ref ∈ block.refs ∨ t.ref = ref := by
  obtain ⟨k', hk', href⟩ := List.mem_filterMap.mp h
  by_cases heq : k' = k
  · subst heq
    simp only [Function.update_self, Option.map_some, Option.some_inj] at href
    exact .inr href
  · simp only [Function.update_of_ne heq] at href
    exact .inl (List.mem_filterMap.mpr ⟨k', hk', href⟩)

theorem extended_string (h : Built config members s.block) (val : String) :
    Extended config s (s.string key val) (members ++ [⟨key, .string val⟩]) := by
  have hnumber : ∀ k, Member.numberFor ⟨key, .string val⟩ k = none := fun k =>
    numberFor_eq_none k fun _ h => nomatch h
  have hboolean : ∀ k, Member.booleanFor ⟨key, .string val⟩ k = none := fun k =>
    booleanFor_eq_none k fun _ h => nomatch h
  rw [State.string]
  split
  · next hkey =>
    have hmarkup : Key.markup ∉ Key.texts := by decide
    refine .of_block ⟨fun k => ?_, fun k => ?_, ?_, ?_, ?_, ?_⟩ rfl
    · have hne : k ∈ Key.texts → ¬ some Key.markup = some k := by
        rintro hk heq
        exact hmarkup (Option.some_inj.mp heq ▸ hk)
      rw [h.texts]
      split
      · next hk => rw [last_concat, textFor_string, hkey, if_neg (hne hk), Option.none_or]
      · rfl
    all_goals simp [last_concat, textFor_string, hnumber, hboolean, hkey, h.numbers, h.urgent,
      h.noSeparator, h.align]
  · next hkey =>
    have halign : Key.align ∉ Key.texts := by decide
    refine .of_block ⟨fun k => ?_, fun k => ?_, ?_, ?_, ?_, ?_⟩ rfl
    · have hne : k ∈ Key.texts → ¬ some Key.align = some k := by
        rintro hk heq
        exact halign (Option.some_inj.mp heq ▸ hk)
      rw [h.texts]
      split
      · next hk => rw [last_concat, textFor_string, hkey, if_neg (hne hk), Option.none_or]
      · rfl
    all_goals simp [last_concat, textFor_string, hnumber, hboolean, hkey, h.numbers, h.urgent,
      h.noSeparator, h.pangoMarkup]
  · next k hmarkup halign hkey =>
    have hnotMarkup : ¬ some k = some Key.markup := fun heq => hmarkup (Option.some_inj.mp heq)
    have hnotAlign : ¬ some k = some Key.align := fun heq => halign (Option.some_inj.mp heq)
    split
    · next hk =>
      -- the text is new on the heap
      refine ⟨⟨fun k' => ?_, fun k' => ?_, ?_, ?_, ?_, ?_⟩, rfl, rfl, rfl, rfl, Nat.le_succ _, ?_⟩
      · by_cases hk' : k' = k
        · subst hk'
          simp [last_concat, textFor_string, hkey, hk]
        · have hne : ¬ some k = some k' := fun heq => hk' (Option.some_inj.mp heq).symm
          simp [last_concat, textFor_string, hkey, hne, Function.update_of_ne hk', h.texts]
      · simp [last_concat, hnumber, h.numbers]
      · simp [last_concat, hboolean, h.urgent]
      · simp [last_concat, hboolean, h.noSeparator]
      · rw [last_concat, textFor_string, hkey, if_neg hnotMarkup, Option.none_or, ← h.pangoMarkup]
      · rw [last_concat, textFor_string, hkey, if_neg hnotAlign, Option.none_or, ← h.align]
      · intro ref hr
        refine (refs_update hr).imp_right fun href => ⟨href, ?_⟩
        rw [← href]
        exact Nat.lt_succ_self _
    · next hk =>
      refine .of_block (built_ignored h ?_ (fun k _ => hnumber k) fun k _ => hboolean k) rfl
      rintro k' (hk' | rfl | rfl) <;> rw [textFor_string, hkey, if_neg]
      · exact fun heq => hk (Option.some_inj.mp heq ▸ hk')
      · exact hnotMarkup
      · exact hnotAlign
  · next hkey =>
    refine .of_block (built_ignored h (fun k _ => ?_) (fun k _ => hnumber k)
      fun k _ => hboolean k) rfl
    rw [textFor_string, hkey, if_neg]
    exact fun heq => nomatch heq

/-- A value in a block. -/
theorem extended_callback (h : Built config members s.block) (hkey : s.lastMapKey = some key)
    (he : e.value? = some v) :
    ∃ s', s.callback config e = some s' ∧ Extended config s s' (members ++ [⟨key, v⟩]) := by
  have hignored : (∀ val, v ≠ .string val) → (∀ val, v ≠ .integer val) →
      (∀ val, v ≠ .boolean val) → Extended config s s (members ++ [⟨key, v⟩]) := fun ht hn hb =>
    .of_block (built_ignored h (fun k _ => textFor_eq_none k ht) (fun k _ => numberFor_eq_none k hn)
      fun k _ => booleanFor_eq_none k hb) rfl
  cases e <;> simp only [Event.value?, Option.some_inj, reduceCtorEq] at he <;> subst he
  · exact ⟨s, rfl, hignored (fun _ => nofun) (fun _ => nofun) fun _ => nofun⟩
  · exact ⟨_, by rw [State.callback, hkey]; rfl, extended_boolean h _⟩
  · exact ⟨_, by rw [State.callback, hkey]; rfl, extended_integer h _⟩
  · exact ⟨s, rfl, hignored (fun _ => nofun) (fun _ => nofun) fun _ => nofun⟩
  · exact ⟨_, by rw [State.callback, hkey]; rfl, extended_string h _⟩

theorem last_widthFor (h : last (Member.textFor · .minWidth) members = none) :
    last Member.widthFor members = (last (Member.numberFor · .minWidth) members).map .inl := by
  have hwidth : members.filterMap Member.widthFor =
      (members.filterMap (Member.numberFor · .minWidth)).map .inl := by
    rw [List.map_filterMap]
    refine List.filterMap_congr fun m hm => ?_
    rw [Member.widthFor, last_eq_none.mp h m hm, Option.map_none, Option.or_none]
  rw [last, hwidth, List.getLast?_map]
  rfl

/-- **A block that is complete** says what its members say. -/
theorem value_finished (h : Built config members s.block) (hwidth : WidthLast members) :
    (s.finished config).value = BlockValue.ofMembers config members := by
  have htexts : (s.finished config).value.texts = (BlockValue.ofMembers config members).texts := by
    ext1 k
    show (Function.update s.block.texts .fullText _ k).map Text.value = _
    by_cases hk : k = .fullText
    · subst hk
      have hfull := h.texts .fullText
      rw [if_pos (by decide)] at hfull
      rw [Function.update_self, BlockValue.ofMembers]
      dsimp only
      rw [if_pos rfl, ← hfull]
      cases s.block.texts .fullText <;> rfl
    · rw [Function.update_of_ne hk, h.texts, BlockValue.ofMembers]
      exact (if_neg hk).symm
  have hnumbers :
      (s.finished config).value.numbers = (BlockValue.ofMembers config members).numbers := by
    have htext := h.texts .minWidth
    rw [if_pos (by decide)] at htext
    have hother : ∀ k, k ≠ .minWidth → (if k ∈ Key.numbers then
        last (Member.numberFor · k) members else none).getD (config.default k) =
        (BlockValue.ofMembers config members).numbers k := by
      intro k hk
      rw [BlockValue.ofMembers]
      dsimp only
      rw [if_neg hk]
      split <;> rfl
    ext1 k
    show (match s.block.texts .minWidth with
      | some text => Function.update s.block.numbers .minWidth
          (config.predictTextWidth text.value s.block.pangoMarkup)
      | none => s.block.numbers) k = _
    cases hmin : s.block.texts .minWidth with
    | none =>
      dsimp only
      rw [h.numbers]
      by_cases hk : k = .minWidth
      · subst hk
        rw [hmin, Option.map_none] at htext
        rw [if_pos (by decide), BlockValue.ofMembers]
        dsimp only
        rw [if_pos rfl, last_widthFor htext.symm]
        cases last (Member.numberFor · .minWidth) members <;> rfl
      · exact hother k hk
    | some text =>
      dsimp only
      by_cases hk : k = .minWidth
      · subst hk
        rw [hmin, Option.map_some] at htext
        have hlast := hwidth (by rw [← htext]; exact nofun)
        rw [Function.update_self, BlockValue.ofMembers]
        dsimp only
        rw [if_pos rfl, hlast, ← htext, ← h.pangoMarkup]
        rfl
      · rw [Function.update_of_ne hk, h.numbers]
        exact hother k hk
  have hrest : (s.finished config).value =
      { BlockValue.ofMembers config members with
        texts := (s.finished config).value.texts
        numbers := (s.finished config).value.numbers } := by
    show BlockValue.mk _ _ s.block.urgent s.block.noSeparator s.block.pangoMarkup s.block.align = _
    rw [h.urgent, h.noSeparator, h.pangoMarkup, h.align]
    rfl
  rw [hrest, htexts, hnumbers]

theorem refs_finished {ref : ℕ} (h : ref ∈ (s.finished config).refs) :
    ref ∈ s.block.refs ∨ ref = s.fresh := by
  have hupdate : ref ∈ Block.refs { s.block with
      texts := Function.update s.block.texts .fullText
        (some ((s.block.texts .fullText).getD ⟨s.fresh, specViolation⟩)) } := h
  obtain hr | hr := refs_update hupdate
  · exact .inl hr
  · cases hfull : s.block.texts .fullText with
    | none =>
      rw [hfull] at hr
      exact .inr hr.symm
    | some text =>
      rw [hfull] at hr
      refine .inl (List.mem_filterMap.mpr ⟨.fullText, by decide, ?_⟩)
      rw [hfull]
      exact congrArg some hr

/-! ### The lists -/

/-- What holds of the two status lines at any time. -/
structure Sound (config : Config) (s : State) (shown : List (List Member)) : Prop where
  shown : s.head.map Block.value = shown.map (BlockValue.ofMembers config)
  live : s.Live
  fresh : ∀ block ∈ s.head ++ s.buffer, ∀ ref ∈ block.refs, ref < s.fresh
  freed : ∀ ref ∈ s.freed, ref < s.fresh

/-- The buffer has the blocks of the line, and shares no text with what is shown. -/
structure Filled (config : Config) (s : State) (blocks : List (List Member)) : Prop where
  buffer : s.buffer.map Block.value = blocks.map (BlockValue.ofMembers config)
  urgent : blocks.any isUrgent = true → s.hasUrgent = true
  apart : ∀ block ∈ s.buffer, ∀ ref ∈ block.refs, ∀ other ∈ s.head, ref ∉ other.refs

/-- The block under construction has the values of the members, and its texts are its own. -/
structure Open (config : Config) (s : State) (members : List Member) : Prop where
  built : Built config members s.block
  refs : ∀ ref ∈ s.block.refs, ref < s.fresh ∧ ref ∉ s.freed ∧ ∀ other ∈ s.head, ref ∉ other.refs

/-- What holds besides, from phase to phase. -/
def InPhase (config : Config) (s : State) : Phase → Prop
  | .start => s.head = [] ∧ s.buffer = []
  | .outer => s.buffer = s.head
  | .line blocks => Filled config s blocks
  | .block blocks members => Filled config s blocks ∧ Open config s members
  | .value blocks members key =>
    Filled config s blocks ∧ Open config s members ∧ s.lastMapKey = some key
  | .nested _ _ _ => False
  | .closed => True

namespace Sound

theorem startArray (h : Sound config s shown) : Sound config s.startArray shown where
  shown := h.shown
  live block hb := h.live block (List.mem_append_left _ (by simpa [State.startArray] using hb))
  fresh block hb := h.fresh block (List.mem_append_left _ (by simpa [State.startArray] using hb))
  freed := h.freed

/-- A line begins. -/
theorem filled_startArray : Filled config s.startArray [] :=
  ⟨rfl, (nomatch ·), fun _ hb => nomatch hb⟩

/-- A line is complete: what was shown is freed, and the line shares nothing with it. -/
theorem endArray (h : Sound config s shown) (hf : Filled config s blocks) :
    Sound config s.endArray blocks where
  shown := hf.buffer
  live block hb ref hr := by
    have hmem : block ∈ s.buffer := by simpa [State.endArray] using hb
    intro hfreed
    obtain hfreed | hfreed := List.mem_append.mp hfreed
    · exact h.live block (List.mem_append_right _ hmem) ref hr hfreed
    · obtain ⟨other, hother, hshared⟩ := List.mem_flatMap.mp hfreed
      exact hf.apart block hmem ref hr other hother hshared
  fresh block hb := by
    have hmem : block ∈ s.buffer := by simpa [State.endArray] using hb
    exact h.fresh block (List.mem_append_right _ hmem)
  freed ref hr := by
    obtain hr | hr := List.mem_append.mp hr
    · exact h.freed ref hr
    · obtain ⟨other, hother, hshared⟩ := List.mem_flatMap.mp hr
      exact h.fresh other (List.mem_append_left _ hother) ref hshared

/-- A block begins. -/
theorem open_startMap : Open config (s.startMap config) [] where
  built := built_nil
  refs ref hr := by
    simp [State.startMap, Block.refs] at hr

/-- A value in a block. -/
theorem extended (h : Sound config s shown) (hx : Extended config s s' members) :
    Sound config s' shown where
  shown := by rw [hx.head, h.shown]
  live block hb ref hr := by
    rw [hx.head, hx.buffer] at hb
    rw [hx.freed]
    exact h.live block hb ref hr
  fresh block hb ref hr := by
    rw [hx.head, hx.buffer] at hb
    exact (h.fresh block hb ref hr).trans_le hx.fresh
  freed ref hr := by
    rw [hx.freed] at hr
    exact (h.freed ref hr).trans_le hx.fresh

theorem filled_extended {ms : List Member} (hf : Filled config s blocks)
    (hx : Extended config s s' ms) : Filled config s' blocks where
  buffer := by rw [hx.buffer, hf.buffer]
  urgent hu := by rw [hx.hasUrgent, hf.urgent hu]
  apart := by rw [hx.buffer, hx.head]; exact hf.apart

theorem open_extended {ms : List Member} (h : Sound config s shown) (ho : Open config s members)
    (hx : Extended config s s' ms) : Open config s' ms where
  built := hx.built
  refs ref hr := by
    rw [hx.freed, hx.head]
    obtain hold | ⟨rfl, hnew⟩ := hx.refs ref hr
    · obtain ⟨hlt, hrest⟩ := ho.refs ref hold
      exact ⟨hlt.trans_le hx.fresh, hrest⟩
    · -- the text is newer than any other
      refine ⟨hnew, fun hfreed => (h.freed _ hfreed).false, fun other hother hshared => ?_⟩
      exact (h.fresh other (List.mem_append_left _ hother) _ hshared).false

/-- A block is complete. -/
theorem endMap (h : Sound config s shown) (ho : Open config s members) :
    Sound config (s.endMap config) shown where
  shown := h.shown
  live block hb ref hr := by
    obtain hb | hb : block ∈ s.head ++ s.buffer ∨ block = s.finished config := by
      simpa [State.endMap, or_assoc] using hb
    · exact h.live block hb ref hr
    · subst hb
      obtain hr | rfl := refs_finished hr
      · exact (ho.refs ref hr).2.1
      · exact fun hfreed => (h.freed _ hfreed).false
  fresh block hb ref hr := by
    obtain hb | hb : block ∈ s.head ++ s.buffer ∨ block = s.finished config := by
      simpa [State.endMap, or_assoc] using hb
    · exact (h.fresh block hb ref hr).trans (Nat.lt_succ_self _)
    · subst hb
      obtain hr | rfl := refs_finished hr
      · exact (ho.refs ref hr).1.trans (Nat.lt_succ_self _)
      · exact Nat.lt_succ_self _
  freed ref hr := (h.freed ref hr).trans (Nat.lt_succ_self _)

theorem filled_endMap (h : Sound config s shown) (hf : Filled config s blocks)
    (ho : Open config s members) (hwidth : WidthLast members) :
    Filled config (s.endMap config) (blocks ++ [members]) where
  buffer := by
    show (s.buffer ++ [s.finished config]).map Block.value = _
    rw [List.map_append, hf.buffer, List.map_append, List.map_singleton, List.map_singleton,
      value_finished ho.built hwidth]
  urgent hu := by
    rw [List.any_append, Bool.or_eq_true] at hu
    show (s.hasUrgent || s.block.urgent) = true
    rw [Bool.or_eq_true]
    refine hu.imp hf.urgent fun hu => ?_
    rw [ho.built.urgent]
    simpa [isUrgent] using hu
  apart block hb ref hr other hother := by
    obtain hb | hb := List.mem_append.mp hb
    · exact hf.apart block hb ref hr other hother
    · rw [List.mem_singleton] at hb
      subst hb
      obtain hr | rfl := refs_finished hr
      · exact (ho.refs ref hr).2.2 other hother
      · exact fun hshared => (h.fresh other (List.mem_append_left _ hother) _ hshared).false

end Sound

variable {phase phase' : Phase}

/-- **Each event** of the protocol that is allowed is taken in as the protocol says. -/
theorem sound_callback (h : Sound config s shown) (hp : InPhase config s phase)
    (hnext : phase.next e = some phase') (hallowed : phase.Allowed shown e) :
    ∃ s', s.callback config e = some s' ∧ Sound config s' ((phase.completed e).getD shown) ∧
      InPhase config s' phase' ∧ (s.hasUrgent = true → s'.hasUrgent = true) ∧
      ((phase.completed e).any (·.any isUrgent) = true → s'.hasUrgent = true) := by
  cases phase with
  | start =>
    cases e <;> simp only [Phase.next, Option.some_inj, reduceCtorEq] at hnext
    subst hnext
    exact ⟨_, rfl, h.startArray, hp.1.symm, id, (nomatch ·)⟩
  | outer =>
    cases e <;> simp only [Phase.next, Option.some_inj, reduceCtorEq] at hnext <;> subst hnext
    · exact ⟨_, rfl, h.startArray, Sound.filled_startArray, id, (nomatch ·)⟩
    · -- nothing is shown, and nothing freed
      have hshown : shown = [] := hallowed
      subst hshown
      have hhead : s.head = [] := by simpa using h.shown
      have hbuffer : s.buffer = [] := hp.trans hhead
      have hfilled : Filled config s [] :=
        ⟨by rw [hbuffer]; rfl, (nomatch ·), fun _ hb => by rw [hbuffer] at hb; cases hb⟩
      exact ⟨_, rfl, h.endArray hfilled, trivial, id, (nomatch ·)⟩
  | line blocks =>
    cases e <;> simp only [Phase.next, Option.some_inj, reduceCtorEq] at hnext <;> subst hnext
    · exact ⟨_, rfl, ⟨h.shown, h.live, h.fresh, h.freed⟩,
        ⟨⟨hp.buffer, hp.urgent, hp.apart⟩, Sound.open_startMap⟩, id, (nomatch ·)⟩
    · exact ⟨_, rfl, h.endArray hp, rfl, id, hp.urgent⟩
  | block blocks members =>
    obtain ⟨hf, ho⟩ := hp
    cases e <;> simp only [Phase.next, Option.some_inj, reduceCtorEq] at hnext <;> subst hnext
    · exact ⟨_, rfl, ⟨h.shown, h.live, h.fresh, h.freed⟩,
        ⟨⟨hf.buffer, hf.urgent, hf.apart⟩, ⟨ho.built, ho.refs⟩, rfl⟩, id, (nomatch ·)⟩
    · refine ⟨_, rfl, h.endMap ho, Sound.filled_endMap h hf ho hallowed, fun hu => ?_, (nomatch ·)⟩
      exact Bool.or_eq_true_iff.mpr (.inl hu)
  | value blocks members key =>
    obtain ⟨hf, ho, hkey⟩ := hp
    have hscalar : ∃ v, e.value? = some v ∧ phase' = .block blocks (members ++ [⟨key, v⟩]) ∧
        (Phase.value blocks members key).completed e = none := by
      cases e <;> simp only [Phase.next, Event.value?, Option.map_some, Option.map_none,
        Option.some_inj, reduceCtorEq] at hnext
      case startMap => exact hallowed.elim
      case startArray => exact hallowed.elim
      all_goals exact ⟨_, rfl, hnext.symm, rfl⟩
    obtain ⟨v, hv, rfl, hcompleted⟩ := hscalar
    obtain ⟨s', hs', hx⟩ := extended_callback ho.built hkey hv
    rw [hcompleted]
    refine ⟨s', hs', h.extended hx, ⟨Sound.filled_extended hf hx, h.open_extended ho hx⟩, ?_,
      (nomatch ·)⟩
    rw [hx.hasUrgent]
    exact id
  | nested => exact hp.elim
  | closed => cases e <;> simp only [Phase.next, reduceCtorEq] at hnext

/-- What holds of the bar and the protocol together. -/
structure RunSound (config : Config) (r : Run) : Prop where
  cancelled : r.cancelled = false
  bar : Sound config r.bar r.shown
  phase : InPhase config r.bar r.phase
  urgentLine : r.urgentLine = true → r.bar.hasUrgent = true
  unhide : r.unhide = r.due

theorem RunSound.correct {r : Run} (h : RunSound config r) : r.Correct config :=
  ⟨h.bar.shown, h.bar.live, h.unhide⟩

theorem runSound_step {r : Run} (i : Input) (h : RunSound config r) (hi : i.Enabled r)
    (hallowed : i.Allowed r) : RunSound config (step config r i) := by
  cases i with
  | json e =>
    obtain ⟨phase', hnext⟩ := Option.isSome_iff_exists.mp hi
    obtain ⟨s', hs', hsound, hphase, hkept, hurgent⟩ :=
      sound_callback h.bar h.phase hnext hallowed
    have hstep : step config r (.json e) =
        { r with
          bar := s'
          cancelled := false
          phase := phase'
          shown := (r.phase.completed e).getD r.shown
          urgentLine := r.urgentLine || (r.phase.completed e).any (·.any isUrgent) } := by
      simp [step, h.cancelled, hs', hnext]
    rw [hstep]
    refine ⟨rfl, hsound, hphase, fun hu => ?_, h.unhide⟩
    exact (Bool.or_eq_true_iff.mp hu).elim (fun hu => hkept (h.urgentLine hu)) hurgent
  | endOfRead =>
    have hdue : (!r.cancelled && r.bar.hasUrgent) = r.urgentLine := by
      rw [h.cancelled, Bool.not_false, Bool.true_and, Bool.eq_iff_iff]
      exact ⟨hallowed, h.urgentLine⟩
    refine ⟨h.cancelled, h.bar, h.phase, (nomatch ·), ?_⟩
    show r.unhide ++ [!r.cancelled && r.bar.hasUrgent] = r.due ++ [r.urgentLine]
    rw [hdue, h.unhide]

theorem runSound_start : RunSound config {} :=
  ⟨rfl, ⟨rfl, (fun _ hb => nomatch hb), (fun _ hb => nomatch hb), (fun _ hr => nomatch hr)⟩, ⟨rfl, rfl⟩,
    (nomatch ·), rfl⟩

/-- **i3bar shows the last complete status line**, at any time in a run of allowed events. -/
theorem correct_run {is : List Input} (hrun : Runs.Meets (step config) Input.Enabled {} is)
    (hallowed : Runs.Meets (step config) Input.Allowed {} is) :
    (Runs.after (step config) {} is).Correct config :=
  (Runs.invariant (fun _ i h hi => runSound_step i h hi.1 hi.2) runSound_start
    ((Runs.meets_and _ _).mpr ⟨hrun, hallowed⟩)).correct

/-- A line with a block of two values, cut in two reads, and a line with an urgent block. -/
theorem correct_example : (Runs.after (step ⟨fun _ _ => 0, 9⟩) {} [.json .startArray, .json .startArray,
    .json .startMap, .json (.mapKey "full_text"), .endOfRead, .json (.string "a"),
    .json (.mapKey "_id"), .json .double, .json .endMap, .json .endArray, .endOfRead,
    .json .startArray, .json .startMap, .json (.mapKey "Urgent"), .json (.boolean true),
    .json .endMap, .json .endArray, .endOfRead]).Correct ⟨fun _ _ => 0, 9⟩ :=
  correct_run (by decide +kernel) (by decide +kernel)

/-- A block whose entry `_id` is an empty map: the line that is shown has two blocks. -/
def nestedMap : List Input := [.json .startArray, .json .startArray, .json .startMap,
  .json (.mapKey "_id"), .json .startMap, .json .endMap, .json .endMap, .json .endArray]

theorem not_correct_nested : Runs.Meets (step ⟨fun _ _ => 0, 9⟩) Input.Enabled {} nestedMap ∧
    ¬ (Runs.after (step ⟨fun _ _ => 0, 9⟩) {} nestedMap).Correct ⟨fun _ _ => 0, 9⟩ := by
  refine ⟨by decide +kernel, fun hcorrect => ?_⟩
  have hlength := congrArg List.length hcorrect.shown
  rw [List.length_map, List.length_map] at hlength
  revert hlength
  decide +kernel

end StatusLine

end I3
