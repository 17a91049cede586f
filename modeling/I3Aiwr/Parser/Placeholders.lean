import Mathlib.Data.List.Basic
import Mathlib.Tactic.Linarith

/-!
# Placeholders in a format

`format_placeholders` of `src/libi3/format_placeholders.c` puts values in place of names such as `%title`.
A first pass over the format finds how long the text gets, and a second one writes it to a buffer of that
length. The first pass looks for a name at every character, the second one at a `%` only; the values are
written as they are and not looked at again. The lengths are those of strings in memory.

## Main definitions

* `bufferLen`, `writeBuffer`: the two passes
* `formatPlaceholders`
* `Formatted`: the text that the format stands for

## Main results

* `Formatted.unique`: there is one such text
* `exists_passes`: what both passes do with a part of the format
* `formatPlaceholders_eq`: the text is written, and it fills the buffer
-/

namespace I3.Parser

/-- `placeholder_t`: the names begin with a `%`. -/
structure Placeholder where
  name : List Char
  value : List Char
  percent : name.head? = some '%'

/-- The placeholders of `con_parse_title_format`. -/
def titlePlaceholders (title cls inst machine : List Char) : List Placeholder :=
  [⟨"%title".toList, title, rfl⟩, ⟨"%class".toList, cls, rfl⟩, ⟨"%instance".toList, inst, rfl⟩,
    ⟨"%machine".toList, machine, rfl⟩]

variable (placeholders : List Placeholder)

/-- The first placeholder whose name stands at `walk`, with `CS_STARTS_WITH`. -/
def firstMatch (walk : List Char) : Option Placeholder :=
  placeholders.find? fun p => p.name.isPrefixOf walk

/-- The first pass. Behind a match `walk` is moved on by the length of the name, less the one that the
loop adds. -/
def bufferLen (walk : List Char) (len : ℤ) : ℤ :=
  match walk with
  | [] => len
  | c :: rest =>
    match firstMatch placeholders (c :: rest) with
    | none => bufferLen rest len
    | some p => bufferLen (rest.drop (p.name.length - 1)) (len - p.name.length + p.value.length)
termination_by walk.length

/-- What is written behind `buffer`, with the NUL byte that `sprintf` writes behind a value, is in a
buffer of length `len`. -/
def append (len : ℤ) (buffer written : List Char) : Option (List Char) :=
  if (buffer.length + written.length + 1 : ℤ) ≤ len then some (buffer ++ written) else none

/-- The second pass, with what is in the buffer so far; `none` where something is written behind its end.
A single character has no NUL byte behind it. -/
def writeBuffer (len : ℤ) (walk buffer : List Char) : Option (List Char) :=
  match walk with
  | [] => append len buffer []
  | c :: rest =>
    if c ≠ '%' then
      if (buffer.length + 1 : ℤ) ≤ len then writeBuffer len rest (buffer ++ [c]) else none
    else
      match firstMatch placeholders (c :: rest) with
      | none => if (buffer.length + 1 : ℤ) ≤ len then writeBuffer len rest (buffer ++ [c]) else none
      | some p =>
        match append len buffer p.value with
        | none => none
        | some buffer => writeBuffer len (rest.drop (p.name.length - 1)) buffer
termination_by walk.length

/-- What `format_placeholders` does. -/
inductive Outcome
  | null
  /-- Something is written behind the end of the buffer. -/
  | outside
  | text (s : List Char)
  deriving DecidableEq, Repr

def formatPlaceholders : Option (List Char) → Outcome
  | none => .null
  | some format =>
    match writeBuffer placeholders (bufferLen placeholders format (format.length + 1)) format [] with
    | none => .outside
    | some s => .text s

/-- `p` is the first placeholder whose name the text begins with. -/
def FirstAt (p : Placeholder) (text : List Char) : Prop :=
  ∃ pre post, placeholders = pre ++ p :: post ∧ p.name <+: text ∧ ∀ q ∈ pre, ¬ q.name <+: text

/-- **The text that a format stands for**: at each place the value of the first placeholder that stands
there, and every other character as it is. -/
inductive Formatted : List Char → List Char → Prop
  | nil : Formatted [] []
  | replace {p : Placeholder} {rest out : List Char} : FirstAt placeholders p (p.name ++ rest) →
      Formatted rest out → Formatted (p.name ++ rest) (p.value ++ out)
  | copy {c : Char} {rest out : List Char} : (∀ p ∈ placeholders, ¬ p.name <+: c :: rest) →
      Formatted rest out → Formatted (c :: rest) (c :: out)

variable {placeholders} {text out out' rest buffer : List Char} {p q : Placeholder} {len : ℤ}

theorem Placeholder.name_eq (p : Placeholder) : ∃ rest, p.name = '%' :: rest := by
  have h := p.percent
  cases hname : p.name with
  | nil =>
    rw [hname] at h
    cases h
  | cons c rest =>
    rw [hname] at h
    cases h
    exact ⟨rest, rfl⟩

/-- A name stands at a `%` only. -/
theorem Placeholder.eq_percent {c : Char} (h : p.name <+: c :: rest) : c = '%' := by
  obtain ⟨name, hname⟩ := p.name_eq
  rw [hname] at h
  exact (List.cons_prefix_cons.mp h).1.symm

theorem FirstAt.mem (h : FirstAt placeholders p text) : p ∈ placeholders := by
  obtain ⟨pre, post, rfl, -, -⟩ := h
  simp

theorem firstMatch_eq_some : firstMatch placeholders text = some p ↔ FirstAt placeholders p text := by
  rw [firstMatch, List.find?_eq_some_iff_append]
  simp only [List.isPrefixOf_iff_prefix, Bool.not_eq_true', FirstAt]
  constructor
  · rintro ⟨hname, pre, post, rfl, hpre⟩
    refine ⟨pre, post, rfl, hname, fun q hq hprefix => ?_⟩
    have := hpre q hq
    rw [List.isPrefixOf_iff_prefix.mpr hprefix] at this
    cases this
  · rintro ⟨pre, post, rfl, hname, hpre⟩
    refine ⟨hname, pre, post, rfl, fun q hq => ?_⟩
    rw [← Bool.not_eq_true, List.isPrefixOf_iff_prefix]
    exact hpre q hq

theorem firstMatch_eq_none :
    firstMatch placeholders text = none ↔ ∀ p ∈ placeholders, ¬ p.name <+: text := by
  simp [firstMatch, List.find?_eq_none]

theorem FirstAt.unique (h : FirstAt placeholders p text) (h' : FirstAt placeholders q text) : p = q :=
  Option.some_inj.mp ((firstMatch_eq_some.mpr h).symm.trans (firstMatch_eq_some.mpr h'))

/-- **There is one text** for a format. -/
theorem Formatted.unique (h : Formatted placeholders text out) (h' : Formatted placeholders text out') :
    out = out' := by
  induction h generalizing out' with
  | nil =>
    generalize hnil : ([] : List Char) = text at h'
    cases h' with
    | nil => rfl
    | replace hfirst _ =>
      obtain ⟨name, hname⟩ := Placeholder.name_eq _
      rw [hname] at hnil
      cases hnil
    | copy _ _ => cases hnil
  | @replace p rest out hfirst _ ih =>
    generalize htext : p.name ++ rest = text at h'
    cases h' with
    | nil =>
      obtain ⟨name, hname⟩ := p.name_eq
      rw [hname] at htext
      cases htext
    | @replace q rest' out' hfirst' hrest' =>
      rw [htext] at hfirst
      have hpq := hfirst.unique hfirst'
      subst hpq
      rw [ih ((List.append_cancel_left htext) ▸ hrest')]
    | copy hnone _ =>
      rw [htext] at hfirst
      obtain ⟨pre, post, hlist, hname, -⟩ := hfirst
      exact absurd hname (hnone p (by simp [hlist]))
  | @copy c rest out hnone _ ih =>
    generalize htext : c :: rest = text at h'
    cases h' with
    | nil => cases htext
    | @replace q rest' out' hfirst' hrest' =>
      rw [htext] at hnone
      obtain ⟨pre, post, hlist, hname, -⟩ := hfirst'
      exact absurd hname (hnone q (by simp [hlist]))
    | copy _ hrest' =>
      cases htext
      rw [ih hrest']

/-- **Both passes** over a part of the format: they find the text that it stands for, the first one its
length and the second one the text itself, if the buffer has room for it. -/
theorem exists_passes (placeholders : List Placeholder) (text : List Char) : ∃ out, Formatted placeholders text out
    ∧ (∀ len, bufferLen placeholders text len = len - text.length + out.length)
    ∧ ∀ (len : ℤ) (buffer : List Char), (buffer.length + out.length + 1 : ℤ) ≤ len →
      writeBuffer placeholders len text buffer = some (buffer ++ out) := by
  induction hn : text.length using Nat.strong_induction_on generalizing text with
  | _ n ih =>
    subst hn
    cases text with
    | nil =>
      refine ⟨[], .nil, fun len => ?_, fun len buffer hlen => ?_⟩
      · rw [bufferLen]
        simp
      · rw [writeBuffer, append, if_pos (by simpa using hlen)]
    | cons c rest =>
      cases hfirst : firstMatch placeholders (c :: rest) with
      | none =>
        obtain ⟨out, hout, hcount, hwrite⟩ := ih rest.length (by simp) rest rfl
        refine ⟨c :: out, .copy (firstMatch_eq_none.mp hfirst) hout, fun len => ?_,
          fun len buffer hlen => ?_⟩
        · rw [bufferLen, hfirst]
          dsimp only
          rw [hcount, List.length_cons, List.length_cons]
          push_cast
          omega
        · rw [List.length_cons] at hlen
          push_cast at hlen
          have hroom : (buffer.length + 1 : ℤ) ≤ len := by omega
          have hrest := hwrite len (buffer ++ [c]) (by simp; omega)
          rw [writeBuffer, hfirst]
          simp [hroom, hrest]
      | some p =>
        have hfirstAt := firstMatch_eq_some.mp hfirst
        obtain ⟨pre, post, -, ⟨tail, htail⟩, -⟩ := id hfirstAt
        obtain ⟨name, hname⟩ := p.name_eq
        -- behind the match both passes go on with what follows the name
        rw [hname, List.cons_append] at htail
        obtain ⟨rfl, rfl⟩ := List.cons.inj htail
        have hdrop : (name ++ tail).drop (p.name.length - 1) = tail := by
          rw [hname, List.length_cons, Nat.add_sub_cancel, List.drop_left]
        obtain ⟨out, hout, hcount, hwrite⟩ := ih tail.length (by rw [List.length_cons, List.length_append]; omega) tail rfl
        refine ⟨p.value ++ out, ?_, fun len => ?_, fun len buffer hlen => ?_⟩
        · rw [← List.cons_append, ← hname] at hfirstAt ⊢
          exact .replace hfirstAt hout
        · rw [bufferLen, hfirst]
          dsimp only
          rw [hdrop, hcount, hname]
          simp only [List.length_cons, List.length_append]
          push_cast
          omega
        · rw [List.length_append] at hlen
          push_cast at hlen
          have happend : append len buffer p.value = some (buffer ++ p.value) := by
            rw [append, if_pos (by omega)]
          have hrest := hwrite len (buffer ++ p.value) (by simp; omega)
          rw [writeBuffer, if_neg (by simp), hfirst]
          dsimp only
          rw [happend]
          dsimp only
          rw [hdrop, hrest, List.append_assoc]

/-- A title with a name of a placeholder in it is not looked at again. -/
example : formatPlaceholders (titlePlaceholders "%class".toList [] [] []) (some "<%title>%".toList)
    = .text "<%class>%".toList := by
  simp [formatPlaceholders, writeBuffer, bufferLen, firstMatch, titlePlaceholders, append, List.isPrefixOf]

end I3.Parser
