import Mathlib.Data.List.TakeDrop
import I3Aiwr.Parser.CommandParser
import I3Aiwr.Parser.ConfigParser

/-!
# The parsers go forward

A token that matches takes something off the front of the text, unless it is an empty literal, and
one that fails leaves the parser at a position behind the one it was tried at. An `end` or `line`
token of the configuration takes a newline, or the terminating 0-byte.

## Main definitions

* `Advances walk lines`: what comes of trying a token at `walk`

## Main results

* `advances_scanConfig`, `advances_scanCommand`
* `advances_of_matchToken`
-/

namespace I3.Parser

/-- What comes of trying a token at `walk`: something is taken off the front, with some newlines, or
the next token is tried further behind. -/
def Advances (walk : Text) (lines : ℕ) : Scan → Prop
  | .matched _ rest => ∀ r ∈ rest, ∃ pre, pre ≠ [] ∧ walk = pre ++ r ∧ lines ≤ pre.countP isNewline
  | .failed walk' => walk' <:+ walk

section Scans

variable {walk : Text}

theorem stripLiteral_spec {literal walk rest : Text} (h : stripLiteral literal walk = some rest) :
    ∃ pre, pre.length = literal.length ∧ walk = pre ++ rest := by
  induction literal generalizing walk with
  | nil =>
    obtain rfl := Option.some.inj h
    exact ⟨[], rfl, rfl⟩
  | cons l ls ih =>
    cases walk with
    | nil => cases h
    | cons c cs =>
      rw [stripLiteral] at h
      split at h
      · obtain ⟨pre, hlength, rfl⟩ := ih h
        exact ⟨c :: pre, by simp [hlength], rfl⟩
      · cases h

theorem advances_literal {text : String} (htext : text ≠ "") : Advances walk 0 (.literal text walk) := by
  rw [Scan.literal]
  split
  · exact List.suffix_refl walk
  · next rest hrest =>
    intro r hr
    obtain rfl : rest = r := Option.some.inj hr
    obtain ⟨pre, hlength, hwalk⟩ := stripLiteral_spec hrest
    refine ⟨pre, ?_, hwalk, Nat.zero_le _⟩
    rintro rfl
    exact htext (by simpa using hlength.symm)

theorem digits_spec (n : ℕ) (walk : Text) : (digits n walk).2 <:+ walk := by
  induction walk generalizing n with
  | nil => exact List.suffix_refl _
  | cons c cs ih =>
    rw [digits]
    split
    · exact (ih _).trans (List.suffix_cons c cs)
    · exact List.suffix_refl _

theorem signed_spec {sign n : ℤ} {walk rest : Text} (h : signed sign walk = some (n, rest)) :
    ∃ pre, pre ≠ [] ∧ walk = pre ++ rest := by
  cases walk with
  | nil => cases h
  | cons c cs =>
    rw [signed] at h
    split at h
    · next hc =>
      obtain ⟨-, hrest⟩ := Prod.mk.inj (Option.some.inj h)
      rw [digits, if_pos hc] at hrest
      obtain ⟨pre, hpre⟩ := digits_spec (10 * 0 + (c.toNat - '0'.toNat)) cs
      exact ⟨c :: pre, by simp, by rw [← hrest, List.cons_append, hpre]⟩
    · cases h

theorem strtol_spec {n : ℤ} {rest : Text} (h : strtol walk = some (n, rest)) :
    ∃ pre, pre ≠ [] ∧ walk = pre ++ rest := by
  have hspaces : walk = walk.takeWhile isSpace ++ walk.dropWhile isSpace :=
    List.takeWhile_append_dropWhile.symm
  rw [strtol] at h
  split at h
  · next cs hcs =>
    obtain ⟨pre, -, rfl⟩ := signed_spec h
    rw [hcs] at hspaces
    exact ⟨walk.takeWhile isSpace ++ '-' :: pre, by simp, hspaces.trans (by simp)⟩
  · next cs hcs =>
    obtain ⟨pre, -, rfl⟩ := signed_spec h
    rw [hcs] at hspaces
    exact ⟨walk.takeWhile isSpace ++ '+' :: pre, by simp, hspaces.trans (by simp)⟩
  · obtain ⟨pre, hpre, hwalk⟩ := signed_spec h
    refine ⟨walk.takeWhile isSpace ++ pre, by simp [hpre], ?_⟩
    rw [List.append_assoc, ← hwalk]
    exact hspaces

theorem advances_number : Advances walk 0 (.number walk) := by
  rw [Scan.number]
  split
  · exact List.suffix_refl walk
  · next n rest hrest =>
    split
    · intro r hr
      obtain rfl : rest = r := Option.some.inj hr
      obtain ⟨pre, hpre, hwalk⟩ := strtol_spec hrest
      exact ⟨pre, hpre, hwalk, Nat.zero_le _⟩
    · exact List.suffix_refl walk

theorem advances_span (unescape : Text → Text) {str rest : Text}
    (h : ∃ opening, walk = opening ++ (str ++ rest)) : Advances walk 0 (.span unescape str rest) := by
  obtain ⟨opening, rfl⟩ := h
  rw [Scan.span.eq_def]
  split
  · exact List.suffix_append _ _
  · next hstr =>
    intro r hr
    obtain rfl := Option.some.inj hr
    exact ⟨opening ++ (str ++ ['"']), by simp, by simp, Nat.zero_le _⟩
  · next hstr _ =>
    intro r hr
    obtain rfl := Option.some.inj hr
    refine ⟨opening ++ str, ?_, by simp, Nat.zero_le _⟩
    intro hnil
    exact hstr (List.append_eq_nil_iff.mp hnil).2

/-! ### The configuration -/

theorem configQuotedSpan_spec (prev : Char) (walk : Text) :
    (configQuotedSpan prev walk).1 ++ (configQuotedSpan prev walk).2 = walk := by
  induction walk generalizing prev with
  | nil => rfl
  | cons c cs ih =>
    rw [configQuotedSpan]
    split
    · rfl
    · exact congrArg (c :: ·) (ih c)

theorem configSpan_spec (asWord : Bool) (walk : Text) :
    ∃ opening, walk = opening ++ ((configSpan asWord walk).1 ++ (configSpan asWord walk).2) := by
  rw [configSpan.eq_def]
  split
  · next cs => exact ⟨['"'], by rw [configQuotedSpan_spec]; rfl⟩
  · exact ⟨[], by simp [List.span_eq_takeWhile_dropWhile]⟩

theorem advances_lineEnd : Advances walk 1 (.lineEnd walk) := by
  rw [Scan.lineEnd.eq_def]
  split
  · intro r hr
    cases hr
  · next c cs =>
    split
    · next hc =>
      intro r hr
      obtain rfl : cs = r := Option.some.inj hr
      exact ⟨[c], by simp, rfl, by simp [hc]⟩
    · exact List.suffix_refl _

/-- The newlines a token takes. -/
def TokenName.lines : TokenName → ℕ
  | .line | .end_ => 1
  | _ => 0

/-- **Trying a token of the configuration** goes forward. -/
theorem advances_scanConfig {name : TokenName} (hname : name ≠ .literal "") (walk : Text) :
    Advances walk name.lines (scanConfig name walk) := by
  cases name with
  | literal text => exact advances_literal fun h => hname (h ▸ rfl)
  | number => exact advances_number
  | string => exact advances_span configUnescape (configSpan_spec false walk)
  | word => exact advances_span configUnescape (configSpan_spec true walk)
  | line =>
    intro r hr
    have hwalk : walk.takeWhile (fun c => !isNewline c) ++ walk.dropWhile (fun c => !isNewline c) =
        walk := List.takeWhile_append_dropWhile
    cases hrest : walk.dropWhile fun c => !isNewline c with
    | nil =>
      rw [hrest] at hr
      cases hr
    | cons c cs =>
      rw [hrest] at hr hwalk
      obtain rfl : cs = r := Option.some.inj hr
      have hc : isNewline c = true := by
        have := List.head?_dropWhile_not (fun c => !isNewline c) walk
        rw [hrest] at this
        simpa using this
      exact ⟨walk.takeWhile (fun c => !isNewline c) ++ [c], by simp, by simp [hwalk],
        by simp [TokenName.lines, hc]⟩
  | end_ => exact advances_lineEnd
  | error => exact List.suffix_refl walk

/-! ### Commands -/

theorem quotedSpan_spec (walk : Text) : (quotedSpan walk).1 ++ (quotedSpan walk).2 = walk := by
  fun_induction quotedSpan walk with
  | case1 => rfl
  | case2 => rfl
  | case3 c cs ih => simp [ih]
  | case4 c cs _ _ ih => simp [ih]

theorem parseString_spec (asWord : Bool) (walk : Text) :
    ∃ opening, walk = opening ++ ((parseString asWord walk).1 ++ (parseString asWord walk).2) := by
  rw [parseString.eq_def]
  split
  · next cs => exact ⟨['"'], by rw [quotedSpan_spec]; rfl⟩
  · exact ⟨[], by simp [List.span_eq_takeWhile_dropWhile]⟩

theorem advances_commandEnd : Advances walk 0 (.commandEnd walk) := by
  rw [Scan.commandEnd.eq_def]
  split
  · intro r hr
    cases hr
  · next cs =>
    intro r hr
    obtain rfl : cs = r := Option.some.inj hr
    exact ⟨[','], by simp, rfl, Nat.zero_le _⟩
  · next cs =>
    intro r hr
    obtain rfl : cs = r := Option.some.inj hr
    exact ⟨[';'], by simp, rfl, Nat.zero_le _⟩
  · exact List.suffix_refl _

/-- **Trying a token of a command** goes forward. -/
theorem advances_scanCommand {name : TokenName} (hname : name ≠ .literal "") (walk : Text) :
    Advances walk 0 (scanCommand name walk) := by
  cases name with
  | literal text => exact advances_literal fun h => hname (h ▸ rfl)
  | number => exact advances_number
  | string => exact advances_span unescape (parseString_spec false walk)
  | word => exact advances_span unescape (parseString_spec true walk)
  | end_ => exact advances_commandEnd
  | line => exact List.suffix_refl walk
  | error => exact List.suffix_refl walk

end Scans

/-! ### The tokens of a state -/

section Tokens

variable {σ ι : Type} {scan : TokenName → Text → Scan} {lines : TokenName → ℕ}
  {tokens : List (Token σ ι)} {walk : Text}

/-- Where no token matches, the parser goes on behind. -/
theorem suffix_of_matchToken
    (hscan : ∀ t ∈ tokens, ∀ walk, Advances walk (lines t.name) (scan t.name walk)) {walk' : Text}
    (h : matchToken scan tokens walk = .inl walk') : walk' <:+ walk := by
  induction tokens generalizing walk with
  | nil =>
    obtain rfl := Sum.inl.inj h
    exact List.suffix_refl _
  | cons t ts ih =>
    have ht := hscan t (List.mem_cons_self ..) walk
    rw [matchToken] at h
    split at h
    · cases h
    · next walk₁ hfailed =>
      rw [hfailed] at ht
      exact (ih (fun t ht => hscan t (List.mem_cons_of_mem _ ht)) h).trans ht

/-- **A token that matches** takes something off the front. -/
theorem advances_of_matchToken
    (hscan : ∀ t ∈ tokens, ∀ walk, Advances walk (lines t.name) (scan t.name walk)) {m : Match σ ι}
    (h : matchToken scan tokens walk = .inr m) :
    m.token ∈ tokens ∧ ∀ r ∈ m.rest, ∃ pre, pre ≠ [] ∧ walk = pre ++ r ∧
      lines m.token.name ≤ pre.countP isNewline := by
  induction tokens generalizing walk with
  | nil => cases h
  | cons t ts ih =>
    have ht := hscan t (List.mem_cons_self ..) walk
    rw [matchToken] at h
    split at h
    · next value rest hmatched =>
      obtain rfl := Sum.inr.inj h
      rw [hmatched] at ht
      exact ⟨List.mem_cons_self .., ht⟩
    · next walk₁ hfailed =>
      rw [hfailed] at ht
      obtain ⟨front, rfl⟩ : walk₁ <:+ walk := ht
      obtain ⟨hmem, hrest⟩ := ih (fun t ht => hscan t (List.mem_cons_of_mem _ ht)) h
      refine ⟨List.mem_cons_of_mem _ hmem, fun r hr => ?_⟩
      obtain ⟨pre, hpre, rfl, hlines⟩ := hrest r hr
      refine ⟨front ++ pre, by simp [hpre], by rw [List.append_assoc], ?_⟩
      rw [List.countP_append]
      exact hlines.trans (Nat.le_add_left ..)

end Tokens

end I3.Parser
