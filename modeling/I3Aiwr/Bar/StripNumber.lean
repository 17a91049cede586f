import I3Aiwr.Bar.Workspaces
import I3Aiwr.Configuration.Assignments

/-!
# Names without their number

With `strip_workspace_numbers`, `workspaces_string_cb` in `src/i3bar/src/workspaces.c` cuts a name at the
first character that is not a digit of the workspace's number as i3bar prints it. The number is what
`ws_name_to_number` reads off the name, and it may stand there in another form.

## Main definitions

* `withoutNumber`: the name without what `strtoll` reads
* `StartsCanonical`

## Main results

* `exists_zeros_digits`: a run of digits is some zeros and the number as it is printed
* `string_eq_withoutNumber_iff`
* `not_stripped_leadingZero`
-/

namespace I3

namespace Parser

theorem digits_snd (n : ℕ) (walk : Text) : (digits n walk).2 = walk.dropWhile Char.isDigit := by
  induction walk generalizing n with
  | nil => rfl
  | cons c cs ih =>
    by_cases hc : c.isDigit
    · rw [digits, if_pos hc, ih, List.dropWhile_cons_of_pos hc]
    · rw [digits, if_neg hc, List.dropWhile_cons_of_neg hc]

/-- A digit is the character of its value. -/
theorem digitChar_of_isDigit {c : Char} (hc : c.isDigit) :
    c.toNat - '0'.toNat < 10 ∧ (c.toNat - '0'.toNat).digitChar = c := by
  have hrange : 48 ≤ c.toNat ∧ c.toNat ≤ 57 := by
    simpa [Char.isDigit, UInt32.le_iff_toNat_le] using hc
  have hlt : c.toNat - '0'.toNat < 10 := by
    have hzero : '0'.toNat = 48 := rfl
    omega
  refine ⟨hlt, ?_⟩
  apply Char.toNat_inj.mp
  rw [Nat.toNat_digitChar_of_lt_ten hlt]
  have hzero : '0'.toNat = 48 := rfl
  omega

/-- Behind a number that is not zero the digits are those of the number they make. -/
theorem toDigits_digits {n : ℕ} (hn : 0 < n) (walk : Text) :
    Nat.toDigits 10 (digits n walk).1 = Nat.toDigits 10 n ++ walk.takeWhile Char.isDigit := by
  induction walk generalizing n with
  | nil => simp [digits]
  | cons c cs ih =>
    by_cases hc : c.isDigit
    · obtain ⟨hlt, hchar⟩ := digitChar_of_isDigit hc
      rw [digits, if_pos hc, ih (by omega), List.takeWhile_cons_of_pos hc,
        ← Nat.toDigits_append_toDigits (by omega) hn hlt, Nat.toDigits_of_lt_base hlt, hchar]
      simp
    · rw [digits, if_neg hc, List.takeWhile_cons_of_neg hc]
      simp

/-- **A run of digits** is some zeros and the number it makes, as that is printed. Of a run of zeros the
number is the last one. -/
theorem exists_zeros_digits (walk : Text) (h : walk.takeWhile Char.isDigit ≠ []) :
    ∃ k, walk.takeWhile Char.isDigit =
      List.replicate k '0' ++ Nat.toDigits 10 (digits 0 walk).1 := by
  induction walk with
  | nil => exact absurd rfl h
  | cons c cs ih =>
    have hc : c.isDigit := by
      by_contra hc
      exact h (List.takeWhile_cons_of_neg hc)
    obtain ⟨hlt, hchar⟩ := digitChar_of_isDigit hc
    rw [List.takeWhile_cons_of_pos hc, digits, if_pos hc, Nat.mul_zero, Nat.zero_add]
    rcases Nat.eq_zero_or_pos (c.toNat - '0'.toNat) with hz | hpos
    · have hzero : c = '0' := by rw [← hchar, hz]; rfl
      rw [hz, hzero]
      by_cases hrun : cs.takeWhile Char.isDigit = []
      · -- the last zero is the number
        have hread : digits 0 cs = (0, cs) := by
          cases cs with
          | nil => rfl
          | cons d ds =>
            have hd : ¬ d.isDigit := by
              intro hd
              rw [List.takeWhile_cons_of_pos hd] at hrun
              exact absurd hrun (List.cons_ne_nil _ _)
            rw [digits, if_neg hd]
        exact ⟨0, by rw [hrun, hread, Nat.toDigits_zero]; rfl⟩
      · obtain ⟨k, hk⟩ := ih hrun
        exact ⟨k + 1, by rw [hk]; rfl⟩
    · refine ⟨0, ?_⟩
      rw [toDigits_digits hpos, Nat.toDigits_of_lt_base hlt, hchar]
      rfl

end Parser

namespace WorkspaceLists

open I3.Parser (strtol signed digits isSpace exists_zeros_digits digits_snd)
open Configuration (wsNameToNumber)

/-! ### What is to be shown -/

/-- What is behind a number, without one `:` directly after it. -/
def withoutDelimiter (rest : Parser.Text) : Parser.Text :=
  if rest.head? = some ':' then rest.tail else rest

/-- The name without its leading number and one `:` directly after it, or the number itself if nothing is
left. -/
def withoutNumber (name : String) : String :=
  match strtol name.toList with
  | none => name
  | some (num, rest) =>
    if withoutDelimiter rest = [] then toString num else String.ofList (withoutDelimiter rest)

/-- The name starts with a digit of the number, as that is printed: there are no blanks and no sign in
front of it, and if it has leading zeros there is a zero among its digits. -/
def StartsCanonical (num : ℤ) (name : String) : Prop :=
  ∃ c ∈ name.toList.head?, c ∈ (toString num).toList

instance (num : ℤ) (name : String) : Decidable (StartsCanonical num name) :=
  inferInstanceAs (Decidable (∃ c ∈ name.toList.head?, c ∈ (toString num).toList))

/-! ### What is read off the name -/

theorem toList_toString {num : ℤ} (hn : 0 ≤ num) :
    (toString num).toList = Nat.toDigits 10 num.toNat := by
  obtain ⟨n, rfl⟩ := Int.eq_ofNat_of_zero_le hn
  exact Nat.toList_repr

theorem isDigit_of_mem_toString {num : ℤ} (hn : 0 ≤ num) {c : Char} (hc : c ∈ (toString num).toList) :
    c.isDigit := by
  rw [toList_toString hn] at hc
  exact Nat.isDigit_of_mem_toDigits (by omega) (by omega) hc

theorem signed_length {sign : ℤ} {walk : Parser.Text} {r : ℤ × Parser.Text}
    (h : signed sign walk = some r) : r.2.length < walk.length := by
  cases walk with
  | nil => cases h
  | cons c cs =>
    rw [signed] at h
    split at h
    · next hc =>
      cases h
      rw [digits_snd, List.dropWhile_cons_of_pos hc]
      exact Nat.lt_succ_of_le (List.dropWhile_sublist _).length_le
    · cases h

/-- What is read is not empty. -/
theorem strtol_length {walk : Parser.Text} {r : ℤ × Parser.Text} (h : strtol walk = some r) :
    r.2.length < walk.length := by
  have hle : (walk.dropWhile isSpace).length ≤ walk.length := (List.dropWhile_sublist _).length_le
  rw [strtol] at h
  split at h
  · next heq =>
    have := signed_length h
    rw [heq, List.length_cons] at hle
    omega
  · next heq =>
    have := signed_length h
    rw [heq, List.length_cons] at hle
    omega
  · have := signed_length h
    omega

/-- A number that starts with a digit is read from there. -/
theorem strtol_of_isDigit {c : Char} {cs : Parser.Text} (hc : c.isDigit) :
    strtol (c :: cs) = some (((digits 0 (c :: cs)).1 : ℤ), (c :: cs).dropWhile Char.isDigit) := by
  have hspace : isSpace c = false := by
    simp only [isSpace, Bool.or_eq_false_iff, decide_eq_false_iff_not]
    refine ⟨⟨⟨⟨⟨?_, ?_⟩, ?_⟩, ?_⟩, ?_⟩, ?_⟩ <;> rintro rfl <;> simp at hc
  have hskip : (c :: cs).dropWhile isSpace = c :: cs := by
    apply List.dropWhile_cons_of_neg
    simp [hspace]
  rw [strtol, hskip]
  split
  · next heq => cases heq; simp at hc
  · next heq => cases heq; simp at hc
  · rw [signed, if_pos hc, digits_snd, one_mul]

theorem ne_nil_of_strtol {walk : Parser.Text} {r : ℤ × Parser.Text} (h : strtol walk = some r) :
    walk ≠ [] := by
  rintro rfl
  exact absurd (strtol_length h) (Nat.not_lt_zero _)

theorem withoutNumber_eq {name : String} {num : ℤ} {rest : Parser.Text}
    (h : strtol name.toList = some (num, rest)) :
    withoutNumber name =
      if withoutDelimiter rest = [] then toString num else String.ofList (withoutDelimiter rest) := by
  rw [withoutNumber, h]

theorem withoutDelimiter_length_le (rest : Parser.Text) :
    (withoutDelimiter rest).length ≤ rest.length := by
  rw [withoutDelimiter]
  split
  · exact (List.tail_sublist rest).length_le
  · exact le_rfl

/-! ### What is cut off -/

/-- A run of characters is cut at the same place by a narrower set that holds all of them. -/
theorem span_congr {p q : Char → Bool} (hqp : ∀ c, q c = true → p c = true) {l : List Char}
    (h : ∀ c ∈ l.takeWhile p, q c = true) :
    l.takeWhile q = l.takeWhile p ∧ l.dropWhile q = l.dropWhile p := by
  induction l with
  | nil => exact ⟨rfl, rfl⟩
  | cons c cs ih =>
    by_cases hp : p c = true
    · rw [List.takeWhile_cons_of_pos hp] at h
      have hq : q c = true := h c List.mem_cons_self
      obtain ⟨htake, hdrop⟩ := ih fun d hd => h d (List.mem_cons_of_mem _ hd)
      rw [List.takeWhile_cons_of_pos hq, List.takeWhile_cons_of_pos hp, List.dropWhile_cons_of_pos hq,
        List.dropWhile_cons_of_pos hp, htake, hdrop]
      exact ⟨rfl, rfl⟩
    · have hq : ¬ q c = true := fun hq => hp (hqp c hq)
      rw [List.takeWhile_cons_of_neg hq, List.takeWhile_cons_of_neg hp, List.dropWhile_cons_of_neg hq,
        List.dropWhile_cons_of_neg hp]
      exact ⟨rfl, rfl⟩

variable {config : Config} {num : ℤ} {name : String} {rest : Parser.Text}

/-- Where the name starts canonically, all of its leading digits are digits of the number. -/
theorem mem_toString_of_startsCanonical (hn : 0 ≤ num) (hread : strtol name.toList = some (num, rest))
    (h : StartsCanonical num name) {d : Char} (hd : d ∈ name.toList.takeWhile Char.isDigit) :
    d ∈ (toString num).toList := by
  obtain ⟨c, hhead, hc⟩ := h
  have hdigit := isDigit_of_mem_toString hn hc
  cases hname : name.toList with
  | nil => simp [hname] at hhead
  | cons c' cs =>
    obtain rfl : c' = c := by simpa [hname] using hhead
    rw [hname, strtol_of_isDigit hdigit] at hread
    simp only [Option.some.injEq, Prod.mk.injEq] at hread
    rw [← hread.1] at hc ⊢
    rw [toList_toString (Int.natCast_nonneg _), Int.toNat_natCast] at hc ⊢
    rw [hname] at hd
    obtain ⟨k, hrun⟩ := exists_zeros_digits (c' :: cs) (by
      rw [List.takeWhile_cons_of_pos hdigit]; exact List.cons_ne_nil _ _)
    rw [hrun] at hd
    rcases List.mem_append.mp hd with hzero | hd
    · -- a leading zero is the first character
      obtain ⟨hk, rfl⟩ := List.mem_replicate.mp hzero
      obtain ⟨k, rfl⟩ := Nat.exists_eq_succ_of_ne_zero hk
      rw [List.takeWhile_cons_of_pos hdigit, List.replicate_succ, List.cons_append] at hrun
      obtain rfl := (List.cons.inj hrun).1
      exact hc
    · exact hd

theorem display_of_startsCanonical (hs : config.stripWsNumbers = true) (hn : 0 ≤ num)
    (hread : strtol name.toList = some (num, rest)) (h : StartsCanonical num name) :
    config.display num name = withoutNumber name := by
  have hrun := span_congr (p := Char.isDigit) (q := fun c => decide (c ∈ (toString num).toList))
    (fun c hc => isDigit_of_mem_toString hn (of_decide_eq_true hc)) (l := name.toList)
    (fun d hd => decide_eq_true (mem_toString_of_startsCanonical hn hread h hd))
  obtain ⟨c, hhead, hc⟩ := h
  have hdigit := isDigit_of_mem_toString hn hc
  have hfound : name.toList.dropWhile Char.isDigit = rest ∧ name.toList.takeWhile Char.isDigit ≠ [] := by
    cases hname : name.toList with
    | nil => simp [hname] at hhead
    | cons c' cs =>
      obtain rfl : c' = c := by simpa [hname] using hhead
      rw [hname, strtol_of_isDigit hdigit] at hread
      simp only [Option.some.injEq, Prod.mk.injEq] at hread
      refine ⟨hread.2, ?_⟩
      rw [List.takeWhile_cons_of_pos hdigit]
      exact List.cons_ne_nil _ _
  rw [withoutNumber_eq hread, Config.display, if_pos (by simp [hs, hn])]
  simp only [hrun.1, hrun.2, hfound.1, hs, if_true, hfound.2, ne_eq, not_false_eq_true, true_and]
  rfl

/-- Where the name does not start canonically, nothing is cut off. -/
theorem display_of_not_startsCanonical (hs : config.stripWsNumbers = true) (hn : 0 ≤ num)
    (hread : strtol name.toList = some (num, rest)) (h : ¬ StartsCanonical num name) :
    config.display num name = name := by
  have hne := ne_nil_of_strtol hread
  cases hname : name.toList with
  | nil => exact absurd hname hne
  | cons c cs =>
    have hc : c ∉ (toString num).toList := fun hc => h ⟨c, by simp [hname], hc⟩
    have htake : name.toList.takeWhile (fun c => decide (c ∈ (toString num).toList)) = [] := by
      rw [hname]
      exact List.takeWhile_cons_of_neg (by simpa using hc)
    have hdrop : name.toList.dropWhile (fun c => decide (c ∈ (toString num).toList)) = name.toList := by
      rw [hname]
      exact List.dropWhile_cons_of_neg (by simpa using hc)
    rw [Config.display, if_pos (by simp [hs, hn])]
    simp only [htake, hdrop, hs, if_true, ne_eq, not_true_eq_false, false_and, if_false, hne,
      String.ofList_toList]

/-- The number is part of the name. -/
theorem withoutNumber_ne (hread : strtol name.toList = some (num, rest))
    (h : ¬ StartsCanonical num name) : withoutNumber name ≠ name := by
  intro heq
  rw [withoutNumber_eq hread] at heq
  split at heq
  · -- the name would be the number as it is printed
    apply h
    have hne := ne_nil_of_strtol hread
    obtain ⟨c, hc⟩ : ∃ c, name.toList.head? = some c := ⟨_, List.head?_eq_some_head hne⟩
    refine ⟨c, hc, ?_⟩
    rw [heq]
    exact List.mem_of_head? hc
  · have hlen := strtol_length hread
    rw [← congrArg String.toList heq, String.toList_ofList] at hlen
    exact absurd hlen (Nat.not_lt.mpr (withoutDelimiter_length_le rest))

/-! ### What is shown -/

theorem display_eq_withoutNumber_iff (hs : config.stripWsNumbers = true)
    (hread : wsNameToNumber name.toList = some num) :
    config.display num name = withoutNumber name ↔ StartsCanonical num name := by
  obtain ⟨rest, hread, hn⟩ : ∃ rest, strtol name.toList = some (num, rest) ∧ 0 ≤ num := by
    rw [wsNameToNumber] at hread
    split at hread
    · cases hread
    · next n rest heq =>
      split at hread
      · next hrange =>
        cases hread
        exact ⟨rest, heq, hrange.1⟩
      · cases hread
  by_cases h : StartsCanonical num name
  · exact ⟨fun _ => h, fun _ => display_of_startsCanonical hs hn hread h⟩
  · refine ⟨fun heq => ?_, fun hc => absurd hc h⟩
    rw [display_of_not_startsCanonical hs hn hread h] at heq
    exact absurd heq.symm (withoutNumber_ne hread h)

/-- **What i3bar shows of a name** whose number `ws_name_to_number` reads is the name without it exactly
if the name starts canonically. -/
theorem string_eq_withoutNumber_iff (config : Config) (hs : config.stripWsNumbers = true) (s : State)
    (ws : Workspace) (hws : s.current = some ws) (name : String)
    (hread : wsNameToNumber name.toList = some ws.num) :
    ((s.string config "name" name).toOption.bind State.current).bind Workspace.name =
        some (withoutNumber name) ↔ StartsCanonical ws.num name := by
  rw [← display_eq_withoutNumber_iff hs hread]
  cases hp : s.workspacesWalk with
  | none => simp [State.current, hp] at hws
  | some p =>
    have hcurrent := hws
    rw [State.current, hp, Option.bind_some] at hcurrent
    simp [State.string, State.write, State.current, hp, hcurrent, Except.toOption]

theorem string_eq_withoutNumber_web :
    ((State.string { stripWsNumbers := true, outputs := [] }
      { workspacesWalk := some 0, heap := fun _ => some { num := 12 } } "name" "12:web").toOption.bind
        State.current).bind Workspace.name = some (withoutNumber "12:web") ↔
      StartsCanonical 12 "12:web" :=
  string_eq_withoutNumber_iff _ rfl _ { num := 12 } rfl "12:web" (by decide)

/-- The name of a workspace of number 1 is shown with its number if that has a leading zero. -/
theorem not_stripped_leadingZero :
    ∃ (config : Config) (s : State) (ws : Workspace) (name : String),
      config.stripWsNumbers = true ∧ s.current = some ws ∧
      wsNameToNumber name.toList = some ws.num ∧ withoutNumber name = "web" ∧
      ((s.string config "name" name).toOption.bind State.current).bind Workspace.name = some "01:web" :=
  ⟨{ stripWsNumbers := true, outputs := [] },
    { workspacesWalk := some 0, heap := fun _ => some { num := 1 } },
    { num := 1 }, "01:web", rfl, rfl, by decide, by decide, by decide⟩

end WorkspaceLists

end I3
