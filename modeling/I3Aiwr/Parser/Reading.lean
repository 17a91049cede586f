import Mathlib.Data.List.TakeWhile
import Mathlib.Logic.Relation
import I3Aiwr.Parser.Token

/-!
# Reading the config file

The loop of `parse_file_inner` in `src/config_parser.c` reads the file with `fgets` into a buffer of 4096
bytes and copies it to the text in which the variables are replaced later. Where the buffer ends in a
backslash before the newline, the next line is read over the two; a comment is not continued. What is in
the buffer when the file ends is not copied, and a text that does not fit is copied in parts. Lines with
`set` are copied as well; what they do to the variables makes no difference to the text. A file that is
read completely without an error is meant, as the list of its bytes.

## Main definitions

* `fgets`, `readLoop`, `readText`: the loop
* `lines`, `joined`: what the text is to be
* `Fits`, `leftOver`: the buffer is large enough, and what is in it when the file ends
* `Shortened`: some backslashes before newlines are left out, with the newlines

## Main results

* `readLoop_lines`: the loop joins lines that fit
* `shortened_readLoop`: the loop leaves out nothing else
* `readText_eq`: both for a whole file
* `not_joinedAlone`: a comment inside of a continuation
-/

namespace I3.Parser

/-- The size of `buffer`. -/
def bufferSize : ℕ := 4096

/-- The characters up to the first newline, but at most `n`, and what is behind them. -/
def takeLine : ℕ → List Char → List Char × List Char
  | 0, rest => ([], rest)
  | _ + 1, [] => ([], [])
  | n + 1, c :: rest =>
    if c = '\n' then ([c], rest) else
      let (line, rest) := takeLine n rest
      (c :: line, rest)

/-- `fgets` with a buffer of `size` bytes, of which the last one is for the 0-byte. -/
def fgets (size : ℕ) (rest : List Char) : List Char × List Char := takeLine (size - 1) rest

/-- The string that begins with the bytes: it ends before the first 0-byte. -/
def cstr (bytes : List Char) : List Char := bytes.takeWhile (· ≠ '\x00')

/-- What is before the first backslash with a newline behind it: `strstr(buffer, "\\\n")`. -/
def beforeContinuation : List Char → Option (List Char)
  | [] => none
  | c :: rest =>
    if c = '\\' ∧ rest.head? = some '\n' then some []
    else (beforeContinuation rest).map (c :: ·)

/-- The first word, of at most 511 characters: the conversion `%511s` of `sscanf`. -/
def firstWord (buffer : List Char) : List Char :=
  ((buffer.dropWhile isSpace).takeWhile fun c => !isSpace c).take 511

/-- The loop over the file, with what is left of it, what is before `continuation` in the buffer, the
word read last and the text so far. Each round reads at least a character. -/
def readLoop : ℕ → List Char → List Char → List Char → List Char → List Char
  | 0, _, _, _, buf => buf
  | fuel + 1, rest, pending, key, buf =>
    if rest = [] then buf
    else
      let (line, rest) := fgets (bufferSize - pending.length) rest
      let buffer := cstr (pending ++ line)
      -- without a word `sscanf` leaves the key as it was
      let key := if firstWord buffer = [] then key else firstWord buffer
      match beforeContinuation buffer with
      | some continued =>
        if key.head? = some '#' then readLoop fuel rest [] key (buf ++ buffer)
        else readLoop fuel rest continued key buf
      | none => readLoop fuel rest [] key (buf ++ buffer)

/-- The text of a file. What is in `key` at first is not known. -/
def readText (key file : List Char) : List Char := readLoop file.length file [] key []

/-! ### What the text is to be -/

/-- The lines of a text, each with its newline. -/
def lines : List Char → List (List Char)
  | [] => []
  | c :: rest =>
    if c = '\n' then [c] :: lines rest
    else
      match lines rest with
      | [] => [[c]]
      | line :: rest => (c :: line) :: rest

/-- The first character that is not a space is a `#`. -/
def isComment (text : List Char) : Bool := (text.dropWhile isSpace).head? = some '#'

/-- The text ends in a backslash directly before the newline and is not a comment. -/
def continues (text : List Char) : Bool := ['\\', '\n'].isSuffixOf text && !isComment text

/-- The text without the backslash and the newline. -/
def spliced (text : List Char) : List Char := text.dropLast.dropLast

/-- **The lines in order**, where each is joined with the next one while what was joined so far is
continued. -/
def joined : List Char → List (List Char) → List Char
  | pending, [] => pending
  | pending, line :: rest =>
    if continues (pending ++ line) then joined (spliced (pending ++ line)) rest
    else pending ++ line ++ joined [] rest

/-- What waits for a next line when the file ends. -/
def leftOver : List Char → List (List Char) → List Char
  | pending, [] => pending
  | pending, line :: rest =>
    if continues (pending ++ line) then leftOver (spliced (pending ++ line)) rest else leftOver [] rest

/-- What is joined has less than 4096 bytes. -/
def Fits : List Char → List (List Char) → Prop
  | _, [] => True
  | pending, line :: rest =>
    (pending ++ line).length < bufferSize
      ∧ if continues (pending ++ line) then Fits (spliced (pending ++ line)) rest else Fits [] rest

/-- One backslash with the newline behind it is left out. -/
inductive Splices : List Char → List Char → Prop
  | intro (pre post : List Char) : Splices (pre ++ '\\' :: '\n' :: post) (pre ++ post)

/-- Some backslashes before newlines are left out, and nothing else. -/
def Shortened : List Char → List Char → Prop := Relation.ReflTransGen Splices

variable {n fuel : ℕ} {rest rest' line pending key buf file text : List Char} {ls : List (List Char)}

/-! ### Lines -/

/-- What `takeLine` takes: a part of the text, with a newline at its end only. -/
theorem takeLine_spec (h : takeLine n rest = (line, rest')) :
    line ++ rest' = rest ∧ '\n' ∉ line.dropLast ∧ line.length ≤ n
      ∧ (0 < n → rest ≠ [] → line ≠ []) := by
  induction n generalizing rest line with
  | zero =>
    cases h
    exact ⟨rfl, by simp, le_rfl, fun hn => absurd hn (lt_irrefl 0)⟩
  | succ n ih =>
    cases rest with
    | nil =>
      cases h
      exact ⟨rfl, by simp, Nat.zero_le _, fun _ hne => absurd rfl hne⟩
    | cons c rest =>
      unfold takeLine at h
      split at h
      · cases h
        exact ⟨rfl, by simp, by simp, fun _ _ => by simp⟩
      · next hc =>
        cases h
        obtain ⟨happend, hnewline, hlen, -⟩ := ih (rfl : takeLine n rest = takeLine n rest)
        refine ⟨by simpa using happend, ?_, by simpa using hlen, fun _ _ => by simp⟩
        cases hline : (takeLine n rest).1 with
        | nil => simp
        | cons d line =>
          rw [hline] at hnewline
          rw [List.dropLast_cons_cons, List.mem_cons, not_or]
          exact ⟨fun heq => hc heq.symm, hnewline⟩

theorem length_pos_of_lines (h : lines rest = line :: ls) : 0 < line.length := by
  cases rest with
  | nil => cases h
  | cons c rest =>
    unfold lines at h
    split at h
    · cases h
      simp
    · split at h <;> cases h <;> simp

/-- A line that is short enough is taken as a whole. -/
theorem takeLine_of_lines (h : lines rest = line :: ls) (hlen : line.length ≤ n) :
    ∃ rest', takeLine n rest = (line, rest') ∧ lines rest' = ls := by
  induction rest generalizing line n with
  | nil => cases h
  | cons c rest ih =>
    have hpos := length_pos_of_lines h
    obtain ⟨n, rfl⟩ : ∃ k, n = k + 1 := ⟨n - 1, by omega⟩
    unfold lines at h
    unfold takeLine
    split at h
    · next hc =>
      cases h
      exact ⟨rest, if_pos hc, rfl⟩
    · next hc =>
      rw [if_neg hc]
      split at h
      · next hnil =>
        cases h
        have hrest : rest = [] := by
          cases rest with
          | nil => rfl
          | cons d rest =>
            unfold lines at hnil
            split at hnil
            · cases hnil
            · split at hnil <;> cases hnil
        subst hrest
        refine ⟨[], ?_, rfl⟩
        cases n <;> rfl
      · next line' ls' hcons =>
        cases h
        obtain ⟨rest', htake, hlines⟩ := ih hcons (by simpa using hlen)
        exact ⟨rest', by rw [htake], hlines⟩

theorem lines_ne_nil (h : rest ≠ []) : ∃ line ls, lines rest = line :: ls := by
  cases rest with
  | nil => exact absurd rfl h
  | cons c rest =>
    unfold lines
    split
    · exact ⟨_, _, rfl⟩
    · split <;> exact ⟨_, _, rfl⟩

/-! ### A line in the buffer -/

theorem cstr_eq (h : '\x00' ∉ text) : cstr text = text := by
  rw [cstr, List.takeWhile_eq_self_iff]
  intro c hc
  rw [decide_eq_true_eq]
  rintro rfl
  exact h hc

theorem spliced_append (pre : List Char) : spliced (pre ++ ['\\', '\n']) = pre := by
  have happend : pre ++ ['\\', '\n'] = pre ++ ['\\'] ++ ['\n'] := by simp
  rw [spliced, happend, List.dropLast_concat, List.dropLast_concat]

/-- Where there is a newline at the end only, the backslash before it is the one found. -/
theorem beforeContinuation_eq (h : '\n' ∉ text.dropLast) :
    beforeContinuation text = if ['\\', '\n'].isSuffixOf text then some (spliced text) else none := by
  induction text with
  | nil => rfl
  | cons c rest ih =>
    unfold beforeContinuation
    split
    · next hfound =>
      obtain ⟨rfl, hhead⟩ := hfound
      obtain ⟨rest, rfl⟩ := List.head?_eq_some_iff.mp hhead
      cases rest with
      | nil => rfl
      | cons d rest => exact absurd (by simp) h
    · next hnot =>
      have hrest : '\n' ∉ rest.dropLast := by
        intro hmem
        cases rest with
        | nil => cases hmem
        | cons d rest => exact h (List.mem_cons_of_mem _ hmem)
      rw [ih hrest]
      have hiff : ['\\', '\n'].isSuffixOf (c :: rest) = ['\\', '\n'].isSuffixOf rest := by
        rw [Bool.eq_iff_iff, List.isSuffixOf_iff_suffix, List.isSuffixOf_iff_suffix, List.suffix_cons_iff]
        refine or_iff_right ?_
        rintro heq
        cases heq
        exact hnot ⟨rfl, rfl⟩
      rw [hiff]
      split
      · next hsuffix =>
        obtain ⟨pre, rfl⟩ := List.isSuffixOf_iff_suffix.mp hsuffix
        rw [← List.cons_append, spliced_append, spliced_append]
        rfl
      · rfl

/-- A text that is continued, without the last two characters. -/
theorem eq_spliced (h : continues text = true) : text = spliced text ++ ['\\', '\n'] := by
  rw [continues, Bool.and_eq_true, List.isSuffixOf_iff_suffix] at h
  obtain ⟨⟨pre, rfl⟩, -⟩ := h
  rw [spliced_append]

/-- The first character of the first word. -/
theorem head?_firstWord : (firstWord text).head? = (text.dropWhile isSpace).head? := by
  unfold firstWord
  cases hword : text.dropWhile isSpace with
  | nil => rfl
  | cons c rest =>
    have hc : isSpace c = false := by
      have := List.head?_dropWhile_not (p := isSpace) (l := text)
      rw [hword] at this
      simpa using this
    rw [List.takeWhile_cons, if_pos (by simp [hc])]
    rfl

/-- **A round of the loop**, where what is in the buffer has no 0-byte and a newline at its end only. -/
theorem readLoop_succ (fuel : ℕ) (key buf : List Char) (hrest : rest ≠ [])
    (hget : fgets (bufferSize - pending.length) rest = (line, rest')) (hnul : '\x00' ∉ pending ++ line) (hnewline : '\n' ∉ (pending ++ line).dropLast) :
    ∃ key', readLoop (fuel + 1) rest pending key buf =
      if continues (pending ++ line) then readLoop fuel rest' (spliced (pending ++ line)) key' buf
      else readLoop fuel rest' [] key' (buf ++ (pending ++ line)) := by
  refine ⟨if firstWord (pending ++ line) = [] then key else firstWord (pending ++ line), ?_⟩
  rw [readLoop, if_neg hrest, hget]
  dsimp only
  rw [cstr_eq hnul, beforeContinuation_eq hnewline]
  by_cases hsuffix : ['\\', '\n'].isSuffixOf (pending ++ line) = true
  · rw [if_pos hsuffix]
    dsimp only
    -- a backslash is a word, so the key is that of this text
    have hword : firstWord (pending ++ line) ≠ [] := by
      intro hnil
      have hblank : (pending ++ line).dropWhile isSpace = [] := by
        rw [← List.head?_eq_none_iff, ← head?_firstWord, hnil]
        rfl
      obtain ⟨pre, hpre⟩ := List.isSuffixOf_iff_suffix.mp hsuffix
      have hspace := List.dropWhile_eq_nil_iff.mp hblank '\\' (by rw [← hpre]; simp)
      exact absurd hspace (by decide)
    rw [if_neg hword, head?_firstWord, continues, hsuffix, Bool.true_and, isComment]
    by_cases hcomment : ((pending ++ line).dropWhile isSpace).head? = some '#'
    · simp [hcomment]
    · simp [hcomment]
  · rw [if_neg hsuffix, continues]
    simp [hsuffix]

theorem notMem_spliced {c : Char} (h : c ∉ text) : c ∉ spliced text := fun hc =>
  h (List.dropLast_subset _ (List.dropLast_subset _ hc))

/-- A newline at the end only, where the text before it has none. -/
theorem notMem_dropLast_append {c : Char} (hpending : c ∉ pending) (hline : c ∉ line.dropLast) :
    c ∉ (pending ++ line).dropLast := by
  cases line with
  | nil =>
    rw [List.append_nil]
    exact fun hc => hpending (List.dropLast_subset _ hc)
  | cons d line =>
    rw [List.dropLast_append_of_ne_nil (by simp)]
    exact List.not_mem_append hpending hline

theorem notMem_spliced_of_dropLast {c : Char} (h : c ∉ text.dropLast) : c ∉ spliced text := fun hc =>
  h (List.dropLast_subset _ hc)

/-- **Lines that fit are joined**, by the rounds of the loop. -/
theorem readLoop_lines (hfuel : rest.length ≤ fuel) (hlines : lines rest = ls) (hfits : Fits pending ls)
    (hend : leftOver pending ls = []) (hnulPending : '\x00' ∉ pending) (hnul : '\x00' ∉ rest)
    (hnewline : '\n' ∉ pending) :
    readLoop fuel rest pending key buf = buf ++ joined pending ls := by
  induction fuel generalizing rest pending key buf ls with
  | zero =>
    have hnil : rest = [] := List.eq_nil_of_length_eq_zero (by omega)
    subst hnil
    subst hlines
    have hpending : pending = [] := hend
    simp [readLoop, lines, joined, hpending]
  | succ fuel ih =>
    by_cases hne : rest = []
    · subst hne
      subst hlines
      have hpending : pending = [] := hend
      simp [readLoop, lines, joined, hpending]
    · obtain ⟨line, ls', hcons⟩ := lines_ne_nil hne
      rw [hcons] at hlines
      subst hlines
      have hlen : line.length ≤ bufferSize - pending.length - 1 := by
        have := hfits.1
        rw [List.length_append] at this
        omega
      obtain ⟨rest', hget, hrest'⟩ := takeLine_of_lines hcons hlen
      obtain ⟨happend, hdrop, -, -⟩ := takeLine_spec hget
      have hlinePos := length_pos_of_lines hcons
      have hshorter : rest'.length ≤ fuel := by
        rw [← happend, List.length_append] at hfuel
        omega
      rw [← happend] at hnul
      have hnulLine : '\x00' ∉ pending ++ line :=
        List.not_mem_append hnulPending fun hc => hnul (List.mem_append_left _ hc)
      have hnulRest : '\x00' ∉ rest' := fun hc => hnul (List.mem_append_right _ hc)
      have hdropAll := notMem_dropLast_append hnewline hdrop
      obtain ⟨key', hround⟩ := readLoop_succ fuel key buf hne hget hnulLine
        hdropAll
      rw [hround]
      have hfitsRest := hfits.2
      unfold leftOver at hend
      unfold joined
      split
      · next hcontinues =>
        rw [if_pos hcontinues] at hfitsRest hend
        exact ih hshorter hrest' hfitsRest hend (notMem_spliced hnulLine) hnulRest
          (notMem_spliced_of_dropLast hdropAll)
      · next hcontinues =>
        rw [if_neg hcontinues] at hfitsRest hend
        rw [ih hshorter hrest' hfitsRest hend (by simp) hnulRest (by simp)]
        simp

/-- The text ends in a backslash with some newlines behind it. -/
def EndsOpen (text : List Char) : Prop := ∃ pre k, text = pre ++ '\\' :: List.replicate (k + 1) '\n'

/-- Where what is in the buffer is continued, what was read ends so. The backslash is in the line read
last, or that line is empty and the backslash is from one before. -/
theorem endsOpen_append {done : List Char} (h : continues (pending ++ line) = true) (hline : line ≠ [])
    (hpending : pending ≠ [] → EndsOpen done) : EndsOpen (done ++ line) := by
  have heq := eq_spliced h
  generalize spliced (pending ++ line) = pre at heq
  obtain ⟨front, c, rfl⟩ := (List.eq_nil_or_concat line).resolve_left hline
  have hlast : pending ++ front = pre ++ ['\\'] ∧ c = '\n' := by
    have hsplit : pending ++ front ++ [c] = pre ++ ['\\'] ++ ['\n'] := by simpa using heq
    obtain ⟨hfront, hc⟩ := List.append_inj' hsplit rfl
    exact ⟨hfront, by simpa using hc⟩
  obtain ⟨hfront, rfl⟩ := hlast
  rcases List.eq_nil_or_concat front with rfl | ⟨front, d, rfl⟩
  · rw [List.append_nil] at hfront
    obtain ⟨pre', k, rfl⟩ := hpending (by rw [hfront]; simp)
    exact ⟨pre', k + 1, by rw [List.replicate_succ' (n := k + 1)]; simp⟩
  · have hd : d = '\\' := by
      have hsplit : pending ++ front ++ [d] = pre ++ ['\\'] := by simpa using hfront
      simpa using (List.append_inj' hsplit rfl).2
    subst hd
    exact ⟨done ++ front, 0, by simp⟩

theorem Shortened.append_right (h : Shortened text buf) (line : List Char) :
    Shortened (text ++ line) (buf ++ line) := by
  induction h with
  | refl => exact .refl
  | tail _ hstep ih =>
    obtain ⟨pre, post⟩ := hstep
    refine ih.tail ?_
    simpa using Splices.intro pre (post ++ line)

/-- **Nothing else is left out**, whatever fits into the buffer: `done` is what was read before. -/
theorem shortened_readLoop (done : List Char) (hfuel : rest.length ≤ fuel)
    (hdone : Shortened done (buf ++ pending)) (hopen : pending ≠ [] → EndsOpen done)
    (hend : ¬ EndsOpen (done ++ rest)) (hroom : pending.length + 2 < bufferSize)
    (hnulPending : '\x00' ∉ pending) (hnul : '\x00' ∉ rest) (hnewline : '\n' ∉ pending) :
    Shortened (done ++ rest) (readLoop fuel rest pending key buf) := by
  induction fuel generalizing rest pending key buf done with
  | zero =>
    have hnil : rest = [] := List.eq_nil_of_length_eq_zero (by omega)
    subst hnil
    rw [List.append_nil] at hend ⊢
    have hpending : pending = [] := by_contra fun hne => hend (hopen hne)
    simpa [readLoop, hpending] using hdone
  | succ fuel ih =>
    by_cases hne : rest = []
    · subst hne
      rw [List.append_nil] at hend ⊢
      have hpending : pending = [] := by_contra fun hne => hend (hopen hne)
      simpa [readLoop, hpending] using hdone
    · obtain ⟨line, rest', hget⟩ : ∃ line rest', fgets (bufferSize - pending.length) rest = (line, rest') :=
        ⟨_, _, rfl⟩
      obtain ⟨rfl, hdrop, hlen, hpos⟩ := takeLine_spec hget
      have hlinePos : 0 < line.length := List.length_pos_of_ne_nil (hpos (by omega) hne)
      have hshorter : rest'.length ≤ fuel := by
        rw [List.length_append] at hfuel
        omega
      have hnulLine : '\x00' ∉ pending ++ line :=
        List.not_mem_append hnulPending fun hc => hnul (List.mem_append_left _ hc)
      have hnulRest : '\x00' ∉ rest' := fun hc => hnul (List.mem_append_right _ hc)
      have hdropAll := notMem_dropLast_append hnewline hdrop
      obtain ⟨key', hround⟩ := readLoop_succ fuel key buf hne hget hnulLine
        hdropAll
      -- what was read is copied, or is in the buffer
      have hread : Shortened (done ++ line) (buf ++ (pending ++ line)) := by
        simpa using hdone.append_right line
      rw [← List.append_assoc] at hend ⊢
      rw [hround]
      split
      · next hcontinues =>
        have heq := eq_spliced hcontinues
        refine ih (done ++ line) hshorter ?_ (fun _ => endsOpen_append hcontinues (List.ne_nil_of_length_pos hlinePos) hopen)
          hend ?_ (notMem_spliced hnulLine) hnulRest (notMem_spliced_of_dropLast hdropAll)
        · refine hread.tail ?_
          conv => lhs; rw [heq]
          simpa using Splices.intro (buf ++ spliced (pending ++ line)) []
        · have hlength := congrArg List.length heq
          rw [List.length_append, List.length_append] at hlength
          simp only [List.length_cons, List.length_nil] at hlength
          omega
      · next hcontinues =>
        exact ih (done ++ line) hshorter (by simpa using hread) (by simp) hend (by decide) (by simp) hnulRest (by simp)

/-- **Reading the config file**, whatever was in `key`. Where the last line that is not empty does not end
in a backslash, only backslashes directly before newlines are left out, with the newlines. Where what is
joined fits into the buffer, and nothing waits for a next line when the file ends, the text is the lines
in order, joined where they are continued. -/
theorem readText_eq (key file : List Char) (hnul : '\x00' ∉ file) :
    (¬ EndsOpen file → Shortened file (readText key file))
      ∧ (Fits [] (lines file) → leftOver [] (lines file) = [] → readText key file = joined [] (lines file)) := by
  constructor
  · intro hend
    exact shortened_readLoop [] le_rfl .refl (by simp) (by simpa using hend) (by decide) (by simp)
      hnul (by simp)
  · intro hfits hend
    exact readLoop_lines le_rfl rfl hfits hend (by simp) hnul (by simp)

/-- A word in two lines. -/
theorem readText_two : readText [] "a\\\nb\n".toList = joined [] (lines "a\\\nb\n".toList) :=
  (readText_eq [] "a\\\nb\n".toList (by decide)).2 (by simp [Fits, lines, continues]; decide) (by decide)

/-- The lines in order, where each is looked at on its own. -/
def joinedAlone (file : List Char) : List Char :=
  (lines file).flatMap fun line => if continues line then spliced line else line

/-- A line that begins with a `#` inside of a continuation is no comment, and is continued itself. -/
theorem not_joinedAlone : ¬ ∀ key file : List Char, '\x00' ∉ file →
    (∀ line ∈ lines file, line.length < bufferSize) → readText key file = joinedAlone file := by
  intro h
  exact absurd (h [] "a \\\n#b\\\nc\n".toList (by decide) (by decide)) (by decide)

end I3.Parser
