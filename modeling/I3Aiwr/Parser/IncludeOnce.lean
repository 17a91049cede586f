import I3Aiwr.Parser.Include

/-!
# Each config file once

A file that fails is taken out of `included_files`, so that the next `include` of it processes it
again. As long as no file but the main one fails, the files are processed in a depth-first traversal,
each once.

## Main definitions

* `Include.Grows`: what processing a file adds
* `Include.Kept`: a file of the list that is closed has no error, or was processed twice
* `Include.Same`: the state is that of the traversal
* `Include.Once`

## Main results

* `Include.once_iff`: when each file is processed once
-/

namespace I3

namespace Include

variable {Path Word Directive Vars : Type*}

section Trace

variable {t t' : List (Entry Path Directive)}

@[simp] theorem processed_append (t t' : List (Entry Path Directive)) :
    processed (t ++ t') = processed t ++ processed t' :=
  List.filterMap_append

theorem processed_mono (h : t <+: t') : processed t <+: processed t' := h.filterMap _

@[simp] theorem processed_opening (f : Path) (b : Bool) :
    processed (opening f b : List (Entry Path Directive)) = [f] := by
  cases b <;> rfl

theorem error_notMem_opening (q f : Path) (b : Bool) :
    Entry.error q ∉ (opening f b : List (Entry Path Directive)) := by
  cases b <;> simp [opening]

end Trace

/-! ### What processing a file adds -/

/-- Processing goes on in the file `f`: `bad` says that there are more errors. They are of `f`, and of
files that were not in the list. -/
structure Grows (f : Path) (s s' : State Path Directive Vars) (bad : Prop) : Prop where
  trace : ∃ new, s'.trace = s.trace ++ new ∧ (bad ↔ ∃ q, Entry.error q ∈ new) ∧
    ∀ q, Entry.error q ∈ new → q = f ∨ q ∉ s.includedFiles
  included : s.includedFiles ⊆ s'.includedFiles

namespace Grows

variable {f : Path} {s s₁ s₂ : State Path Directive Vars} {b₁ b₂ : Prop}

theorem refl (f : Path) (s : State Path Directive Vars) : Grows f s s False :=
  ⟨⟨[], by simp, by simp, by simp⟩, List.Subset.refl _⟩

theorem trans (h₁ : Grows f s s₁ b₁) (h₂ : Grows f s₁ s₂ b₂) : Grows f s s₂ (b₁ ∨ b₂) := by
  obtain ⟨new₁, htrace₁, hb₁, hq₁⟩ := h₁.trace
  obtain ⟨new₂, htrace₂, hb₂, hq₂⟩ := h₂.trace
  refine ⟨⟨new₁ ++ new₂, ?_, ?_, fun q hq => ?_⟩, List.Subset.trans h₁.included h₂.included⟩
  · rw [htrace₂, htrace₁, List.append_assoc]
  · simp only [hb₁, hb₂, List.mem_append, exists_or]
  · rcases List.mem_append.mp hq with hq | hq
    · exact hq₁ q hq
    · exact (hq₂ q hq).imp_right fun hnot hmem => hnot (h₁.included hmem)

theorem congr (h : Grows f s s₁ b₁) (hb : b₂ ↔ b₁) : Grows f s s₁ b₂ := by
  rw [propext hb]
  exact h

theorem error (f : Path) (s : State Path Directive Vars) : Grows f s (s.note [.error f]) True :=
  ⟨⟨[.error f], rfl, by simp, by simp⟩, List.Subset.refl _⟩

/-- What is observed without an error. -/
theorem note (f : Path) (s : State Path Directive Vars) {new : List (Entry Path Directive)}
    (h : ∀ q, Entry.error q ∉ new) : Grows f s (s.note new) False :=
  ⟨⟨new, rfl, by simp [h], fun q hq => (h q hq).elim⟩, List.Subset.refl _⟩

theorem conclude (f : Path) (s : State Path Directive Vars) (ok : Bool) (result : Result)
    {otherwise : Result} (h : otherwise ≠ .success) :
    Grows f s (Include.conclude f ok result otherwise s).1
      (ok = false) ∧ ((Include.conclude f ok result otherwise s).2 ≠ .success ↔
        result ≠ .success ∨ ok = false) := by
  cases ok with
  | true => exact ⟨(refl f s).congr (by simp), by simp [Include.conclude]⟩
  | false => exact ⟨(error f s).congr (by simp), by simp [Include.conclude, h]⟩

end Grows

/-- A file of the list that is closed has no error, unless a file was processed twice. -/
structure Kept (stack : List Path) (s : State Path Directive Vars) : Prop where
  errors : ∀ q, Entry.error q ∈ s.trace → q ∈ processed s.trace
  nodup : s.includedFiles.Nodup
  clean : (processed s.trace).Nodup → ∀ q ∈ s.includedFiles, q ∉ stack → Entry.error q ∉ s.trace

namespace Kept

variable {f : Path} {stack : List Path} {s : State Path Directive Vars}

theorem note (h : Kept stack s) {new : List (Entry Path Directive)}
    (hnew : ∀ q, Entry.error q ∈ new → q ∈ stack ∧ q ∈ processed (s.trace ++ new)) :
    Kept stack (s.note new) where
  errors q hq := by
    rcases List.mem_append.mp hq with hq | hq
    · exact (processed_mono (List.prefix_append ..)).subset (h.errors q hq)
    · exact (hnew q hq).2
  nodup := h.nodup
  clean hnodup q hmem hq herror := by
    rcases List.mem_append.mp herror with herror | herror
    · exact h.clean (hnodup.sublist (processed_mono (List.prefix_append ..)).sublist) q hmem hq herror
    · exact hq (hnew q herror).1

end Kept

section Code

variable {files : Files Path Word Directive Vars} {stack : List Path}
  {f path : Path} {s s' s₁ s₂ : State Path Directive Vars} {result : Result} {b e e' : Bool}

/-- What is known of the calls of `parse_file`. -/
structure Sound (parse : Parse Path Directive Vars) : Prop where
  grows : ∀ {dir f s s' result}, parse dir f s = some (s', result) →
    Grows f s s' (result ≠ .success)
  opens : ∀ {dir f s s' result}, parse dir f s = some (s', result) →
    ∃ rest, s'.trace = s.trace ++ .file f :: rest
  kept : ∀ {stack dir f s s' result}, parse dir f s = some (s', result) → Kept (f :: stack) s →
    Kept (f :: stack) s'

/-- The list with a file that is processed now. -/
def State.push (s : State Path Directive Vars) (path : Path) : State Path Directive Vars :=
  { s with includedFiles := s.includedFiles ++ [path] }

theorem Grows.of_push {bad : Prop} (hpath : path ∉ s.includedFiles)
    (h : Grows path (s.push path) s' bad) : Grows f s s' bad := by
  obtain ⟨new, htrace, hbad, hq⟩ := h.trace
  refine ⟨⟨new, htrace, hbad, fun q herror => .inr fun hmem => ?_⟩,
    List.Subset.trans (List.subset_append_left ..) h.included⟩
  rcases hq q herror with rfl | hnot
  · exact hpath hmem
  · exact hnot (List.mem_append_left _ hmem)

theorem Kept.push (h : Kept stack s) (hpath : path ∉ s.includedFiles) :
    Kept (path :: stack) (s.push path) where
  errors := h.errors
  nodup := by
    refine List.nodup_append.mpr ⟨h.nodup, List.pairwise_singleton .., fun a ha b hb => ?_⟩
    rw [List.mem_singleton.mp hb]
    exact fun heq => hpath (heq ▸ ha)
  clean hnodup q hmem hq := by
    rw [List.mem_cons, not_or] at hq
    refine h.clean hnodup q ((List.mem_append.mp hmem).resolve_right fun hmem => ?_) hq.2
    exact hq.1 (List.mem_singleton.mp hmem)

theorem Kept.conclude (h : Kept stack s) (hf : f ∈ stack) (hopen : f ∈ processed s.trace) (ok : Bool)
    (result otherwise : Result) : Kept stack (Include.conclude f ok result otherwise s).1 := by
  cases ok with
  | true => exact h
  | false =>
    refine h.note fun q hq => ?_
    obtain rfl : q = f := by simpa using hq
    exact ⟨hf, by simp [hopen]⟩

variable [DecidableEq Path]

def State.pop (s : State Path Directive Vars) (path : Path) : State Path Directive Vars :=
  { s with includedFiles := s.includedFiles.erase path }

theorem Grows.pop {bad : Prop} (hpath : path ∉ s.includedFiles) (h : Grows f s s' bad) :
    Grows f s (s'.pop path) bad := by
  refine ⟨h.trace, fun q hq => ?_⟩
  have hne : q ≠ path := fun heq => hpath (heq ▸ hq)
  exact (List.mem_erase_of_ne hne).mpr (h.included hq)

/-- A file that failed is taken out. -/
theorem Kept.pop (h : Kept (path :: stack) s) : Kept stack (s.pop path) where
  errors := h.errors
  nodup := h.nodup.erase path
  clean hnodup q hmem hq := by
    obtain ⟨hne, hmem⟩ := h.nodup.mem_erase_iff.mp hmem
    exact h.clean hnodup q hmem (by simp [hne, hq])

/-- A file that did not fail has no error, unless it was processed before. -/
theorem Kept.close (h : Kept (path :: stack) s') (hs : Kept stack s)
    (hgrows : Grows path (s.push path) s' False)
    (hopens : ∃ rest, s'.trace = s.trace ++ .file path :: rest) : Kept stack s' where
  errors := h.errors
  nodup := h.nodup
  clean hnodup q hmem hq herror := by
    by_cases hne : q = path
    · subst hne
      obtain ⟨new, htrace, hbad, -⟩ := hgrows.trace
      obtain ⟨rest, hrest⟩ := hopens
      rw [htrace] at herror
      rcases List.mem_append.mp herror with herror | herror
      · -- an error it had before: then it was opened before, too
        have hbefore : q ∈ processed s.trace := hs.errors q herror
        rw [hrest, processed_append] at hnodup
        exact (List.nodup_append.mp hnodup).2.2 q hbefore q (by simp [processed]) rfl
      · exact hbad.mpr ⟨q, herror⟩
    · exact h.clean hnodup q hmem (by simp [hne, hq]) herror

theorem cfgInclude_spec {parse : Parse Path Directive Vars} (hparse : Sound parse)
    {words : List Word} (h : cfgInclude files parse f words s e = some (s', e')) :
    (∃ bad, Grows f s s' bad ∧ (e' = true ↔ e = true ∨ bad)) ∧
      ∀ stack, Kept stack s → Kept stack s' := by
  induction words generalizing s e with
  | nil =>
    obtain ⟨rfl, rfl⟩ := Prod.mk.inj (Option.some.inj h)
    exact ⟨⟨False, .refl f s, by simp⟩, fun stack hs => hs⟩
  | cons word words ih =>
    rw [cfgInclude] at h
    split at h
    · exact ih h
    · next path _ =>
      split at h
      · exact ih h
      · next hpath =>
        obtain ⟨⟨s₁, result⟩, h₁, hrest⟩ := Option.bind_eq_some_iff.mp h
        have hgrows := hparse.grows h₁
        have hopens := hparse.opens h₁
        have hkept : ∀ stack, Kept stack s → Kept (path :: stack) s₁ :=
          fun stack hs => hparse.kept h₁ (hs.push hpath)
        dsimp only at hrest
        split at hrest
        · next hsuccess =>
          have hgood : Grows path (s.push path) s₁ False := hgrows.congr (by simp [hsuccess])
          obtain ⟨⟨bad, hgrows', he'⟩, hkept'⟩ := ih hrest
          refine ⟨⟨False ∨ bad, (hgood.of_push hpath).trans hgrows', by simpa using he'⟩,
            fun stack hs => hkept' stack ((hkept stack hs).close hs hgood hopens)⟩
        · next hfailed =>
          have hbad : Grows path (s.push path) s₁ True := hgrows.congr (by simp [hfailed])
          obtain ⟨⟨bad, hgrows', he'⟩, hkept'⟩ := ih hrest
          refine ⟨⟨True ∨ bad, ((hbad.of_push hpath).pop hpath).trans hgrows', by simpa using he'⟩,
            fun stack hs => hkept' stack (hkept stack hs).pop⟩

theorem parseConfig_spec {parse : Parse Path Directive Vars} (hparse : Sound parse)
    {calls : List (Call Word Directive)}
    (h : parseConfig files parse f calls s e = some (s', e')) :
    (∃ bad, Grows f s s' bad ∧ (e' = true ↔ e = true ∨ bad)) ∧
      ∀ stack, f ∈ stack → f ∈ processed s.trace → Kept stack s → Kept stack s' := by
  induction calls generalizing s e with
  | nil =>
    obtain ⟨rfl, rfl⟩ := Prod.mk.inj (Option.some.inj h)
    exact ⟨⟨False, .refl f s, by simp⟩, fun stack _ _ hs => hs⟩
  | cons call calls ih =>
    have hopen : ∀ new : List (Entry Path Directive), f ∈ processed s.trace →
        f ∈ processed (s.note new).trace := fun new hf => by
      rw [State.note, processed_append]
      exact List.mem_append_left _ hf
    have herror : ∀ (e' : Bool), (∃ bad, Grows f (s.note [.error f]) s' bad ∧
        (e' = true ↔ True ∨ bad)) → ∃ bad, Grows f s s' bad ∧ (e' = true ↔ e = true ∨ bad) := by
      rintro e' ⟨bad, hgrows, he'⟩
      exact ⟨True ∨ bad, (Grows.error f s).trans hgrows, by simpa using he'⟩
    have hnote : ∀ stack, f ∈ stack → f ∈ processed s.trace → Kept stack s →
        Kept stack (s.note [.error f]) := by
      intro stack hf hopen hs
      refine hs.note fun q hq => ?_
      obtain rfl : q = f := by simpa using hq
      exact ⟨hf, by simp [hopen]⟩
    cases call with
    | directive d =>
      obtain ⟨⟨bad, hgrows, he'⟩, hkept⟩ := ih h
      refine ⟨⟨False ∨ bad, (Grows.note f s (by simp)).trans hgrows, by simpa using he'⟩,
        fun stack hf hp hs => hkept stack hf (hopen _ hp) (hs.note (by simp))⟩
    | error =>
      obtain ⟨hbad, hkept⟩ := ih h
      exact ⟨herror e' (by simpa using hbad),
        fun stack hf hp hs => hkept stack hf (hopen _ hp) (hnote stack hf hp hs)⟩
    | includes words =>
      cases words with
      | none =>
        obtain ⟨hbad, hkept⟩ := ih h
        exact ⟨herror e' (by simpa using hbad),
          fun stack hf hp hs => hkept stack hf (hopen _ hp) (hnote stack hf hp hs)⟩
      | some words =>
        obtain ⟨⟨s₁, e₁⟩, h₁, hrest⟩ := Option.bind_eq_some_iff.mp h
        obtain ⟨⟨bad₁, hgrows₁, he₁⟩, hkept₁⟩ := cfgInclude_spec hparse h₁
        obtain ⟨⟨bad₂, hgrows₂, he₂⟩, hkept₂⟩ := ih hrest
        refine ⟨⟨bad₁ ∨ bad₂, hgrows₁.trans hgrows₂, by rw [he₂, he₁, or_assoc]⟩,
          fun stack hf hp hs => hkept₂ stack hf ?_ (hkept₁ stack hs)⟩
        obtain ⟨new, htrace, -⟩ := hgrows₁.trace
        rw [htrace, processed_append]
        exact List.mem_append_left _ hp

/-- `parse_file_inner` -/
theorem parseFileInner_spec {parse : Parse Path Directive Vars} (hparse : Sound parse)
    (h : parseFileInner files parse f s = some (s', result)) :
    Grows f s s' (result ≠ .success) ∧ (∃ rest, s'.trace = s.trace ++ .file f :: rest) ∧
      ∀ stack, f ∈ stack → Kept stack s → Kept stack s' := by
  unfold parseFileInner at h
  dsimp only at h
  generalize hread : ({ s with vars := (files.read f s.vars).1 } : State Path Directive Vars) = s₀ at h
  have htrace₀ : s₀.trace = s.trace := by rw [← hread]
  have hincluded₀ : s₀.includedFiles = s.includedFiles := by rw [← hread]
  have hgrows₀ : Grows f s s₀ False :=
    ⟨⟨[], by simp [htrace₀], by simp, by simp⟩, by rw [hincluded₀]; exact List.Subset.refl _⟩
  have hkept₀ : ∀ stack, Kept stack s → Kept stack s₀ := fun stack hs => by
    subst hread
    exact ⟨hs.errors, hs.nodup, hs.clean⟩
  split at h
  · -- the file cannot be read
    obtain ⟨rfl, rfl⟩ := Prod.mk.inj (Option.some.inj h)
    have hnew : Grows f s₀ (s₀.note [.file f, .error f]) True :=
      ⟨⟨_, rfl, by simp, by simp⟩, List.Subset.refl _⟩
    refine ⟨(hgrows₀.trans hnew).congr (by simp), ⟨[.error f], by simp [State.note, htrace₀]⟩,
      fun stack hf hs => (hkept₀ stack hs).note fun q hq => ?_⟩
    obtain rfl : q = f := by simpa using hq
    exact ⟨hf, by simp [processed]⟩
  · next contents _ =>
    obtain ⟨⟨s₂, e₂⟩, h₂, hlast⟩ := Option.map_eq_some_iff.mp h
    obtain ⟨⟨bad, hgrows, he⟩, hkept⟩ := parseConfig_spec hparse h₂
    have hopening := Grows.note f s₀ (error_notMem_opening · f contents.invalidSets)
    generalize hok : (!files.duplicates (directives s₂.trace)) = ok at hlast
    obtain ⟨hconclude, hresult⟩ := Grows.conclude f s₂ ok
      (if e₂ = true then .configErrors else .success) (show Result.configErrors ≠ .success by simp)
    rw [hlast] at hconclude hresult
    have hopens : ∃ rest, s₂.trace = s.trace ++ .file f :: rest := by
      obtain ⟨new, htrace, -⟩ := hgrows.trace
      rw [htrace, State.note, htrace₀, opening, List.append_assoc, List.cons_append]
      exact ⟨_, rfl⟩
    have hopen : f ∈ processed s₂.trace := by
      obtain ⟨rest, hrest⟩ := hopens
      rw [hrest]
      simp [processed]
    refine ⟨(((hgrows₀.trans hopening).trans hgrows).trans hconclude).congr ?_, ?_,
      fun stack hf hs => ?_⟩
    · have hbad : bad ↔ e₂ = true := by simpa using he.symm
      rw [hresult, hbad]
      cases e₂ <;> simp
    · obtain ⟨rest, hrest⟩ := hopens
      obtain ⟨new, hnew, -⟩ := hconclude.trace
      rw [hnew, hrest, List.append_assoc, List.cons_append]
      exact ⟨_, rfl⟩
    · have hs₂ := hkept stack hf (by simp [State.note]) ((hkept₀ stack hs).note fun q hq =>
        (error_notMem_opening q f _ hq).elim)
      have := hs₂.conclude hf hopen ok (if e₂ = true then .configErrors else .success) .configErrors
      rw [hlast] at this
      exact this

theorem sound_parseFile (fuel : ℕ) : Sound (parseFile files fuel) := by
  induction fuel with
  | zero => exact ⟨(by cases ·), (by cases ·), (by cases ·)⟩
  | succ fuel ih =>
    have hstep : ∀ {dir f s s' result}, parseFile files (fuel + 1) dir f s = some (s', result) →
        Grows f s s' (result ≠ .success) ∧ (∃ rest, s'.trace = s.trace ++ .file f :: rest) ∧
          ∀ stack, f ∈ stack → Kept stack s → Kept stack s' := by
      intro dir f s s' result h
      obtain ⟨⟨s₁, result₁⟩, h₁, hlast⟩ := Option.map_eq_some_iff.mp h
      obtain ⟨hgrows, ⟨rest, hrest⟩, hkept⟩ := parseFileInner_spec ih h₁
      obtain ⟨hconclude, hresult⟩ := Grows.conclude f s₁ (files.chdir dir) result₁
        (show Result.failed ≠ .success by simp)
      dsimp only at hlast
      rw [hlast] at hconclude hresult
      refine ⟨(hgrows.trans hconclude).congr hresult, ?_, fun stack hf hs => ?_⟩
      · obtain ⟨new, hnew, -⟩ := hconclude.trace
        rw [hnew, hrest, List.append_assoc, List.cons_append]
        exact ⟨_, rfl⟩
      · have := (hkept stack hf hs).conclude hf (by rw [hrest]; simp [processed])
          (files.chdir dir) result₁ .failed
        rw [hlast] at this
        exact this
    exact ⟨fun h => (hstep h).1, fun h => (hstep h).2.1,
      fun h => (hstep h).2.2 _ (List.mem_cons_self ..)⟩

/-! ### Processing ends -/

section Ends

open Depth (missing missing_mono missing_concat_lt)

variable {bound : ℕ}

theorem exists_cfgInclude {parse : Parse Path Directive Vars} (hparse : Sound parse)
    (hnext : ∀ dir f s, missing files.paths s.includedFiles < bound → ∃ out, parse dir f s = some out)
    (words : List Word) (hs : missing files.paths s.includedFiles ≤ bound) :
    ∃ out, cfgInclude files parse f words s e = some out := by
  induction words generalizing s e with
  | nil => exact ⟨(s, e), rfl⟩
  | cons word words ih =>
    rw [cfgInclude]
    split
    · exact ih hs
    · next path hpath =>
      split
      · exact ih hs
      · next hnew =>
        have hlt : missing files.paths (s.push path).includedFiles < bound :=
          (missing_concat_lt (files.realpath_mem _ _ _ hpath) hnew).trans_le hs
        obtain ⟨⟨s₁, result⟩, h₁⟩ := hnext (some f) path (s.push path) hlt
        have hgrows : Grows f s s₁ (result ≠ .success) := (hparse.grows h₁).of_push hnew
        change ∃ out, (parse (some f) path (s.push path)).bind _ = some out
        rw [h₁, Option.bind_some]
        dsimp only
        split
        · exact ih ((missing_mono hgrows.included).trans hs)
        · exact ih ((missing_mono (hgrows.pop hnew).included).trans hs)

theorem exists_parseConfig {parse : Parse Path Directive Vars} (hparse : Sound parse)
    (hnext : ∀ dir f s, missing files.paths s.includedFiles < bound → ∃ out, parse dir f s = some out)
    (calls : List (Call Word Directive)) (hs : missing files.paths s.includedFiles ≤ bound) :
    ∃ out, parseConfig files parse f calls s e = some out := by
  induction calls generalizing s e with
  | nil => exact ⟨(s, e), rfl⟩
  | cons call calls ih =>
    cases call with
    | directive d => exact ih (s := s.note [.directive d]) hs
    | error => exact ih (s := s.note [.error f]) hs
    | includes words =>
      cases words with
      | none => exact ih (s := s.note [.error f]) hs
      | some words =>
        obtain ⟨⟨s₁, e₁⟩, h₁⟩ := exists_cfgInclude (e := e) (f := f) hparse hnext words hs
        obtain ⟨⟨bad, hgrows, -⟩, -⟩ := cfgInclude_spec hparse h₁
        rw [parseConfig, h₁]
        exact ih ((missing_mono hgrows.included).trans hs)

/-- **Processing a file ends**, whatever the includes: the calls are nested no deeper than there are
files that are not in the list. -/
theorem exists_parseFile {fuel : ℕ} (dir : Option Path) (f : Path) (s : State Path Directive Vars)
    (hs : missing files.paths s.includedFiles < fuel) : ∃ out, parseFile files fuel dir f s = some out := by
  induction fuel generalizing dir f s with
  | zero => cases hs
  | succ fuel ih =>
    have hinner : ∃ out, parseFileInner files (parseFile files fuel) f s = some out := by
      unfold parseFileInner
      dsimp only
      split
      · exact ⟨_, rfl⟩
      · next contents _ =>
        obtain ⟨out, hout⟩ := exists_parseConfig (f := f) (e := false)
          (s := { s with vars := (files.read f s.vars).1 }.note (opening f contents.invalidSets))
          (sound_parseFile fuel) ih contents.calls (Nat.lt_succ_iff.mp hs)
        rw [hout]
        exact ⟨_, rfl⟩
    obtain ⟨out, hout⟩ := hinner
    rw [parseFile, hout]
    exact ⟨_, rfl⟩

end Ends

end Code

/-! ### The traversal -/

section Traversal

variable {files : Files Path Word Directive Vars} {f path main : Path} {dir : Option Path}
  {s s' : State Path Directive Vars} {w w' : Depth.Walk Path (Observed Path Directive Vars)}

/-- The state is that of the traversal. -/
structure Same (s : State Path Directive Vars) (w : Depth.Walk Path (Observed Path Directive Vars)) :
    Prop where
  included : s.includedFiles = w.nodes
  processed : processed s.trace = w.nodes
  state : w.state = (s.vars, s.trace)

/-- Only the main file has errors. -/
def Clean (main : Path) (t : List (Entry Path Directive)) : Prop := ∀ q, Entry.error q ∈ t → q = main

theorem Clean.mono {t t' : List (Entry Path Directive)} (h : Clean main t')
    (hsub : t <+: t') : Clean main t := fun q hq => h q (hsub.subset hq)

theorem Same.note (h : Same s w) {new : List (Entry Path Directive)} (hnew : Include.processed new = []) :
    Same (s.note new) { w with state := (w.state.1, w.state.2 ++ new) } where
  included := h.included
  processed := by
    rw [State.note, processed_append, hnew, List.append_nil]
    exact h.processed
  state := by
    rw [h.state]
    rfl

theorem Same.conclude (h : Same s w) (f : Path) (ok : Bool) (result otherwise : Result) :
    Same (Include.conclude f ok result otherwise s).1
      { w with state := (w.state.1, if ok then w.state.2 else w.state.2 ++ [.error f]) } := by
  cases ok with
  | true => exact ⟨h.included, h.processed, h.state⟩
  | false => exact h.note rfl

/-- What is observed grows. -/
def Later (x y : Observed Path Directive Vars) : Prop := x.2 <+: y.2

theorem later_act {step : Observed Path Directive Vars → Observed Path Directive Vars}
    {calls : List (Call Word Directive)} (h : .act step ∈ calls.flatMap (callSteps files f))
    (x : Observed Path Directive Vars) : Later x (step x) := by
  obtain ⟨call, -, h⟩ := List.mem_flatMap.mp h
  have hobserve : ∀ entries, Depth.Step.act step =
      (observe entries : Depth.Step (Reference Path) (Observed Path Directive Vars)) →
      Later x (step x) := by
    intro entries heq
    obtain rfl := Depth.Step.act.inj heq
    exact List.prefix_append ..
  cases call with
  | directive d => exact hobserve _ (List.mem_singleton.mp h)
  | error => exact hobserve _ (List.mem_singleton.mp h)
  | includes words =>
    cases words with
    | none => exact hobserve _ (List.mem_singleton.mp h)
    | some words =>
      obtain ⟨p, -, hp⟩ := List.mem_map.mp h
      cases hp

theorem later_check (f : Path) (ok : Bool) (x : Observed Path Directive Vars) :
    Later x (x.1, if ok then x.2 else x.2 ++ [.error f]) := by
  cases ok with
  | true => exact List.prefix_rfl
  | false => exact List.prefix_append ..

variable (files) in
/-- A file that is opened now. -/
theorem Same.open (hs : Same s w) {v : Reference Path} {new : List (Entry Path Directive)}
    (hnew : Include.processed new = [v.2]) (vars : Vars) :
    Same ({ s.push v.2 with vars := vars }.note new)
      { (graph files).enter v w with state := (vars, w.state.2 ++ new) } where
  included := by
    change s.includedFiles ++ [v.2] = ((graph files).enter v w).nodes
    rw [Depth.Graph.nodes_enter, hs.included]
    rfl
  processed := by
    change Include.processed (s.trace ++ new) = ((graph files).enter v w).nodes
    rw [Depth.Graph.nodes_enter, processed_append, hnew, hs.processed]
    rfl
  state := by
    rw [hs.state]
    rfl

theorem targets_callSteps (f : Path) (calls : List (Call Word Directive)) :
    (graph files).targets (calls.flatMap (callSteps files f)) ⊆ files.paths := by
  induction calls with
  | nil => exact List.nil_subset _
  | cons call calls ih =>
    rw [List.flatMap_cons, Depth.Graph.targets_append]
    refine List.append_subset.mpr ⟨fun p hp => ?_, ih⟩
    cases call with
    | directive d => cases hp
    | error => cases hp
    | includes words =>
      cases words with
      | none => cases hp
      | some words =>
        obtain ⟨step, hstep, htarget⟩ := List.mem_filterMap.mp hp
        obtain ⟨q, hq, rfl⟩ := List.mem_map.mp hstep
        obtain ⟨word, -, hword⟩ := List.mem_filterMap.mp hq
        obtain rfl : q = p := Option.some.inj htarget
        exact files.realpath_mem f word q hword

theorem targets_fileSteps (v : Reference Path) (s : Observed Path Directive Vars) :
    (graph files).targets (fileSteps files v.1 v.2 s) ⊆ files.paths := by
  rw [fileSteps, Depth.Graph.targets_append]
  refine List.append_subset.mpr ⟨?_, List.nil_subset _⟩
  rw [Depth.Graph.targets_act]
  split
  · exact List.nil_subset _
  · next contents _ =>
    change (graph files).targets (_ ++ _) ⊆ _
    rw [Depth.Graph.targets_append]
    exact List.append_subset.mpr ⟨targets_callSteps v.2 contents.calls, List.nil_subset _⟩

variable [DecidableEq Path]

theorem later_visit {fuel : ℕ} {v : Reference Path} (h : (graph files).visit fuel v w = some w') :
    Later w.state w'.state := by
  refine Depth.Graph.rel_visit (fun x => List.prefix_rfl) (fun x y z => List.IsPrefix.trans)
    (fun v x step hstep y => ?_) h
  rcases List.mem_append.mp hstep with hstep | hstep
  · rcases List.mem_cons.mp hstep with hstep | hstep
    · obtain rfl := Depth.Step.act.inj hstep
      exact List.prefix_rfl
    · split at hstep
      · obtain rfl := Depth.Step.act.inj (List.mem_singleton.mp hstep)
        exact List.prefix_append ..
      · rcases List.mem_cons.mp hstep with hstep | hstep
        · obtain rfl := Depth.Step.act.inj hstep
          exact List.prefix_append ..
        · rcases List.mem_append.mp hstep with hstep | hstep
          · exact later_act hstep y
          · obtain rfl := Depth.Step.act.inj (List.mem_singleton.mp hstep)
            exact later_check v.2 _ y
  · obtain rfl := Depth.Step.act.inj (List.mem_singleton.mp hstep)
    exact later_check v.2 _ y

/-- The calls of `parse_file` do what the visits of the traversal do, while only the main file has
errors. -/
def Simulates (files : Files Path Word Directive Vars) (main : Path) (fuel : ℕ) : Prop :=
  ∀ dir f s w w', Same s w → f ∉ s.includedFiles → main ∈ (s.push f).includedFiles →
    (graph files).visit fuel (dir, f) w = some w' → Clean main w'.state.2 →
      ∃ s' result, parseFile files fuel dir f (s.push f) = some (s', result) ∧ Same s' w'

theorem later_run {fuel : ℕ} {calls : List (Call Word Directive)}
    (h : (graph files).run ((graph files).visit fuel) (calls.flatMap (callSteps files f)) w = some w') :
    Later w.state w'.state :=
  Depth.Graph.rel_run (fun _ => List.prefix_rfl) (fun _ _ _ => List.IsPrefix.trans)
    (fun _ _ _ h => later_visit h) (fun _ hstep x => later_act hstep x) h

/-- The words of an `include`. Where no file fails, nothing is taken out of the list. -/
theorem same_cfgInclude {fuel : ℕ} (hsim : Simulates files main fuel) {words : List Word} {e : Bool}
    (hs : Same s w) (hmain : main ∈ s.includedFiles)
    (h : (graph files).run ((graph files).visit fuel)
      (callSteps files f (.includes (some words))) w = some w') (hclean : Clean main w'.state.2) :
    ∃ s', cfgInclude files (parseFile files fuel) f words s e = some (s', e) ∧ Same s' w' ∧
      main ∈ s'.includedFiles := by
  induction words generalizing s w with
  | nil =>
    obtain rfl : w = w' := Option.some.inj h
    exact ⟨s, rfl, hs, hmain⟩
  | cons word words ih =>
    rw [cfgInclude]
    rw [callSteps] at h
    split
    · next hpath =>
      rw [List.filterMap_cons_none hpath] at h
      exact ih hs hmain h
    · next path hpath =>
      rw [List.filterMap_cons_some hpath] at h
      change (if path ∈ w.nodes then _ else _) = _ at h
      rw [← hs.included] at h
      split at h
      · next hmem =>
        rw [if_pos hmem]
        exact ih hs hmain h
      · next hnew =>
        rw [if_neg hnew]
        obtain ⟨w₁, hw₁, hrest⟩ := Option.bind_eq_some_iff.mp h
        have hlater : Later w₁.state w'.state :=
          Depth.Graph.rel_run (fun _ => List.prefix_rfl) (fun _ _ _ => List.IsPrefix.trans)
            (fun _ _ _ h => later_visit h) (fun _ hstep => by
              obtain ⟨p, -, hp⟩ := List.mem_map.mp hstep
              cases hp) hrest
        have hmain' : main ∈ (s.push path).includedFiles := List.mem_append_left _ hmain
        obtain ⟨s₁, result, hs₁, hsame⟩ := hsim _ _ s w w₁ hs hnew hmain' hw₁ (hclean.mono hlater)
        obtain ⟨new, htrace, hbad, hq⟩ := ((sound_parseFile fuel).grows hs₁).trace
        have hgrows := ((sound_parseFile fuel).grows hs₁).included
        -- an error would be of the main file, which was in the list before
        have hsuccess : result = .success := by
          by_contra hfailed
          obtain ⟨q, herror⟩ := hbad.mp hfailed
          have hq' : q = main := by
            refine hclean.mono hlater q ?_
            rw [hsame.state, htrace]
            exact List.mem_append_right _ herror
          rcases hq q herror with heq | hnot
          · exact hnew (heq ▸ hq' ▸ hmain)
          · exact hnot (hq' ▸ hmain')
        subst hsuccess
        have hpush : parseFile files fuel (some f) path
            { s with includedFiles := s.includedFiles ++ [path] } = some (s₁, .success) := hs₁
        rw [hpush, Option.bind_some]
        exact ih hsame (hgrows hmain') hrest

theorem same_parseConfig {fuel : ℕ} (hsim : Simulates files main fuel)
    {calls : List (Call Word Directive)} {e : Bool} (hs : Same s w) (hmain : main ∈ s.includedFiles)
    (h : (graph files).run ((graph files).visit fuel) (calls.flatMap (callSteps files f)) w = some w')
    (hclean : Clean main w'.state.2) :
    ∃ s' e', parseConfig files (parseFile files fuel) f calls s e = some (s', e') ∧ Same s' w' := by
  induction calls generalizing s w e with
  | nil =>
    obtain rfl : w = w' := Option.some.inj h
    exact ⟨s, e, rfl, hs⟩
  | cons call calls ih =>
    rw [List.flatMap_cons, Depth.Graph.run_append] at h
    obtain ⟨w₁, hw₁, hrest⟩ := Option.bind_eq_some_iff.mp h
    cases call with
    | directive d =>
      obtain rfl := Option.some.inj hw₁
      exact ih (hs.note rfl) hmain hrest
    | error =>
      obtain rfl := Option.some.inj hw₁
      exact ih (hs.note rfl) hmain hrest
    | includes words =>
      cases words with
      | none =>
        obtain rfl := Option.some.inj hw₁
        exact ih (hs.note rfl) hmain hrest
      | some words =>
        obtain ⟨s₁, hs₁, hsame, hmain₁⟩ :=
          same_cfgInclude (e := e) hsim hs hmain hw₁ (hclean.mono (later_run hrest))
        rw [parseConfig, hs₁]
        exact ih hsame hmain₁ hrest

theorem parseFileInner_none {parse : Parse Path Directive Vars} (h : (files.read f s.vars).2 = none) :
    parseFileInner files parse f s =
      some ({ s with vars := (files.read f s.vars).1 }.note [.file f, .error f], .failed) := by
  unfold parseFileInner
  dsimp only
  rw [h]

theorem parseFileInner_some {parse : Parse Path Directive Vars} {contents : Contents Word Directive}
    {s₁ : State Path Directive Vars} {e : Bool} (h : (files.read f s.vars).2 = some contents)
    (hconfig : parseConfig files parse f contents.calls
      ({ s with vars := (files.read f s.vars).1 }.note (opening f contents.invalidSets)) false =
        some (s₁, e)) :
    parseFileInner files parse f s = some (conclude f (!files.duplicates (directives s₁.trace))
      (if e then .configErrors else .success) .configErrors s₁) := by
  unfold parseFileInner
  dsimp only
  rw [h]
  dsimp only
  rw [hconfig]
  rfl

theorem same_parseFileInner {fuel : ℕ} (hsim : Simulates files main fuel) (hs : Same s w)
    (hmain : main ∈ (s.push f).includedFiles)
    (h : (graph files).run ((graph files).visit fuel) (match (files.read f s.vars).2 with
      | none => [observe [.file f, .error f]]
      | some contents => observe (opening f contents.invalidSets) ::
          (contents.calls.flatMap (callSteps files f) ++
            [check f fun trace => !files.duplicates (directives trace)]))
      { (graph files).enter (dir, f) w with state := ((files.read f s.vars).1, w.state.2) } = some w')
    (hclean : Clean main w'.state.2) :
    ∃ s' result, parseFileInner files (parseFile files fuel) f (s.push f) = some (s', result) ∧
      Same s' w' := by
  cases hread : (files.read f s.vars).2 with
  | none =>
    rw [hread] at h
    obtain rfl := Option.some.inj h
    have hopen : Include.processed [(.file f : Entry Path Directive), .error f] = [f] := rfl
    exact ⟨_, _, parseFileInner_none hread, hs.open files (v := (dir, f)) hopen (files.read f s.vars).1⟩
  | some contents =>
    rw [hread] at h
    change (graph files).run _ (contents.calls.flatMap (callSteps files f) ++ _) _ = _ at h
    rw [Depth.Graph.run_append] at h
    obtain ⟨w₁, hw₁, hcheck⟩ := Option.bind_eq_some_iff.mp h
    obtain rfl := Option.some.inj hcheck
    have hopen := hs.open files (v := (dir, f))
      (processed_opening f contents.invalidSets) (files.read f s.vars).1
    obtain ⟨s₁, e₁, h₁, hsame⟩ := same_parseConfig (e := false) hsim hopen hmain hw₁
      (hclean.mono (later_check f (!files.duplicates (directives w₁.state.2)) w₁.state))
    have htrace : w₁.state.2 = s₁.trace := by rw [hsame.state]
    refine ⟨_, _, parseFileInner_some hread h₁, ?_⟩
    have hlast := hsame.conclude f (!files.duplicates (directives s₁.trace))
      (if e₁ = true then .configErrors else .success) .configErrors
    rw [← htrace] at hlast ⊢
    exact hlast

/-- **While only the main file has errors**, `parse_file` is the traversal. -/
theorem simulates (files : Files Path Word Directive Vars) (main : Path) (fuel : ℕ) :
    Simulates files main fuel := by
  induction fuel with
  | zero =>
    intro dir f s w w' _ _ _ h
    cases h
  | succ fuel ih =>
    intro dir f s w w' hs _ hmain h hclean
    have hvars : w.state.1 = s.vars := by rw [hs.state]
    have hrun : (graph files).run ((graph files).visit fuel) (fileSteps files dir f w.state)
        ((graph files).enter (dir, f) w) = some w' := h
    rw [fileSteps, hvars, Depth.Graph.run_append] at hrun
    obtain ⟨w₂, hw₂, hlast⟩ := Option.bind_eq_some_iff.mp hrun
    obtain rfl := Option.some.inj hlast
    rw [Depth.Graph.run] at hw₂
    have hstate : ((graph files).enter (dir, f) w).state = (s.vars, w.state.2) := by
      rw [← hvars]
      rfl
    rw [hstate] at hw₂
    obtain ⟨s₂, result, h₂, hsame⟩ := same_parseFileInner ih hs hmain hw₂
      (hclean.mono (later_check f (files.chdir dir) w₂.state))
    rw [parseFile, h₂]
    exact ⟨_, _, rfl, hsame.conclude f (files.chdir dir) result .failed⟩

end Traversal

/-! ### Each file once -/

section Once

variable [DecidableEq Path] {files : Files Path Word Directive Vars} {main : Path}

/-- **Includes are processed once**: what is observed is the traversal, so that a file is processed at
the first `include` that reaches it, `included_files` are the files processed, each once, those that
can be reached, and the result is an error iff one of them has one. -/
structure Once (main : Path) (out : State Path Directive Vars × Result)
    (w : Depth.Walk Path (Observed Path Directive Vars)) : Prop where
  place : out.1.trace = w.state.2
  once : (processed out.1.trace).Nodup
  reachable : ∀ p, p ∈ processed out.1.trace ↔ Relation.ReflTransGen w.Leads main p
  included : ∀ p, p ∈ out.1.includedFiles ↔ p ∈ processed out.1.trace
  result : out.2 ≠ .success ↔ ∃ q, Entry.error q ∈ out.1.trace ∨ .malformed q ∈ out.1.trace

theorem reachable_depthFirst {fuel : ℕ} {vars : Vars}
    {w : Depth.Walk Path (Observed Path Directive Vars)}
    (h : depthFirst files fuel main vars = some w) :
    w.nodes.Nodup ∧ ∀ p, p ∈ w.nodes ↔ Relation.ReflTransGen w.Leads main p := by
  have hexplored := Depth.Graph.explored_visit (G := graph files) (v := (none, main))
    (w := { state := (vars, []), visited := [] }) (by simp [Depth.Walk.nodes]) h
  refine ⟨hexplored.nodup (by simp [Depth.Walk.nodes]), fun p => ⟨fun hp => ?_, fun hp => ?_⟩⟩
  · obtain ⟨b, hb, hbp⟩ := (hexplored.reached p hp).resolve_left (by simp [Depth.Walk.nodes])
    rwa [List.mem_singleton.mp hb] at hbp
  · induction hp with
    | refl => exact hexplored.targets (List.mem_singleton_self _)
    | tail _ hlead _ =>
      obtain ⟨q, hq, -, hmem⟩ := hlead
      exact (hexplored.closed q hq).resolve_left (by simp) hmem

theorem once_of_clean {fuel : ℕ} {vars : Vars} {w : Depth.Walk Path (Observed Path Directive Vars)}
    {out : State Path Directive Vars × Result} (hout : load files fuel main vars = some out)
    (hw : depthFirst files fuel main vars = some w) (hclean : Clean main w.state.2)
    (hmalformed : (∃ q, Entry.malformed q ∈ w.state.2) → ∃ q, Entry.error q ∈ w.state.2) :
    Once main out w := by
  have hsame : Same ({ includedFiles := [], vars := vars, trace := [] } : State Path Directive Vars)
      { state := (vars, []), visited := [] } := ⟨rfl, rfl, rfl⟩
  obtain ⟨s, result, hs, hsame'⟩ := simulates files main fuel none main _ _ w hsame (by simp)
    (by simp [State.push]) hw hclean
  obtain rfl : out = (s, result) := Option.some.inj (hout.symm.trans hs)
  obtain ⟨hnodup, hreach⟩ := reachable_depthFirst hw
  have htrace : w.state.2 = s.trace := by rw [hsame'.state]
  obtain ⟨new, hnew, hbad, -⟩ := ((sound_parseFile fuel).grows hs).trace
  rw [htrace] at hmalformed
  refine ⟨htrace.symm, ?_, fun p => ?_, fun p => ?_, ?_⟩
  · rw [hsame'.processed]
    exact hnodup
  · rw [hsame'.processed]
    exact hreach p
  · rw [hsame'.processed, hsame'.included]
  · have hall : s.trace = new := hnew
    rw [exists_or, hall, hbad]
    rw [hall] at hmalformed
    exact ⟨.inl, fun h => h.elim id hmalformed⟩

theorem clean_of_once {fuel : ℕ} {vars : Vars} {w : Depth.Walk Path (Observed Path Directive Vars)}
    {out : State Path Directive Vars × Result} (hout : load files fuel main vars = some out)
    (h : Once main out w) : Clean main w.state.2 ∧
      ((∃ q, Entry.malformed q ∈ w.state.2) → ∃ q, Entry.error q ∈ w.state.2) := by
  have hnew : Kept [main] ({ includedFiles := [main], vars := vars, trace := [] } :
      State Path Directive Vars) :=
    ⟨by simp, List.nodup_singleton main, fun _ q hq hnot => (hnot hq).elim⟩
  have hkept := (sound_parseFile fuel).kept hout hnew
  obtain ⟨new, htrace, hbad, -⟩ := ((sound_parseFile fuel).grows hout).trace
  have hall : out.1.trace = new := htrace
  rw [← h.place]
  constructor
  · intro q herror
    by_contra hne
    refine hkept.clean h.once q ((h.included q).mpr (hkept.errors q herror)) ?_ herror
    simpa using hne
  · rintro ⟨q, hq⟩
    have hfailed := h.result.mpr ⟨q, .inr hq⟩
    rw [hall]
    exact hbad.mp hfailed

/-- **Each file once**: processing ends for every main file, whatever the includes. Each file is
processed once, in the order of the traversal, iff in the traversal no file but the main one has an
error, and a malformed assignment comes with an error. -/
theorem once_iff (files : Files Path Word Directive Vars) (main : Path) (vars : Vars) (extra : ℕ) :
    ∃ out w, load files (files.paths.length + 1 + extra) main vars = some out ∧
      depthFirst files (files.paths.length + 1 + extra) main vars = some w ∧
      (Once main out w ↔ (∀ q, Entry.error q ∈ w.state.2 → q = main) ∧
        ((∃ q, Entry.malformed q ∈ w.state.2) → ∃ q, Entry.error q ∈ w.state.2)) := by
  have hfuel : files.paths.length < files.paths.length + 1 + extra := by omega
  obtain ⟨out, hout⟩ : ∃ out, load files (files.paths.length + 1 + extra) main vars = some out :=
    exists_parseFile none main _ ((Depth.missing_le_length ..).trans_lt hfuel)
  obtain ⟨w, hw⟩ : ∃ w, depthFirst files (files.paths.length + 1 + extra) main vars = some w :=
    Depth.Graph.exists_visit files.paths targets_fileSteps
      ((Depth.missing_le_length ..).trans_lt hfuel)
  exact ⟨out, w, hout, hw, clean_of_once hout, fun h => once_of_clean hout hw h.1 h.2⟩

/-- The main file `0` includes the file `1` twice, and that has a directive and an error. -/
def twiceFiles : Files ℕ ℕ ℕ Unit where
  paths := [0, 1]
  realpath _ word := if word = 1 then some 1 else none
  realpath_mem f w p h := by
    split at h
    · simp [← Option.some.inj h]
    · cases h
  read f vars := (vars, if f = 0 then some ⟨[.includes (some [1]), .includes (some [1])], false⟩
    else some ⟨[.directive 7, .error], false⟩)
  chdir _ := true
  duplicates _ := false

theorem not_once_twice : ¬ ∀ (files : Files ℕ ℕ ℕ Unit) (main extra : ℕ), ∃ out w,
    load files (files.paths.length + 1 + extra) main () = some out ∧
    depthFirst files (files.paths.length + 1 + extra) main () = some w ∧ Once main out w := by
  intro h
  obtain ⟨out, w, hout, -, honce⟩ := h twiceFiles 0 0
  have hprocessed : (load twiceFiles 3 0 ()).map (fun out => processed out.1.trace) =
      some [0, 1, 1] := by decide
  rw [show twiceFiles.paths.length + 1 + 0 = 3 from rfl] at hout
  rw [hout, Option.map_some, Option.some.injEq] at hprocessed
  have hnodup := honce.once
  rw [hprocessed] at hnodup
  simp at hnodup

end Once

end Include

end I3
