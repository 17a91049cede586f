import I3Aiwr.Lib.Runs
import I3Aiwr.Tree.Labels

/-!
# Marks

The marks of `src/con.c`. Setting a mark first takes it from the container that has it, so that a
mark has one owner. Removing a mark edits one list, at the first match: it is the only one, for a
container never has a mark twice and no other container has it.

Closing and moving containers on the way leave the marks alone (`Tree.Labels`); merging two
containers hands over the first mark of the old one and drops the others.

## Main definitions

* `Tree.conMark`, `Tree.conMarkToggle`, `Tree.conUnmark`, `Tree.conMergeInto`
* `Tree.UniqueMarks`: every mark has at most one owner, who has it once
* `Tree.Marked`: what setting a mark does
* `Marks.step`: an operation that changes the marks

## Main results

* `Tree.UniqueMarks.of_labels`: what keeps the labels keeps marks unique
* `Tree.UniqueMarks.give`: a container may be given a mark nobody has
* `Marks.uniqueMarks_after`: marks are unique after every run, and setting a mark does its work
-/

namespace I3

/-- Whether a new mark replaces the marks of the container or joins them. -/
inductive MarkMode
  | replace | add
  deriving DecidableEq, Repr

namespace Tree

variable (cfg : Config) (t : Tree)

def conHasMark (c : ConId) (mark : String) : Bool := (t.con c).marks.contains mark

/-- `con_by_mark`. -/
def conByMark (mark : String) : Option ConId := t.allCons.find? fun c => t.conHasMark c mark

/-- The container has these marks now, and its title is redrawn. -/
def setMarks (c : ConId) (marks : List String) : Tree :=
  t.modify c fun d => { d with marks, markChanged := true }

/-- The loop of `con_unmark` without a name, at one container. -/
def unmarkAll (con : Option ConId) (current : ConId) : Tree :=
  if con ≠ none ∧ con ≠ some current then t
  else if (t.con current).marks = [] then t
  else t.setMarks current []

/-- `con_unmark`. Without a container all of them are considered, without a name all marks. -/
def conUnmark (con : Option ConId) (name : Option String) : Tree :=
  match name with
  | none => t.allCons.foldl (fun t current => t.unmarkAll con current) t
  | some name => match con.or (t.conByMark name) with
    | none => t
    | some current => t.setMarks current ((t.con current).marks.erase name)

/-- The loop of `con_mark` with `MM_REPLACE`, at most `n` times around: the first mark of the
container is removed by its name. -/
def unmarkFirstN (c : ConId) : ℕ → Tree → Tree
  | 0, t => t
  | n + 1, t => match (t.con c).marks.head? with
    | none => t
    | some name => unmarkFirstN c n (t.conUnmark (some c) (some name))

/-- The part of `con_mark` before the mark is set. -/
def unmarkFor (c : ConId) (mark : String) (mode : MarkMode) : Tree :=
  let t := t.conUnmark none (some mark)
  match mode with
  | .replace => unmarkFirstN c (t.con c).marks.length t
  | .add => t

/-- `con_mark`. -/
def conMark (c : ConId) (mark : String) (mode : MarkMode) : Tree :=
  let t := t.unmarkFor c mark mode
  t.setMarks c ((t.con c).marks ++ [mark])

/-- `con_mark_toggle`. -/
def conMarkToggle (c : ConId) (mark : String) (mode : MarkMode) : Tree :=
  if t.conHasMark c mark then t.conUnmark (some c) (some mark) else t.conMark c mark mode

/-- The window and what comes with it move from `old` to `new`. -/
def mergeWindow (old new : ConId) : Tree :=
  let o := t.con old
  (t.modify new fun d =>
    { d with
      window := o.window, titleFormat := o.titleFormat.or d.titleFormat
      stickyGroup := o.stickyGroup.or d.stickyGroup, sticky := o.sticky }).modify old fun d =>
    { d with window := none, titleFormat := none, stickyGroup := none }

/-- The marks of `old` are appended to those of `new` while they are walked. Appending the first
one ends the walk, and the others are lost. -/
def mergeMarks (old new : ConId) : Tree :=
  let marks := (t.con old).marks
  (t.modify new fun d =>
    { d with marks := d.marks ++ marks.take 1, markChanged := !marks.isEmpty }).modify old fun d =>
    { d with marks := [] }

/-- `con_merge_into`. -/
def conMergeInto (old new : ConId) : Tree :=
  let t := t.mergeWindow old new
  let t := t.conSetUrgency new (t.con old).urgent
  let t := t.mergeMarks old new
  t.treeCloseInternal cfg old .dontKillWindow false

/-- Every mark has at most one owner in `all_cons`, who has it once. -/
structure UniqueMarks : Prop where
  nodup : ∀ c ∈ t.allCons, (t.con c).marks.Nodup
  owner : ∀ c ∈ t.allCons, ∀ d ∈ t.allCons, ∀ m ∈ (t.con c).marks, m ∈ (t.con d).marks → c = d

/-- The addresses of `all_cons` are in use. -/
def InUse : Prop := ∀ c ∈ t.allCons, c < t.nextCon

/-- What setting the mark `m` on `c` does: `c` has it and no other container does. It is the only
mark of `c` if it replaces the others, which are kept if it joins them. -/
structure Marked (t t' : Tree) (c : ConId) (m : String) (mode : MarkMode) : Prop where
  holds : m ∈ (t'.con c).marks
  alone : ∀ d ∈ t'.allCons, d ≠ c → m ∉ (t'.con d).marks
  only : mode = .replace → (t'.con c).marks = [m]
  kept : mode = .add → (t'.con c).marks = (t.con c).marks.erase m ++ [m]

variable {cfg : Config} {t t' t'' : Tree} {c : ConId} {m : String}

@[simp] theorem setMarks_marks_self (t : Tree) (c : ConId) (l : List String) :
    ((t.setMarks c l).con c).marks = l := by simp [setMarks]

@[simp] theorem setMarks_con_of_ne (t : Tree) {c d : ConId} (l : List String) (h : d ≠ c) :
    (t.setMarks c l).con d = t.con d := modify_con_of_ne _ _ h

@[simp] theorem setMarks_allCons (t : Tree) (c : ConId) (l : List String) :
    (t.setMarks c l).allCons = t.allCons := rfl

theorem conHasMark_iff : t.conHasMark c m = true ↔ m ∈ (t.con c).marks := List.contains_iff_mem

theorem conByMark_eq_some (h : t.conByMark m = some c) : c ∈ t.allCons ∧ m ∈ (t.con c).marks :=
  ⟨List.mem_of_find?_eq_some h, conHasMark_iff.mp (List.find?_some (p := fun c => t.conHasMark c m) h)⟩

theorem conByMark_eq_none (h : t.conByMark m = none) : ∀ c ∈ t.allCons, m ∉ (t.con c).marks :=
  fun c hc hm => List.find?_eq_none.mp h c hc (conHasMark_iff.mpr hm)

theorem conUnmark_one (t : Tree) (c : ConId) (name : String) :
    t.conUnmark (some c) (some name) = t.setMarks c ((t.con c).marks.erase name) := rfl

/-! ### Losing marks -/

/-- Marks are lost, and nothing is made or freed. -/
structure LosesMarks (t t' : Tree) : Prop where
  allCons : t'.allCons = t.allCons
  nextCon : t'.nextCon = t.nextCon
  marks : ∀ c, List.Sublist (t'.con c).marks (t.con c).marks

namespace LosesMarks

@[refl] theorem refl (t : Tree) : LosesMarks t t := ⟨rfl, rfl, fun _ => .refl _⟩

theorem trans (h : LosesMarks t t') (h' : LosesMarks t' t'') : LosesMarks t t'' :=
  ⟨h'.allCons.trans h.allCons, h'.nextCon.trans h.nextCon, fun c => (h'.marks c).trans (h.marks c)⟩

theorem setMarks {l : List String} (h : List.Sublist l (t.con c).marks) :
    LosesMarks t (t.setMarks c l) := by
  refine ⟨rfl, rfl, fun d => ?_⟩
  by_cases hd : d = c
  · subst hd
    rwa [setMarks_marks_self]
  · rw [setMarks_con_of_ne t l hd]

theorem foldl {f : Tree → ConId → Tree} (h : ∀ t c, LosesMarks t (f t c)) (l : List ConId)
    (t : Tree) : LosesMarks t (l.foldl f t) := by
  induction l generalizing t with
  | nil => exact .refl t
  | cons c l ih => exact (h t c).trans (ih _)

end LosesMarks

theorem losesMarks_conUnmark (t : Tree) (con : Option ConId) (name : Option String) :
    LosesMarks t (t.conUnmark con name) := by
  unfold conUnmark
  split
  · refine .foldl (fun s current => ?_) t.allCons t
    unfold unmarkAll
    split
    · exact .refl s
    · split
      · exact .refl s
      · exact .setMarks (List.nil_sublist _)
  · split
    · exact .refl t
    · exact .setMarks List.erase_sublist

theorem losesMarks_unmarkFirstN (n : ℕ) (t : Tree) (c : ConId) :
    LosesMarks t (unmarkFirstN c n t) := by
  induction n generalizing t with
  | zero => exact .refl t
  | succ n ih =>
    rw [unmarkFirstN]
    split
    · exact .refl t
    · exact (losesMarks_conUnmark t _ _).trans (ih _)

/-- The first mark is the first match of its name, so each time around removes it. -/
theorem marks_unmarkFirstN (n : ℕ) (t : Tree) (c : ConId) :
    ((unmarkFirstN c n t).con c).marks = (t.con c).marks.drop n := by
  induction n generalizing t with
  | zero => rfl
  | succ n ih =>
    rw [unmarkFirstN]
    rcases hm : (t.con c).marks with - | ⟨a, l⟩
    · simpa using hm
    · simp only [List.head?_cons]
      rw [ih, conUnmark_one, setMarks_marks_self, hm, List.erase_cons_head, List.drop_succ_cons]

theorem losesMarks_unmarkFor (t : Tree) (c : ConId) (m : String) (mode : MarkMode) :
    LosesMarks t (t.unmarkFor c m mode) := by
  unfold unmarkFor
  cases mode with
  | replace => exact (losesMarks_conUnmark t _ _).trans (losesMarks_unmarkFirstN _ _ c)
  | add => exact losesMarks_conUnmark t _ _

/-! ### Unique marks -/

namespace UniqueMarks

/-- A container that is there now has no marks, or was there with at least its marks. -/
theorem of_sublist (h : t.UniqueMarks)
    (hmarks : ∀ c ∈ t'.allCons, (t'.con c).marks = [] ∨
      c ∈ t.allCons ∧ List.Sublist (t'.con c).marks (t.con c).marks) : t'.UniqueMarks where
  nodup c hc := by
    rcases hmarks c hc with hnil | ⟨hold, hsub⟩
    · rw [hnil]
      exact List.nodup_nil
    · exact (h.nodup c hold).sublist hsub
  owner c hc d hd m hm hm' := by
    rcases hmarks c hc with hnil | ⟨hold, hsub⟩
    · simp [hnil] at hm
    · rcases hmarks d hd with hnil' | ⟨hold', hsub'⟩
      · simp [hnil'] at hm'
      · exact h.owner c hold d hold' m (hsub.subset hm) (hsub'.subset hm')

theorem of_losesMarks (h : t.UniqueMarks) (hl : LosesMarks t t') : t'.UniqueMarks :=
  h.of_sublist fun c hc => .inr ⟨hl.allCons ▸ hc, hl.marks c⟩

/-- **What keeps the labels keeps marks unique**: containers made on the way have none. -/
theorem of_labels (h : t.UniqueMarks) (hb : t.InUse) (hl : Labels t t') : t'.UniqueMarks := by
  refine h.of_sublist fun c hc => ?_
  rcases hl.allCons c hc with hold | ⟨hle, hlt⟩
  · have hmarks := congrArg Con.marks (hl.label c (hb c hold))
    exact .inr ⟨hold, by simp only [Con.label] at hmarks; rw [hmarks]⟩
  · exact .inl (congrArg Con.marks (hl.new c hle hlt))

/-- **A container may be given a mark nobody has.** -/
theorem give {l : List String} (h : t.UniqueMarks) (hall : t'.allCons = t.allCons)
    (hc : (t'.con c).marks = l ++ [m]) (hsub : List.Sublist l (t.con c).marks) (hm : m ∉ l)
    (hother : ∀ d ∈ t.allCons, d ≠ c →
      List.Sublist (t'.con d).marks (t.con d).marks ∧ m ∉ (t'.con d).marks) : t'.UniqueMarks := by
  -- a mark of `c` that another container has is an old one
  have howner : ∀ d ∈ t.allCons, d ≠ c → ∀ n ∈ (t'.con c).marks, n ∈ (t'.con d).marks →
      c ∈ t.allCons → False := by
    intro d hd hdc n hn hn' hmem
    rw [hc, List.mem_append, List.mem_singleton] at hn
    rcases hn with hn | rfl
    · exact hdc (h.owner d hd c hmem n ((hother d hd hdc).1.subset hn') (hsub.subset hn))
    · exact (hother d hd hdc).2 hn'
  constructor
  · intro d hd
    rw [hall] at hd
    by_cases hdc : d = c
    · subst hdc
      rw [hc]
      exact List.nodup_append.mpr ⟨(h.nodup d hd).sublist hsub, List.nodup_singleton m,
        fun a ha b hb => by rintro rfl; exact hm (List.mem_singleton.mp hb ▸ ha)⟩
    · exact (h.nodup d hd).sublist (hother d hd hdc).1
  · intro a ha b hb n hn hn'
    rw [hall] at ha hb
    by_cases hac : a = c
    · by_contra hab
      subst hac
      exact howner b hb (Ne.symm hab) n hn hn' ha
    · by_cases hbc : b = c
      · subst hbc
        exact absurd hb (howner a ha hac n hn' hn)
      · exact h.owner a ha b hb n ((hother a ha hac).1.subset hn) ((hother b hb hbc).1.subset hn')

end UniqueMarks

/-! ### Setting a mark -/

/-- Taken by name, a mark leaves the container that has it. -/
theorem marks_conUnmark (h : t.UniqueMarks) (hc : c ∈ t.allCons) (m : String) :
    ((t.conUnmark none (some m)).con c).marks = (t.con c).marks.erase m := by
  simp only [conUnmark, Option.none_or]
  split
  · next hnone => exact (List.erase_of_not_mem (conByMark_eq_none hnone c hc)).symm
  · next d hd =>
    obtain ⟨hmem, hm⟩ := conByMark_eq_some hd
    by_cases hcd : c = d
    · subst hcd
      rw [setMarks_marks_self]
    · rw [setMarks_con_of_ne t _ hcd]
      exact (List.erase_of_not_mem fun hm' => hcd (h.owner c hc d hmem m hm' hm)).symm

theorem not_mem_marks_conUnmark (h : t.UniqueMarks) (hc : c ∈ t.allCons) (m : String) :
    m ∉ ((t.conUnmark none (some m)).con c).marks := by
  rw [marks_conUnmark h hc]
  exact (h.nodup c hc).not_mem_erase

theorem not_mem_marks_unmarkFor (h : t.UniqueMarks) {d : ConId} (hd : d ∈ t.allCons) (c : ConId)
    (m : String) (mode : MarkMode) : m ∉ ((t.unmarkFor c m mode).con d).marks := by
  have hm := not_mem_marks_conUnmark h hd m
  unfold unmarkFor
  cases mode with
  | replace => exact fun hmem => hm (((losesMarks_unmarkFirstN _ _ c).marks d).subset hmem)
  | add => exact hm

/-- With `MM_REPLACE`, the loop ends when no mark is left. -/
theorem marks_unmarkFor_replace (t : Tree) (c : ConId) (m : String) :
    ((t.unmarkFor c m .replace).con c).marks = [] := by
  simp only [unmarkFor, marks_unmarkFirstN, List.drop_length]

theorem marks_conMark (t : Tree) (c : ConId) (m : String) (mode : MarkMode) :
    ((t.conMark c m mode).con c).marks = ((t.unmarkFor c m mode).con c).marks ++ [m] := by
  simp only [conMark, setMarks_marks_self]

theorem con_conMark_of_ne (t : Tree) {c d : ConId} (m : String) (mode : MarkMode) (h : d ≠ c) :
    (t.conMark c m mode).con d = (t.unmarkFor c m mode).con d := by
  rw [conMark, setMarks_con_of_ne _ _ h]

theorem allCons_conMark (t : Tree) (c : ConId) (m : String) (mode : MarkMode) :
    (t.conMark c m mode).allCons = t.allCons := (losesMarks_unmarkFor t c m mode).allCons

/-- **Setting a mark** does its work on a container in `all_cons`. -/
theorem UniqueMarks.marked (h : t.UniqueMarks) (hc : c ∈ t.allCons) (m : String)
    (mode : MarkMode) : Marked t (t.conMark c m mode) c m mode where
  holds := by
    rw [marks_conMark]
    simp
  alone d hd hdc := by
    rw [allCons_conMark] at hd
    rw [con_conMark_of_ne t m mode hdc]
    exact not_mem_marks_unmarkFor h hd c m mode
  only hmode := by
    rw [hmode, marks_conMark, marks_unmarkFor_replace, List.nil_append]
  kept hmode := by
    rw [hmode, marks_conMark]
    exact congrArg (· ++ [m]) (marks_conUnmark h hc m)

theorem UniqueMarks.conMark (h : t.UniqueMarks) (hc : c ∈ t.allCons) (m : String)
    (mode : MarkMode) : (t.conMark c m mode).UniqueMarks := by
  have hloses := losesMarks_unmarkFor t c m mode
  refine h.give (allCons_conMark t c m mode) (marks_conMark t c m mode) (hloses.marks c)
    (not_mem_marks_unmarkFor h hc c m mode) fun d hd hdc => ?_
  rw [con_conMark_of_ne t m mode hdc]
  exact ⟨hloses.marks d, not_mem_marks_unmarkFor h hd c m mode⟩

/-! ### Merging two containers -/

theorem marks_mergeMarks_old (t : Tree) (old new : ConId) :
    ((t.mergeMarks old new).con old).marks = [] := by simp [mergeMarks]

theorem marks_mergeMarks_new (t : Tree) {old new : ConId} (h : old ≠ new) :
    ((t.mergeMarks old new).con new).marks = (t.con new).marks ++ (t.con old).marks.take 1 := by
  simp [mergeMarks, h.symm]

theorem con_mergeMarks (t : Tree) {old new c : ConId} (hold : c ≠ old) (hnew : c ≠ new) :
    (t.mergeMarks old new).con c = t.con c := by simp [mergeMarks, hold, hnew]

/-- The first mark of the old container is nobody's once that container has no marks. -/
theorem UniqueMarks.mergeMarks (h : t.UniqueMarks) {old new : ConId} (hold : old ∈ t.allCons)
    (hnew : new ∈ t.allCons) (hne : old ≠ new) : (t.mergeMarks old new).UniqueMarks := by
  have hothers : ∀ d, d ≠ new →
      List.Sublist ((t.mergeMarks old new).con d).marks (t.con d).marks := by
    intro d hd
    by_cases hdo : d = old
    · subst hdo
      rw [marks_mergeMarks_old]
      exact List.nil_sublist _
    · rw [con_mergeMarks t hdo hd]
  have hgiven := marks_mergeMarks_new t hne
  rcases hmarks : (t.con old).marks with - | ⟨m, l⟩
  · refine h.of_sublist fun c hc => .inr ⟨hc, ?_⟩
    by_cases hcn : c = new
    · subst hcn
      rw [hgiven, hmarks, List.take_nil, List.append_nil]
    · exact hothers c hcn
  · have hm : m ∈ (t.con old).marks := by simp [hmarks]
    rw [hmarks, List.take_succ_cons, List.take_zero] at hgiven
    refine h.give rfl hgiven (.refl _) (fun hm' => hne (h.owner old hold new hnew m hm hm'))
      fun d hd hdn => ⟨hothers d hdn, fun hm' => ?_⟩
    -- whoever has the mark afterwards had it before, but the old container has none
    obtain rfl := h.owner old hold d hd m hm ((hothers d hdn).subset hm')
    rw [marks_mergeMarks_old] at hm'
    exact absurd hm' List.not_mem_nil

theorem labels_mergeWindow (t : Tree) (old new : ConId) : Labels t (t.mergeWindow old new) := by
  unfold mergeWindow
  exact (Labels.of_modify t new _ rfl).trans (.of_modify _ old _ rfl)

theorem UniqueMarks.conMergeInto (h : t.UniqueMarks) (hb : t.InUse) {old new : ConId}
    (hold : old ∈ t.allCons) (hnew : new ∈ t.allCons) (hne : old ≠ new) :
    (t.conMergeInto cfg old new).UniqueMarks := by
  have hstirs := stirs_conSetUrgency (t.mergeWindow old new) new
    ((t.mergeWindow old new).con old).urgent
  have hall : ((t.mergeWindow old new).conSetUrgency new
      ((t.mergeWindow old new).con old).urgent).allCons = t.allCons := hstirs.allCons
  have hmerged := (h.of_labels hb ((labels_mergeWindow t old new).trans hstirs.labels)).mergeMarks
    (hall.symm ▸ hold) (hall.symm ▸ hnew) hne
  refine hmerged.of_labels (fun c hc => ?_) (labels_treeCloseInternal _ old _ _)
  exact lt_of_lt_of_eq (hb c (hall ▸ hc)) hstirs.nextCon.symm

/-! ### The containers in use -/

theorem InUse.of_labels (h : t.InUse) (hl : Labels t t') : t'.InUse := fun c hc =>
  (hl.allCons c hc).elim (fun hold => (h c hold).trans_le hl.nextCon) And.right

theorem InUse.of_losesMarks (h : t.InUse) (hl : LosesMarks t t') : t'.InUse := fun c hc =>
  lt_of_lt_of_eq (h c (hl.allCons ▸ hc)) hl.nextCon.symm

theorem InUse.conMark (h : t.InUse) (c : ConId) (m : String) (mode : MarkMode) :
    (t.conMark c m mode).InUse := fun d hd =>
  h.of_losesMarks (losesMarks_unmarkFor t c m mode) d hd

theorem InUse.conMergeInto (h : t.InUse) (old new : ConId) : (t.conMergeInto cfg old new).InUse := by
  have hstirs := stirs_conSetUrgency (t.mergeWindow old new) new
    ((t.mergeWindow old new).con old).urgent
  refine InUse.of_labels (fun c hc => ?_) (labels_treeCloseInternal _ old _ _)
  have hall : ((t.mergeWindow old new).conSetUrgency new
      ((t.mergeWindow old new).con old).urgent).allCons = t.allCons := hstirs.allCons
  exact lt_of_lt_of_eq (h c (hall ▸ hc)) hstirs.nextCon.symm

end Tree

/-! ### Runs -/

namespace Marks

/-- An operation that sets, removes or hands over marks, or exchanges, merges or frees containers. -/
inductive Event
  | mark (c : ConId) (m : String) (mode : MarkMode)
  | toggle (c : ConId) (m : String) (mode : MarkMode)
  | unmark (con : Option ConId) (name : Option String)
  | swap (first second : ConId)
  | mergeInto (old new : ConId)
  | free (c : ConId)

def step (cfg : Config) (t : Tree) : Event → Tree
  | .mark c m mode => t.conMark c m mode
  | .toggle c m mode => t.conMarkToggle c m mode
  | .unmark con name => t.conUnmark con name
  | .swap first second => (t.conSwap cfg first second).1
  | .mergeInto old new => t.conMergeInto cfg old new
  | .free c => t.conFree c

/-- How the operations are called: with containers in `all_cons`, and a container is not merged
into itself. -/
def Calls (t : Tree) : Event → Prop
  | .mark c _ _ | .toggle c _ _ | .free c => t.Alive c
  | .unmark con _ => ∀ c ∈ con, t.Alive c
  | .swap first second => t.Alive first ∧ t.Alive second
  | .mergeInto old new => t.Alive old ∧ t.Alive new ∧ old ≠ new

instance (t : Tree) : ∀ e, Decidable (Calls t e)
  | .mark c _ _ | .toggle c _ _ | .free c => inferInstanceAs (Decidable (t.Alive c))
  | .unmark con _ => inferInstanceAs (Decidable (∀ c ∈ con, t.Alive c))
  | .swap first second => inferInstanceAs (Decidable (t.Alive first ∧ t.Alive second))
  | .mergeInto old new => inferInstanceAs (Decidable (t.Alive old ∧ t.Alive new ∧ old ≠ new))

variable {cfg : Config} {t : Tree}

theorem uniqueMarks_step (h : t.UniqueMarks) (hb : t.InUse) {e : Event} (he : Calls t e) :
    (step cfg t e).UniqueMarks ∧ (step cfg t e).InUse := by
  cases e with
  | mark c m mode => exact ⟨h.conMark he m mode, hb.conMark c m mode⟩
  | toggle c m mode =>
    unfold step Tree.conMarkToggle
    dsimp only
    split
    · have hloses := Tree.losesMarks_conUnmark t (some c) (some m)
      exact ⟨h.of_losesMarks hloses, hb.of_losesMarks hloses⟩
    · exact ⟨h.conMark he m mode, hb.conMark c m mode⟩
  | unmark con name =>
    have hloses := Tree.losesMarks_conUnmark t con name
    exact ⟨h.of_losesMarks hloses, hb.of_losesMarks hloses⟩
  | swap first second =>
    have hlabels : Tree.Labels t (t.conSwap cfg first second).1 := Tree.labels_conSwap t first second
    exact ⟨h.of_labels hb hlabels, hb.of_labels hlabels⟩
  | mergeInto old new =>
    obtain ⟨hold, hnew, hne⟩ := he
    exact ⟨h.conMergeInto hb hold hnew hne, hb.conMergeInto old new⟩
  | free c =>
    have hlabels := Tree.labels_conFree t c
    exact ⟨h.of_labels hb hlabels, hb.of_labels hlabels⟩

/-- **Marks are unique** after every run, and setting a mark there gives it to the container
alone. -/
theorem uniqueMarks_after (h : t.UniqueMarks) (hb : t.InUse) {es : List Event}
    (hes : Runs.Meets (step cfg) Calls t es) :
    (Runs.after (step cfg) t es).UniqueMarks ∧
      ∀ c, (Runs.after (step cfg) t es).Alive c → ∀ m mode,
        Tree.Marked (Runs.after (step cfg) t es)
          (step cfg (Runs.after (step cfg) t es) (.mark c m mode)) c m mode := by
  have hinv := Runs.invariant (I := fun t : Tree => t.UniqueMarks ∧ t.InUse)
    (fun _ _ hs he => uniqueMarks_step hs.1 hs.2 he) ⟨h, hb⟩ hes
  exact ⟨hinv.1, fun _ hc m mode => hinv.1.marked hc m mode⟩

/-- Three windows on a workspace: two have marks. -/
def markedWindows : Tree := Tree.ofList [
  { type := .root, nodesHead := [1], focusHead := [1] },
  { type := .output, layout := .output, parent := some 0, nodesHead := [2], focusHead := [2] },
  { layout := .splith, parent := some 1, nodesHead := [3], focusHead := [3] },
  { type := .workspace, layout := .splith, name := "1", num := 1, fullscreenMode := .output
    parent := some 2, nodesHead := [4, 5, 6], focusHead := [4, 5, 6] },
  { parent := some 3, window := some { id := 4 }, percent := 1 / 3, marks := ["a", "b"] },
  { parent := some 3, window := some { id := 5 }, percent := 1 / 3, marks := ["c"] },
  { parent := some 3, window := some { id := 6 }, percent := 1 / 3 }] (some 4)

/-- The mark "a" moves to the third window, "c" replaces the mark "b" of the first, and the third
window is exchanged with the second, which is merged into it. -/
def markedRun : List Event :=
  [.mark 6 "a" .add, .mark 4 "c" .replace, .toggle 5 "d" .add, .swap 5 6, .mergeInto 5 6,
    .unmark none (some "a"), .unmark (some 4) none]

/-- At the end the third window has the mark of the second one. -/
theorem uniqueMarks_markedRun :
    ((Runs.after (step {}) markedWindows markedRun).con 6).marks = ["d"] ∧
      (Runs.after (step {}) markedWindows markedRun).UniqueMarks ∧
      Tree.Marked (Runs.after (step {}) markedWindows markedRun)
        (step {} (Runs.after (step {}) markedWindows markedRun) (.mark 4 "d" .add)) 4 "d" .add := by
  have hunique : markedWindows.UniqueMarks := ⟨by decide +kernel, by decide +kernel⟩
  have hafter := @uniqueMarks_after {} _ hunique (by unfold Tree.InUse; decide +kernel) markedRun
    (by decide +kernel)
  exact ⟨by decide +kernel, hafter.1, hafter.2 4 (by decide +kernel) "d" .add⟩

end Marks

end I3
