import I3Aiwr.Lib.TailQueue
import I3Aiwr.Tree.Marks

/-!
# Handing over the marks

`con_merge_into` of `src/con.c` walks the queue `marks_head` of the old container with `TAILQ_FOREACH`,
and its body puts every mark into the queue of the new one with `TAILQ_INSERT_TAIL`. That overwrites the
pointer by which the loop goes on. Here the loop runs on the pointers; `Tree.mergeMarks` is what it does
to the lists of marks.

## Main definitions

* `MarkQueues`: the marks of all containers, as queues with their pointers
* `MarkQueues.merge`: the loop, and the queue that is initialized afterwards
* `MarkQueues.KeepsMarks`: what merging is to do with the marks

## Main results

* `MarkQueues.Of.merge`: the pointers and the lists agree
* `MarkQueues.keepsMarks_iff`: no mark is lost if there is at most one
-/

namespace I3

/-- The address of a `mark_t`. -/
abbrev MarkId := ℕ

/-- The queues `marks_head` of the containers, and the names of the marks. -/
structure MarkQueues where
  heap : TailQueue.Heap ConId MarkId
  name : MarkId → String

namespace MarkQueues

open TailQueue

section Definitions

variable (q q' : MarkQueues) (t t' : Tree) (old new : ConId)

/-- The marks of the containers of a tree are those in the queues. -/
def Of : Prop :=
  ∃ lists : ConId → List MarkId, q.heap.Represents (fun _ => True) lists ∧
    ∀ c, (lists c).map q.name = (t.con c).marks

/-- The loop of `con_merge_into`, at most `n` times around. -/
def mergeLoop (n : ℕ) : Heap ConId MarkId :=
  q.heap.forEachN (fun mark heap => heap.insertTail new mark) n (q.heap.tqhFirst old)

/-- What `con_merge_into` does to the queues of marks. -/
def merge (n : ℕ) : MarkQueues := { q with heap := (q.mergeLoop old new n).init old }

/-- The new container has its marks and those of the old one, in their order. -/
def KeepsMarks : Prop :=
  (∃ marks, q'.heap.Holds new marks ∧ marks.map q'.name = (t.con new).marks ++ (t.con old).marks) ∧
    (t'.con new).marks = (t.con new).marks ++ (t.con old).marks

end Definitions

variable {cfg : Config} {q : MarkQueues} {t : Tree} {old new : ConId} {n : ℕ}
  {lists : ConId → List MarkId}

/-- **The loop ends after the first mark**, which has no next one in its new queue. -/
theorem mergeLoop_eq (h : q.heap.Represents (fun _ => True) lists) (hne : old ≠ new)
    (hn : (lists old).length ≤ n) :
    q.mergeLoop old new n = match lists old with
      | [] => q.heap
      | mark :: _ => q.heap.insertTail new mark := by
  have hfirst := (h.holds old trivial).linked
  have hdisjoint := h.disjoint old new trivial trivial hne
  rw [mergeLoop]
  cases hlist : lists old with
  | nil =>
    rw [hlist] at hfirst
    have hnone : q.heap.tqhFirst old = none := hfirst.1
    rw [hnone]
    cases n <;> rfl
  | cons mark marks =>
    rw [hlist] at hfirst hn hdisjoint
    have hsome : q.heap.tqhFirst old = some mark := hfirst.1
    have hmark : mark ∉ lists new := fun hmem => hdisjoint List.mem_cons_self hmem
    obtain ⟨n, rfl⟩ : ∃ m, n = m + 1 := ⟨n - 1, by rw [List.length_cons] at hn; omega⟩
    rw [hsome, Heap.forEachN, (h.holds new trivial).tqeNext_insertTail hmark]
    cases n <;> rfl

/-- The queues after the loop, all but that of the old container. -/
theorem represents_mergeLoop (h : q.heap.Represents (fun _ => True) lists) (hne : old ≠ new)
    (hn : (lists old).length ≤ n) :
    (q.mergeLoop old new n).Represents (· ≠ old)
      (Function.update lists new (lists new ++ (lists old).take 1)) := by
  have hothers : q.heap.Represents (· ≠ old) lists := h.mono fun _ _ => trivial
  rw [mergeLoop_eq h hne hn]
  cases hlist : lists old with
  | nil => rwa [List.take_nil, List.append_nil, Function.update_eq_self]
  | cons mark marks =>
    apply hothers.insertTail hne.symm
    intro head hhead
    have hdisjoint := h.disjoint old head trivial trivial (Ne.symm hhead)
    rw [hlist] at hdisjoint
    exact fun hmem => hdisjoint List.mem_cons_self hmem

theorem represents_merge (h : q.heap.Represents (fun _ => True) lists) (hne : old ≠ new)
    (hn : (lists old).length ≤ n) :
    (q.merge old new n).heap.Represents (fun _ => True)
      (Function.update (Function.update lists new (lists new ++ (lists old).take 1)) old []) :=
  (represents_mergeLoop h hne hn).init

/-- **The pointers and the lists agree** on what merging does. -/
theorem Of.merge (h : q.Of t) (hne : old ≠ new) (hn : (t.con old).marks.length ≤ n) :
    (q.merge old new n).Of (t.mergeMarks old new) := by
  obtain ⟨lists, hrepresents, hnames⟩ := h
  have hlength : (lists old).length ≤ n := by
    rwa [← hnames old, List.length_map] at hn
  refine ⟨_, represents_merge hrepresents hne hlength, fun c => ?_⟩
  by_cases hold : c = old
  · subst hold
    rw [Function.update_self, Tree.marks_mergeMarks_old, List.map_nil]
  rw [Function.update_of_ne hold]
  by_cases hnew : c = new
  · subst hnew
    rw [Function.update_self, Tree.marks_mergeMarks_new t hne, ← hnames, ← hnames, List.map_append,
      List.map_take]
    rfl
  · rw [Function.update_of_ne hnew, Tree.con_mergeMarks t hold hnew]
    exact hnames c

/-- `mark_changed` is set if the old container had a mark. -/
theorem Of.markChanged (h : q.Of t) (hne : old ≠ new) (hn : (t.con old).marks.length ≤ n) :
    ((t.mergeMarks old new).con new).markChanged = ((q.mergeLoop old new n).tqhFirst old).isSome := by
  obtain ⟨lists, hrepresents, hnames⟩ := h
  have hlength : (lists old).length ≤ n := by
    rwa [← hnames old, List.length_map] at hn
  have hfirst := (hrepresents.holds old trivial).linked
  have hchanged : ((t.mergeMarks old new).con new).markChanged = !(t.con old).marks.isEmpty := by
    simp [Tree.mergeMarks, hne.symm]
  rw [hchanged, mergeLoop_eq hrepresents hne hlength, ← hnames old]
  cases hlist : lists old with
  | nil =>
    rw [hlist] at hfirst
    have hnone : q.heap.tqhFirst old = none := hfirst.1
    rw [hnone]
    rfl
  | cons mark marks =>
    rw [hlist] at hfirst
    have hread : (q.heap.insertTail new mark).read (.first old) = some mark := by
      have hlast : Slot.first old ≠ q.heap.tqhLast new := by
        rcases (hrepresents.holds new trivial).linked.end_mem with hend | ⟨y, -, hend⟩
        · rw [hend]
          simpa using hne
        · rw [hend]
          simp
      rw [Heap.read_insertTail, if_neg hlast, if_neg (by simp)]
      exact hfirst.1
    have hsome : (q.heap.insertTail new mark).tqhFirst old = some mark := hread
    rw [hsome]
    rfl

/-- Closing the old container leaves the marks of the new one alone. -/
theorem marks_conMergeInto (hne : old ≠ new) (hnew : new < t.nextCon) :
    ((t.conMergeInto cfg old new).con new).marks = (t.con new).marks ++ (t.con old).marks.take 1 := by
  have hlabels := (Tree.labels_mergeWindow t old new).trans
    (Tree.stirs_conSetUrgency (t.mergeWindow old new) new ((t.mergeWindow old new).con old).urgent).labels
  have hmarks (c : ConId) : (((t.mergeWindow old new).conSetUrgency new
      ((t.mergeWindow old new).con old).urgent).con c).marks = (t.con c).marks := by
    have hwindow : ((t.mergeWindow old new).con c).marks = (t.con c).marks := by
      rw [Tree.mergeWindow, Tree.modify_con, Tree.modify_con]
      split <;> split <;> rfl
    rw [← hwindow]
    exact (congrArg Con.marks ((Tree.stirs_conSetUrgency (t.mergeWindow old new) new
      ((t.mergeWindow old new).con old).urgent).still c) :)
  have hclose := @Tree.labels_treeCloseInternal cfg (((t.mergeWindow old new).conSetUrgency new
    ((t.mergeWindow old new).con old).urgent).mergeMarks old new) old .dontKillWindow false
  have hkept := congrArg Con.marks (hclose.label new (hnew.trans_le hlabels.nextCon))
  rw [← hmarks new, ← hmarks old, ← Tree.marks_mergeMarks_new _ hne]
  exact hkept

theorem append_take_one_eq_iff {α : Type*} {l l' : List α} : l ++ l'.take 1 = l ++ l' ↔ l'.length ≤ 1 := by
  rw [List.append_cancel_left_eq, List.take_eq_self_iff]

/-- **Merging loses no mark if the old container has at most one.** -/
theorem keepsMarks_iff (cfg : Config) (q : MarkQueues) (t : Tree) (old new : ConId) (n : ℕ) (hq : q.Of t)
    (hne : old ≠ new) (hnew : new < t.nextCon) (hn : (t.con old).marks.length ≤ n) :
    KeepsMarks (q.merge old new n) t (t.conMergeInto cfg old new) old new ↔
      (t.con old).marks.length ≤ 1 := by
  obtain ⟨lists, hrepresents, hnames⟩ := hq.merge hne hn
  have hheld := hnames new
  rw [Tree.marks_mergeMarks_new t hne] at hheld
  rw [KeepsMarks, marks_conMergeInto hne hnew, ← append_take_one_eq_iff (l := (t.con new).marks)]
  refine ⟨And.right, fun hkept => ⟨⟨lists new, hrepresents.holds new trivial, ?_⟩, hkept⟩⟩
  rw [hheld, hkept]

/-- A window with two marks beside one without. -/
def twoMarks : Tree where
  con c := match c with
    | 1 => { type := .workspace, layout := .splith, nodesHead := [2, 3], focusHead := [2, 3] }
    | 2 => { parent := some 1, marks := ["a", "b"] }
    | 3 => { parent := some 1 }
    | _ => {}
  allCons := [1, 2, 3]
  croot := 1
  focused := some 2
  nextCon := 4

/-- Its marks, at the addresses 0 and 1. -/
def twoMarksQueues : MarkQueues where
  heap :=
    { tqhFirst := fun c => if c = 2 then some 0 else none
      tqhLast := fun c => if c = 2 then .next 1 else .first c
      tqeNext := fun mark => if mark = 0 then some 1 else none
      tqePrev := fun mark => if mark = 0 then .first 2 else .next 0 }
  name := fun mark => if mark = 0 then "a" else "b"

theorem of_twoMarks : twoMarksQueues.Of twoMarks := by
  refine ⟨fun c => if c = 2 then [0, 1] else [], ⟨fun c _ => ?_, fun c d _ _ hne => ?_⟩, fun c => ?_⟩
  · by_cases hc : c = 2
    · subst hc
      exact ⟨⟨rfl, rfl, rfl, rfl, rfl, rfl⟩, by decide⟩
    · have hfirst : twoMarksQueues.heap.tqhFirst c = none := if_neg hc
      have hlast : twoMarksQueues.heap.tqhLast c = .first c := if_neg hc
      rw [if_neg hc]
      exact ⟨⟨hfirst, hlast.symm⟩, List.nodup_nil⟩
  · by_cases hc : c = 2
    · have hd : d ≠ 2 := fun hd => hne (hc.trans hd.symm)
      simp [hd]
    · simp [hc]
  · match c with
    | 0 | 1 | 2 | 3 => rfl
    | c + 4 => rfl

theorem keepsMarks_twoMarks :
    KeepsMarks (twoMarksQueues.merge 2 3 2) twoMarks (twoMarks.conMergeInto {} 2 3) 2 3 ↔
      (twoMarks.con 2).marks.length ≤ 1 :=
  keepsMarks_iff {} twoMarksQueues twoMarks 2 3 2 of_twoMarks (by decide) (by decide) (by decide)

/-- The second mark is in no queue afterwards. -/
theorem not_keepsMarks_twoMarks :
    twoMarksQueues.Of twoMarks ∧
      ¬ KeepsMarks (twoMarksQueues.merge 2 3 2) twoMarks (twoMarks.conMergeInto {} 2 3) 2 3 := by
  refine ⟨of_twoMarks, fun hkeeps => ?_⟩
  have hmarks := hkeeps.2
  rw [marks_conMergeInto (by decide) (by decide)] at hmarks
  revert hmarks
  decide

end MarkQueues

end I3
