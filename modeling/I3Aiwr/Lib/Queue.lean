import Mathlib.Data.List.Basic
import Mathlib.Data.List.Perm.Basic
import Mathlib.Data.List.Nodup
import Mathlib.Logic.Equiv.Basic

/-!
# Queues as lists

The operations of a doubly linked tail queue, on the list of its elements: `TAILQ_NEXT`,
`TAILQ_INSERT_AFTER`, `TAILQ_INSERT_BEFORE`, `TAILQ_REPLACE`, and moving an element to an end. An
operation at an element that is not in the queue would follow stale links; it leaves the list as
it is. Removal is `List.erase`.

## Main definitions

* `Queue.next x l`, `Queue.prev x l`: the neighbours of `x`
* `Queue.insertAfter x y l`, `Queue.insertBefore x y l`: `y` inserted next to `x`
* `Queue.replace x y l`: `y` in the place of `x`
* `Queue.toFront x l`, `Queue.toBack x l`: `x` moved to an end
* `Queue.exchange x y l`: `x` and `y` in the places of each other
-/

namespace Queue

variable {α : Type*} [DecidableEq α]

/-- The element after `x`. -/
def next (x : α) : List α → Option α
  | [] => none
  | a :: l => if a = x then l.head? else next x l

/-- The element before `x`. -/
def prev (x : α) (l : List α) : Option α := next x l.reverse

def insertAfter (x y : α) : List α → List α
  | [] => []
  | a :: l => if a = x then a :: y :: l else a :: insertAfter x y l

def insertBefore (x y : α) : List α → List α
  | [] => []
  | a :: l => if a = x then y :: a :: l else a :: insertBefore x y l

def replace (x y : α) : List α → List α
  | [] => []
  | a :: l => if a = x then y :: l else a :: replace x y l

def toFront (x : α) (l : List α) : List α := if x ∈ l then x :: l.erase x else l

def toBack (x : α) (l : List α) : List α := if x ∈ l then l.erase x ++ [x] else l

def exchange (x y : α) (l : List α) : List α := l.map (Equiv.swap x y)

variable {x y z : α} {l : List α}

/-- The element after the first `x`. -/
theorem next_append_self {l' : List α} (h : x ∉ l) : next x (l ++ x :: l') = l'.head? := by
  induction l with
  | nil => simp [next]
  | cons a l ih =>
    obtain ⟨ha, hl⟩ := not_or.mp (List.mem_cons.not.mp h)
    rw [List.cons_append, next, if_neg (Ne.symm ha), ih hl]

/-- The element before the last `x`. -/
theorem prev_append_self {l' : List α} (h : x ∉ l') : prev x (l ++ x :: l') = l.getLast? := by
  rw [prev, List.reverse_append, List.reverse_cons, List.append_assoc, List.singleton_append,
    next_append_self (List.mem_reverse.not.mpr h), List.head?_reverse]

theorem mem_of_next (h : next x l = some y) : y ∈ l := by
  induction l with
  | nil => cases h
  | cons a l ih =>
    rw [next] at h
    split at h
    · exact List.mem_cons_of_mem _ (List.mem_of_mem_head? h)
    · exact List.mem_cons_of_mem _ (ih h)

theorem mem_of_prev (h : prev x l = some y) : y ∈ l := List.mem_reverse.mp (mem_of_next h)

theorem next_ne (hl : l.Nodup) (h : next x l = some y) : y ≠ x := by
  induction l with
  | nil => cases h
  | cons a l ih =>
    obtain ⟨ha, hl⟩ := List.nodup_cons.mp hl
    rw [next] at h
    split at h
    · subst_vars
      rintro rfl
      exact ha (List.mem_of_mem_head? h)
    · exact ih hl h

theorem insertAfter_append_self {l' : List α} (h : x ∉ l) :
    insertAfter x y (l ++ x :: l') = l ++ x :: y :: l' := by
  induction l with
  | nil => simp [insertAfter]
  | cons a l ih =>
    obtain ⟨ha, hl⟩ := not_or.mp (List.mem_cons.not.mp h)
    rw [List.cons_append, insertAfter, if_neg (Ne.symm ha), ih hl, List.cons_append]

theorem insertBefore_append_self {l' : List α} (h : x ∉ l) :
    insertBefore x y (l ++ x :: l') = l ++ y :: x :: l' := by
  induction l with
  | nil => simp [insertBefore]
  | cons a l ih =>
    obtain ⟨ha, hl⟩ := not_or.mp (List.mem_cons.not.mp h)
    rw [List.cons_append, insertBefore, if_neg (Ne.symm ha), ih hl, List.cons_append]

theorem insertAfter_of_notMem (h : x ∉ l) : insertAfter x y l = l := by
  induction l with
  | nil => rfl
  | cons a l ih =>
    obtain ⟨ha, hl⟩ := not_or.mp (List.mem_cons.not.mp h)
    rw [insertAfter, if_neg (Ne.symm ha), ih hl]

theorem insertBefore_of_notMem (h : x ∉ l) : insertBefore x y l = l := by
  induction l with
  | nil => rfl
  | cons a l ih =>
    obtain ⟨ha, hl⟩ := not_or.mp (List.mem_cons.not.mp h)
    rw [insertBefore, if_neg (Ne.symm ha), ih hl]

theorem replace_of_notMem (h : x ∉ l) : replace x y l = l := by
  induction l with
  | nil => rfl
  | cons a l ih =>
    obtain ⟨ha, hl⟩ := not_or.mp (List.mem_cons.not.mp h)
    rw [replace, if_neg (Ne.symm ha), ih hl]

theorem insertAfter_perm (h : x ∈ l) : (insertAfter x y l).Perm (y :: l) := by
  induction l with
  | nil => cases h
  | cons a l ih =>
    rw [insertAfter]
    split
    · exact .swap ..
    · next hne =>
      have hx : x ∈ l := (List.mem_cons.mp h).resolve_left (Ne.symm hne)
      exact ((ih hx).cons a).trans (.swap ..)

theorem insertBefore_perm (h : x ∈ l) : (insertBefore x y l).Perm (y :: l) := by
  induction l with
  | nil => cases h
  | cons a l ih =>
    rw [insertBefore]
    split
    · exact .refl _
    · next hne =>
      have hx : x ∈ l := (List.mem_cons.mp h).resolve_left (Ne.symm hne)
      exact ((ih hx).cons a).trans (.swap ..)

theorem replace_perm (h : x ∈ l) : (replace x y l).Perm (y :: l.erase x) := by
  induction l with
  | nil => cases h
  | cons a l ih =>
    rw [replace]
    split
    · simp_all
    · next hne =>
      have hx : x ∈ l := (List.mem_cons.mp h).resolve_left (Ne.symm hne)
      rw [List.erase_cons_tail (by simpa using hne)]
      exact ((ih hx).cons a).trans (.swap ..)

theorem toFront_perm : (toFront x l).Perm l := by
  rw [toFront]
  split
  · next h => exact (List.perm_cons_erase h).symm
  · exact .refl l

theorem toBack_perm : (toBack x l).Perm l := by
  rw [toBack]
  split
  · next h => exact (List.perm_append_singleton x _).trans (List.perm_cons_erase h).symm
  · exact .refl l

/-- The element inserted comes first if the one it is inserted before does. -/
theorem head?_insertBefore (hx : x ∈ l) (hy : y ∉ l) :
    (insertBefore x y l).head? = some y ↔ l.head? = some x := by
  cases l with
  | nil => cases hx
  | cons a l =>
    rw [insertBefore]
    split
    · simp_all
    · next hne =>
      have hay : a ≠ y := fun h => hy (h ▸ List.mem_cons_self)
      simp [hne, hay]

/-- The element to insert before is not the first one afterwards. -/
theorem head?_insertBefore_ne (hne : y ≠ x) : (insertBefore x y l).head? ≠ some x := by
  cases l with
  | nil => simp [insertBefore]
  | cons a l =>
    rw [insertBefore]
    split
    · simpa using hne
    · next h => simpa using h

theorem mem_exchange : z ∈ exchange x y l ↔ Equiv.swap x y z ∈ l := by
  rw [exchange, List.mem_map]
  constructor
  · rintro ⟨w, hw, rfl⟩
    rwa [Equiv.swap_apply_self]
  · intro h
    exact ⟨_, h, Equiv.swap_apply_self x y z⟩

theorem nodup_exchange (h : l.Nodup) : (exchange x y l).Nodup := h.map (Equiv.injective _)

/-- Elements that are not there have no places to exchange. -/
theorem exchange_of_notMem (hx : x ∉ l) (hy : y ∉ l) : exchange x y l = l := by
  rw [exchange]
  conv_rhs => rw [← List.map_id l]
  refine List.map_congr_left fun z hz => ?_
  apply Equiv.swap_apply_of_ne_of_ne <;> rintro rfl
  · exact hx hz
  · exact hy hz

/-- The element that is moved to the front comes before the others. -/
theorem pair_toFront (hx : x ∈ l) (hy : y ∈ l) (hne : y ≠ x) : [x, y].Sublist (toFront x l) := by
  rw [toFront, if_pos hx]
  exact (List.singleton_sublist.mpr ((List.mem_erase_of_ne hne).mpr hy)).cons_cons x

/-- The others stay in their order. -/
theorem pair_toFront_of_ne (h : [x, y].Sublist l) (hx : z ≠ x) (hy : z ≠ y) :
    [x, y].Sublist (toFront z l) := by
  rw [toFront]
  split
  · have herase := h.erase z
    rw [List.erase_of_not_mem (by simp [hx, hy])] at herase
    exact herase.trans (List.sublist_cons_self z _)
  · exact h

/-- An element moved behind another one: nothing else changes its place. -/
theorem insertAfter_erase {l' : List α} (h : (l ++ x :: l').Nodup) (hne : y ≠ x) :
    insertAfter x y ((l ++ x :: l').erase y) = l.erase y ++ x :: y :: l'.erase y := by
  have hx : x ∉ l := fun hx => (List.disjoint_of_nodup_append h) hx List.mem_cons_self
  have herase : (l ++ x :: l').erase y = l.erase y ++ x :: l'.erase y := by
    have hl := (List.nodup_append'.mp h).1
    have hl' := (List.nodup_cons.mp (List.nodup_append'.mp h).2.1).2
    rw [h.erase_eq_filter, hl.erase_eq_filter, hl'.erase_eq_filter, List.filter_append,
      List.filter_cons_of_pos (by simpa using hne.symm)]
  rw [herase, insertAfter_append_self fun h' => hx (List.mem_of_mem_erase h')]

/-- Elements that are not looked at are no obstacle to an insertion. -/
theorem filter_insertAfter {P : α → Bool} (hx : P x) (hy : P y) :
    (insertAfter x y l).filter P = insertAfter x y (l.filter P) := by
  induction l with
  | nil => rfl
  | cons a l ih =>
    rw [insertAfter]
    split
    · next ha =>
      subst ha
      rw [List.filter_cons_of_pos hx, List.filter_cons_of_pos hy, List.filter_cons_of_pos hx,
        insertAfter, if_pos rfl]
    · next ha =>
      by_cases hP : P a = true
      · rw [List.filter_cons_of_pos hP, List.filter_cons_of_pos hP, insertAfter, if_neg ha, ih]
      · rw [List.filter_cons_of_neg hP, List.filter_cons_of_neg hP, ih]

/-- A queue whose elements are moved to the back one after the other ends in that order. -/
theorem foldl_toBack {l l' done : List α} (hl : l.Perm l') (h : (l ++ done).Nodup) :
    l'.foldl (fun q x => toBack x q) (l ++ done) = done ++ l' := by
  induction l' generalizing l done with
  | nil => simp [hl.eq_nil]
  | cons x l' ih =>
    have hx : x ∈ l := hl.mem_iff.mpr List.mem_cons_self
    have hback : toBack x (l ++ done) = l.erase x ++ (done ++ [x]) := by
      rw [toBack, if_pos (List.mem_append_left _ hx), List.erase_append_left _ hx,
        List.append_assoc]
    have hrest : (l.erase x).Perm l' := by simpa using hl.erase x
    have hnodup : (l.erase x ++ (done ++ [x])).Nodup := by
      rw [← hback]
      exact toBack_perm.nodup_iff.mpr h
    rw [List.foldl_cons, hback, ih hrest hnodup, List.append_assoc, List.singleton_append]

@[simp] theorem mem_toFront : z ∈ toFront x l ↔ z ∈ l := toFront_perm.mem_iff

@[simp] theorem mem_toBack : z ∈ toBack x l ↔ z ∈ l := toBack_perm.mem_iff

end Queue
