import Mathlib.Data.List.Nodup
import Mathlib.Logic.Function.Basic

/-!
# Tail queues with their pointers

A tail queue whose links are fields of its elements. A head points to the first element, and to the
place of the last pointer, which is in the head itself if the queue is empty; an element points to the
next one and to the place of the pointer to it. The operations write these fields one by one, so that an
element put into a second queue loses its place in the first.

## Main definitions

* `TailQueue.Heap`: the fields of all heads and elements
* `Heap.insertTail`, `Heap.init`, `Heap.forEachN`: the operations, and the loop over a queue
* `Heap.Holds q head l`: the queue at `head` is the list `l`
* `Heap.Represents S q lists`: the queues at the heads in `S` are `lists`, with no element in common

## Main results

* `Represents.insertTail`, `Represents.init`: what the operations do to the lists
-/

namespace TailQueue

/-- Where a pointer to an element is kept. -/
inductive Slot (η ν : Type*)
  | first (head : η)
  | next (elm : ν)
  deriving DecidableEq

/-- The fields `tqh_first` and `tqh_last` of the heads, `tqe_next` and `tqe_prev` of the elements. -/
structure Heap (η ν : Type*) where
  tqhFirst : η → Option ν
  tqhLast : η → Slot η ν
  tqeNext : ν → Option ν
  tqePrev : ν → Slot η ν

variable {η ν : Type*} [DecidableEq η] [DecidableEq ν]

namespace Heap

section Operations

variable (q : Heap η ν)

/-- The pointer at a place. -/
def read : Slot η ν → Option ν
  | .first head => q.tqhFirst head
  | .next elm => q.tqeNext elm

def store (s : Slot η ν) (v : Option ν) : Heap η ν :=
  match s with
  | .first head => { q with tqhFirst := Function.update q.tqhFirst head v }
  | .next elm => { q with tqeNext := Function.update q.tqeNext elm v }

/-- `TAILQ_INSERT_TAIL` -/
def insertTail (head : η) (elm : ν) : Heap η ν :=
  let q := q.store (.next elm) none
  let q := { q with tqePrev := Function.update q.tqePrev elm (q.tqhLast head) }
  let q := q.store (q.tqhLast head) (some elm)
  { q with tqhLast := Function.update q.tqhLast head (.next elm) }

/-- `TAILQ_INIT` -/
def init (head : η) : Heap η ν :=
  { q with
    tqhFirst := Function.update q.tqhFirst head none
    tqhLast := Function.update q.tqhLast head (.first head) }

/-- `TAILQ_FOREACH` from an element on, at most `n` times around: what comes next is read after the
body was run. -/
def forEachN (body : ν → Heap η ν → Heap η ν) : ℕ → Option ν → Heap η ν → Heap η ν
  | 0, _, q => q
  | _ + 1, none, q => q
  | n + 1, some x, q => forEachN body n ((body x q).tqeNext x) (body x q)

/-- From the place `s` on the elements of `l` are linked, and the last pointer is at `e`. -/
def Linked : Slot η ν → List ν → Slot η ν → Prop
  | s, [], e => q.read s = none ∧ s = e
  | s, x :: l, e => q.read s = some x ∧ q.tqePrev x = s ∧ Linked (.next x) l e

structure Holds (head : η) (l : List ν) : Prop where
  linked : q.Linked (.first head) l (q.tqhLast head)
  nodup : l.Nodup

/-- The queues at the heads of `S` are the given lists, and have no element in common. -/
structure Represents (S : η → Prop) (lists : η → List ν) : Prop where
  holds : ∀ head, S head → q.Holds head (lists head)
  disjoint : ∀ head head', S head → S head' → head ≠ head' → (lists head).Disjoint (lists head')

end Operations

variable {q : Heap η ν} {s s' e : Slot η ν} {l : List ν} {x y : ν} {head head' : η}

theorem read_store (s s' : Slot η ν) (v : Option ν) :
    (q.store s v).read s' = if s' = s then v else q.read s' := by
  cases s <;> cases s' <;> simp [store, read, Function.update_apply]

@[simp] theorem store_tqhLast (s : Slot η ν) (v : Option ν) : (q.store s v).tqhLast = q.tqhLast := by
  cases s <;> rfl

@[simp] theorem store_tqePrev (s : Slot η ν) (v : Option ν) : (q.store s v).tqePrev = q.tqePrev := by
  cases s <;> rfl

/-! ### Insertion at the tail -/

theorem read_insertTail :
    (q.insertTail head x).read s =
      if s = q.tqhLast head then some x else if s = .next x then none else q.read s := by
  have hread : (q.insertTail head x).read s =
      (((q.store (.next x) none).store (q.tqhLast head) (some x)).read s) := by
    cases s <;> cases hlast : q.tqhLast head <;> simp [insertTail, read, store, hlast]
  rw [hread, read_store, read_store]

theorem tqePrev_insertTail :
    (q.insertTail head x).tqePrev y = if y = x then q.tqhLast head else q.tqePrev y := by
  simp [insertTail, Function.update_apply]

theorem tqhLast_insertTail :
    (q.insertTail head x).tqhLast head' = if head' = head then .next x else q.tqhLast head' := by
  simp [insertTail, Function.update_apply]

omit [DecidableEq η] [DecidableEq ν] in
/-- The last pointer is at the start or in one of the elements. -/
theorem Linked.end_mem (h : q.Linked s l e) : e = s ∨ ∃ y ∈ l, e = .next y := by
  induction l generalizing s with
  | nil => exact .inl h.2.symm
  | cons x l ih =>
    obtain ⟨-, -, h⟩ := h
    rcases ih h with rfl | ⟨y, hy, rfl⟩
    · exact .inr ⟨x, List.mem_cons_self, rfl⟩
    · exact .inr ⟨y, List.mem_cons_of_mem x hy, rfl⟩

omit [DecidableEq η] [DecidableEq ν] in
/-- Elements stay linked if none of their pointers is written. -/
theorem Linked.congr {q' : Heap η ν} (h : q.Linked s l e) (hs : q'.read s = q.read s)
    (hnext : ∀ y ∈ l, q'.read (.next y) = q.read (.next y)) (hprev : ∀ y ∈ l, q'.tqePrev y = q.tqePrev y) :
    q'.Linked s l e := by
  induction l generalizing s with
  | nil => exact ⟨hs.trans h.1, h.2⟩
  | cons x l ih =>
    obtain ⟨hread, hlink, h⟩ := h
    exact ⟨hs.trans hread, (hprev x List.mem_cons_self).trans hlink,
      ih h (hnext x List.mem_cons_self) (fun y hy => hnext y (List.mem_cons_of_mem x hy))
        fun y hy => hprev y (List.mem_cons_of_mem x hy)⟩

theorem Linked.insertTail (h : q.Linked s l (q.tqhLast head)) (hl : l.Nodup) (hx : x ∉ l)
    (hs : s ≠ .next x) (hsl : ∀ y ∈ l, s ≠ .next y) :
    (q.insertTail head x).Linked s (l ++ [x]) (.next x) := by
  induction l generalizing s with
  | nil =>
    obtain ⟨-, rfl⟩ := h
    refine ⟨?_, ?_, ?_, rfl⟩
    · rw [read_insertTail, if_pos rfl]
    · rw [tqePrev_insertTail, if_pos rfl]
    · rw [read_insertTail, if_neg hs.symm, if_pos rfl]
  | cons y l ih =>
    obtain ⟨hread, hprev, h⟩ := h
    obtain ⟨hyl, hl⟩ := List.nodup_cons.1 hl
    have hyx : y ≠ x := fun heq => hx (heq ▸ List.mem_cons_self)
    have hlast : s ≠ q.tqhLast head := by
      rcases h.end_mem with hend | ⟨z, hz, hend⟩
      · rw [hend]
        exact hsl y List.mem_cons_self
      · rw [hend]
        exact hsl z (List.mem_cons_of_mem y hz)
    refine ⟨?_, ?_, ?_⟩
    · rw [read_insertTail, if_neg hlast, if_neg hs, hread]
    · rw [tqePrev_insertTail, if_neg hyx, hprev]
    · apply ih h hl (fun hxl => hx (List.mem_cons_of_mem y hxl))
      · simpa using hyx
      · intro z hz
        rw [Ne, Slot.next.injEq]
        exact fun heq => hyl (heq ▸ hz)

theorem Holds.insertTail (h : q.Holds head l) (hx : x ∉ l) : (q.insertTail head x).Holds head (l ++ [x]) where
  linked := by
    rw [tqhLast_insertTail, if_pos rfl]
    exact h.linked.insertTail h.nodup hx (by simp) (by simp)
  nodup := by
    rw [List.nodup_append]
    refine ⟨h.nodup, List.nodup_singleton x, fun a ha b hb => ?_⟩
    rw [List.mem_singleton.1 hb]
    exact fun heq => hx (heq ▸ ha)

omit [DecidableEq η] [DecidableEq ν] in
/-- The element in front of the end of a queue is of that queue. -/
theorem Holds.tqhLast_ne (h : q.Holds head l) (hx : x ∉ l) : q.tqhLast head ≠ .next x := by
  rcases h.linked.end_mem with hend | ⟨y, hy, hend⟩
  · rw [hend]
    simp
  · rw [hend, Ne, Slot.next.injEq]
    exact fun heq => hx (heq ▸ hy)

/-- The loop ends with the element that its body inserts somewhere. -/
theorem Holds.tqeNext_insertTail (h : q.Holds head l) (hx : x ∉ l) :
    (q.insertTail head x).tqeNext x = none := by
  have hread : (q.insertTail head x).read (.next x) = none := by
    rw [read_insertTail, if_neg (h.tqhLast_ne hx).symm, if_pos rfl]
  exact hread

theorem Holds.insertTail_of_ne (h : q.Holds head l) {l' : List ν} (h' : q.Holds head' l')
    (hne : head' ≠ head) (hdisjoint : l.Disjoint l') (hx : x ∉ l') :
    (q.insertTail head x).Holds head' l' where
  linked := by
    rw [tqhLast_insertTail, if_neg hne]
    apply h'.linked.congr
    · have hfirst : Slot.first head' ≠ q.tqhLast head := by
        rcases h.linked.end_mem with hend | ⟨y, -, hend⟩
        · rw [hend]
          simpa using hne
        · rw [hend]
          simp
      rw [read_insertTail, if_neg hfirst, if_neg (by simp)]
    · intro y hy
      have hyl : y ∉ l := fun hyl => hdisjoint hyl hy
      have hyx : y ≠ x := fun heq => hx (heq ▸ hy)
      rw [read_insertTail, if_neg (h.tqhLast_ne hyl).symm, if_neg (by simpa using hyx)]
    · intro y hy
      have hyx : y ≠ x := fun heq => hx (heq ▸ hy)
      rw [tqePrev_insertTail, if_neg hyx]
  nodup := h'.nodup

/-! ### All queues -/

variable {S : η → Prop} {lists : η → List ν}

omit [DecidableEq η] [DecidableEq ν] in
theorem Represents.mono {S' : η → Prop} (h : q.Represents S lists) (hsub : ∀ head, S' head → S head) :
    q.Represents S' lists where
  holds head hS := h.holds head (hsub head hS)
  disjoint head head' hS hS' := h.disjoint head head' (hsub head hS) (hsub head' hS')

theorem Represents.insertTail (h : q.Represents S lists) (hhead : S head)
    (hx : ∀ head, S head → x ∉ lists head) :
    (q.insertTail head x).Represents S (Function.update lists head (lists head ++ [x])) where
  holds head' hS := by
    by_cases hne : head' = head
    · subst hne
      rw [Function.update_self]
      exact (h.holds head' hS).insertTail (hx head' hS)
    · rw [Function.update_of_ne hne]
      exact (h.holds head hhead).insertTail_of_ne (h.holds head' hS) hne
        (h.disjoint head head' hhead hS fun heq => hne heq.symm) (hx head' hS)
  disjoint := by
    have hgrown (head' : η) (hS : S head') (hne : head' ≠ head) :
        (lists head ++ [x]).Disjoint (lists head') := by
      rw [List.disjoint_append_left, List.singleton_disjoint]
      exact ⟨h.disjoint head head' hhead hS hne.symm, hx head' hS⟩
    intro head₁ head₂ h₁ h₂ hne
    by_cases hne₁ : head₁ = head
    · subst hne₁
      rw [Function.update_self, Function.update_of_ne hne.symm]
      exact hgrown head₂ h₂ hne.symm
    by_cases hne₂ : head₂ = head
    · subst hne₂
      rw [Function.update_self, Function.update_of_ne hne]
      exact fun y hy hy' => hgrown head₁ h₁ hne hy' hy
    · rw [Function.update_of_ne hne₁, Function.update_of_ne hne₂]
      exact h.disjoint head₁ head₂ h₁ h₂ hne

omit [DecidableEq ν] in
/-- A queue that is initialized is empty, whatever it was. -/
theorem Represents.init (h : q.Represents (· ≠ head) lists) :
    (q.init head).Represents (fun _ => True) (Function.update lists head []) where
  holds head' _ := by
    by_cases hne : head' = head
    · subst hne
      rw [Function.update_self]
      exact ⟨⟨by simp [Heap.init, read], by simp [Heap.init]⟩, List.nodup_nil⟩
    · rw [Function.update_of_ne hne]
      have hlast : (q.init head).tqhLast head' = q.tqhLast head' := Function.update_of_ne hne _ _
      refine ⟨?_, (h.holds head' hne).nodup⟩
      rw [hlast]
      exact (h.holds head' hne).linked.congr (Function.update_of_ne hne _ _) (fun _ _ => rfl) fun _ _ => rfl
  disjoint head₁ head₂ _ _ hne := by
    by_cases hne₁ : head₁ = head
    · rw [hne₁, Function.update_self]
      exact List.disjoint_nil_left _
    by_cases hne₂ : head₂ = head
    · rw [hne₂, Function.update_self]
      exact List.disjoint_nil_right _
    · rw [Function.update_of_ne hne₁, Function.update_of_ne hne₂]
      exact h.disjoint head₁ head₂ hne₁ hne₂ hne

end Heap

end TailQueue
