import Mathlib.Data.List.Induction
import I3Aiwr.Lib.Queue

/-!
# Moving to the front

A queue whose elements are moved to the front, one for each event of a history, is ordered by the
last events: where the last event of two elements is one of `x`, the queue has `x` first.

## Main definitions

* `Recent.Later P Q l`: in the history `l` an event with `P` comes after all those with `Q`
* `Recent.bring x s`: the queue with `x`, if any, at the front
* `Recent.stack touch s l`: the queue `s` after the history `l`

## Main results

* `Recent.pair_stack`: the order of the queue
-/

namespace Recent

variable {α ε : Type*} {P Q P' Q' : ε → Prop} {e : ε} {l : List ε}

/-- An event with `P` comes after all those with `Q`. -/
def Later (P Q : ε → Prop) (l : List ε) : Prop :=
  ∃ pre e post, l = pre ++ e :: post ∧ P e ∧ ∀ d ∈ post, ¬ Q d

theorem not_later_nil : ¬ Later P Q [] := by
  rintro ⟨pre, e, post, h, -⟩
  simp at h

theorem later_concat : Later P Q (l ++ [e]) ↔ P e ∨ ¬ Q e ∧ Later P Q l := by
  constructor
  · rintro ⟨pre, d, post, h, hd, hpost⟩
    rcases List.eq_nil_or_concat' post with rfl | ⟨post, e', rfl⟩
    · obtain ⟨-, h⟩ := List.append_inj' h rfl
      cases h
      exact .inl hd
    · rw [← List.cons_append, ← List.append_assoc] at h
      obtain ⟨rfl, h⟩ := List.append_inj' h rfl
      obtain rfl : e = e' := by simpa using h
      exact .inr ⟨hpost _ (by simp), pre, d, post, rfl, hd, fun x hx => hpost x (by simp [hx])⟩
  · rintro (he | ⟨he, pre, d, post, rfl, hd, hpost⟩)
    · exact ⟨l, e, [], rfl, he, by simp⟩
    · refine ⟨pre, d, post ++ [e], by simp, hd, fun x hx => ?_⟩
      rcases List.mem_append.mp hx with hx | hx
      · exact hpost x hx
      · exact List.mem_singleton.mp hx ▸ he

theorem Later.exists (h : Later P Q l) : ∃ e ∈ l, P e := by
  obtain ⟨pre, e, post, rfl, he, -⟩ := h
  exact ⟨e, by simp, he⟩

theorem Later.imp (h : Later P Q l) (hP : ∀ e ∈ l, P e → P' e) (hQ : ∀ e ∈ l, Q' e → Q e) :
    Later P' Q' l := by
  obtain ⟨pre, e, post, rfl, he, hpost⟩ := h
  exact ⟨pre, e, post, rfl, hP e (by simp) he, fun d hd hq => hpost d hd (hQ d (by simp [hd]) hq)⟩

/-- Where there is an event of either kind, the last one is of one kind. -/
theorem later_or_later (h : ∃ e ∈ l, P e ∨ Q e) : Later P Q l ∨ Later Q P l := by
  induction l using List.reverseRecOn with
  | nil => simp at h
  | append_singleton l e ih =>
    simp only [later_concat]
    by_cases hP : P e
    · exact .inl (.inl hP)
    · by_cases hQ : Q e
      · exact .inr (.inl hQ)
      · obtain ⟨d, hd, hPQ⟩ := h
        rcases List.mem_append.mp hd with hd | hd
        · exact (ih ⟨d, hd, hPQ⟩).imp (fun h => .inr ⟨hQ, h⟩) fun h => .inr ⟨hP, h⟩
        · rw [List.mem_singleton.mp hd] at hPQ
          exact (hPQ.elim hP hQ).elim

variable [DecidableEq α] {touch : ε → Option α} {s : List α} {x y : α}

/-- The queue with the element `x`, if any, at the front. -/
def bring (x : Option α) (s : List α) : List α :=
  match x with
  | none => s
  | some x => Queue.toFront x s

/-- The queue after a history: each event brings the element it touches to the front. -/
def stack (touch : ε → Option α) (s : List α) (l : List ε) : List α :=
  l.foldl (fun s e => bring (touch e) s) s

theorem stack_concat : stack touch s (l ++ [e]) = bring (touch e) (stack touch s l) := by
  rw [stack, List.foldl_append, List.foldl_cons, List.foldl_nil]
  rfl

theorem mem_stack : x ∈ stack touch s l ↔ x ∈ s := by
  induction l using List.reverseRecOn with
  | nil => rfl
  | append_singleton l e ih =>
    rw [stack_concat]
    unfold bring
    split
    · exact ih
    · rw [Queue.mem_toFront, ih]

/-- **The queue is ordered by the last events.** -/
theorem pair_stack (hx : x ∈ s) (hy : y ∈ s) (hne : x ≠ y)
    (h : Later (fun e => touch e = some x) (fun e => touch e = some y) l) :
    [x, y].Sublist (stack touch s l) := by
  induction l using List.reverseRecOn with
  | nil => exact absurd h not_later_nil
  | append_singleton l e ih =>
    rw [stack_concat]
    rcases later_concat.mp h with he | ⟨he, h⟩
    · rw [he]
      exact Queue.pair_toFront (mem_stack.mpr hx) (mem_stack.mpr hy) hne.symm
    · unfold bring
      split
      · exact ih h
      · next z hz =>
        by_cases hzx : z = x
        · subst hzx
          exact Queue.pair_toFront (mem_stack.mpr hx) (mem_stack.mpr hy) hne.symm
        · exact Queue.pair_toFront_of_ne (ih h) hzx fun hzy => he (hzy ▸ hz)

end Recent
