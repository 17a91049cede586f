import Mathlib.Data.List.Basic

/-!
# Counting down to an event

A counter meets a sequence of events. Some of them are counted: each takes one off the counter, unless
it is zero. Some of the counted ones are marked: a marked event passes when it finds the counter at
zero. Whether one passes depends on how many counted events there are ahead of the last marked one.

## Main definitions

* `Countdown.Passes counts mark n es`: a marked event passes, the counter being `n`
* `Countdown.ahead counts mark es`: the counted events ahead of the last marked one

## Main results

* `Countdown.passes_iff`
* `Countdown.passes_filter`: events that are not counted do not matter
* `Countdown.Passes.insert`: one more event to count, and one more that is counted
-/

namespace Countdown

variable {α : Type*} (counts mark : α → Prop) [DecidablePred counts]

/-- A marked event finds the counter at zero. -/
def Passes : ℕ → List α → Prop
  | _, [] => False
  | n, e :: es => mark e ∧ n = 0 ∨ Passes (if counts e then n - 1 else n) es

variable {counts mark} {n m : ℕ} {e : α} {es l : List α}

theorem Passes.append (h : Passes counts mark n es) (l : List α) : Passes counts mark n (es ++ l) := by
  induction es generalizing n with
  | nil => exact h.elim
  | cons e es ih => exact h.imp id ih

theorem passes_cons_of_not (hmark : ∀ e, mark e → counts e) (he : ¬ counts e) :
    Passes counts mark n (e :: es) ↔ Passes counts mark n es := by
  rw [Passes, if_neg he]
  exact or_iff_right fun h => he (hmark e h.1)

/-- **Events that are not counted** do not matter. -/
theorem passes_filter (hmark : ∀ e, mark e → counts e) :
    Passes counts mark n (es.filter fun e => counts e) ↔ Passes counts mark n es := by
  induction es generalizing n with
  | nil => exact Iff.rfl
  | cons e es ih =>
    by_cases he : counts e
    · rw [List.filter_cons_of_pos (by simpa using he), Passes, Passes, ih]
    · rw [List.filter_cons_of_neg (by simpa using he), passes_cons_of_not hmark he, ih]

variable [DecidablePred mark]

variable (counts mark) in
/-- The number of counted events ahead of the last marked one. -/
def ahead : List α → ℕ
  | [] => 0
  | e :: es => if ∃ f ∈ es, mark f then (if counts e then 1 else 0) + ahead es else 0

/-- **A marked event passes** iff there is one, and the counter is at most what is counted ahead of the
last one. -/
theorem passes_iff : Passes counts mark n es ↔
    (∃ e ∈ es, mark e) ∧ n ≤ ahead counts mark es := by
  induction es generalizing n with
  | nil => simp [Passes]
  | cons e es ih =>
    rw [Passes, ahead, ih]
    by_cases hes : ∃ f ∈ es, mark f
    · have hlast : ∃ f ∈ e :: es, mark f :=
        hes.imp fun f hf => ⟨List.mem_cons_of_mem e hf.1, hf.2⟩
      rw [if_pos hes]
      simp only [hes, hlast, true_and]
      split <;> omega
    · rw [if_neg hes]
      simp only [hes, false_and, or_false, List.mem_cons, exists_eq_or_imp, Nat.le_zero]

/-- A smaller counter lets more events pass. -/
theorem Passes.mono (h : Passes counts mark n es) (hle : m ≤ n) :
    Passes counts mark m es := by
  rw [passes_iff] at h ⊢
  exact ⟨h.1, Nat.le_trans hle h.2⟩

theorem ahead_insert (he : counts e) (hl : ∃ f ∈ l, mark f) :
    ahead counts mark (es ++ e :: l) = ahead counts mark (es ++ l) + 1 := by
  induction es with
  | nil =>
    rw [List.nil_append, List.nil_append, ahead, if_pos hl, if_pos he]
    exact Nat.add_comm ..
  | cons f es ih =>
    obtain ⟨g, hg, hmark⟩ := hl
    have h : ∃ g ∈ es ++ l, mark g := ⟨g, List.mem_append_right es hg, hmark⟩
    have h' : ∃ g ∈ es ++ e :: l, mark g :=
      ⟨g, List.mem_append_right es (List.mem_cons_of_mem e hg), hmark⟩
    rw [List.cons_append, List.cons_append, ahead, ahead, if_pos h, if_pos h', ih]
    omega

/-- **One more to count**, and one more event that is counted ahead of a marked one. -/
theorem Passes.insert (he : counts e) (hl : ∃ f ∈ l, mark f)
    (h : Passes counts mark n (es ++ l)) : Passes counts mark (n + 1) (es ++ e :: l) := by
  rw [passes_iff] at h ⊢
  obtain ⟨f, hf, hfmark⟩ := hl
  refine ⟨⟨f, List.mem_append_right es (List.mem_cons_of_mem e hf), hfmark⟩, ?_⟩
  rw [ahead_insert he ⟨f, hf, hfmark⟩]
  exact Nat.succ_le_succ h.2

end Countdown
