import Mathlib.Logic.Basic
import Mathlib.Data.List.Basic

/-!
# Guarded runs of a deterministic machine

A machine is a step function on states and events. A run is a list of events; `after` is the
state it reaches. A guard is a condition on an event in the state it is applied to, and a run
meets the guard when each of its events does. An invariant that every guarded step preserves
holds after every run meeting the guard, and, the prefixes of such a run meeting it too, in every
state the run goes through.

## Main definitions

* `Runs.after step s es`: the state reached from `s` by the events `es`
* `Runs.Meets step ok s es`: each event of the run meets `ok` in the state it is applied to

## Main results

* `Runs.invariant`: the induction rule for guarded runs
* `Runs.invariant_prefix`: the same at every prefix
* `Runs.invariant_free`: the rule for runs without a guard
* `Runs.invariant_iff`: the rule for a guard that is met exactly where the invariant is preserved
* `Runs.meets_congr`: guards that agree under an invariant are met by the same runs
-/

namespace Runs

variable {σ ε : Type*} {step : σ → ε → σ} {ok : σ → ε → Prop}

/-- The state reached by a sequence of events. -/
def after (step : σ → ε → σ) : σ → List ε → σ
  | s, [] => s
  | s, e :: es => after step (step s e) es

/-- Each event of the run meets `ok` in the state it is applied to. -/
def Meets (step : σ → ε → σ) (ok : σ → ε → Prop) : σ → List ε → Prop
  | _, [] => True
  | s, e :: es => ok s e ∧ Meets step ok (step s e) es

instance Meets.instDecidable [∀ s e, Decidable (ok s e)] :
    ∀ (s : σ) (es : List ε), Decidable (Meets step ok s es)
  | _, [] => inferInstanceAs (Decidable True)
  | s, e :: es =>
    have := Meets.instDecidable (step s e) es
    inferInstanceAs (Decidable (ok s e ∧ Meets step ok (step s e) es))

@[simp] theorem after_nil (s : σ) : after step s [] = s := rfl

@[simp] theorem after_cons (s : σ) (e : ε) (es : List ε) :
    after step s (e :: es) = after step (step s e) es := rfl

theorem after_append (s : σ) (es fs : List ε) :
    after step s (es ++ fs) = after step (after step s es) fs := by
  induction es generalizing s with
  | nil => rfl
  | cons e es ih => exact ih (step s e)

@[simp] theorem meets_nil (s : σ) : Meets step ok s [] := trivial

@[simp] theorem meets_cons (s : σ) (e : ε) (es : List ε) :
    Meets step ok s (e :: es) ↔ ok s e ∧ Meets step ok (step s e) es := Iff.rfl

theorem meets_append (s : σ) (es fs : List ε) :
    Meets step ok s (es ++ fs) ↔ Meets step ok s es ∧ Meets step ok (after step s es) fs := by
  induction es generalizing s with
  | nil => simp
  | cons e es ih => simp [ih, and_assoc]

/-- Events that meet the guard in any state make a run that meets it. -/
theorem meets_of_forall {es : List ε} (h : ∀ e ∈ es, ∀ s, ok s e) (s : σ) : Meets step ok s es := by
  induction es generalizing s with
  | nil => trivial
  | cons e es ih => exact ⟨h e (by simp) s, ih (fun f hf => h f (by simp [hf])) _⟩

theorem meets_and {ok' : σ → ε → Prop} (s : σ) (es : List ε) :
    Meets step (fun s e => ok s e ∧ ok' s e) s es ↔ Meets step ok s es ∧ Meets step ok' s es := by
  induction es generalizing s with
  | nil => simp
  | cons e es ih => simp only [meets_cons, ih, and_and_and_comm]

/-- **The induction rule**: what every guarded step preserves holds after a guarded run. -/
theorem invariant {I : σ → Prop} (hstep : ∀ s e, I s → ok s e → I (step s e)) {s : σ}
    {es : List ε} (hs : I s) (h : Meets step ok s es) : I (after step s es) := by
  induction es generalizing s with
  | nil => exact hs
  | cons e es ih => exact ih (hstep s e hs h.1) h.2

/-- The rule at every state a guarded run goes through. -/
theorem invariant_prefix {I : σ → Prop} (hstep : ∀ s e, I s → ok s e → I (step s e)) {s : σ}
    {es fs : List ε} (hs : I s) (h : Meets step ok s fs) (hpre : es <+: fs) :
    I (after step s es) := by
  obtain ⟨gs, rfl⟩ := hpre
  exact invariant hstep hs ((meets_append s es gs).mp h).1

/-- The rule for runs of any events. -/
theorem invariant_free {I : σ → Prop} (hstep : ∀ s e, I s → I (step s e)) {s : σ} (hs : I s)
    (es : List ε) : I (after step s es) := by
  induction es generalizing s with
  | nil => exact hs
  | cons e es ih => exact ih (hstep s e hs)

/-- **An exact guard**: where a step preserves the invariant exactly if it meets the guard, a run
meets it exactly if the invariant holds in every state the run goes through. -/
theorem invariant_iff {I : σ → Prop} (hstep : ∀ s e, I s → (I (step s e) ↔ ok s e)) {s : σ}
    (hs : I s) (es : List ε) :
    (∀ fs, fs <+: es → I (after step s fs)) ↔ Meets step ok s es := by
  constructor
  · intro h
    induction es generalizing s with
    | nil => trivial
    | cons e es ih =>
      have hfirst : I (step s e) := h [e] ⟨es, rfl⟩
      -- the rest of the run begins with a state of the whole run
      refine ⟨(hstep s e hs).mp hfirst, ih hfirst fun fs hfs => ?_⟩
      exact h (e :: fs) (List.cons_prefix_cons.mpr ⟨rfl, hfs⟩)
  · intro h fs hfs
    exact invariant_prefix (fun s e hs hok => (hstep s e hs).mpr hok) hs h hfs

/-- Two guards that agree wherever the invariant holds are met by the same runs. -/
theorem meets_congr {I : σ → Prop} {ok' : σ → ε → Prop} (hok : ∀ s e, I s → (ok s e ↔ ok' s e))
    (hstep : ∀ s e, I s → ok s e → I (step s e)) {s : σ} (hs : I s) (es : List ε) :
    Meets step ok s es ↔ Meets step ok' s es := by
  induction es generalizing s with
  | nil => exact Iff.rfl
  | cons e es ih =>
    rw [meets_cons, meets_cons, ← hok s e hs]
    exact and_congr_right fun h => ih (hstep s e hs h)

end Runs
