import Mathlib.Order.RelClasses
import Mathlib.Data.Finset.Basic

/-!
# Choosing in order

Candidates are looked at one after another, and one is taken unless it conflicts with one taken
before. The choice is determined by the order. A choice made in one order is the choice of another
order too when every candidate that was left conflicts with a taken one that comes before it in the
other order.

## Main definitions

* `Choice.Chosen before conflict cand S`: `S` is the choice in the order `before`

## Main results

* `Choice.Chosen.unique`: there is one choice
* `Choice.Chosen.chosen_iff`: when the choices of two orders are the same
-/

namespace Choice

variable {ι : Type*} {before before' conflict : ι → ι → Prop} {cand : ι → Prop}
  {S S' : Finset ι} {a b : ι}

/-- A candidate is taken exactly when none of those taken before conflicts with it. -/
def Chosen (before conflict : ι → ι → Prop) (cand : ι → Prop) (S : Finset ι) : Prop :=
  ∀ a, a ∈ S ↔ cand a ∧ ∀ b ∈ S, before b a → ¬ conflict b a

namespace Chosen

theorem candidate (h : Chosen before conflict cand S) (ha : a ∈ S) : cand a :=
  ((h a).mp ha).1

/-- **There is one choice**, by induction along the order. -/
theorem unique (hwf : WellFounded before) (h : Chosen before conflict cand S)
    (h' : Chosen before conflict cand S') : S = S' := by
  have hiff : ∀ a, a ∈ S ↔ a ∈ S' := by
    intro a
    induction a using hwf.induction with
    | _ a ih =>
      rw [h a, h' a]
      refine and_congr_right fun _ => forall_congr' fun b => ?_
      constructor
      · intro hb hbS' hba
        exact hb ((ih b hba).mpr hbS') hba
      · intro hb hbS hba
        exact hb ((ih b hba).mp hbS) hba
  exact Finset.ext hiff

/-- What is taken does not conflict. -/
theorem not_conflict (htotal : ∀ a b, a ≠ b → before a b ∨ before b a)
    (hsymm : ∀ a b, conflict a b → conflict b a) (h : Chosen before conflict cand S)
    (ha : a ∈ S) (hb : b ∈ S) (hne : a ≠ b) : ¬ conflict a b := by
  rcases htotal a b hne with hab | hba
  · exact ((h b).mp hb).2 a ha hab
  · exact fun hconflict => ((h a).mp ha).2 b hb hba (hsymm a b hconflict)

/-- **When two orders make the same choice**: when each candidate left by the one conflicts with a
taken one that the other would look at before it. -/
theorem chosen_iff (htotal : ∀ a b, a ≠ b → before a b ∨ before b a)
    (hirrefl : ∀ a, ¬ before' a a) (hsymm : ∀ a b, conflict a b → conflict b a)
    (h : Chosen before conflict cand S) :
    Chosen before' conflict cand S ↔
      ∀ a, cand a → a ∉ S → ∃ b ∈ S, before' b a ∧ conflict b a := by
  constructor
  · intro h' a ha hnot
    by_contra hnone
    refine hnot ((h' a).mpr ⟨ha, fun b hb hba hconflict => hnone ⟨b, hb, hba, hconflict⟩⟩)
  · intro hleft a
    constructor
    · intro ha
      refine ⟨h.candidate ha, fun b hb hba => h.not_conflict htotal hsymm hb ha ?_⟩
      rintro rfl
      exact hirrefl b hba
    · rintro ⟨ha, hfree⟩
      by_contra hnot
      obtain ⟨b, hb, hba, hconflict⟩ := hleft a ha hnot
      exact hfree b hb hba hconflict

end Chosen

end Choice
