import Mathlib.Data.List.Nodup
import Mathlib.Data.List.GetD
import Mathlib.Data.Nat.ModEq

/-!
# Going round a list

From where one is one goes on to the next member of a list, and after the last one to the first. One who is
not on the list starts with the first one. A function that looks for the place differently may go to another
member; it goes round the list from a place exactly if it is right there and at every member.

## Main definitions

* `Rounds.start l a`: the index of the member that comes after `a`
* `Rounds.run next a k`: where one is after `k` steps; without a next member one stays
* `Rounds.GoesRound next l a`

## Main results

* `Rounds.or_findSome?`: the first that is found behind a place, else up to it
* `Rounds.goesRound_iff`
-/

namespace Rounds

variable {α β : Type*}

/-! ### Looking behind a place -/

theorem head?_or_head? (xs ys : List α) :
    ys.head?.or xs.head? = (xs ++ ys)[xs.length % (xs ++ ys).length]? := by
  cases ys with
  | nil =>
    rw [List.append_nil, Nat.mod_self, List.head?_nil, Option.none_or, List.head?_eq_getElem?]
  | cons y ys =>
    rw [Nat.mod_eq_of_lt (by simp), List.getElem?_append_right le_rfl]
    simp

theorem or_findSome? (f : β → Option α) (xs ys : List β) :
    (ys.findSome? f).or (xs.findSome? f) =
      ((xs ++ ys).filterMap f)[(xs.filterMap f).length % ((xs ++ ys).filterMap f).length]? := by
  rw [← List.head?_filterMap, ← List.head?_filterMap, head?_or_head?, List.filterMap_append]

/-- Two indexes are those of one member if they are equal up to whole rounds. -/
theorem getElem?_mod_inj {l : List α} (h : l.Nodup) (hl : l ≠ []) {m n : ℕ} :
    l[m % l.length]? = l[n % l.length]? ↔ m % l.length = n % l.length := by
  have hpos := List.length_pos_iff.mpr hl
  have hm := Nat.mod_lt m hpos
  have hn := Nat.mod_lt n hpos
  rw [List.getElem?_eq_getElem hm, List.getElem?_eq_getElem hn, Option.some.injEq, h.getElem_inj_iff]

variable [DecidableEq α] {l : List α} {a b : α} {i : ℕ}

/-! ### The next member -/

/-- The index of the member that comes after `a`, of the first one if `a` is not on the list. -/
def start (l : List α) (a : α) : ℕ := if a ∈ l then l.idxOf a + 1 else 0

theorem start_getElem (h : l.Nodup) (hi : i < l.length) : start l l[i] = i + 1 := by
  rw [start, if_pos (List.getElem_mem hi), h.idxOf_getElem i hi]

theorem start_le (l : List α) (a : α) : start l a ≤ l.length := by
  rw [start]
  split
  · next h => exact List.idxOf_lt_length_of_mem h
  · exact Nat.zero_le _

/-- Where there are several members, the next one is another one. -/
theorem getElem?_start_ne (h : l.Nodup) (hl : 2 ≤ l.length) (a : α) : l[start l a % l.length]? ≠ some a := by
  intro heq
  obtain ⟨i, hi, rfl⟩ := List.getElem_of_mem (List.mem_of_getElem? heq)
  rw [start_getElem h hi, ← List.getElem?_eq_getElem hi, ← Nat.mod_eq_of_lt hi,
    getElem?_mod_inj h (List.ne_nil_of_mem (List.getElem_mem hi)), Nat.mod_eq_of_lt hi] at heq
  rcases Nat.lt_or_ge (i + 1) l.length with hlt | hge
  · rw [Nat.mod_eq_of_lt hlt] at heq
    omega
  · rw [show i + 1 = l.length by omega, Nat.mod_self] at heq
    omega

/-! ### Going round -/

/-- Where one is after `k` steps. -/
def run (next : α → Option α) (a : α) : ℕ → α
  | 0 => a
  | k + 1 => (next (run next a k)).getD (run next a k)

/-- The members come in the order of the list, again and again. -/
def GoesRound (next : α → Option α) (l : List α) (a : α) : Prop :=
  ∀ k, next (run next a k) = l[(start l a + k) % l.length]?

variable {next : α → Option α} {count : α → ℕ}

theorem GoesRound.right_here (h : GoesRound next l a) (hnext : ∀ a, next a = l[count a % l.length]?)
    (hnodup : l.Nodup) (hl : l ≠ []) : count a % l.length = start l a % l.length := by
  have hfirst := h 0
  rw [run, hnext, Nat.add_zero] at hfirst
  exact (getElem?_mod_inj hnodup hl).mp hfirst

theorem GoesRound.right_there (h : GoesRound next l a) (hnext : ∀ a, next a = l[count a % l.length]?)
    (hnodup : l.Nodup) (hb : b ∈ l) : count b % l.length = start l b % l.length := by
  obtain ⟨i, hi, rfl⟩ := List.getElem_of_mem hb
  -- the round comes to `i` after some steps
  obtain ⟨k, hk⟩ : ∃ k, (start l a + k) % l.length = i := by
    refine ⟨i + (l.length - start l a), ?_⟩
    have hle := start_le l a
    rw [show start l a + (i + (l.length - start l a)) = i + l.length by omega, Nat.add_mod_right,
      Nat.mod_eq_of_lt hi]
  have hrun : run next a (k + 1) = l[i] := by
    rw [run, h k, hk, List.getElem?_eq_getElem hi, Option.getD_some]
  have hgo := h (k + 1)
  rw [hrun, hnext, getElem?_mod_inj hnodup (List.ne_nil_of_mem hb), ← Nat.add_assoc, Nat.add_mod, hk] at hgo
  rw [hgo, start_getElem hnodup hi, Nat.add_mod i 1, Nat.mod_eq_of_lt hi]

theorem goesRound_of_right (hnext : ∀ a, next a = l[count a % l.length]?) (hnodup : l.Nodup) (hl : l ≠ [])
    (ha : count a % l.length = start l a % l.length)
    (hmem : ∀ b ∈ l, count b % l.length = start l b % l.length) : GoesRound next l a := by
  have hpos := List.length_pos_iff.mpr hl
  intro k
  induction k with
  | zero => rw [run, hnext, ha, Nat.add_zero]
  | succ k ih =>
    have hi := Nat.mod_lt (start l a + k) hpos
    rw [List.getElem?_eq_getElem hi] at ih
    rw [run, ih, Option.getD_some, hnext, hmem _ (List.getElem_mem hi), start_getElem hnodup hi,
      ← Nat.add_assoc, Nat.mod_add_mod]

/-- **One goes round the list** exactly if the next one is right from where one starts and from every
member. -/
theorem goesRound_iff (hnext : ∀ a, next a = l[count a % l.length]?) (hnodup : l.Nodup) (hl : l ≠ []) :
    GoesRound next l a ↔ count a % l.length = start l a % l.length ∧
      ∀ b ∈ l, count b % l.length = start l b % l.length :=
  ⟨fun h => ⟨h.right_here hnext hnodup hl, fun _ hb => h.right_there hnext hnodup hb⟩,
    fun h => goesRound_of_right hnext hnodup hl h.1 h.2⟩

/-- On an empty list there is nowhere to go. -/
theorem goesRound_nil (hnext : ∀ a, next a = ([] : List α)[count a % ([] : List α).length]?) (a : α) :
    GoesRound next [] a := by
  intro k
  rw [hnext]
  simp

end Rounds
