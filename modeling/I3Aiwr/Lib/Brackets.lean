import Mathlib.Data.List.Basic

/-!
# Balanced brackets

A word in which some letters open and some close is balanced when every closing letter closes one
that is open, and none is open at the end. Balanced words can be joined and enclosed.

## Main definitions

* `Brackets.depth side d l`: how many brackets are open after the word `l`, from `d` on
* `Brackets.Balanced side l`

## Main results

* `Brackets.Balanced.append`, `Brackets.Balanced.enclose`, `Brackets.Balanced.flatMap`
-/

namespace Brackets

/-- What a letter does. -/
inductive Side
  | opening | closing | plain
  deriving DecidableEq, Repr

variable {α β : Type*} {side : α → Side} {l l' : List α} {a b : α} {d e : ℕ}

/-- How many brackets are open after a letter, if it does not close more than are open. -/
def Side.after : Side → ℕ → Option ℕ
  | opening, d => some (d + 1)
  | plain, d => some d
  | closing, 0 => none
  | closing, d + 1 => some d

/-- How many brackets are open after a word. -/
def depth (side : α → Side) : ℕ → List α → Option ℕ
  | d, [] => some d
  | d, a :: l => ((side a).after d).bind fun d => depth side d l

def Balanced (side : α → Side) (l : List α) : Prop := depth side 0 l = some 0

instance (side : α → Side) (l : List α) : Decidable (Balanced side l) :=
  inferInstanceAs (Decidable (_ = _))

theorem depth_append : depth side d (l ++ l') = (depth side d l).bind fun e => depth side e l' := by
  induction l generalizing d with
  | nil => rfl
  | cons a l ih =>
    rw [List.cons_append, depth, depth, Option.bind_assoc]
    congr 1
    funext e
    exact ih

theorem Side.after_add {s : Side} (h : s.after d = some e) (k : ℕ) :
    s.after (d + k) = some (e + k) := by
  cases s with
  | opening =>
    cases h
    exact congrArg some (Nat.add_right_comm d k 1)
  | plain =>
    cases h
    rfl
  | closing =>
    cases d with
    | zero => cases h
    | succ d =>
      cases h
      rw [Nat.add_right_comm]
      rfl

/-- More brackets open before the word do no harm. -/
theorem depth_add (h : depth side d l = some e) (k : ℕ) : depth side (d + k) l = some (e + k) := by
  induction l generalizing d with
  | nil =>
    cases h
    rfl
  | cons a l ih =>
    rw [depth] at h ⊢
    obtain ⟨d', hd', h⟩ := Option.bind_eq_some_iff.mp h
    rw [Side.after_add hd', Option.bind_some]
    exact ih h

namespace Balanced

theorem nil : Balanced side [] := rfl

theorem of_plain (h : ∀ a ∈ l, side a = .plain) : Balanced side l := by
  induction l with
  | nil => exact nil
  | cons a l ih =>
    rw [Balanced, depth, h a List.mem_cons_self, Side.after, Option.bind_some]
    exact ih fun b hb => h b (List.mem_cons_of_mem a hb)

theorem append (h : Balanced side l) (h' : Balanced side l') : Balanced side (l ++ l') := by
  rw [Balanced, depth_append, h]
  exact h'

/-- A balanced word within a pair of brackets. -/
theorem enclose (ha : side a = .opening) (hb : side b = .closing) (h : Balanced side l) :
    Balanced side (a :: l ++ [b]) := by
  have hl : depth side 1 l = some 1 := depth_add h 1
  simp [Balanced, depth_append, depth, Side.after, ha, hb, hl]

theorem flatMap {f : β → List α} {m : List β} (h : ∀ x ∈ m, Balanced side (f x)) :
    Balanced side (m.flatMap f) := by
  induction m with
  | nil => exact nil
  | cons x m ih =>
    rw [List.flatMap_cons]
    exact (h x List.mem_cons_self).append (ih fun y hy => h y (List.mem_cons_of_mem x hy))

end Balanced

end Brackets
