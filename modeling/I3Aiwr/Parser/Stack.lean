import Mathlib.Algebra.Order.Ring.Int
import Mathlib.Data.List.Induction
import Mathlib.Data.List.Nodup
import Mathlib.Data.List.Perm.Subperm

/-!
# The stack of the parsers

`src/parser_util.c`: while a command or a config directive is being parsed, the tokens that have an
identifier are stored on a stack of ten slots, and the call at the end reads its arguments from
there. A string is appended to the slot of its identifier, if there is one; a number always takes a
new slot. Beside the stack stands its purpose: the sequence of the tokens matched so far, and the
value this sequence gives to an identifier.

A text is its list of bytes, each written as the character of that number.

## Main definitions

* `Stack ι`: at most ten slots, each with an identifier and a value
* `Stack.pushString`, `Stack.pushLong`: storing a token; `none` where the code gives up and exits
* `valueOf matched i`: the value the tokens matched so far give to the identifier `i`
* `Stack.Stores entries matched`: one slot for each identifier, holding its value

## Main results

* `Stack.Stores.pushString`, `Stack.Stores.pushLong`: what a push preserves, and when it succeeds
-/

namespace I3.Parser

/-- A text: its bytes. -/
abbrev Text := List Char

/-- The value of a stack slot: `STACK_STR` or `STACK_LONG`. -/
inductive Value
  | str (s : Text)
  | num (n : ℤ)
  deriving DecidableEq, Repr

/-- The `type` of a stack slot. -/
inductive Kind
  | str | num
  deriving DecidableEq, Repr

def Value.kind : Value → Kind
  | .str _ => .str
  | .num _ => .num

/-- A used slot. -/
structure StackEntry (ι : Type) where
  identifier : ι
  val : Value
  deriving DecidableEq, Repr

/-- The used slots; they are the first ones of the ten. -/
structure Stack (ι : Type) where
  entries : List (StackEntry ι)
  length_le : entries.length ≤ 10

namespace Stack

variable {ι : Type}

/-- The stack after `parser_clear_stack`. -/
def empty : Stack ι := ⟨[], Nat.zero_le _⟩

/-- The slots as a stack, or `none` when there are more than ten: the code exits. -/
def ofEntries (entries : List (StackEntry ι)) : Option (Stack ι) :=
  if h : entries.length ≤ 10 then some ⟨entries, h⟩ else none

/-- `sasprintf("%s,%s")` of the previous value and the new one. A number is no pointer to append
to. -/
def joined (str : Text) : Value → Option Value
  | .str prev => some (.str (prev ++ ',' :: str))
  | .num _ => none

variable [DecidableEq ι]

/-- The loop of `parser_push_string` over the used slots. -/
def pushStringLoop (identifier : ι) (str : Text) :
    List (StackEntry ι) → Option (List (StackEntry ι))
  | [] => some [⟨identifier, .str str⟩]
  | e :: es =>
    if e.identifier = identifier then (joined str e.val).map fun val => { e with val } :: es
    else (pushStringLoop identifier str es).map (e :: ·)

/-- `parser_push_string`. -/
def pushString (stack : Stack ι) (identifier : ι) (str : Text) : Option (Stack ι) :=
  (pushStringLoop identifier str stack.entries).bind ofEntries

/-- `parser_push_long`. -/
def pushLong (stack : Stack ι) (identifier : ι) (num : ℤ) : Option (Stack ι) :=
  ofEntries (stack.entries ++ [⟨identifier, .num num⟩])

/-- The value of the first slot with the identifier. -/
def lookup (identifier : ι) : List (StackEntry ι) → Option Value
  | [] => none
  | e :: es => if e.identifier = identifier then some e.val else lookup identifier es

/-- The value of an identifier on the stack. -/
def find (stack : Stack ι) (identifier : ι) : Option Value := lookup identifier stack.entries

end Stack

/-- What `parser_get_string` makes of the value of an identifier; `NULL` without one. -/
def getString : Option Value → Option Text
  | some (.str s) => some s
  | _ => none

/-- What `parser_get_long` makes of the value of an identifier. -/
def getLong : Option Value → ℤ
  | some (.num n) => n
  | _ => 0

section Matched

variable {ι : Type} [DecidableEq ι]

/-- A further value for the same identifier: strings are joined by commas, a number replaces the
one before. -/
def Value.next : Option Value → Value → Value
  | some (.str prev), .str s => .str (prev ++ ',' :: s)
  | _, v => v

/-- The value that the tokens matched, in order, give to an identifier. -/
def valueOf (matched : List (ι × Value)) (i : ι) : Option Value :=
  matched.foldl (fun old p => if p.1 = i then some (Value.next old p.2) else old) none

theorem valueOf_append (matched : List (ι × Value)) (i j : ι) (v : Value) :
    valueOf (matched ++ [(i, v)]) j =
      if i = j then some (Value.next (valueOf matched j) v) else valueOf matched j := by
  rw [valueOf, List.foldl_append]
  rfl

/-- An identifier has a value iff a token was matched for it. -/
theorem valueOf_eq_none_iff (matched : List (ι × Value)) (i : ι) :
    valueOf matched i = none ↔ ∀ v, (i, v) ∉ matched := by
  induction matched using List.reverseRecOn with
  | nil => simp [valueOf]
  | append_singleton matched p ih =>
    obtain ⟨j, v⟩ := p
    rw [valueOf_append]
    by_cases hj : j = i
    · subst hj
      rw [if_pos rfl]
      exact iff_of_false (Option.some_ne_none _) fun h => h v (by simp)
    · rw [if_neg hj, ih]
      have : ¬ i = j := fun h => hj h.symm
      simp [this]

end Matched

namespace Stack

variable {ι : Type}

/-- The slots hold what `slots` allows. -/
def Within (entries : List (StackEntry ι)) (slots : List (ι × Kind)) : Prop :=
  ∀ e ∈ entries, (e.identifier, e.val.kind) ∈ slots

theorem Within.mono {entries : List (StackEntry ι)} {slots slots' : List (ι × Kind)}
    (h : Within entries slots) (hsub : slots ⊆ slots') : Within entries slots' :=
  fun e he => hsub (h e he)

/-- With one slot for each identifier, there are no more slots than are allowed. -/
theorem Within.length_le {entries : List (StackEntry ι)} {slots : List (ι × Kind)}
    (h : Within entries slots) (hnodup : (entries.map (·.identifier)).Nodup) :
    entries.length ≤ slots.length := by
  have hpairs : (entries.map fun e => (e.identifier, e.val.kind)).Nodup := by
    refine List.Nodup.of_map Prod.fst ?_
    rw [List.map_map]
    exact hnodup
  have hsub : entries.map (fun e => (e.identifier, e.val.kind)) ⊆ slots := by
    intro p hp
    obtain ⟨e, he, rfl⟩ := List.mem_map.mp hp
    exact h e he
  simpa using (List.subperm_of_subset hpairs hsub).length_le

theorem ofEntries_of_le {entries : List (StackEntry ι)} (h : entries.length ≤ 10) :
    ofEntries entries = some ⟨entries, h⟩ := dif_pos h

theorem entries_of_ofEntries {entries : List (StackEntry ι)} {stack : Stack ι}
    (h : ofEntries entries = some stack) : stack.entries = entries := by
  rw [ofEntries] at h
  split_ifs at h
  cases h
  rfl

variable [DecidableEq ι] {entries : List (StackEntry ι)} {matched : List (ι × Value)}
  {slots : List (ι × Kind)} {i : ι}

/-- **The purpose of the stack**: each identifier has at most one slot, and the slot holds the value
of the tokens matched for it. -/
structure Stores (entries : List (StackEntry ι)) (matched : List (ι × Value)) : Prop where
  nodup : (entries.map (·.identifier)).Nodup
  lookup_eq : ∀ i, lookup i entries = valueOf matched i

theorem stores_nil : Stores ([] : List (StackEntry ι)) [] := ⟨List.nodup_nil, fun _ => rfl⟩

theorem lookup_eq_none_iff : lookup i entries = none ↔ i ∉ entries.map (·.identifier) := by
  induction entries with
  | nil => simp [lookup]
  | cons e es ih =>
    rw [lookup, List.map_cons, List.mem_cons, not_or]
    split_ifs with he
    · simp [he]
    · rw [ih]
      exact (and_iff_right fun h => he h.symm).symm

theorem kind_of_lookup {v : Value} (h : Within entries slots) (hv : lookup i entries = some v) :
    (i, v.kind) ∈ slots := by
  induction entries with
  | nil => cases hv
  | cons e es ih =>
    rw [lookup] at hv
    split_ifs at hv with he
    · cases hv
      subst he
      exact h e List.mem_cons_self
    · exact ih (fun e' he' => h e' (List.mem_cons_of_mem e he')) hv

/-! ### A new slot -/

theorem lookup_append (i : ι) (e : StackEntry ι) (h : lookup e.identifier entries = none) :
    lookup i (entries ++ [e]) = if e.identifier = i then some e.val else lookup i entries := by
  induction entries with
  | nil => rfl
  | cons e' es ih =>
    rw [lookup] at h
    split_ifs at h with he'
    rw [List.cons_append, lookup, lookup, ih h]
    split_ifs with h₁ h₂
    · exact absurd (h₁.trans h₂.symm) he'
    · rfl
    · rfl
    · rfl

/-- A token without a slot takes a new one. -/
theorem Stores.append (h : Stores entries matched) {v : Value} (hi : lookup i entries = none) :
    Stores (entries ++ [⟨i, v⟩]) (matched ++ [(i, v)]) where
  nodup := by
    rw [List.map_append, List.nodup_append]
    refine ⟨h.nodup, List.nodup_singleton _, ?_⟩
    intro j hj k hk hjk
    rw [List.map_singleton, List.mem_singleton] at hk
    subst hk hjk
    exact lookup_eq_none_iff.mp hi hj
  lookup_eq j := by
    rw [lookup_append j ⟨i, v⟩ hi, valueOf_append, h.lookup_eq j]
    split_ifs with hj
    · subst hj
      rw [← h.lookup_eq i, hi]
      cases v <;> rfl
    · rfl

omit [DecidableEq ι] in
theorem Within.append (h : Within entries slots) {v : Value} (hi : (i, v.kind) ∈ slots) :
    Within (entries ++ [⟨i, v⟩]) slots := by
  intro e he
  rcases List.mem_append.mp he with he | he
  · exact h e he
  · rw [List.mem_singleton] at he
    subst he
    exact hi

/-! ### The pushes -/

/-- **Pushing a number** that has no slot yet: it gets one, if the slots allowed are at most ten. -/
theorem Stores.pushLong {stack : Stack ι} (h : Stores stack.entries matched) (num : ℤ)
    (hw : Within stack.entries slots) (hi : lookup i stack.entries = none)
    (hslot : (i, .num) ∈ slots) (hten : slots.length ≤ 10) :
    ∃ stack', stack.pushLong i num = some stack' ∧
      Stores stack'.entries (matched ++ [(i, .num num)]) ∧ Within stack'.entries slots := by
  have hs := h.append (v := .num num) hi
  have hw' := hw.append (v := .num num) hslot
  have hle := hw'.length_le hs.nodup
  exact ⟨_, ofEntries_of_le (by omega), hs, hw'⟩

theorem pushStringLoop_of_none (str : Text) (hi : lookup i entries = none) :
    pushStringLoop i str entries = some (entries ++ [⟨i, .str str⟩]) := by
  induction entries with
  | nil => rfl
  | cons e es ih =>
    rw [lookup] at hi
    split_ifs at hi with he
    rw [pushStringLoop, if_neg he, ih hi]
    rfl

/-- A string is appended to the slot it has. -/
theorem pushStringLoop_of_some (slots : List (ι × Kind)) {prev : Text} (str : Text)
    (hi : lookup i entries = some (.str prev)) :
    ∃ entries', pushStringLoop i str entries = some entries' ∧
      entries'.map (·.identifier) = entries.map (·.identifier) ∧
      (∀ j, lookup j entries' =
        if i = j then some (.str (prev ++ ',' :: str)) else lookup j entries) ∧
      (Within entries slots → (i, .str) ∈ slots → Within entries' slots) := by
  induction entries with
  | nil => cases hi
  | cons e es ih =>
    rw [lookup] at hi
    split_ifs at hi with he
    · refine ⟨⟨e.identifier, .str (prev ++ ',' :: str)⟩ :: es, ?_, rfl, ?_, ?_⟩
      · rw [pushStringLoop, if_pos he, Option.some.inj hi]
        rfl
      · intro j
        subst he
        rw [lookup, lookup]
        split_ifs <;> rfl
      · intro hw hslot e' he'
        rcases List.mem_cons.mp he' with rfl | he'
        · subst he
          exact hslot
        · exact hw e' (List.mem_cons_of_mem e he')
    · obtain ⟨es', hpush, hids, hlookup, hwithin⟩ := ih hi
      refine ⟨e :: es', ?_, by rw [List.map_cons, List.map_cons, hids], ?_, ?_⟩
      · rw [pushStringLoop, if_neg he, hpush]
        rfl
      · intro j
        rw [lookup, lookup, hlookup j]
        split_ifs with h₁ h₂
        · exact absurd (h₁.trans h₂.symm) he
        · rfl
        · rfl
        · rfl
      · intro hw hslot e' he'
        rcases List.mem_cons.mp he' with rfl | he'
        · exact hw e' List.mem_cons_self
        · exact hwithin (fun e'' he'' => hw e'' (List.mem_cons_of_mem e he'')) hslot e' he'

/-- **Pushing a string** whose identifier holds no number: it gets a slot or is appended to the one
it has, if the slots allowed are at most ten. -/
theorem Stores.pushString {stack : Stack ι} (h : Stores stack.entries matched)
    (hw : Within stack.entries slots) (hi : ∀ num, lookup i stack.entries ≠ some (.num num))
    (str : Text) (hslot : (i, .str) ∈ slots) (hten : slots.length ≤ 10) :
    ∃ stack', stack.pushString i str = some stack' ∧
      Stores stack'.entries (matched ++ [(i, .str str)]) ∧ Within stack'.entries slots := by
  rw [Stack.pushString]
  rcases hlookup : lookup i stack.entries with _ | ⟨prev⟩ | num
  · have hs := h.append (v := .str str) hlookup
    have hw' := hw.append (v := .str str) hslot
    have hle := hw'.length_le hs.nodup
    rw [pushStringLoop_of_none str hlookup, Option.bind_some]
    exact ⟨_, ofEntries_of_le (by omega), hs, hw'⟩
  · obtain ⟨entries', hpush, hids, hfind, hwithin⟩ :=
      pushStringLoop_of_some slots str hlookup
    have hs : Stores entries' (matched ++ [(i, .str str)]) := by
      refine ⟨hids ▸ h.nodup, fun j => ?_⟩
      rw [hfind, valueOf_append, h.lookup_eq]
      split_ifs with hj
      · subst hj
        rw [← h.lookup_eq, hlookup]
        rfl
      · rfl
    have hw' := hwithin hw hslot
    have hle := hw'.length_le hs.nodup
    rw [hpush, Option.bind_some]
    exact ⟨_, ofEntries_of_le (by omega), hs, hw'⟩
  · exact absurd hlookup (hi num)

end Stack

end I3.Parser
