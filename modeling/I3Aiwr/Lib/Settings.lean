import Mathlib.Data.List.Induction
import Mathlib.Data.List.Nodup

/-!
# Settings where the last one counts

A record is changed by one setting after another. A field that each setting either sets or leaves
alone has, after a list of settings, the value of the last one that sets it. A table of named
entries is such a record, with a field for every name; beside it keeps the names in the order in
which they came.

## Main definitions

* `Settings.last f ws`: the value the last of the settings gives to the field `f`
* `Settings.define key t d`: an entry replaces the one of the same key, or comes last
* `Settings.fresh key seen ds`: the names that are new, in order

## Main results

* `Settings.foldl_field`: a field after a list of settings
* `Settings.get_defineAll`, `Settings.names_defineAll`: a table after a list of entries
* `Settings.fresh_append_eq`: when names that came earlier are not seen in the order of the names
-/

namespace Settings

/-! ### Fields -/

section Fields

variable {ω ρ β : Type*} {f : ω → Option β} {ws ws' : List ω} {d : β}

/-- The value the last setting of a field gives to it. -/
def last (f : ω → Option β) (ws : List ω) : Option β := (ws.filterMap f).getLast?

theorem last_concat (w : ω) : last f (ws ++ [w]) = (f w).or (last f ws) := by
  unfold last
  cases h : f w with
  | none => simp [h]
  | some v => simp [h]

theorem last_eq_none : last f ws = none ↔ ∀ w ∈ ws, f w = none := by
  unfold last
  rw [List.getLast?_eq_none_iff, List.filterMap_eq_nil_iff]

/-- **A field after a list of settings** is as the last one has it. -/
theorem foldl_field {apply : ω → ρ → ρ} {p : ρ → β}
    (happly : ∀ w r, p (apply w r) = (f w).getD (p r)) (r : ρ) :
    p (ws.foldl (fun r w => apply w r) r) = (last f ws).getD (p r) := by
  induction ws using List.reverseRecOn with
  | nil => rfl
  | append_singleton ws w ih =>
    rw [List.foldl_append, List.foldl_cons, List.foldl_nil, happly, last_concat, ih]
    cases f w <;> rfl

/-- Settings that came before make no difference to a field. -/
def Kept (f : ω → Option β) (d : β) (ws ws' : List ω) : Prop :=
  last f ws' ≠ none ∨ (last f ws).getD d = d

theorem getD_getD_eq_iff : (last f ws').getD ((last f ws).getD d) = (last f ws').getD d ↔
    Kept f d ws ws' := by
  unfold Kept
  cases last f ws' with
  | none => simp
  | some v => simp

end Fields

/-! ### Tables -/

section Tables

variable {ν κ β : Type*} [DecidableEq κ] {key : ν → κ} {t : List (ν × β)} {ds ds' : List (ν × β)}
  {seen seen' more : List ν} {d : ν × β} {k : κ}

/-- The entry with a key. -/
def get (key : ν → κ) (t : List (ν × β)) (k : κ) : Option β := (t.find? (key ·.1 = k)).map (·.2)

/-- Defining an entry: in the place of the one with the same key, whose name stays, or last. -/
def define (key : ν → κ) : List (ν × β) → ν × β → List (ν × β)
  | [], d => [d]
  | e :: t, d => if key e.1 = key d.1 then (e.1, d.2) :: t else e :: define key t d

/-- Defining one entry after another. -/
def defineAll (key : ν → κ) (t ds : List (ν × β)) : List (ν × β) := ds.foldl (define key) t

theorem get_cons (e : ν × β) :
    get key (e :: t) k = if key e.1 = k then some e.2 else get key t k := by
  unfold get
  rw [List.find?_cons]
  by_cases h : key e.1 = k <;> simp [h]

theorem get_define : get key (define key t d) k = if key d.1 = k then some d.2 else get key t k := by
  induction t with
  | nil => rw [define, get_cons]
  | cons e t ih =>
    rw [define]
    by_cases he : key e.1 = key d.1
    · rw [if_pos he, get_cons, get_cons, he]
      by_cases hd : key d.1 = k <;> simp [hd]
    · rw [if_neg he, get_cons, get_cons, ih]
      by_cases hd : key d.1 = k
      · rw [if_neg fun h => he (h.trans hd.symm), if_pos hd, if_pos hd]
      · rw [if_neg hd, if_neg hd]

theorem names_define : (define key t d).map (·.1) =
    t.map (·.1) ++ if key d.1 ∈ t.map (key ·.1) then [] else [d.1] := by
  induction t with
  | nil => simp [define]
  | cons e t ih =>
    rw [define]
    by_cases he : key e.1 = key d.1
    · simp [he]
    · rw [if_neg he, List.map_cons, ih]
      simp only [List.map_cons, List.mem_cons, Ne.symm he, false_or, List.cons_append]

/-- What an entry sets: the field of its key. -/
def entry (key : ν → κ) (k : κ) (d : ν × β) : Option β := if key d.1 = k then some d.2 else none

/-- **A table after a list of entries**, looked up by a key. -/
theorem get_defineAll :
    get key (defineAll key t ds) k = (last (entry key k) ds).or (get key t k) := by
  induction ds using List.reverseRecOn with
  | nil => rfl
  | append_singleton ds d ih =>
    rw [defineAll, List.foldl_append, List.foldl_cons, List.foldl_nil, get_define, last_concat,
      entry, ← defineAll, ih]
    by_cases hd : key d.1 = k <;> simp [hd]

/-- The names that are new, in order, where some are seen already. -/
def fresh (key : ν → κ) : List ν → List (ν × β) → List ν
  | _, [] => []
  | seen, d :: ds =>
    if key d.1 ∈ seen.map key then fresh key seen ds else d.1 :: fresh key (seen ++ [d.1]) ds

/-- **A table after a list of entries**, the names in order. -/
theorem names_defineAll :
    (defineAll key t ds).map (·.1) = t.map (·.1) ++ fresh key (t.map (·.1)) ds := by
  induction ds generalizing t with
  | nil => simp [defineAll, fresh]
  | cons d ds ih =>
    rw [defineAll, List.foldl_cons, ← defineAll, ih, names_define, fresh, List.map_map]
    by_cases hd : key d.1 ∈ t.map (key ·.1)
    · rw [if_pos hd, List.append_nil, if_pos (by exact hd)]
    · rw [if_neg hd, if_neg (by exact hd), List.append_assoc, List.singleton_append]

theorem fresh_congr (h : ∀ k, k ∈ seen.map key ↔ k ∈ seen'.map key) :
    fresh key seen ds = fresh key seen' ds := by
  induction ds generalizing seen seen' with
  | nil => rfl
  | cons d ds ih =>
    have hd : ∀ k, k ∈ (seen ++ [d.1]).map key ↔ k ∈ (seen' ++ [d.1]).map key := by
      intro k
      simp only [List.map_append, List.mem_append]
      rw [h k]
    rw [fresh, fresh, ih h, ih hd]
    simp only [h]

/-- With more names seen, fewer are new. -/
theorem fresh_append : fresh key (seen ++ more) ds =
    (fresh key seen ds).filter fun n => key n ∉ more.map key := by
  induction ds generalizing seen with
  | nil => rfl
  | cons d ds ih =>
    have hmem : key d.1 ∈ (seen ++ more).map key ↔
        key d.1 ∈ seen.map key ∨ key d.1 ∈ more.map key := by
      rw [List.map_append, List.mem_append]
    rw [fresh, fresh]
    by_cases hs : key d.1 ∈ seen.map key
    · rw [if_pos (hmem.mpr (.inl hs)), if_pos hs, ih]
    by_cases hm : key d.1 ∈ more.map key
    · have hseen : ∀ k, k ∈ ((seen ++ [d.1]) ++ more).map key ↔ k ∈ (seen ++ more).map key := by
        intro k
        simp only [List.map_append, List.mem_append, List.map_cons, List.map_nil,
          List.mem_singleton]
        constructor
        · rintro ((hk | rfl) | hk)
          · exact .inl hk
          · exact .inr hm
          · exact .inr hk
        · rintro (hk | hk)
          · exact .inl (.inl hk)
          · exact .inr hk
      rw [if_pos (hmem.mpr (.inr hm)), if_neg hs, List.filter_cons_of_neg (by simpa using hm), ← ih,
        fresh_congr hseen]
    · have hseen : ∀ k, k ∈ ((seen ++ more) ++ [d.1]).map key ↔
          k ∈ ((seen ++ [d.1]) ++ more).map key := by
        intro k
        simp only [List.map_append, List.mem_append]
        tauto
      rw [if_neg (by rw [hmem]; tauto), if_neg hs, List.filter_cons_of_pos (by simpa using hm), ← ih,
        fresh_congr hseen]

theorem key_notMem_seen {n : ν} (h : n ∈ fresh key seen ds) : key n ∉ seen.map key := by
  induction ds generalizing seen with
  | nil => cases h
  | cons d ds ih =>
    rw [fresh] at h
    by_cases hd : key d.1 ∈ seen.map key
    · rw [if_pos hd] at h
      exact ih h
    · rw [if_neg hd] at h
      rcases List.mem_cons.mp h with rfl | h
      · exact hd
      · exact fun hn => ih h (by simpa using .inl (by simpa using hn))

theorem nodup_fresh : ((fresh key seen ds).map key).Nodup := by
  induction ds generalizing seen with
  | nil => exact List.nodup_nil
  | cons d ds ih =>
    rw [fresh]
    by_cases hd : key d.1 ∈ seen.map key
    · rw [if_pos hd]
      exact ih
    · rw [if_neg hd, List.map_cons, List.nodup_cons]
      refine ⟨fun h => ?_, ih⟩
      obtain ⟨n, hn, hk⟩ := List.mem_map.mp h
      refine key_notMem_seen hn ?_
      rw [hk]
      simp

/-- The names of earlier entries are not seen in the order exactly where the later ones bring them
first. -/
theorem fresh_append_eq : fresh key seen ds ++ fresh key (seen ++ fresh key seen ds) ds' =
    fresh key seen ds' ↔ fresh key seen ds <+: fresh key seen ds' := by
  constructor
  · intro h
    exact ⟨_, h⟩
  · rintro ⟨rest, h⟩
    -- none of the rest is among the earlier names, and these are left out
    have hdisjoint : ((fresh key seen ds').map key).Nodup := nodup_fresh
    rw [← h, List.map_append, List.nodup_append] at hdisjoint
    rw [fresh_append, ← h, List.filter_append]
    have hleft : (fresh key seen ds).filter (fun n => key n ∉ (fresh key seen ds).map key) = [] := by
      rw [List.filter_eq_nil_iff]
      intro n hn hkey
      exact absurd (List.mem_map_of_mem hn) (by simpa using hkey)
    have hright : rest.filter (fun n => key n ∉ (fresh key seen ds).map key) = rest := by
      rw [List.filter_eq_self]
      intro n hn
      have := fun hk => hdisjoint.2.2 (key n) hk (key n) (List.mem_map_of_mem hn) rfl
      simpa using this
    rw [hleft, hright, List.nil_append]

end Tables

end Settings
