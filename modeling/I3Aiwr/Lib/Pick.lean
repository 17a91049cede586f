import Mathlib

/-!
# Scans that keep a candidate

A scan over a list keeps the best element so far: the first one in a class with the least key. The
first element of a class is the special case of a constant key.

## Main definitions

* `Pick.keep p key`: one step of the scan
* `Pick.Best p key l b`: `b` is the first of the elements of `l` in `p` with the least key

## Main results

* `Pick.foldl_keep`: what the scan finds
* `Pick.idxOf_lt_idxOf_iff`: positions around an element
-/

namespace Pick

variable {α κ : Type*} [DecidableEq α] [LinearOrder κ] {p : α → Bool} {key : α → κ}
  {l pre post : List α} {b c x : α}

/-- One step of the scan: `c` becomes the candidate where it is better. -/
def keep (p : α → Bool) (key : α → κ) (o : Option α) (c : α) : Option α :=
  match o with
  | none => if p c then some c else none
  | some d => if p c ∧ key c < key d then some c else some d

/-- By the key, then by the position. -/
def Sooner (key : α → κ) (l : List α) (x y : α) : Prop :=
  key x < key y ∨ key x = key y ∧ l.idxOf x < l.idxOf y

/-- `b` is the first of the elements in `p` with the least key. -/
structure Best (p : α → Bool) (key : α → κ) (l : List α) (b : α) : Prop where
  mem : b ∈ l
  holds : p b
  least : ∀ x ∈ l, p x → x = b ∨ Sooner key l b x

/-! ### Positions -/

/-- What stands behind an element, and what stands before it. -/
theorem idxOf_lt_idxOf_iff (hl : (pre ++ c :: post).Nodup) (hx : x ∈ pre ++ c :: post) :
    (pre ++ c :: post).idxOf c < (pre ++ c :: post).idxOf x ↔ x ∈ post := by
  have hc : c ∉ pre := fun h => List.disjoint_of_nodup_append hl h List.mem_cons_self
  rw [List.idxOf_append_of_notMem hc, List.idxOf_cons_self, Nat.add_zero]
  by_cases hpre : x ∈ pre
  · have hpost : x ∉ post := fun h => List.disjoint_of_nodup_append hl hpre (by simp [h])
    rw [List.idxOf_append_of_mem hpre]
    have := List.idxOf_lt_length_of_mem hpre
    exact iff_of_false (by omega) hpost
  · rw [List.idxOf_append_of_notMem hpre]
    by_cases hxc : x = c
    · have hpost : x ∉ post := by
        subst hxc
        exact (List.nodup_cons.mp hl.of_append_right).1
      exact iff_of_false (by simp [hxc]) hpost
    · have hpost : x ∈ post := by simpa [hpre, hxc] using hx
      rw [List.idxOf_cons_ne _ (Ne.symm hxc)]
      exact iff_of_true (by omega) hpost

/-- The reverse of a list turns positions around. -/
theorem idxOf_reverse_lt (hl : l.Nodup) (hx : x ∈ l) (hb : b ∈ l)
    (h : l.idxOf x < l.idxOf b) : l.reverse.idxOf b < l.reverse.idxOf x := by
  obtain ⟨pre, post, rfl⟩ := List.append_of_mem hb
  have hrev : (pre ++ b :: post).reverse = post.reverse ++ b :: pre.reverse := by simp
  have hne : x ≠ b := by
    rintro rfl
    exact Nat.lt_irrefl _ h
  have hpost : x ∉ post := fun hmem => by
    have := (idxOf_lt_idxOf_iff hl hx).mpr hmem
    omega
  have hpre : x ∈ pre := by simpa [hne, hpost] using hx
  rw [hrev, idxOf_lt_idxOf_iff (hrev ▸ List.nodup_reverse.mpr hl) (by simp [hpre])]
  exact List.mem_reverse.mpr hpre

/-! ### The scan -/

/-- With a candidate of the part scanned already, the scan ends at the best element. -/
theorem foldl_keep_some (hl : (pre ++ post).Nodup) (hmem : b ∈ pre) (hb : p b)
    (hleast : ∀ x ∈ pre, p x → x = b ∨ Sooner key (pre ++ post) b x) :
    ∃ d, post.foldl (keep p key) (some b) = some d ∧ Best p key (pre ++ post) d := by
  induction post generalizing pre b with
  | nil => exact ⟨b, rfl, by simpa using hmem, hb, by simpa using hleast⟩
  | cons c post ih =>
    have happ : pre ++ c :: post = (pre ++ [c]) ++ post := by simp
    have hcmem : c ∈ pre ++ c :: post := by simp
    have hlt : ∀ x ∈ pre, (pre ++ c :: post).idxOf x < (pre ++ c :: post).idxOf c := by
      intro x hx
      have hc : c ∉ pre := fun h => List.disjoint_of_nodup_append hl h List.mem_cons_self
      rw [List.idxOf_append_of_mem hx, List.idxOf_append_of_notMem hc]
      have := List.idxOf_lt_length_of_mem hx
      omega
    rw [List.foldl_cons, keep]
    by_cases hbetter : p c ∧ key c < key b
    · -- `c` is better than everything before it
      rw [if_pos hbetter]
      rw [happ] at hl hleast ⊢
      refine ih hl (by simp) hbetter.1 fun x hx hpx => ?_
      rcases List.mem_append.mp hx with hx | hx
      · rcases hleast x hx hpx with rfl | hlt | ⟨heq, -⟩
        · exact .inr (.inl hbetter.2)
        · exact .inr (.inl (hbetter.2.trans hlt))
        · exact .inr (.inl (heq ▸ hbetter.2))
      · exact .inl (List.mem_singleton.mp hx)
    · rw [if_neg hbetter]
      have hbc := hlt b hmem
      rw [happ] at hl hleast hbc ⊢
      refine ih hl (by simp [hmem]) hb fun x hx hpx => ?_
      rcases List.mem_append.mp hx with hx | hx
      · exact hleast x hx hpx
      · obtain rfl := List.mem_singleton.mp hx
        have hle : key b ≤ key x := not_lt.mp fun hlt => hbetter ⟨hpx, hlt⟩
        rcases hle.lt_or_eq with hlt | heq
        · exact .inr (.inl hlt)
        · exact .inr (.inr ⟨heq, hbc⟩)

/-- Before any element of the class the scan has no candidate. -/
theorem foldl_keep_none (hl : (pre ++ post).Nodup) (hpre : ∀ x ∈ pre, ¬ p x) :
    (post.foldl (keep p key) none = none ∧ ∀ x ∈ pre ++ post, ¬ p x)
      ∨ ∃ d, post.foldl (keep p key) none = some d ∧ Best p key (pre ++ post) d := by
  induction post generalizing pre with
  | nil => exact .inl ⟨rfl, by simpa using hpre⟩
  | cons c post ih =>
    have happ : pre ++ c :: post = (pre ++ [c]) ++ post := by simp
    rw [List.foldl_cons, keep]
    rw [happ] at hl ⊢
    by_cases hc : p c
    · rw [if_pos hc]
      refine .inr (foldl_keep_some hl (by simp) hc fun x hx hpx => ?_)
      rcases List.mem_append.mp hx with hx | hx
      · exact absurd hpx (hpre x hx)
      · exact .inl (List.mem_singleton.mp hx)
    · rw [if_neg hc]
      refine ih hl fun x hx => ?_
      rcases List.mem_append.mp hx with hx | hx
      · exact hpre x hx
      · exact List.mem_singleton.mp hx ▸ hc

/-- **The scan finds the best element**, if there is one of the class. -/
theorem foldl_keep (hl : l.Nodup) :
    (l.foldl (keep p key) none = none ∧ ∀ x ∈ l, ¬ p x)
      ∨ ∃ d, l.foldl (keep p key) none = some d ∧ Best p key l d :=
  foldl_keep_none ((List.nil_append l).symm ▸ hl) (by simp)

omit [DecidableEq α] in
/-- Leaving elements out of the list is leaving them out of the class. -/
theorem foldl_keep_filter (q : α → Bool) (o : Option α) :
    (l.filter q).foldl (keep p key) o = l.foldl (keep (fun x => p x && q x) key) o := by
  induction l generalizing o with
  | nil => rfl
  | cons c l ih =>
    rw [List.filter_cons, List.foldl_cons]
    by_cases hc : q c
    · rw [if_pos hc, List.foldl_cons, ih]
      congr 1
      cases o <;> simp [keep, hc]
    · rw [if_neg hc, ih]
      congr 1
      cases o <;> simp [keep, hc]

omit [LinearOrder κ] in
/-- The first element of a class in the rest of the list comes before the others there. -/
theorem find?_behind {d : α} (hl : (pre ++ post).Nodup) (hd : post.find? p = some d)
    (hx : x ∈ post) (hpx : p x) : x = d ∨ (pre ++ post).idxOf d < (pre ++ post).idxOf x := by
  obtain ⟨-, as, bs, rfl, has⟩ := List.find?_eq_some_iff_append.mp hd
  rcases List.mem_append.mp hx with hx | hx
  · have := has x hx
    rw [hpx] at this
    cases this
  · rcases List.mem_cons.mp hx with rfl | hx
    · exact .inl rfl
    · refine .inr ?_
      rw [← List.append_assoc] at hl ⊢
      exact (idxOf_lt_idxOf_iff hl (by simp [hx])).mpr hx

end Pick
