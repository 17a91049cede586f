import Mathlib.Algebra.BigOperators.Group.Finset.Basic
import Mathlib.Data.Prod.Lex
import Mathlib.Data.List.TakeWhile
import Mathlib.Algebra.Group.Embedding
import I3Aiwr.Lib.Choice
import I3Aiwr.Parser.Variables

/-!
# The two passes over the variables

Both passes choose occurrences of keys that do not overlap, in different orders: the first pass goes
by the list of the variables and then by position, the second by position and then by the list. The
text gets longer by what the second choice takes, and the buffer by what the first one takes.

## Main definitions

* `Occurs vars text a`, `Overlap vars a b`: occurrences, given by the position and the index of the
  variable
* `byList`, `byPosition`: the orders of the two passes
* `gain vars S`: how much longer the occurrences in `S` get

## Main results

* `exists_counted`: the first pass chooses by the list
* `exists_replaced`: the second pass chooses by position
* `replaceVariables_eq`: the second pass replaces the longest key from left to right
-/

namespace I3.Parser

variable {vars : List Variable} {text T : List Char} {key : List Char} {p q d n : ℕ}

/-! ### Occurrences -/

/-- An occurrence: a position, and the index of a variable whose key is there. -/
abbrev Occurrence := ℕ × ℕ

/-- The key is in the text at position `p`. -/
def At (text key : List Char) (p : ℕ) : Prop := matchesHere key (text.drop p)

def Occurs (vars : List Variable) (text : List Char) (a : Occurrence) : Prop :=
  ∃ v, vars[a.2]? = some v ∧ At text v.key a.1

/-- The length of the key with an index. -/
def keyLength (vars : List Variable) (i : ℕ) : ℕ := (vars[i]?.map fun v => v.key.length).getD 0

/-- The two occurrences have a position in common. -/
def Overlap (vars : List Variable) (a b : Occurrence) : Prop :=
  a.1 < b.1 + keyLength vars b.2 ∧ b.1 < a.1 + keyLength vars a.2

/-- The order of the first pass. -/
def byList (a b : Occurrence) : Prop := a.2 < b.2 ∨ a.2 = b.2 ∧ a.1 < b.1

/-- The order of the second pass. -/
def byPosition (a b : Occurrence) : Prop := a.1 < b.1 ∨ a.1 = b.1 ∧ a.2 < b.2

/-- How much longer the text gets when the occurrences in `S` are replaced. -/
def gain (vars : List Variable) (S : Finset Occurrence) : ℤ :=
  ∑ a ∈ S, ((vars[a.2]?.map Variable.extra).getD 0)

/-- The keys that the assignments allow: they begin with a dollar and have no blanks. -/
def Named (key : List Char) : Prop := key.head? = some '$' ∧ ' ' ∉ key

theorem Named.length_pos (h : Named key) : 0 < key.length := by
  cases key with
  | nil => cases h.1
  | cons c key => simp

theorem wellFounded_byPosition : WellFounded byPosition := by
  refine Subrelation.wf (r := Prod.Lex (· < ·) (· < ·)) (fun {a b} h => ?_)
    (WellFounded.prod_lex wellFounded_lt wellFounded_lt)
  exact Prod.lex_def.mpr h

theorem wellFounded_byList : WellFounded byList :=
  InvImage.wf Prod.swap wellFounded_byPosition

theorem byPosition_total (a b : Occurrence) (h : a ≠ b) : byPosition a b ∨ byPosition b a := by
  by_contra hnot
  simp only [byPosition, not_or, not_and, not_lt] at hnot
  refine h (Prod.ext (by omega) ?_)
  obtain ⟨⟨h₁, h₂⟩, h₃, h₄⟩ := hnot
  have heq : a.1 = b.1 := by omega
  have := h₂ heq
  have := h₄ heq.symm
  omega

theorem byList_irrefl (a : Occurrence) : ¬ byList a a := by
  simp [byList]

theorem Overlap.symm {a b : Occurrence} (h : Overlap vars a b) : Overlap vars b a := ⟨h.2, h.1⟩

/-! ### Matching -/

theorem at_iff_forall :
    At text key p ↔ ∀ r < key.length, (text[p + r]?).map Char.toLower = (key[r]?).map Char.toLower := by
  unfold At matchesHere
  rw [decide_eq_true_iff]
  unfold sameCase
  constructor
  · intro h r hr
    have := congrArg (fun l : List Char => l[r]?) h
    simpa [List.getElem?_take, hr] using this
  · intro h
    refine List.ext_getElem? fun r => ?_
    by_cases hr : r < key.length
    · simpa [List.getElem?_take, hr] using h r hr
    · simp [hr]

/-- A match lies within the text. -/
theorem At.le_length (h : At text key p) (hkey : 0 < key.length) : p + key.length ≤ text.length := by
  have hlast := at_iff_forall.mp h (key.length - 1) (by omega)
  by_contra hlt
  rw [List.getElem?_eq_none (by omega), List.getElem?_eq_getElem (by omega)] at hlast
  cases hlast

theorem at_drop : At (text.drop q) key p ↔ At text key (q + p) := by
  rw [At, At, List.drop_drop]

theorem strcasestr_none (h : strcasestr text key = none) (p : ℕ) (hkey : 0 < key.length) :
    ¬ At text key p := by
  induction text generalizing p with
  | nil =>
    intro hat
    have hle := hat.le_length hkey
    rw [List.length_nil] at hle
    omega
  | cons c text ih =>
    rw [strcasestr] at h
    split at h
    · cases h
    · next hhere =>
      cases p with
      | zero => exact hhere
      | succ p => exact ih (Option.map_eq_none_iff.mp h) p

theorem strcasestr_some (h : strcasestr text key = some d) :
    At text key d ∧ ∀ p < d, ¬ At text key p := by
  induction text generalizing d with
  | nil =>
    rw [strcasestr] at h
    split at h
    · next hhere =>
      cases h
      exact ⟨hhere, fun p hp => absurd hp (Nat.not_lt_zero p)⟩
    · cases h
  | cons c text ih =>
    rw [strcasestr] at h
    split at h
    · next hhere =>
      cases h
      exact ⟨hhere, fun p hp => absurd hp (Nat.not_lt_zero p)⟩
    · next hhere =>
      obtain ⟨e, he, rfl⟩ := Option.map_eq_some_iff.mp h
      obtain ⟨hat, hbefore⟩ := ih he
      refine ⟨hat, fun p hp => ?_⟩
      cases p with
      | zero => exact hhere
      | succ p => exact hbefore p (by omega)

/-! ### Blanks -/

/-- `T` is the text with blanks at the covered positions. -/
structure Masks (text T : List Char) (covered : ℕ → Prop) : Prop where
  length : T.length = text.length
  blank : ∀ q, covered q → T[q]? = some ' '
  keep : ∀ q, ¬ covered q → T[q]? = text[q]?

theorem Masks.refl (text : List Char) : Masks text text fun _ => False :=
  ⟨rfl, fun _ h => h.elim, fun _ _ => rfl⟩

theorem toLower_eq_space {c : Char} (h : c.toLower = ' ') : c = ' ' := by
  rw [Char.toLower] at h
  split at h
  · next hupper =>
    have hle : c.toNat ≤ 90 := hupper.2
    have hval : (c.toNat + 32) % 4294967296 = 32 := by
      simpa using congrArg (fun c : Char => c.val.toNat) h
    have hge : 65 ≤ c.toNat := hupper.1
    omega
  · exact h

/-- A key without blanks is found where it was before, but not across covered positions. -/
theorem Masks.at_iff {covered : ℕ → Prop} (h : Masks text T covered) (hkey : ' ' ∉ key) :
    At T key p ↔ At text key p ∧ ∀ q, covered q → p ≤ q → q < p + key.length → False := by
  simp only [at_iff_forall]
  constructor
  · intro hat
    have hfree : ∀ q, covered q → p ≤ q → q < p + key.length → False := by
      intro q hq hle hlt
      have := hat (q - p) (by omega)
      rw [Nat.add_sub_cancel' hle, h.blank q hq, List.getElem?_eq_getElem (by omega)] at this
      have hlt' : q - p < key.length := by omega
      have hspace : key[q - p] = ' ' := toLower_eq_space (by simpa using this.symm)
      exact hkey (hspace ▸ List.getElem_mem _)
    refine ⟨fun r hr => ?_, hfree⟩
    rw [← h.keep (p + r) fun hc => hfree _ hc (by omega) (by omega)]
    exact hat r hr
  · rintro ⟨hat, hfree⟩ r hr
    rw [h.keep (p + r) fun hc => hfree _ hc (by omega) (by omega)]
    exact hat r hr

/-! ### The first pass -/

/-- What counting one key finds: its occurrences from left to right, without overlaps. -/
structure Counted (key T T' : List Char) (P : Finset ℕ) : Prop where
  mem : ∀ p, p ∈ P ↔ At T key p ∧ ∀ q ∈ P, q < p → q + key.length ≤ p
  masks : Masks T T' fun q => ∃ p ∈ P, p ≤ q ∧ q < p + key.length

theorem Counted.none (h : ∀ p, ¬ At T key p) : Counted key T T ∅ where
  mem p := by simp [h p]
  masks := ⟨rfl, fun q hq => by simp at hq, fun _ _ => rfl⟩

/-- The first occurrence, and those behind it. -/
theorem Counted.cons {rest' : List Char} {P : Finset ℕ} (hkey : 0 < key.length) (hd : At T key d)
    (hbefore : ∀ p < d, ¬ At T key p) (h : Counted key (T.drop (d + key.length)) rest' P) :
    Counted key T (T.take d ++ List.replicate key.length ' ' ++ rest')
      (insert d (P.map (addRightEmbedding (d + key.length)))) where
  mem p := by
    simp only [Finset.mem_insert, Finset.mem_map, addRightEmbedding_apply]
    constructor
    · rintro (rfl | ⟨r, hr, rfl⟩)
      · refine ⟨hd, ?_⟩
        rintro q (rfl | ⟨s, -, rfl⟩) hq
        · omega
        · omega
      · obtain ⟨hat, hfree⟩ := (h.mem r).mp hr
        rw [at_drop, Nat.add_comm] at hat
        refine ⟨hat, ?_⟩
        rintro q (rfl | ⟨s, hs, rfl⟩) hq
        · omega
        · have := hfree s hs (by omega)
          omega
    · rintro ⟨hat, hfree⟩
      have hge : d ≤ p := not_lt.mp fun hlt => hbefore p hlt hat
      rcases hge.eq_or_lt with rfl | hlt
      · exact .inl rfl
      · have hle := hfree d (.inl rfl) hlt
        refine .inr ⟨p - (d + key.length), (h.mem _).mpr ⟨?_, fun q hq hlt => ?_⟩, by omega⟩
        · rw [at_drop, Nat.add_sub_cancel' hle]
          exact hat
        · have := hfree (q + (d + key.length)) (.inr ⟨q, hq, rfl⟩) (by omega)
          omega
  masks := by
    have hle := hd.le_length hkey
    have hlen : (T.take d).length = d := by simp; omega
    have hrest := h.masks.length
    rw [List.length_drop] at hrest
    -- the three parts of the list
    have hget : ∀ q, (T.take d ++ List.replicate key.length ' ' ++ rest')[q]? =
        if q < d then T[q]? else if q < d + key.length then some ' '
        else rest'[q - (d + key.length)]? := by
      intro q
      by_cases hq : q < d
      · rw [if_pos hq, List.append_assoc, List.getElem?_append_left (by omega),
          List.getElem?_take_of_lt hq]
      · rw [if_neg hq, List.append_assoc, List.getElem?_append_right (by omega), hlen]
        by_cases hq' : q < d + key.length
        · rw [if_pos hq', List.getElem?_append_left (by simp; omega), List.getElem?_replicate,
            if_pos (by omega)]
        · rw [if_neg hq', List.getElem?_append_right (by simp; omega), List.length_replicate,
            Nat.sub_sub]
    refine ⟨by simp [hrest]; omega, fun q hq => ?_, fun q hq => ?_⟩
    · rw [hget]
      obtain ⟨p, hp, hpq, hqp⟩ := hq
      rcases Finset.mem_insert.mp hp with rfl | hp
      · rw [if_neg (by omega), if_pos (by omega)]
      · obtain ⟨r, hr, rfl⟩ := Finset.mem_map.mp hp
        rw [addRightEmbedding_apply] at hpq hqp
        rw [if_neg (by omega), if_neg (by omega)]
        exact h.masks.blank _ ⟨r, hr, by omega, by omega⟩
    · rw [hget]
      by_cases hqd : q < d
      · rw [if_pos hqd]
      · have hge : d + key.length ≤ q := by
          by_contra hlt
          exact hq ⟨d, Finset.mem_insert_self .., by omega, by omega⟩
        rw [if_neg hqd, if_neg (by omega), h.masks.keep, List.getElem?_drop,
          Nat.add_sub_cancel' hge]
        rintro ⟨r, hr, hle, hlt⟩
        refine hq ⟨r + (d + key.length), ?_, by omega, by omega⟩
        exact Finset.mem_insert_of_mem (Finset.mem_map.mpr ⟨r, hr, rfl⟩)

/-- **What the loop for one key does.** -/
theorem exists_counted_key (hkey : 0 < key.length) (hn : T.length ≤ n) :
    ∃ P : Finset ℕ, P.card = (countKey key n T).2 ∧ Counted key T (countKey key n T).1 P := by
  induction n generalizing T with
  | zero =>
    refine ⟨∅, rfl, .none fun p hat => ?_⟩
    have := hat.le_length hkey
    omega
  | succ n ih =>
    rw [countKey]
    cases hfind : strcasestr T key with
    | none => exact ⟨∅, rfl, .none fun p => strcasestr_none hfind p hkey⟩
    | some d =>
      obtain ⟨hd, hbefore⟩ := strcasestr_some hfind
      have hle := hd.le_length hkey
      obtain ⟨P, hcard, hP⟩ := ih (T := T.drop (d + key.length)) (by rw [List.length_drop]; omega)
      refine ⟨_, ?_, Counted.cons hkey hd hbefore hP⟩
      rw [Finset.card_insert_of_notMem, Finset.card_map, hcard]
      simp only [Finset.mem_map, addRightEmbedding_apply, not_exists, not_and]
      omega

/-- More blanks. -/
theorem Masks.trans {T' : List Char} {covered covered' : ℕ → Prop} (h : Masks text T covered)
    (h' : Masks T T' covered') : Masks text T' fun q => covered q ∨ covered' q where
  length := h'.length.trans h.length
  blank q hq := by
    by_cases hq' : covered' q
    · exact h'.blank q hq'
    · rw [h'.keep q hq']
      exact h.blank q (hq.resolve_right hq')
  keep q hq := by
    obtain ⟨hq, hq'⟩ := not_or.mp hq
    rw [h'.keep q hq', h.keep q hq]

theorem Masks.congr {covered covered' : ℕ → Prop} (h : Masks text T covered)
    (hiff : ∀ q, covered' q ↔ covered q) : Masks text T covered' := by
  rwa [show covered' = covered from funext fun q => propext (hiff q)]

theorem keyLength_eq {i : ℕ} {v : Variable} (h : vars[i]? = some v) :
    keyLength vars i = v.key.length := by
  rw [keyLength, h]
  rfl

/-- The occurrences of the variable with the index `k`. -/
def withIndex (k : ℕ) : ℕ ↪ Occurrence := ⟨fun p => (p, k), fun _ _ h => congrArg Prod.fst h⟩

/-- The state of the first pass after the variables with indices below `k`, with what it took. -/
structure CountedTo (vars : List Variable) (text : List Char) (k : ℕ) (s : List Char × ℤ)
    (S : Finset Occurrence) : Prop where
  mem : ∀ a, a ∈ S ↔
    a.2 < k ∧ Occurs vars text a ∧ ∀ b ∈ S, byList b a → ¬ Overlap vars b a
  masks : Masks text s.1 fun q => ∃ a ∈ S, a.1 ≤ q ∧ q < a.1 + keyLength vars a.2
  extra : s.2 = wrapInt (gain vars S)

theorem wrapInt_add (m n : ℤ) : wrapInt (wrapInt m + n) = wrapInt (m + n) := Int.bmod_add_bmod

/-- **One variable of the first pass.** -/
theorem CountedTo.step {k : ℕ} {s : List Char × ℤ} {S : Finset Occurrence} {v : Variable}
    (hnames : ∀ v ∈ vars, Named v.key) (h : CountedTo vars text k s S) (hv : vars[k]? = some v) :
    ∃ S', CountedTo vars text (k + 1) (countVariable s v) S' := by
  have hname := hnames v (List.mem_of_getElem? hv)
  have hpos := hname.length_pos
  obtain ⟨P, hcard, hP⟩ := exists_counted_key (T := s.1) hpos le_rfl
  have hlen := keyLength_eq hv
  -- what is found in the blanked text is free of what was taken before
  have hat : ∀ p, At s.1 v.key p ↔ At text v.key p ∧ ∀ b ∈ S, ¬ Overlap vars b (p, k) := by
    intro p
    rw [h.masks.at_iff hname.2]
    refine and_congr_right fun _ => ⟨fun hfree b hb hover => ?_, fun hfree q => ?_⟩
    · -- the first common position
      obtain ⟨u, hu, -⟩ := ((h.mem b).mp hb).2.1
      have hbpos : 0 < keyLength vars b.2 := by
        rw [keyLength_eq hu]
        exact (hnames u (List.mem_of_getElem? hu)).length_pos
      refine hfree (max b.1 p) ⟨b, hb, le_max_left _ _, ?_⟩ (le_max_right _ _) ?_
      · exact max_lt (by omega) hover.2
      · exact max_lt (hlen ▸ hover.1) (by omega)
    · rintro ⟨b, hb, hle, hlt⟩ hpq hqp
      refine hfree b hb ⟨?_, ?_⟩
      · rw [hlen]
        omega
      · show p < _
        omega
  have hbefore : ∀ b ∈ S, b.2 < k := fun b hb => ((h.mem b).mp hb).1
  have hmem : ∀ a, a ∈ S ∪ P.map (withIndex k) ↔ a ∈ S ∨ a.1 ∈ P ∧ a.2 = k := by
    intro a
    rw [Finset.mem_union, Finset.mem_map]
    refine or_congr_right ⟨?_, fun ha => ⟨a.1, ha.1, Prod.ext rfl ha.2.symm⟩⟩
    rintro ⟨p, hp, rfl⟩
    exact ⟨hp, rfl⟩
  refine ⟨S ∪ P.map (withIndex k), fun a => ?_, ?_, ?_⟩
  · rw [hmem]
    constructor
    · rintro (ha | ⟨hp, hk⟩)
      · obtain ⟨hlt, hocc, hfree⟩ := (h.mem a).mp ha
        refine ⟨by omega, hocc, fun b hb hba => ?_⟩
        rcases (hmem b).mp hb with hb | ⟨-, hb⟩
        · exact hfree b hb hba
        · rcases hba with hba | ⟨hba, -⟩ <;> omega
      · obtain ⟨hata, hfree⟩ := (hP.mem a.1).mp hp
        obtain ⟨hata, hover⟩ := (hat a.1).mp hata
        have ha : a = (a.1, k) := Prod.ext rfl hk
        refine ⟨by omega, ⟨v, hk ▸ hv, hata⟩, fun b hb hba => ?_⟩
        rcases (hmem b).mp hb with hb | ⟨hbp, hb⟩
        · exact ha ▸ hover b hb
        · intro hover
          have hlt : b.1 < a.1 := by
            rcases hba with hba | ⟨-, hba⟩
            · omega
            · exact hba
          have hle := hfree b.1 hbp hlt
          have := hover.2
          rw [hb, hlen] at this
          omega
    · rintro ⟨hlt, ⟨u, hu, hata⟩, hfree⟩
      rcases Nat.lt_or_ge a.2 k with hk | hk
      · exact .inl ((h.mem a).mpr ⟨hk, ⟨u, hu, hata⟩,
          fun b hb hba => hfree b ((hmem b).mpr (.inl hb)) hba⟩)
      · have hk : a.2 = k := by omega
        have ha : a = (a.1, k) := Prod.ext rfl hk
        obtain rfl : u = v := by
          rw [hk, hv] at hu
          exact (Option.some.inj hu).symm
        refine .inr ⟨(hP.mem a.1).mpr ⟨(hat a.1).mpr ⟨hata, fun b hb => ?_⟩, fun q hq hlt => ?_⟩, hk⟩
        · exact ha ▸ hfree b ((hmem b).mpr (.inl hb)) (.inl (hk ▸ hbefore b hb))
        · have hnot := hfree (q, k) ((hmem _).mpr (.inr ⟨hq, rfl⟩)) (.inr ⟨hk.symm, hlt⟩)
          by_contra hover
          refine hnot ⟨by show q < _; omega, ?_⟩
          rw [hlen]
          show a.1 < q + _
          omega
  · refine (h.masks.trans hP.masks).congr fun q => ?_
    constructor
    · rintro ⟨a, ha, hle, hlt⟩
      rcases (hmem a).mp ha with ha | ⟨hp, hk⟩
      · exact .inl ⟨a, ha, hle, hlt⟩
      · rw [hk, hlen] at hlt
        exact .inr ⟨a.1, hp, hle, hlt⟩
    · rintro (⟨a, ha, hle, hlt⟩ | ⟨p, hp, hle, hlt⟩)
      · exact ⟨a, (hmem a).mpr (.inl ha), hle, hlt⟩
      · exact ⟨(p, k), (hmem _).mpr (.inr ⟨hp, rfl⟩), hle, by rw [hlen]; exact hlt⟩
  · have hdisjoint : Disjoint S (P.map (withIndex k)) := by
      rw [Finset.disjoint_left]
      intro a ha hmap
      obtain ⟨p, -, rfl⟩ := Finset.mem_map.mp hmap
      exact absurd (hbefore _ ha) (lt_irrefl k)
    have hnew : gain vars (P.map (withIndex k)) = P.card * v.extra := by
      rw [gain, Finset.sum_map, Finset.sum_congr rfl fun p _ => by
        rw [show (withIndex k p).2 = k from rfl, hv, Option.map_some, Option.getD_some]]
      simp
    have hgain : gain vars (S ∪ P.map (withIndex k)) = gain vars S + P.card * v.extra := by
      rw [← hnew]
      exact Finset.sum_union hdisjoint
    show wrapInt (s.2 + (countKey v.key s.1.length s.1).2 * v.extra) = _
    rw [hgain, h.extra, wrapInt_add, hcard]

/-- **The first pass** chooses by the list of the variables. -/
theorem exists_counted (text : List Char) (hnames : ∀ v ∈ vars, Named v.key) :
    ∃ S, Choice.Chosen byList (Overlap vars) (Occurs vars text) S
      ∧ extraBytes vars text = wrapInt (gain vars S) := by
  have hrun : ∀ (l pre : List Variable) (s : List Char × ℤ) (S : Finset Occurrence),
      vars = pre ++ l → CountedTo vars text pre.length s S →
        ∃ S', CountedTo vars text vars.length (l.foldl countVariable s) S' := by
    intro l
    induction l with
    | nil =>
      intro pre s S hvars h
      exact ⟨S, by rw [hvars, List.append_nil] at h ⊢; exact h⟩
    | cons v l ih =>
      intro pre s S hvars h
      have hv : vars[pre.length]? = some v := by rw [hvars]; simp
      obtain ⟨S', h'⟩ := h.step hnames hv
      exact ih (pre ++ [v]) _ S' (by simp [hvars]) (by simpa using h')
  have hstart : CountedTo vars text 0 (text, 0) ∅ :=
    ⟨fun a => by simp, (Masks.refl text).congr fun q => by simp, rfl⟩
  obtain ⟨S, h⟩ := hrun vars [] (text, 0) ∅ rfl hstart
  refine ⟨S, fun a => ?_, h.extra⟩
  rw [h.mem a]
  constructor
  · exact fun ha => ha.2
  · rintro ⟨hocc, hfree⟩
    obtain ⟨v, hv, hat⟩ := hocc
    exact ⟨(List.getElem?_eq_some_iff.mp hv).1, ⟨v, hv, hat⟩, hfree⟩

/-! ### The second pass -/

/-- What the search for the nearest occurrence has found among the variables with indices below
`k`. -/
inductive NearestTo (vars : List Variable) (text : List Char) (size : ℤ) (k : ℕ) :
    ℤ × Option (ℕ × Variable) → Prop
  | nothing (h : ∀ a, a.2 < k → ¬ Occurs vars text a) : NearestTo vars text size k (size, none)
  | found (a : Occurrence) (v : Variable) (hk : a.2 < k) (hv : vars[a.2]? = some v)
      (hat : At text v.key a.1) (h : ∀ b, b.2 < k → Occurs vars text b → a = b ∨ byPosition a b) :
      NearestTo vars text size k (a.1, some (a.1, v))

theorem NearestTo.step {size : ℤ} (hsize : text.length ≤ size) {k : ℕ} {s : ℤ × Option (ℕ × Variable)}
    {v : Variable} (h : NearestTo vars text size k s) (hv : vars[k]? = some v)
    (hpos : 0 < v.key.length) : NearestTo vars text size (k + 1) (nearer text s v) := by
  have hlast : ∀ b : Occurrence, b.2 = k → Occurs vars text b → At text v.key b.1 := by
    rintro b hb ⟨u, hu, hat⟩
    rw [hb, hv] at hu
    exact Option.some.inj hu ▸ hat
  rw [nearer]
  cases hfind : strcasestr text v.key with
  | none =>
    have hnone : ∀ b : Occurrence, b.2 = k → ¬ Occurs vars text b := fun b hb hocc =>
      strcasestr_none hfind b.1 hpos (hlast b hb hocc)
    cases h with
    | nothing h =>
      refine .nothing fun a ha => ?_
      rcases Nat.lt_succ_iff_lt_or_eq.mp ha with ha | ha
      · exact h a ha
      · exact hnone a ha
    | found a u hk hu hat h =>
      refine .found a u (by omega) hu hat fun b hb hocc => ?_
      rcases Nat.lt_succ_iff_lt_or_eq.mp hb with hb | hb
      · exact h b hb hocc
      · exact absurd hocc (hnone b hb)
  | some d =>
    obtain ⟨hd, hbefore⟩ := strcasestr_some hfind
    -- the occurrences of this variable begin at `d`
    have hge : ∀ b : Occurrence, b.2 = k → Occurs vars text b → d ≤ b.1 := fun b hb hocc =>
      not_lt.mp fun hlt => hbefore b.1 hlt (hlast b hb hocc)
    dsimp only
    cases h with
    | nothing h =>
      have hle := hd.le_length hpos
      rw [if_pos (show (d : ℤ) < size by omega)]
      refine .found (d, k) v (Nat.lt_succ_self k) hv hd fun b hb hocc => ?_
      rcases Nat.lt_succ_iff_lt_or_eq.mp hb with hb | hb
      · exact absurd hocc (h b hb)
      · rcases (hge b hb hocc).eq_or_lt with heq | hlt
        · exact .inl (Prod.ext heq hb.symm)
        · exact .inr (.inl hlt)
    | found a u hk hu hat h =>
      by_cases hlt : (d : ℤ) < a.1
      · rw [if_pos hlt]
        refine .found (d, k) v (Nat.lt_succ_self k) hv hd fun b hb hocc => ?_
        rcases Nat.lt_succ_iff_lt_or_eq.mp hb with hb | hb
        · refine .inr (.inl ?_)
          rcases h b hb hocc with rfl | hab | ⟨hab, -⟩ <;> show d < _ <;> omega
        · rcases (hge b hb hocc).eq_or_lt with heq | hlt
          · exact .inl (Prod.ext heq hb.symm)
          · exact .inr (.inl hlt)
      · rw [if_neg hlt]
        refine .found a u (by omega) hu hat fun b hb hocc => ?_
        rcases Nat.lt_succ_iff_lt_or_eq.mp hb with hb | hb
        · exact h b hb hocc
        · have := hge b hb hocc
          rcases Nat.lt_or_ge a.1 b.1 with hab | hab
          · exact .inr (.inl hab)
          · exact .inr (.inr ⟨by omega, by omega⟩)

/-- **The nearest occurrence**, and of several the one that is first in the list. -/
theorem nearestTo {size : ℤ} (hsize : text.length ≤ size) (hnames : ∀ v ∈ vars, Named v.key) :
    NearestTo vars text size vars.length (vars.foldl (nearer text) (size, none)) := by
  have hrun : ∀ (l pre : List Variable) (s : ℤ × Option (ℕ × Variable)), vars = pre ++ l →
      NearestTo vars text size pre.length s →
        NearestTo vars text size vars.length (l.foldl (nearer text) s) := by
    intro l
    induction l with
    | nil =>
      intro pre s hvars h
      rwa [show vars.length = pre.length by rw [hvars, List.append_nil]]
    | cons v l ih =>
      intro pre s hvars h
      have hv : vars[pre.length]? = some v := by rw [hvars]; simp
      have hstep := h.step hsize hv (hnames v (by rw [hvars]; simp)).length_pos
      exact ih (pre ++ [v]) _ (by simp [hvars]) (by simpa using hstep)
  exact hrun vars [] _ rfl (.nothing fun a ha => absurd ha (Nat.not_lt_zero _))

theorem Occurs.lt_length {a : Occurrence} (h : Occurs vars text a) : a.2 < vars.length := by
  obtain ⟨v, hv, -⟩ := h
  exact (List.getElem?_eq_some_iff.mp hv).1

/-- The two outcomes of the search. -/
theorem nearest_cases {size : ℕ} (hsize : (text.length : ℤ) ≤ wrapInt size)
    (hnames : ∀ v ∈ vars, Named v.key) :
    (nearest vars size text = none ∧ ∀ a, ¬ Occurs vars text a)
      ∨ ∃ (a : Occurrence) (v : Variable), nearest vars size text = some (a.1, v)
        ∧ vars[a.2]? = some v ∧ At text v.key a.1
        ∧ ∀ b, Occurs vars text b → a = b ∨ byPosition a b := by
  have h := nearestTo hsize hnames
  rw [nearest]
  generalize vars.foldl (nearer text) (wrapInt size, none) = s at h
  cases h with
  | nothing h => exact .inl ⟨rfl, fun a hocc => h a hocc.lt_length hocc⟩
  | found a v _ hv hat h => exact .inr ⟨a, v, rfl, hv, hat, fun b hocc => h b hocc.lt_length hocc⟩

/-- Occurrences of the text behind position `m`. -/
def behind (m : ℕ) : Occurrence ↪ Occurrence :=
  ⟨fun a => (a.1 + m, a.2), fun a b h => by
    simp only [Prod.mk.injEq, Nat.add_right_cancel_iff] at h
    exact Prod.ext h.1 h.2⟩

@[simp] theorem behind_fst (m : ℕ) (a : Occurrence) : (behind m a).1 = a.1 + m := rfl

@[simp] theorem behind_snd (m : ℕ) (a : Occurrence) : (behind m a).2 = a.2 := rfl

/-- The nearest occurrence is taken, and what the choice behind it takes. -/
theorem chosen_cons {a : Occurrence} {v : Variable} {S : Finset Occurrence}
    (hv : vars[a.2]? = some v) (hat : At text v.key a.1) (hpos : 0 < v.key.length)
    (hfirst : ∀ b, Occurs vars text b → a = b ∨ byPosition a b)
    (hnames : ∀ v ∈ vars, Named v.key)
    (hS : Choice.Chosen byPosition (Overlap vars)
      (Occurs vars (text.drop (a.1 + v.key.length))) S) :
    Choice.Chosen byPosition (Overlap vars) (Occurs vars text)
      (insert a (S.map (behind (a.1 + v.key.length)))) := by
  have hlen := keyLength_eq hv
  set m := a.1 + v.key.length with hm
  have hocc : ∀ b : Occurrence, Occurs vars (text.drop m) b ↔ Occurs vars text (behind m b) := by
    intro b
    refine exists_congr fun u => and_congr_right fun _ => ?_
    rw [at_drop, Nat.add_comm]
    exact Iff.rfl
  have hover : ∀ b c : Occurrence, Overlap vars (behind m b) (behind m c) ↔ Overlap vars b c := by
    intro b c
    simp only [Overlap, behind_fst, behind_snd]
    omega
  have hmem : ∀ b, b ∈ insert a (S.map (behind m)) ↔ b = a ∨ ∃ c ∈ S, behind m c = b := by
    intro b
    rw [Finset.mem_insert, Finset.mem_map]
  intro b
  rw [hmem]
  constructor
  · rintro (rfl | ⟨c, hc, rfl⟩)
    · refine ⟨⟨v, hv, hat⟩, fun b hb hba => ?_⟩
      rcases (hmem b).mp hb with rfl | ⟨c, -, rfl⟩
      · simp [byPosition] at hba
      · simp only [byPosition, behind_fst, behind_snd] at hba
        omega
    · obtain ⟨hc', hfree⟩ := (hS c).mp hc
      refine ⟨(hocc c).mp hc', fun b hb hbc => ?_⟩
      rcases (hmem b).mp hb with rfl | ⟨e, he, rfl⟩
      · intro hover
        have hlt := hover.2
        simp only [hlen, behind_fst] at hlt
        omega
      · rw [hover]
        refine hfree e he ?_
        simp only [byPosition, behind_fst, behind_snd] at hbc ⊢
        omega
  · rintro ⟨hb, hfree⟩
    rcases hfirst b hb with rfl | hab
    · exact .inl rfl
    · -- the rest begins behind the nearest one
      have hnot := hfree a ((hmem a).mpr (.inl rfl)) hab
      obtain ⟨u, hu, hub⟩ := hb
      have hupos : 0 < keyLength vars b.2 := by
        rw [keyLength_eq hu]
        exact (hnames u (List.mem_of_getElem? hu)).length_pos
      have hge : m ≤ b.1 := by
        by_contra hlt
        refine hnot ⟨?_, by rw [hlen]; omega⟩
        rcases hab with hab | ⟨hab, -⟩ <;> omega
      have hb' : behind m (b.1 - m, b.2) = b := Prod.ext (Nat.sub_add_cancel hge) rfl
      have hocc' : Occurs vars text (behind m (b.1 - m, b.2)) := by
        rw [hb']
        exact ⟨u, hu, hub⟩
      refine .inr ⟨(b.1 - m, b.2), (hS _).mpr ⟨(hocc _).mpr hocc', fun c hc hcb => ?_⟩, hb'⟩
      rw [← hover, hb']
      refine hfree _ ((hmem _).mpr (.inr ⟨c, hc, rfl⟩)) ?_
      simp only [byPosition, behind_fst, behind_snd] at hcb ⊢
      omega

/-- **The second pass** chooses by position. -/
theorem exists_replaced {size : ℕ} (hnames : ∀ v ∈ vars, Named v.key)
    (hsize : (text.length : ℤ) ≤ wrapInt size) (hn : text.length < n) :
    ∃ S, Choice.Chosen byPosition (Overlap vars) (Occurs vars text) S
      ∧ ((replaceFrom vars size n text).length : ℤ) = text.length + gain vars S := by
  have hempty : (∀ a, ¬ Occurs vars text a) →
      Choice.Chosen byPosition (Overlap vars) (Occurs vars text) ∅ := fun h a => by simp [h a]
  induction n generalizing text with
  | zero => omega
  | succ n ih =>
    rw [replaceFrom]
    rcases nearest_cases hsize hnames with ⟨hnone, hall⟩ | ⟨a, v, hsome, hv, hat, hfirst⟩
    · refine ⟨∅, hempty hall, ?_⟩
      rw [hnone]
      split
      · next h => simp [h, gain]
      · simp [gain]
    · have hpos := (hnames v (List.mem_of_getElem? hv)).length_pos
      have hle := hat.le_length hpos
      have hne : text ≠ [] := by
        rintro rfl
        rw [List.length_nil] at hle
        omega
      have hdrop : (text.drop (a.1 + v.key.length)).length = text.length - (a.1 + v.key.length) :=
        List.length_drop
      obtain ⟨S, hS, hlen⟩ := @ih (text.drop (a.1 + v.key.length)) (by omega) (by omega)
        fun h b => by simp [h b]
      refine ⟨_, chosen_cons hv hat hpos hfirst hnames hS, ?_⟩
      have hgain : gain vars (insert a (S.map (behind (a.1 + v.key.length)))) =
          v.extra + gain vars S := by
        rw [gain, Finset.sum_insert, Finset.sum_map, hv]
        · rfl
        · rw [Finset.mem_map]
          rintro ⟨b, -, hb⟩
          have := congrArg Prod.fst hb
          rw [behind_fst] at this
          omega
      rw [if_neg hne, hsome, hgain]
      simp only [List.length_append, List.length_take, Variable.extra]
      rw [hdrop] at hlen
      omega

/-! ### The longest key from left to right -/

/-- The list of variables is sorted: longer keys come first. -/
def LongestFirst (vars : List Variable) : Prop :=
  vars.Pairwise fun u v => v.key.length ≤ u.key.length

theorem longest_eq_none {text : List Char} : longest vars text = none ↔ ∀ v ∈ vars, ¬ At text v.key 0 := by
  rw [longest, List.argmax_eq_none, List.filter_eq_nil_iff]
  exact Iff.rfl

/-- The first match in the sorted list is the longest. -/
theorem longest_eq_some {i : ℕ} {v : Variable} (hsorted : LongestFirst vars) (hv : vars[i]? = some v)
    (hat : At text v.key 0) (hfirst : ∀ b : Occurrence, b.1 = 0 → Occurs vars text b → i ≤ b.2) :
    longest vars text = some v := by
  obtain ⟨hi, hvi⟩ := List.getElem?_eq_some_iff.mp hv
  have hsplit : vars = vars.take i ++ v :: vars.drop (i + 1) := by
    rw [← hvi, List.getElem_cons_drop, List.take_append_drop]
  -- no earlier variable matches
  have hbefore : (vars.take i).filter (fun v => matchesHere v.key text) = [] := by
    rw [List.filter_eq_nil_iff]
    intro u hu hmatch
    obtain ⟨j, hj, hju⟩ := List.mem_iff_getElem.mp hu
    rw [List.length_take] at hj
    have hocc : Occurs vars text (0, j) := by
      refine ⟨u, ?_, hmatch⟩
      rw [List.getElem_take] at hju
      exact List.getElem?_eq_some_iff.mpr ⟨by omega, hju⟩
    have : i ≤ j := hfirst (0, j) rfl hocc
    omega
  have hlater : ∀ u ∈ vars.drop (i + 1), u.key.length ≤ v.key.length := by
    rw [LongestFirst, hsplit, List.pairwise_append, List.pairwise_cons] at hsorted
    exact hsorted.2.1.1
  rw [longest, hsplit, List.filter_append, hbefore, List.nil_append,
    List.filter_cons_of_pos (by exact hat), List.argmax_cons]
  cases hmax : List.argmax (fun v => v.key.length)
      ((vars.drop (i + 1)).filter fun v => matchesHere v.key text) with
  | none => rfl
  | some u =>
    have hu := List.mem_of_mem_filter (List.argmax_mem hmax)
    exact if_neg (not_lt.mpr (hlater u hu))

/-- Where no variable matches, the text is copied. -/
theorem longestFrom_copy {pre post : List Char} {n : ℕ}
    (h : ∀ p < pre.length, ∀ v ∈ vars, ¬ At (pre ++ post) v.key p) (hn : pre.length ≤ n) :
    longestFrom vars n (pre ++ post) = pre ++ longestFrom vars (n - pre.length) post := by
  induction pre generalizing n with
  | nil => simp
  | cons c pre ih =>
    obtain ⟨n, rfl⟩ : ∃ m, n = m + 1 := ⟨n - 1, by simp at hn; omega⟩
    have hnone : longest vars (c :: (pre ++ post)) = none :=
      longest_eq_none.mpr fun v hv => h 0 (by simp) v hv
    rw [List.cons_append, longestFrom, hnone]
    dsimp only
    rw [ih (fun p hp v hv => h (p + 1) (by simpa using hp) v hv) (by simpa using hn)]
    simp

/-- **The second pass replaces the longest key from left to right.** -/
theorem replaceFrom_eq {size m : ℕ} (hnames : ∀ v ∈ vars, Named v.key) (hsorted : LongestFirst vars)
    (hsize : (text.length : ℤ) ≤ wrapInt size) (hn : text.length < n) (hm : text.length < m) :
    replaceFrom vars size n text = longestFrom vars m text := by
  induction n generalizing text m with
  | zero => omega
  | succ n ih =>
    have hindex : ∀ (v) (_ : v ∈ vars) (p : ℕ), At text v.key p →
        ∃ i, vars[i]? = some v ∧ Occurs vars text (p, i) := by
      intro v hv p hat
      obtain ⟨i, hi, hvi⟩ := List.mem_iff_getElem.mp hv
      have hv' : vars[i]? = some v := List.getElem?_eq_some_iff.mpr ⟨hi, hvi⟩
      exact ⟨i, hv', v, hv', hat⟩
    rw [replaceFrom]
    rcases nearest_cases hsize hnames with ⟨hnone, hall⟩ | ⟨a, v, hsome, hv, hat, hfirst⟩
    · -- the rest is copied
      have hcopy := @longestFrom_copy vars text [] m
        (fun p _ v hv hat => by
          rw [List.append_nil] at hat
          obtain ⟨i, -, hocc⟩ := hindex v hv p hat
          exact hall _ hocc) hm.le
      have hnil : longestFrom vars (m - text.length) [] = [] := by
        cases m - text.length <;> rfl
      rw [List.append_nil, hnil, List.append_nil] at hcopy
      rw [hcopy, hnone]
      split
      · next h => exact h.symm
      · rfl
    · have hpos := (hnames v (List.mem_of_getElem? hv)).length_pos
      have hle := hat.le_length hpos
      have hne : text ≠ [] := by
        rintro rfl
        rw [List.length_nil] at hle
        omega
      have htake : (text.take a.1).length = a.1 := by rw [List.length_take]; omega
      -- up to the nearest occurrence the text is copied
      have hcopy := @longestFrom_copy vars (text.take a.1) (text.drop a.1) m
        (fun p hp u hu hatu => by
          rw [List.take_append_drop] at hatu
          obtain ⟨i, -, hocc⟩ := hindex u hu p hatu
          rcases hfirst _ hocc with rfl | hlt | ⟨heq, -⟩
          · exact absurd hp (by rw [htake]; exact lt_irrefl _)
          · rw [htake] at hp
            exact absurd hlt (by show ¬ a.1 < p; omega)
          · rw [htake] at hp
            exact absurd heq (by show ¬ a.1 = p; omega)) (by omega)
      rw [List.take_append_drop, htake] at hcopy
      -- and there the longest key is the nearest variable
      have hlongest : longest vars (text.drop a.1) = some v := by
        refine longest_eq_some hsorted hv (by rw [at_drop]; exact hat) fun b hb hocc => ?_
        obtain ⟨u, hu, hatu⟩ := hocc
        rw [at_drop, hb, Nat.add_zero] at hatu
        rcases hfirst (a.1, b.2) ⟨u, hu, hatu⟩ with heq | hlt | ⟨-, hlt⟩
        · exact (congrArg Prod.snd heq).le
        · exact absurd hlt (lt_irrefl a.1)
        · exact hlt.le
      have hcons : ∃ c rest, text.drop a.1 = c :: rest := by
        refine List.exists_cons_of_ne_nil fun h => ?_
        have := congrArg List.length h
        rw [List.length_drop, List.length_nil] at this
        omega
      obtain ⟨c, rest, hcons⟩ := hcons
      obtain ⟨k, hk⟩ : ∃ k, m - a.1 = k + 1 := ⟨m - a.1 - 1, by omega⟩
      have hdrop : (text.drop (a.1 + v.key.length)).length = text.length - (a.1 + v.key.length) :=
        List.length_drop
      rw [hcopy, if_neg hne, hsome, hk, hcons, longestFrom, ← hcons, hlongest]
      dsimp only
      rw [List.append_assoc, List.drop_drop, ih (m := k) (by omega) (by omega) (by omega)]

/-! ### The list of variables -/

theorem updateVariable_keys {value : List Char} {vars' : List Variable}
    (h : updateVariable key value vars = some vars') :
    vars'.map Variable.key = vars.map Variable.key := by
  induction vars generalizing vars' with
  | nil => cases h
  | cons v vars ih =>
    rw [updateVariable] at h
    split at h
    · cases h
      rfl
    · obtain ⟨rest, hrest, rfl⟩ := Option.map_eq_some_iff.mp h
      simp [ih hrest]

theorem LongestFirst.of_keys {vars' : List Variable} (h : LongestFirst vars)
    (hkeys : vars'.map Variable.key = vars.map Variable.key) : LongestFirst vars' := by
  have hmap : ∀ l : List Variable, LongestFirst l ↔
      (l.map Variable.key).Pairwise fun a b => b.length ≤ a.length := fun l => by
    rw [LongestFirst, List.pairwise_map]
  rw [hmap, hkeys, ← hmap]
  exact h

/-- A new variable is inserted where it belongs. -/
theorem LongestFirst.insertVariable {new : Variable} (h : LongestFirst vars) :
    LongestFirst (insertVariable new vars) := by
  rw [LongestFirst, Parser.insertVariable, List.pairwise_append, List.pairwise_cons]
  set longer := fun test : Variable => decide (new.key.length < test.key.length)
  have hpair : (vars.takeWhile longer ++ vars.dropWhile longer).Pairwise
      fun u v : Variable => v.key.length ≤ u.key.length := by
    rw [List.takeWhile_append_dropWhile]
    exact h
  obtain ⟨htake, hdrop, hcross⟩ := List.pairwise_append.mp hpair
  have hnew : ∀ v ∈ vars.takeWhile longer, new.key.length < v.key.length := fun v hv => by
    simpa [longer] using List.mem_takeWhile_imp hv
  refine ⟨htake, ⟨fun v hv => ?_, hdrop⟩, fun u hu v hv => ?_⟩
  · -- the first one behind is not longer, and the others are no longer than it
    cases hrest : vars.dropWhile longer with
    | nil => simp [hrest] at hv
    | cons w rest =>
      have hw : ¬ new.key.length < w.key.length := by
        have := List.head?_dropWhile_not longer vars
        rw [hrest] at this
        simpa [longer] using this
      rw [hrest] at hv hdrop
      rcases List.mem_cons.mp hv with rfl | hv
      · omega
      · have := (List.pairwise_cons.mp hdrop).1 v hv
        omega
  · rcases List.mem_cons.mp hv with rfl | hv
    · exact (hnew u hu).le
    · exact hcross u hu v hv

theorem LongestFirst.upsertVariable (h : LongestFirst vars) (key value : List Char) :
    LongestFirst (upsertVariable vars key value) := by
  unfold Parser.upsertVariable
  split
  · next hupdate => exact h.of_keys (updateVariable_keys hupdate)
  · exact h.insertVariable

theorem named_upsertVariable (h : ∀ v ∈ vars, Named v.key) (hkey : Named key) (value : List Char) :
    ∀ v ∈ upsertVariable vars key value, Named v.key := by
  intro v hv
  unfold upsertVariable at hv
  split at hv
  · next vars' hupdate =>
    have hmem : v.key ∈ vars.map Variable.key :=
      updateVariable_keys hupdate ▸ List.mem_map_of_mem hv
    obtain ⟨u, hu, huv⟩ := List.mem_map.mp hmem
    exact huv ▸ h u hu
  · rcases List.mem_append.mp hv with hv | hv
    · exact h v ((List.takeWhile_sublist _).subset hv)
    · rcases List.mem_cons.mp hv with rfl | hv
      · exact hkey
      · exact h v ((List.dropWhile_sublist _).subset hv)

/-- What assignments keep: the list is sorted, and its keys are those of assignments. -/
theorem variablesOf_spec {sets : List (List Char × List Char)} (h : ∀ set ∈ sets, Named set.1) :
    LongestFirst (variablesOf sets) ∧ ∀ v ∈ variablesOf sets, Named v.key := by
  have hrun : ∀ (l : List (List Char × List Char)) (vars : List Variable),
      (∀ set ∈ l, Named set.1) → LongestFirst vars → (∀ v ∈ vars, Named v.key) →
        LongestFirst (l.foldl (fun vars set => upsertVariable vars set.1 set.2) vars)
          ∧ ∀ v ∈ l.foldl (fun vars set => upsertVariable vars set.1 set.2) vars, Named v.key := by
    intro l
    induction l with
    | nil => exact fun vars _ hsorted hnames => ⟨hsorted, hnames⟩
    | cons set l ih =>
      intro vars hl hsorted hnames
      exact ih _ (fun s hs => hl s (List.mem_cons_of_mem set hs)) (hsorted.upsertVariable _ _)
        (named_upsertVariable hnames (hl set List.mem_cons_self) _)
  exact hrun sets [] h .nil (by simp)

/-! ### When the passes agree -/

/-- The second pass writes as many bytes as the first one counted, and the text that replacing the
longest key from left to right gives. -/
structure Substitutes (vars : List Variable) (buf : List Char) : Prop where
  length : ((replaceVariables vars buf).length : ℤ) = buf.length + extraBytes vars buf
  text : replaceVariables vars buf = leftmostLongest vars buf

/-- The occurrences taken in the two orders lengthen the text by the same, as an `int`. -/
def GainsAgree (vars : List Variable) (buf : List Char) : Prop :=
  ∀ S S', Choice.Chosen byPosition (Overlap vars) (Occurs vars buf) S →
    Choice.Chosen byList (Overlap vars) (Occurs vars buf) S' → gain vars S = wrapInt (gain vars S')

/-- Each occurrence that replacing from left to right passes over overlaps one that it takes and that
comes first in the list of the variables, or further left for the same variable. -/
def Settled (vars : List Variable) (buf : List Char) : Prop :=
  ∀ S, Choice.Chosen byPosition (Overlap vars) (Occurs vars buf) S →
    ∀ a, Occurs vars buf a → a ∉ S → ∃ b ∈ S, byList b a ∧ Overlap vars b a

/-- What is taken fits an `int`. -/
def GainFits (vars : List Variable) (buf : List Char) : Prop :=
  ∀ S, Choice.Chosen byPosition (Overlap vars) (Occurs vars buf) S →
    wrapInt (gain vars S) = gain vars S

/-- **When variable substitution fits its buffer**: for a file below 2 GiB, exactly if the
occurrences taken in the two orders lengthen the text by the same. Where what the second pass passes
over is settled, that means that the extra bytes fit an `int`. -/
theorem substitutes_iff (sets : List (List Char × List Char)) (hsets : ∀ set ∈ sets, Named set.1)
    (buf : List Char) (hsize : buf.length < 2 ^ 31) :
    (Substitutes (variablesOf sets) buf ↔ GainsAgree (variablesOf sets) buf)
      ∧ (Settled (variablesOf sets) buf →
        (Substitutes (variablesOf sets) buf ↔ GainFits (variablesOf sets) buf)) := by
  obtain ⟨hsorted, hnames⟩ := variablesOf_spec hsets
  generalize variablesOf sets = vars at hsorted hnames
  have hwrap : (buf.length : ℤ) ≤ wrapInt buf.length := by
    rw [wrapInt, Int.bmod_eq_of_le] <;> omega
  obtain ⟨S, hS, hlen⟩ := exists_replaced hnames hwrap (Nat.lt_succ_self buf.length)
  obtain ⟨S', hS', hextra⟩ := exists_counted buf hnames
  have htext : replaceVariables vars buf = leftmostLongest vars buf :=
    replaceFrom_eq hnames hsorted hwrap (Nat.lt_succ_self _) (Nat.lt_succ_self _)
  have huniqueS : ∀ {T}, Choice.Chosen byPosition (Overlap vars) (Occurs vars buf) T → T = S :=
    fun hT => hT.unique wellFounded_byPosition hS
  have huniqueS' : ∀ {T}, Choice.Chosen byList (Overlap vars) (Occurs vars buf) T → T = S' :=
    fun hT => hT.unique wellFounded_byList hS'
  have hlength : Substitutes vars buf ↔ gain vars S = wrapInt (gain vars S') := by
    have hlen' : ((replaceVariables vars buf).length : ℤ) = buf.length + gain vars S := hlen
    constructor
    · intro h
      have := h.length
      rw [hlen', hextra] at this
      omega
    · intro h
      exact ⟨by rw [hlen', hextra, h], htext⟩
  refine ⟨?_, fun hsettled => ?_⟩
  · rw [hlength]
    constructor
    · intro h T T' hT hT'
      rwa [huniqueS hT, huniqueS' hT']
    · exact fun h => h S S' hS hS'
  · -- the two choices are the same
    have hsame : S = S' := huniqueS' ((hS.chosen_iff byPosition_total byList_irrefl
      fun _ _ => Overlap.symm).mpr (hsettled S hS))
    rw [hlength, ← hsame]
    constructor
    · intro h T hT
      rw [huniqueS hT]
      exact h.symm
    · exact fun h => (h S hS).symm

/-- One key is the prefix of the other, and they occur beside each other. -/
theorem gainsAgree_prefix :
    GainsAgree (variablesOf [("$a".toList, "one".toList), ("$ab".toList, "".toList)])
      "x $a$ab$A y".toList := by
  refine (substitutes_iff _ ?_ _ (by decide +kernel)).1.mp
    ⟨by decide +kernel, by decide +kernel⟩
  unfold Named
  decide +kernel

/-- Two keys that overlap: the first pass counts the longer one, which the second pass does not
reach, and the second pass writes ten bytes more than were counted. -/
theorem not_substitutes_overlap :
    ¬ ∀ sets : List (List Char × List Char), (∀ set ∈ sets, Named set.1) →
      ∀ buf, Substitutes (variablesOf sets) buf := by
  intro h
  have hlength := (h [("$a$b".toList, "123456789".toList), ("$b$ccc".toList, "x".toList)]
    (by unfold Named; decide +kernel)
    "set $a$b 123456789\nset $b$ccc x\nfont $a$b$ccc\n".toList).length
  revert hlength
  decide +kernel

end I3.Parser
