import I3Aiwr.Tree.Unfold

/-!
# Flattening the tree around a container

`tree_flatten` is called on the root. On its way down it comes to a scrolling container, which is the
only tiling child of its workspace: what it does before and after that leaves alone whatever depends on
the container and what is below it.

## Main definitions

* `Tree.Strip q ws t`: the scrolling container `q` on the workspace `ws`
* `Tree.Near q k c`: at most `k` steps lead from `c` down to `q`

## Main results

* `Tree.Strip.treeFlattenN`: the strip stays
* `Tree.strip_treeFlatten`: flattening the tree, by what it does to the strip itself
-/

namespace I3

namespace Tree

variable {cfg : Config} {t t' t'' : Tree} {a b c d p q x y ws : ConId}

/-- What stands above a workspace: the root, the outputs and their contents. -/
def Upper (t : Tree) (a : ConId) : Prop :=
  (t.con a).type = .root ∨ (t.con a).type = .output ∨ (t.con a).type = .workspace
    ∨ (t.con a).type = .con ∧ ∃ o, (t.con a).parent = some o ∧ (t.con o).layout = .output

/-- The scrolling container `q` is the only tiling child of the workspace `ws`. -/
structure Strip (q ws : ConId) (t : Tree) : Prop where
  healthy : Healthy t
  reach : t.Reach q
  type : (t.con q).type = .con
  layout : (t.con q).layout = .scrolling
  only : (t.con ws).nodesHead = [q]
  above : ∀ a, Descent.Below t.children a q → t.Upper a

theorem Upper.not_floating (h : t.Upper a) : (t.con a).type ≠ .floatingCon := by
  intro heq
  rcases h with h | h | h | h
  all_goals simp [heq] at h

theorem Upper.redundant (h : t.Upper a) : t.redundant a = none := by
  unfold Tree.redundant
  split
  · next o d ho hd =>
    refine if_neg fun hif => ?_
    rcases h with h | h | h | ⟨-, o', ho', hlayout⟩
    · exact absurd (h.symm.trans hif.1) nofun
    · exact absurd (h.symm.trans hif.1) nofun
    · exact absurd (h.symm.trans hif.1) nofun
    · rw [ho] at ho'
      cases ho'
      exact hif.2.1 hlayout
  · rfl

/-- A scrolling container is not taken for a redundant one. -/
theorem redundant_scrolling (h : (t.con q).layout = .scrolling) : t.redundant q = none := by
  unfold Tree.redundant
  split
  · refine if_neg fun hif => ?_
    rcases hif.2.2.2.2.2.1 with hl | hl
    · exact absurd (h.symm.trans hl) nofun
    · exact absurd (h.symm.trans hl) nofun
  · rfl

namespace Strip

variable (h : Strip q ws t)
include h

theorem mem : q ∈ t.children ws := List.mem_append_left _ (by simp [h.only])

/-- Floating containers are not above it. -/
theorem not_within_floating (hy : y ∈ (t.con c).floatingHead) : ¬ Descent.Within t.children y q := by
  have htype := h.healthy.rooted.typeFloating c y hy
  intro hyq
  rcases Descent.within_iff.mp hyq with rfl | hbelow
  · exact absurd (h.type.symm.trans htype) nofun
  · exact (h.above y hbelow).not_floating htype

/-- **Flattening elsewhere**, or in the strip, leaves the strip. -/
theorem treeFlattenN (n : ℕ) (hy : t.Reach y) (hyq : ¬ Descent.Within t.children y q) (hyc : y ∈ t.children c) :
    Strip q ws (treeFlattenN cfg n t y) := by
  have ht := h.healthy.rooted
  obtain ⟨hinside, haround⟩ := @treeFlattenN_spec cfg t y n h.healthy hy
  have har := haround c hyc
  generalize Tree.treeFlattenN cfg n t y = t' at hinside har
  have hnot : ∀ z, Descent.Within t.children z q → ¬ Descent.Within t.children y z :=
    fun z hz hyz => hyq (hyz.trans hz)
  have hws : Descent.Within t.children ws q := (Descent.Below.single h.mem).within
  refine ⟨har.flattens.calm.healthy, har.flattens.reach h.reach hyq, by rw [har.alters.type, h.type],
    by rw [har.alters.layout, h.layout], ?_, fun a ha => ?_⟩
  · rw [← h.only]
    by_cases hwc : ws = c
    · -- what is beside the strip on the workspace floats
      subst hwc
      have hfloating : y ∈ (t.con ws).floatingHead := by
        refine (List.mem_append.mp hyc).resolve_left fun hnodes => hyq ?_
        rw [h.only, List.mem_singleton] at hnodes
        exact hnodes ▸ .refl _
      have hnone : t.redundant y = none := by
        cases hred : t.redundant y with
        | none => rfl
        | some r =>
          have htype := (ht.redundant_spec (d := r.2) hy hred).2.1
          rw [ht.typeFloating ws y hfloating] at htype
          cases htype
      exact (hinside hnone).alters.nodesHead ws (hnot ws hws)
    · exact har.alters.nodesHead ws fun hN => hN.elim hwc (hnot ws hws)
  · have ht' := har.flattens.calm.healthy.rooted
    have hlt : a < t.nextCon := har.nextCon ▸ ht'.lt_nextCon
      (ht'.reach_of_within (har.flattens.reach h.reach hyq) ha.within)
    have haq := har.flattens.calm.below_of_nextCon har.nextCon hlt ha
    have hupper := h.above a haq
    rw [Upper, har.alters.type, har.alters.parent a (hnot a haq.within)]
    simp only [har.alters.layout]
    exact hupper

end Strip

/-! ### The way down -/

/-- At most `k` steps lead from `c` down to `q`. -/
def Near (t : Tree) (q : ConId) : ℕ → ConId → Prop
  | 0, c => c = q
  | k + 1, c => c = q ∨ ∃ b ∈ t.children c, t.Near q k b

theorem Near.within {k : ℕ} (h : t.Near q k c) : Descent.Within t.children c q := by
  induction k generalizing c with
  | zero => exact h ▸ .refl c
  | succ k ih =>
    rcases h with rfl | ⟨b, hb, h⟩
    · exact .refl c
    · exact ((Descent.Below.single hb).trans_within (ih h)).within

/-- A way down stays while something is flattened that it does not lead through. -/
theorem Flattens.within (hflat : Flattens t t' y) (hyq : ¬ Descent.Within t.children y q)
    (h : Descent.Within t.children c q) : Descent.Within t'.children c q := by
  refine Relation.ReflTransGen.head_induction_on h (.refl _) fun {u v} hv hvq ih => ?_
  exact (Descent.Below.single (hflat.kept u v hv fun hyv => hyq (hyv.trans hvq))).within.trans ih

theorem Near.keep {k : ℕ} (h : t.Near q k c) (hflat : Flattens t t' y) (hyq : ¬ Descent.Within t.children y q) :
    t'.Near q k c := by
  induction k generalizing c with
  | zero => exact h
  | succ k ih =>
    rcases h with rfl | ⟨b, hb, h⟩
    · exact .inl rfl
    · exact .inr ⟨b, hflat.kept c b hb fun hyb => hyq (hyb.trans h.within), ih h⟩

/-- **A container with a child is near enough** for the recursion to go beyond it. -/
theorem Rooted.near (ht : Rooted t) (hq : t.Reach q) (hd : d ∈ t.children q) :
    ∃ k, k + 1 < t.nextCon ∧ t.Near q k t.croot := by
  obtain ⟨l, hl, hlast⟩ := List.exists_isChain_cons_of_relationReflTransGen hq
  have hchain : (t.croot :: l ++ [d]).IsChain fun p x => x ∈ t.children p := by
    refine List.isChain_append.mpr ⟨hl, List.isChain_singleton d, fun x hx y hy => ?_⟩
    rw [List.getLast?_eq_getLast_of_ne_nil (List.cons_ne_nil _ _), hlast] at hx
    obtain rfl := Option.some_inj.mp hx
    obtain rfl := Option.some_inj.mp hy
    exact hd
  have hmem : ∀ x ∈ t.croot :: l ++ [d], x < t.nextCon := by
    intro x hx
    rcases List.mem_append.mp hx with hx | hx
    · rcases List.mem_cons.mp hx with rfl | hx
      · exact ht.boundedRoot
      · exact ht.lt_nextCon (reach_of_isChain (.refl _) hl hx)
    · exact List.mem_singleton.mp hx ▸ ht.bounded q d hd
  have hlen := Descent.path_length_le ht.acyclic hchain hmem
  rw [List.length_append, List.length_cons, List.length_singleton] at hlen
  refine ⟨l.length, Nat.lt_of_succ_le hlen, ?_⟩
  clear hmem hlen hq hchain
  generalize t.croot = c at hl hlast
  induction l generalizing c with
  | nil => exact hlast
  | cons b l ih =>
    obtain ⟨hb, hl⟩ := List.isChain_cons_cons.mp hl
    exact .inr ⟨b, hb, ih b hl (by simpa using hlast)⟩

section WayDown

variable {I Before After : Tree → Prop}

/-- **The children of a container** that do not lead to the strip, one after another. -/
theorem strip_foldl {n : ℕ} (hI : ∀ {t y}, Strip q ws t → I t → t.Reach c → y ∈ t.children c →
      ¬ Descent.Within t.children y q → I (Tree.treeFlattenN cfg n t y))
    {l : List ConId} (h : Strip q ws t) (hi : I t) (hc : t.Reach c) (hl : l ⊆ t.children c) (hnodup : l.Nodup)
    (hnot : ∀ y ∈ l, ¬ Descent.Within t.children y q) :
    Strip q ws (l.foldl (Tree.treeFlattenN cfg n) t) ∧ I (l.foldl (Tree.treeFlattenN cfg n) t)
      ∧ (l.foldl (Tree.treeFlattenN cfg n) t).Reach c := by
  induction l generalizing t with
  | nil => exact ⟨h, hi, hc⟩
  | cons y l ih =>
    have ht := h.healthy.rooted
    obtain ⟨hyl, hnodup⟩ := List.nodup_cons.mp hnodup
    have hy : y ∈ t.children c := hl List.mem_cons_self
    have hyreach := (hc.tail hy).within
    have hyq := hnot y List.mem_cons_self
    have haround := (@treeFlattenN_spec cfg t y n h.healthy hyreach).2 c hy
    have hflat := haround.flattens
    have hlc : ∀ z ∈ l, z ∈ t.children c := fun z hz => hl (List.mem_cons_of_mem y hz)
    refine ih (h.treeFlattenN n hyreach hyq hy) (hI h hi hc hy hyq)
      (hflat.reach hc (ht.acyclic.not_within (.single hy))) (fun z hz => ?_) hnodup fun z hz hzq => ?_
    · refine hflat.kept c z (hlc z hz) (ht.acyclic.separate ht.parent (hlc z hz) hy ?_ (.refl _))
      rintro rfl
      exact hyl hz
    · exact hnot z (List.mem_cons_of_mem y hz)
        (hflat.calm.within_of_nextCon haround.nextCon (ht.bounded c z (hlc z hz)) hzq)

/-- **Flattening a container that is not redundant**, by what flattening its children does. -/
theorem strip_children {n : ℕ} (hI : ∀ {t y}, Strip q ws t → I t → t.Reach c → y ∈ t.children c →
      ¬ Descent.Within t.children y q → I (Tree.treeFlattenN cfg n t y))
    (h : Strip q ws t) (hi : I t) (hc : t.Reach c) (hred : t.redundant c = none)
    (hnot : ∀ y ∈ (t.con c).nodesHead, ¬ Descent.Within t.children y q) :
    Strip q ws (Tree.treeFlattenN cfg (n + 1) t c) ∧ I (Tree.treeFlattenN cfg (n + 1) t c) := by
  obtain ⟨hnodes, hin, hreach⟩ := strip_foldl hI h hi hc (List.subset_append_left _ _)
    (h.healthy.rooted.nodupNodes c) hnot
  obtain ⟨hfloating, hin', -⟩ := strip_foldl hI hnodes hin hreach (List.subset_append_right _ _)
    (hnodes.healthy.rooted.nodupFloating c) fun y hy => hnodes.not_within_floating hy
  unfold Tree.treeFlattenN
  rw [hred]
  exact ⟨hfloating, hin'⟩

/-- The property is kept when something is flattened that is neither above nor below the strip. -/
def KeptElsewhere (cfg : Config) (q ws : ConId) (I : Tree → Prop) : Prop :=
  ∀ {t y n}, Strip q ws t → I t → t.Reach y → ¬ Descent.Within t.children y q →
    ¬ Descent.Within t.children q y → I (Tree.treeFlattenN cfg n t y)

/-- What is beside the way down is not below the strip. -/
theorem KeptElsewhere.beside (hI : KeptElsewhere cfg q ws I) {n : ℕ} (h : Strip q ws t)
    (hi : I t ∧ ¬ Descent.Within t.children q c) (hc : t.Reach c) (hy : y ∈ t.children c)
    (hyq : ¬ Descent.Within t.children y q) :
    I (Tree.treeFlattenN cfg n t y) ∧ ¬ Descent.Within (Tree.treeFlattenN cfg n t y).children q c := by
  have ht := h.healthy.rooted
  have hyreach := (hc.tail hy).within
  have haround := (@treeFlattenN_spec cfg t y n h.healthy hyreach).2 c hy
  refine ⟨hI h hi.1 hyreach hyq fun hqy => ?_, fun hqc => hi.2 ?_⟩
  · rcases Descent.within_iff.mp hqy with rfl | hbelow
    · exact hyq (.refl y)
    · exact hi.2 (Descent.within_parent ht.parent hbelow (ht.parent c y hy))
  · exact haround.flattens.calm.within_of_nextCon haround.nextCon (ht.lt_nextCon h.reach) hqc

/-- What becomes of the strip itself, when the recursion goes at least one level further. -/
def Arrives (cfg : Config) (q ws : ConId) (Before After : Tree → Prop) : Prop :=
  ∀ {t n}, Strip q ws t → Before t → After (Tree.treeFlattenN cfg (n + 2) t q)

section Arrive

variable (hb : KeptElsewhere cfg q ws Before) (ha : KeptElsewhere cfg q ws After)
include hb ha

/-- **The children of a container above the strip**, of which `b` leads to it. -/
theorem strip_foldl_to {k n : ℕ}
    (ih : ∀ {t}, Strip q ws t → Before t → t.Reach b → t.Near q k b →
      Strip q ws (Tree.treeFlattenN cfg n t b) ∧ After (Tree.treeFlattenN cfg n t b))
    {l : List ConId} (h : Strip q ws t) (hi : Before t) (hc : t.Reach c) (hl : l ⊆ t.children c)
    (hnodup : l.Nodup) (hbl : b ∈ l) (hqc : ¬ Descent.Within t.children q c) (hnear : t.Near q k b) :
    Strip q ws (l.foldl (Tree.treeFlattenN cfg n) t)
      ∧ (After (l.foldl (Tree.treeFlattenN cfg n) t)
        ∧ ¬ Descent.Within (l.foldl (Tree.treeFlattenN cfg n) t).children q c)
      ∧ (l.foldl (Tree.treeFlattenN cfg n) t).Reach c := by
  induction l generalizing t with
  | nil => cases hbl
  | cons y l ihl =>
    have ht := h.healthy.rooted
    obtain ⟨hyl, hnodup⟩ := List.nodup_cons.mp hnodup
    have hy : y ∈ t.children c := hl List.mem_cons_self
    have hyreach := (hc.tail hy).within
    have hlc : ∀ z ∈ l, z ∈ t.children c := fun z hz => hl (List.mem_cons_of_mem y hz)
    have haround := (@treeFlattenN_spec cfg t y n h.healthy hyreach).2 c hy
    have hflat := haround.flattens
    have hc' := hflat.reach hc (ht.acyclic.not_within (.single hy))
    have hqlt := ht.lt_nextCon h.reach
    have hl' : l ⊆ (Tree.treeFlattenN cfg n t y).children c := fun z hz =>
      hflat.kept c z (hlc z hz) (ht.acyclic.separate ht.parent (hlc z hz) hy (fun heq => hyl (heq ▸ hz)) (.refl _))
    have hqc' : ¬ Descent.Within (Tree.treeFlattenN cfg n t y).children q c := fun hw =>
      hqc (hflat.calm.within_of_nextCon haround.nextCon hqlt hw)
    -- no other child leads to the strip
    have hother : ∀ z ∈ t.children c, z ≠ b → ¬ Descent.Within t.children z q := fun z hz hne hzq =>
      hne (ht.acyclic.eq_of_within ht.parent hz (hl hbl) hzq hnear.within)
    rw [List.foldl_cons]
    by_cases hyb : y = b
    · subst hyb
      obtain ⟨hstrip, hafter⟩ := ih h hi hyreach hnear
      refine strip_foldl (fun h hi hc hy hyq => ha.beside h hi hc hy hyq) hstrip ⟨hafter, hqc'⟩ hc' hl' hnodup
        fun z hz hzq => ?_
      exact hother z (hlc z hz) (fun heq => hyl (heq ▸ hz))
        (hflat.calm.within_of_nextCon haround.nextCon (ht.bounded c z (hlc z hz)) hzq)
    · have hyq := hother y hy hyb
      exact ihl (h.treeFlattenN n hyreach hyq hy) (hb.beside h ⟨hi, hqc⟩ hc hy hyq).1 hc' hl' hnodup
        ((List.mem_cons.mp hbl).resolve_left (Ne.symm hyb)) hqc' (hnear.keep hflat hyq)

/-- **Down to the strip.** -/
theorem strip_treeFlattenN (hv : Arrives cfg q ws Before After) {k n : ℕ} (hk : k + 1 < n) (h : Strip q ws t)
    (hi : Before t) (hc : t.Reach c) (hnear : t.Near q k c) :
    Strip q ws (Tree.treeFlattenN cfg n t c) ∧ After (Tree.treeFlattenN cfg n t c) := by
  have hvisit : ∀ {n t}, 1 < n → Strip q ws t → Before t →
      Strip q ws (Tree.treeFlattenN cfg n t q) ∧ After (Tree.treeFlattenN cfg n t q) := by
    intro n t hn h hi
    obtain ⟨m, rfl⟩ : ∃ m, n = m + 2 := ⟨n - 2, by omega⟩
    refine ⟨(strip_children (I := fun _ => True) (fun _ _ _ _ _ => trivial) h trivial h.reach
      (redundant_scrolling h.layout) fun y hy => ?_).1, hv h hi⟩
    exact h.healthy.rooted.acyclic.not_within (.single (List.mem_append_left _ hy))
  induction k generalizing n t c with
  | zero =>
    obtain rfl : c = q := hnear
    exact hvisit hk h hi
  | succ k ih =>
    rcases hnear with rfl | ⟨b, hbc, hnear⟩
    · exact hvisit (by omega) h hi
    · have ht := h.healthy.rooted
      obtain ⟨m, rfl⟩ : ∃ m, n = m + 1 := ⟨n - 1, by omega⟩
      have hcq : Descent.Below t.children c q := (Descent.Below.single hbc).trans_within hnear.within
      have hqc := ht.acyclic.not_within hcq
      have hnodesb : b ∈ (t.con c).nodesHead :=
        (List.mem_append.mp hbc).resolve_right fun hf => h.not_within_floating hf hnear.within
      obtain ⟨hstrip, hafter, hreach⟩ := strip_foldl_to hb ha (fun h hi hreach hnear => ih (n := m) (by omega) h hi hreach hnear)
        h hi hc (List.subset_append_left _ _) (ht.nodupNodes c) hnodesb hqc hnear
      obtain ⟨hstrip', hafter', -⟩ := strip_foldl (fun h hi hc hy hyq => ha.beside h hi hc hy hyq) hstrip hafter
        hreach (List.subset_append_right _ _) (hstrip.healthy.rooted.nodupFloating c)
        fun y hy => hstrip.not_within_floating hy
      unfold Tree.treeFlattenN
      rw [(h.above c hcq).redundant]
      exact ⟨hstrip', hafter'.1⟩

/-- **Flattening the tree** does to the strip what the recursion does when it arrives there. -/
theorem strip_treeFlatten (hv : Arrives cfg q ws Before After) (h : Strip q ws t) (hi : Before t)
    (hd : d ∈ t.children q) :
    Strip q ws (t.treeFlatten cfg t.croot) ∧ After (t.treeFlatten cfg t.croot) := by
  obtain ⟨k, hk, hnear⟩ := h.healthy.rooted.near h.reach hd
  exact strip_treeFlattenN hb ha hv hk h hi (.refl _) hnear

end Arrive

end WayDown

end Tree

end I3
