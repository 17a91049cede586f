import I3Aiwr.Tree.WayDown

/-!
# What flattening leaves of a strip

Each column of a scrolling container stays or is replaced by the children of its only child. Where none
is replaced, the columns keep their order, their focus order and their widths.

## Main definitions

* `Tree.Undisturbed q t t'`: the columns of `q`, their focus order and their percentages are the same

## Main results

* `Tree.nodesHead_treeFlatten`: the columns after flattening the tree
* `Tree.undisturbed_treeFlatten`: where no column is redundant
-/

namespace I3

namespace Tree

variable {cfg : Config} {t t' t'' : Tree} {c d e p q x y ws : ConId}

/-! ### Columns that stay -/

/-- A container is as redundant as before, and leaves the same, when something is flattened that it has
nothing to do with. -/
theorem Around.unfolded (h : Around t t' y p) (hd : ¬ (d = p ∨ Descent.Within t.children y d))
    (hchild : ∀ e ∈ (t.con d).nodesHead, ¬ (e = p ∨ Descent.Within t.children y e)) :
    t'.redundant d = t.redundant d ∧ t'.unfolded d = t.unfolded d := by
  have hred := h.alters.redundant hd (fun hw => hd (.inr hw)) hchild
  refine ⟨hred, ?_⟩
  rw [Tree.unfolded, Tree.unfolded, hred]
  cases heq : t.redundant d with
  | none => rfl
  | some r =>
    obtain ⟨o, e⟩ := r
    have hmem : e ∈ (t.con d).nodesHead := by
      unfold Tree.redundant at heq
      split at heq
      · next hnodes =>
        split at heq
        · cases heq
          simp [hnodes]
        · cases heq
      · cases heq
    exact h.alters.nodesHead e (hchild e hmem)

section Columns

variable (ht : Rooted t)
include ht

/-- The other columns, when one is flattened. -/
theorem Around.unfolded_beside (h : Around t t' y q) (hy : y ∈ t.children q) (hd : d ∈ t.children q)
    (hne : d ≠ y) : t'.redundant d = t.redundant d ∧ t'.unfolded d = t.unfolded d := by
  have hyd := ht.acyclic.separate ht.parent hd hy hne (.refl d)
  refine h.unfolded ?_ fun e he => ?_
  · exact fun h => h.elim (ht.acyclic.ne (.single hd)) hyd
  · have hde : Descent.Below t.children d e := .single (List.mem_append_left _ he)
    rintro (rfl | hye)
    · exact ht.acyclic.not_within (.single hd) hde.within
    · exact ht.acyclic.separate ht.parent hd hy hne hde.within hye

/-- The columns, when something is flattened elsewhere. -/
theorem Around.unfolded_elsewhere (h : Around t t' y p) (hyp : y ∈ t.children p)
    (hyq : ¬ Descent.Within t.children y q) (hqy : ¬ Descent.Within t.children q y)
    (hd : d ∈ t.children q) : t'.redundant d = t.redundant d ∧ t'.unfolded d = t.unfolded d := by
  have hnot : ∀ x, Descent.Within t.children q x → ¬ (x = p ∨ Descent.Within t.children y x) := by
    rintro x hqx (rfl | hyx)
    · exact hqy (hqx.tail hyp).within
    · exact (Descent.within_total ht.parent hqx hyx).elim hqy hyq
  have hqd : Descent.Below t.children q d := .single hd
  exact h.unfolded (hnot d hqd.within) fun e he => hnot e (hqd.within.tail (List.mem_append_left _ he)).within

end Columns

/-! ### The list of columns -/

section Unfolded

variable {C : List ConId} {u : ConId → List ConId}

/-- The columns of the strip, and what each is going to leave. -/
structure Lists (q : ConId) (C : List ConId) (u : ConId → List ConId) (t : Tree) : Prop where
  nodesHead : (t.con q).nodesHead = C
  unfolded : ∀ d ∈ C, t.unfolded d = u d

omit cfg in
/-- The parent of a container that is not above the strip. -/
theorem Strip.exists_parent (h : Strip q ws t) (hy : t.Reach y) (hyq : ¬ Descent.Within t.children y q) :
    ∃ p, y ∈ t.children p := by
  have hne : y ≠ t.croot := by
    rintro rfl
    exact hyq h.reach
  obtain ⟨p, -, -, hmem⟩ := h.healthy.rooted.exists_parent ⟨hy, hne⟩
  exact ⟨p, hmem⟩

theorem keptElsewhere_nodesHead : KeptElsewhere cfg q ws fun t => (t.con q).nodesHead = C := by
  intro t y n h hi hy hyq hqy
  obtain ⟨p, hmem⟩ := h.exists_parent hy hyq
  have haround := (@treeFlattenN_spec cfg t y n h.healthy hy).2 p hmem
  rw [haround.alters.nodesHead q, hi]
  rintro (rfl | hw)
  · exact hqy (Descent.Below.single hmem).within
  · exact hyq hw

theorem keptElsewhere_lists : KeptElsewhere cfg q ws (Lists q C u) := by
  intro t y n h hi hy hyq hqy
  obtain ⟨p, hmem⟩ := h.exists_parent hy hyq
  have haround := (@treeFlattenN_spec cfg t y n h.healthy hy).2 p hmem
  refine ⟨keptElsewhere_nodesHead h hi.nodesHead hy hyq hqy, fun d hd => ?_⟩
  rw [(haround.unfolded_elsewhere h.healthy.rooted hmem hyq hqy
    (List.mem_append_left _ (hi.nodesHead ▸ hd))).2, hi.unfolded d hd]

/-- **Column by column**: what is in front has been flattened. -/
theorem nodesHead_foldl (n : ℕ) {l done : List ConId} (h : Strip q ws t)
    (hnodes : (t.con q).nodesHead = done ++ l) (hu : ∀ d ∈ l, t.unfolded d = u d) :
    Strip q ws (l.foldl (treeFlattenN cfg (n + 1)) t)
      ∧ ((l.foldl (treeFlattenN cfg (n + 1)) t).con q).nodesHead = done ++ l.flatMap u := by
  induction l generalizing t done with
  | nil => exact ⟨h, hnodes⟩
  | cons d l ih =>
    have ht := h.healthy.rooted
    have hmem : ∀ e ∈ d :: l, e ∈ t.children q := fun e he =>
      List.mem_append_left _ (by rw [hnodes]; exact List.mem_append_right _ he)
    have hd := hmem d List.mem_cons_self
    have hreach := (h.reach.tail hd).within
    have hdq := ht.acyclic.not_within (.single hd)
    obtain ⟨hinside, haround⟩ := @treeFlattenN_spec cfg t d (n + 1) h.healthy hreach
    have hstrip := @Strip.treeFlattenN cfg _ _ _ _ _ h (n + 1) hreach hdq hd
    have hnodup := ht.nodupNodes q
    rw [hnodes] at hnodup
    have hdl : d ∉ l := (List.nodup_cons.mp (List.nodup_append.mp hnodup).2.1).1
    have hrest : ∀ e ∈ l, (treeFlattenN cfg (n + 1) t d).unfolded e = u e := fun e he => by
      rw [((haround q hd).unfolded_beside ht hd (hmem e (List.mem_cons_of_mem d he)) fun heq => hdl (heq ▸ he)).2]
      exact hu e (List.mem_cons_of_mem d he)
    have hnodes' : ((treeFlattenN cfg (n + 1) t d).con q).nodesHead = (done ++ u d) ++ l := by
      rw [← hu d List.mem_cons_self, Tree.unfolded]
      cases hred : t.redundant d with
      | none =>
        rw [(hinside hred).alters.nodesHead q hdq, hnodes, List.append_assoc, List.singleton_append]
      | some r =>
        obtain ⟨o, e⟩ := r
        obtain ⟨hpair, htype, -⟩ := ht.redundant_spec hreach hred
        obtain rfl : o = q := Option.some_inj.mp
          ((ht.parent o d (List.mem_append_left _ hpair.parent)).symm.trans (ht.parent q d hd))
        unfold treeFlattenN
        rw [hred]
        exact (unfolds_flattenAt h.healthy hpair).nodesHead done l hnodes
    obtain ⟨hend, hendnodes⟩ := ih hstrip hnodes' hrest
    exact ⟨hend, by rw [List.foldl_cons, hendnodes, List.flatMap_cons, List.append_assoc]⟩

theorem Strip.floatingHead (h : Strip q ws t) : (t.con q).floatingHead = [] :=
  h.healthy.layered.floatingHead_eq_nil (by simp [h.type])

theorem arrives_lists : Arrives cfg q ws (Lists q C u) fun t => (t.con q).nodesHead = C.flatMap u := by
  intro t n h hi
  obtain ⟨hstrip, hnodes⟩ := @nodesHead_foldl cfg t q ws u n C [] h hi.nodesHead hi.unfolded
  unfold treeFlattenN
  rw [redundant_scrolling h.layout]
  dsimp only
  rw [hi.nodesHead, hstrip.floatingHead]
  exact hnodes

/-- **The columns after flattening the tree**: each stays or is replaced by what it leaves. -/
theorem nodesHead_treeFlatten (h : Strip q ws t) (hd : d ∈ (t.con q).nodesHead) :
    Strip q ws (t.treeFlatten cfg t.croot)
      ∧ ((t.treeFlatten cfg t.croot).con q).nodesHead = (t.con q).nodesHead.flatMap t.unfolded := by
  have hlists : Lists q (t.con q).nodesHead t.unfolded t := ⟨rfl, fun _ _ => rfl⟩
  exact strip_treeFlatten keptElsewhere_lists keptElsewhere_nodesHead arrives_lists h hlists
    (List.mem_append_left _ hd)

end Unfolded

/-! ### Columns that nothing happens to -/

/-- The columns, their focus order and their percentages are the same, and the focus is in the first. -/
structure Undisturbed (q : ConId) (t t' : Tree) : Prop where
  nodesHead : (t'.con q).nodesHead = (t.con q).nodesHead
  focusHead : (t'.con q).focusHead = (t.con q).focusHead
  percent : ∀ d ∈ (t.con q).nodesHead, (t'.con d).percent = (t.con d).percent
  orderly : Orderly q t'

theorem Undisturbed.trans (h : Undisturbed q t t') (h' : Undisturbed q t' t'') : Undisturbed q t t'' where
  nodesHead := h'.nodesHead.trans h.nodesHead
  focusHead := h'.focusHead.trans h.focusHead
  percent d hd := (h'.percent d (by rwa [h.nodesHead])).trans (h.percent d hd)
  orderly := h'.orderly

/-- The focus order is the one given. -/
def Focuses (q : ConId) (F : List ConId) (t : Tree) : Prop := (t.con q).focusHead = F ∧ Orderly q t

section Focuses

variable {F : List ConId}

/-- **Flattening elsewhere or within a column** leaves the focus order of the columns. -/
theorem focuses_treeFlattenN (n : ℕ) (h : Strip q ws t) (hi : Focuses q F t) (hy : t.Reach y)
    (hyq : ¬ Descent.Within t.children y q) (hnot : y ∉ t.children q) :
    Focuses q F (treeFlattenN cfg n t y) := by
  induction n generalizing t y with
  | zero => exact hi
  | succ n ih =>
    cases hred : t.redundant y with
    | some r =>
      obtain ⟨p, d⟩ := r
      obtain ⟨hpair, -, -⟩ := h.healthy.rooted.redundant_spec hy hred
      unfold treeFlattenN
      rw [hred]
      obtain ⟨hfocus, ho⟩ := (@unfolds_flattenAt cfg t y d p h.healthy hpair).orderly q h.reach (by
        rintro (rfl | rfl | rfl)
        · exact hnot (List.mem_append_left _ hpair.parent)
        · exact hyq (.refl q)
        · exact hyq (Descent.Below.single (List.mem_append_left _ hpair.mem_child)).within) hi.2
      exact ⟨hfocus.trans hi.1, ho⟩
    | none =>
      -- the children of `y` are no columns
      have hstep : ∀ {t z}, Strip q ws t → Focuses q F t → t.Reach y → z ∈ t.children y →
          ¬ Descent.Within t.children z q → Focuses q F (treeFlattenN cfg n t z) := by
        intro t z h hi hyr hz hzq
        refine ih h hi (hyr.tail hz).within hzq fun hzc => hyq ?_
        have ht := h.healthy.rooted
        rw [Option.some_inj.mp ((ht.parent q z hzc).symm.trans (ht.parent y z hz))]
      refine (strip_children hstep h hi hy hred fun z hz hzq => hyq ?_).2
      exact ((Descent.Below.single (List.mem_append_left _ hz)).trans_within hzq).within

/-- **Flattening a column that is not redundant.** -/
theorem focuses_column (n : ℕ) (h : Strip q ws t) (hi : Focuses q F t) (hd : d ∈ t.children q)
    (hred : t.redundant d = none) : Focuses q F (treeFlattenN cfg n t d) := by
  have ht := h.healthy.rooted
  cases n with
  | zero => exact hi
  | succ n =>
    have hdq := ht.acyclic.not_within (.single hd)
    have hstep : ∀ {t z}, Strip q ws t → Focuses q F t → t.Reach d → z ∈ t.children d →
        ¬ Descent.Within t.children z q → Focuses q F (treeFlattenN cfg n t z) := by
      intro t z h hi hyr hz hzq
      refine focuses_treeFlattenN n h hi (hyr.tail hz).within hzq fun hzc => hdq ?_
      have ht := h.healthy.rooted
      rw [Option.some_inj.mp ((ht.parent q z hzc).symm.trans (ht.parent d z hz))]
    refine (strip_children hstep h hi (h.reach.tail hd).within hred fun z hz hzq => hdq ?_).2
    exact ((Descent.Below.single (List.mem_append_left _ hz)).trans_within hzq).within

end Focuses

/-- **Flattening elsewhere** does nothing to the columns. -/
theorem undisturbed_elsewhere (n : ℕ) (h : Strip q ws t) (ho : Orderly q t) (hy : t.Reach y)
    (hyq : ¬ Descent.Within t.children y q) (hqy : ¬ Descent.Within t.children q y) :
    Undisturbed q t (treeFlattenN cfg n t y) := by
  have ht := h.healthy.rooted
  obtain ⟨p, hmem⟩ := h.exists_parent hy hyq
  have haround := (@treeFlattenN_spec cfg t y n h.healthy hy).2 p hmem
  have hfocuses := @focuses_treeFlattenN cfg t q y ws _ n h ⟨rfl, ho⟩ hy hyq fun hyc =>
    hqy (Descent.Below.single hyc).within
  have hpq : p ≠ q := by
    rintro rfl
    exact hqy (Descent.Below.single hmem).within
  refine ⟨haround.alters.nodesHead q ?_, hfocuses.1, fun d hd => haround.alters.percent d ?_, hfocuses.2⟩
  · exact fun hN => hN.elim (Ne.symm hpq) hyq
  · have hdq : Descent.Below t.children q d := .single (List.mem_append_left _ hd)
    rintro (hyd | ⟨-, hdp⟩)
    · exact (Descent.within_total ht.parent hyd hdq.within).elim hyq hqy
    · exact hpq (Option.some_inj.mp ((ht.parent p d (List.mem_append_left _ hdp)).symm.trans
        (ht.parent q d (List.mem_append_left _ hd))))

/-- **Flattening a column that is not redundant** does nothing to the columns. -/
theorem undisturbed_column (n : ℕ) (h : Strip q ws t) (ho : Orderly q t) (hd : d ∈ t.children q)
    (hred : t.redundant d = none) : Undisturbed q t (treeFlattenN cfg n t d) := by
  have ht := h.healthy.rooted
  have hdq := ht.acyclic.not_within (.single hd)
  have hinside := (@treeFlattenN_spec cfg t d n h.healthy (h.reach.tail hd).within).1 hred
  have hfocuses := @focuses_column cfg t d q ws _ n h ⟨rfl, ho⟩ hd hred
  refine ⟨hinside.alters.nodesHead q hdq, hfocuses.1, fun e he => hinside.alters.percent e fun hde => ?_,
    hfocuses.2⟩
  exact hdq (Descent.within_parent ht.parent hde (ht.parent q e (List.mem_append_left _ he)))

/-- None of the columns is redundant. -/
structure Settled (q : ConId) (t₀ t : Tree) : Prop where
  undisturbed : Undisturbed q t₀ t
  settled : ∀ d ∈ (t.con q).nodesHead, t.redundant d = none

theorem keptElsewhere_settled : KeptElsewhere cfg q ws (Settled q t) := by
  intro t' y n h hi hy hyq hqy
  obtain ⟨p, hmem⟩ := h.exists_parent hy hyq
  have haround := (@treeFlattenN_spec cfg t' y n h.healthy hy).2 p hmem
  have hun := @undisturbed_elsewhere cfg t' q y ws n h hi.undisturbed.orderly hy hyq hqy
  refine ⟨hi.undisturbed.trans hun, fun d hd => ?_⟩
  rw [hun.nodesHead] at hd
  rw [(haround.unfolded_elsewhere h.healthy.rooted hmem hyq hqy (List.mem_append_left _ hd)).1, hi.settled d hd]

theorem keptElsewhere_undisturbed : KeptElsewhere cfg q ws (Undisturbed q t) := by
  intro t' y n h hi hy hyq hqy
  exact hi.trans (undisturbed_elsewhere n h hi.orderly hy hyq hqy)

/-- **One column after another.** -/
theorem undisturbed_foldl (n : ℕ) {l : List ConId} (h : Strip q ws t) (ho : Orderly q t) (hl : l ⊆ t.children q)
    (hnodup : l.Nodup) (hred : ∀ d ∈ l, t.redundant d = none) :
    Undisturbed q t (l.foldl (treeFlattenN cfg n) t) := by
  induction l generalizing t with
  | nil => exact ⟨rfl, rfl, fun _ _ => rfl, ho⟩
  | cons d l ih =>
    have ht := h.healthy.rooted
    obtain ⟨hdl, hnodup⟩ := List.nodup_cons.mp hnodup
    have hd := hl List.mem_cons_self
    have hreach := (h.reach.tail hd).within
    have hdq := ht.acyclic.not_within (.single hd)
    have haround := (@treeFlattenN_spec cfg t d n h.healthy hreach).2 q hd
    have hun := @undisturbed_column cfg t d q ws n h ho hd (hred d List.mem_cons_self)
    refine hun.trans (ih (h.treeFlattenN n hreach hdq hd) hun.orderly (fun e he => ?_) hnodup fun e he => ?_)
    · refine haround.flattens.kept q e (hl (List.mem_cons_of_mem d he)) ?_
      exact ht.acyclic.separate ht.parent (hl (List.mem_cons_of_mem d he)) hd (fun heq => hdl (heq ▸ he)) (.refl e)
    · rw [(haround.unfolded_beside ht hd (hl (List.mem_cons_of_mem d he)) fun heq => hdl (heq ▸ he)).1]
      exact hred e (List.mem_cons_of_mem d he)

theorem arrives_settled : Arrives cfg q ws (Settled q t) (Undisturbed q t) := by
  intro t' n h hi
  have ht := h.healthy.rooted
  have hun := @undisturbed_foldl cfg t' q ws (n + 1) _ h hi.undisturbed.orderly (List.subset_append_left _ _)
    (ht.nodupNodes q) hi.settled
  obtain ⟨hstrip, -⟩ := @strip_foldl cfg _ _ _ _ (fun _ => True) (n + 1)
    (fun _ _ _ _ _ => trivial) _ h trivial h.reach (List.subset_append_left _ _) (ht.nodupNodes q)
    fun y hy => ht.acyclic.not_within (.single (List.mem_append_left _ hy))
  unfold treeFlattenN
  rw [redundant_scrolling h.layout]
  dsimp only
  rw [hstrip.floatingHead]
  exact hi.undisturbed.trans hun

/-- **Where no column is redundant**, flattening the tree leaves the columns as they are. -/
theorem undisturbed_treeFlatten (h : Strip q ws t) (ho : Orderly q t) (hd : d ∈ (t.con q).nodesHead)
    (hred : ∀ e ∈ (t.con q).nodesHead, t.redundant e = none) :
    Undisturbed q t (t.treeFlatten cfg t.croot) :=
  (strip_treeFlatten keptElsewhere_settled keptElsewhere_undisturbed arrives_settled h
    ⟨⟨rfl, rfl, fun _ _ => rfl, ho⟩, hred⟩ (List.mem_append_left _ hd)).2

end Tree

end I3
