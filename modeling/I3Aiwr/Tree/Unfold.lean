import I3Aiwr.Tree.Alters

/-!
# What flattening does to a list of children

A redundant container is replaced by the children of its child, in place. Flattening below a container
that is not redundant does this to each of its children once, and apart from the focus nothing outside
of it changes.

## Main definitions

* `Tree.Unfolds t t' p c d`: the redundant container `c` is replaced by the children of `d`
* `Tree.unfolded c`: what a child leaves in the list of its parent

## Main results

* `Tree.unfolds_flattenAt`: one pair
-/

namespace I3

namespace Tree

variable {cfg : Config} {t t' t'' : Tree} {c d p q x : ConId}

/-! ### One pair -/

/-- The containers whose lists of children are edited. -/
def Edited (p c d x : ConId) : Prop := x = p ∨ x = c ∨ x = d

/-- The containers that move or are closed. -/
def Uprooted (t : Tree) (c d x : ConId) : Prop := x = c ∨ x = d ∨ x ∈ (t.con d).nodesHead

/-- The redundant container `c` below `p` is replaced by the children of its child `d`. -/
structure Unfolds (t t' : Tree) (p c d : ConId) : Prop where
  nextCon : t'.nextCon = t.nextCon
  alters : Alters (Edited p c d) (t.Uprooted c d) (fun x => t.Uprooted c d x ∨ t.Rescales p x) t t'
  nodesHead : ∀ pre post, (t.con p).nodesHead = pre ++ c :: post →
    (t'.con p).nodesHead = pre ++ (t.con d).nodesHead ++ post
  orderly : ∀ q, t.Reach q → ¬ Edited p c d q → Orderly q t →
    (t'.con q).focusHead = (t.con q).focusHead ∧ Orderly q t'

/-- The order of the columns survives a calm change that leaves them and the focus alone. -/
theorem Orderly.of_calm (ho : Orderly q t) (ht : Rooted t) (hq : t.Reach q) (h : Calm t t')
    (hsub : t'.children q ⊆ t.children q) (hfocus : (t'.con q).focusHead = (t.con q).focusHead)
    (hfocused : t'.focused = t.focused) (hfloating : ∀ x, (t'.con x).floating = (t.con x).floating)
    (hnext : t'.nextCon = t.nextCon) : Orderly q t' where
  first f hf x hx hxf := by
    have hxlt := ht.bounded q x (hsub hx)
    have hwithin : Descent.Within t.children x f := by
      rcases Descent.within_iff.mp hxf with rfl | hbelow
      · exact .refl f
      · obtain ⟨y, -, hy⟩ := Descent.below_iff_exists.mp hbelow
        exact h.within hxlt (hnext ▸ h.healthy.rooted.bounded y f hy) hxf
    rw [heads, hfocus, ← heads]
    exact ho.first f (hfocused ▸ hf) x (hsub hx) hwithin
  plain x hx := by
    obtain ⟨y, -, hy⟩ := Descent.below_iff_exists.mp hx
    have hxlt : x < t.nextCon := hnext ▸ h.healthy.rooted.bounded y x hy
    rw [h.type x hxlt, isFloating, hfloating]
    exact ho.plain x (h.below q (ht.lt_nextCon hq) x hxlt hx)

section Pair

variable (ht : Healthy t) (h : Pair t p c d)

theorem alters_liftChild : Alters (Edited p c d) (· = x) (· = x) (t.conDetach x) (t.liftChild c p x) :=
  (((Alters.setParent (R := (· = x)) rfl p).trans (.editNodes (N := Edited p c d) (.inl rfl) _)).trans
    (.editFocus p _)).trans (.setPercent (Q := (· = x)) rfl _)

include ht h

theorem nodesHead_liftChild {l pre post : List ConId} (hl : (t.con d).nodesHead = x :: l)
    (hp : (t.con p).nodesHead = pre ++ c :: post) :
    ((t.liftChild c p x).con p).nodesHead = pre ++ x :: c :: post := by
  have hr := ht.rooted
  have hparent : (t.con x).parent = some d := hr.parent d x (List.mem_append_left _ (by simp [hl]))
  have htype : (t.con x).type ≠ .floatingCon := hr.typeNodes d x (by simp [hl])
  have hc : c ∉ pre := fun hmem =>
    (List.disjoint_of_nodup_append (hp ▸ hr.nodupNodes p)) hmem List.mem_cons_self
  rw [liftChild, (links_setPercent _ x (t.con c).percent).nodesHead]
  simp only [editFocus_nodesHead, editNodes_nodesHead, if_true, setParent_nodesHead]
  rw [conDetach_nodesHead hparent htype, if_neg (h.child_ne_parent hr).symm, hp,
    Queue.insertBefore_append_self hc]

/-- **All children move up** in front of the outer container, in their order. -/
theorem foldl_liftChild {l pre post : List ConId} (hl : (t.con d).nodesHead = l)
    (hp : (t.con p).nodesHead = pre ++ c :: post) :
    Alters (Edited p c d) (· ∈ l) (· ∈ l) t (l.foldl (liftChild c p) t)
      ∧ ((l.foldl (liftChild c p) t).con p).nodesHead = pre ++ l ++ c :: post := by
  induction l generalizing t pre with
  | nil => exact ⟨.refl t, by rw [List.foldl_nil, List.append_nil, hp]⟩
  | cons x l ih =>
    have hparent : (t.con x).parent = some d :=
      ht.rooted.parent d x (List.mem_append_left _ (by simp [hl]))
    obtain ⟨hlift, hrest⟩ := lifts_liftChild ht h hl
    have hnodes := nodesHead_liftChild ht h hl hp
    obtain ⟨hrest, hend⟩ := ih hlift.calm.healthy hlift.pair hrest
      (show _ = (pre ++ [x]) ++ c :: post by rw [hnodes, List.append_assoc, List.singleton_append])
    have hone : Alters (Edited p c d) (· = x) (· = x) t (t.liftChild c p x) :=
      (Alters.conDetach fun q hq => .inr (.inr (Option.some_inj.mp (hq.symm.trans hparent)))).trans
        alters_liftChild
    refine ⟨(hone.mono (fun _ h => h) ?_ ?_).trans (hrest.mono (fun _ h => h) ?_ ?_), ?_⟩
    · exact fun y hy => hy ▸ List.mem_cons_self
    · exact fun y hy => hy ▸ List.mem_cons_self
    · exact fun y hy => List.mem_cons_of_mem x hy
    · exact fun y hy => List.mem_cons_of_mem x hy
    · rw [List.foldl_cons, hend, List.append_assoc, List.append_assoc, List.append_assoc]
      rfl

/-- The tree when the children have moved up and the focus is restored. -/
def raisedTree (t : Tree) (p c d : ConId) : Tree :=
  ((t.con d).nodesHead.foldl (liftChild c p) t).restoreFocus c p (t.con d).focusHead.head?

omit ht h in
theorem restoreFocus_focusHead (t : Tree) (next : Option ConId) (hq : q ≠ p) :
    ((t.restoreFocus c p next).con q).focusHead = (t.con q).focusHead := by
  unfold restoreFocus
  split
  · rfl
  · split
    · rw [editFocus_focusHead, if_neg hq]
    · rfl

/-- The containers that have moved up are no longer below the inner one. -/
theorem unfolds_raisedTree :
    Alters (Edited p c d) (t.Uprooted c d) (fun x => t.Uprooted c d x ∨ t.Rescales p x) t (t.raisedTree p c d)
      ∧ (∀ pre post, (t.con p).nodesHead = pre ++ c :: post →
        ((t.raisedTree p c d).con p).nodesHead = pre ++ (t.con d).nodesHead ++ c :: post)
      ∧ ∀ q, t.Reach q → ¬ Edited p c d q → Orderly q t →
        ((t.raisedTree p c d).con q).focusHead = (t.con q).focusHead ∧ Orderly q (t.raisedTree p c d) := by
  obtain ⟨pre, post, hp⟩ := List.append_of_mem h.parent
  have hraised := raised_spec ht h
  obtain ⟨hlifts, -⟩ := lifts_foldl ht h rfl
  obtain ⟨hup, -⟩ := foldl_liftChild ht h rfl hp
  have hstirs := stirs_restoreFocus ((t.con d).nodesHead.foldl (liftChild c p) t) c p
    (t.con d).focusHead.head?
  have halters : Alters (Edited p c d) (t.Uprooted c d) (fun x => t.Uprooted c d x ∨ t.Rescales p x) t
      (t.raisedTree p c d) :=
    (hup.mono (fun _ h => h) (fun _ hx => .inr (.inr hx)) fun _ hx => .inl (.inr (.inr hx))).trans
      (.of_stirs hstirs)
  refine ⟨halters, fun pre post hp => ?_, fun q hq hedit ho => ?_⟩
  · rw [raisedTree, hstirs.nodesHead]
    exact (foldl_liftChild ht h rfl hp).2
  · have hqp : q ≠ p := fun heq => hedit (.inl heq)
    have hfocus : ((t.raisedTree p c d).con q).focusHead = (t.con q).focusHead := by
      rw [raisedTree, restoreFocus_focusHead _ _ hqp]
      exact hlifts.focusHead q hqp fun heq => hedit (.inr (.inr heq))
    refine ⟨hfocus, ho.of_calm ht.rooted hq hraised.calm (fun x hx => ?_) hfocus hraised.focused
      halters.floating hraised.nextCon⟩
    exact hlifts.subset q hqp ((hstirs.mem_children q).mp hx)

/-- **Closing the pair**, one container after the other. -/
theorem unfolds_closePair :
    Alters (Edited p c d) (fun x => x = c ∨ x = d) (fun x => x = d ∨ t.Rescales p x) t
        ((t.closeAlone cfg d).closeAlone cfg c)
      ∧ (((t.closeAlone cfg d).closeAlone cfg c).con p).nodesHead = (t.con p).nodesHead.erase c
      ∧ ∀ q, ¬ Edited p c d q → Orderly q t →
        (((t.closeAlone cfg d).closeAlone cfg c).con q).focusHead = (t.con q).focusHead
          ∧ Orderly q ((t.closeAlone cfg d).closeAlone cfg c) := by
  have hr := ht.rooted
  have hcsits := h.sits hr
  have hdsits := h.sits_child hr
  have hdc := h.ne_child hr
  have hdp := h.child_ne_parent hr
  have hmem : d ∈ t.children c := List.mem_append_left _ h.mem_child
  have hparentc : (t.con c).parent = some p := hr.parent p c (List.mem_append_left _ h.parent)
  have hparentd : (t.con d).parent = some c := hr.parent c d hmem
  -- the inner container
  have hinner := @alters_closeAlone cfg _ _ _ hparentd (hr.typeNodes c d h.mem_child)
  have hnodes := @closeAlone_nodesHead cfg _ _ _ hparentd (hr.typeNodes c d h.mem_child)
  obtain ⟨hcalm, -⟩ := @calm_closeAlone cfg t d ht hdsits.2
  have hvr := hcalm.healthy.rooted
  -- the outer one
  have hparentc' : ((t.closeAlone cfg d).con c).parent = some p := by
    rw [hinner.parent c (Ne.symm hdc), hparentc]
  have htypec' : ((t.closeAlone cfg d).con c).type ≠ .floatingCon := by
    rw [hinner.type]
    exact hr.typeNodes p c h.parent
  have hsits' : (t.closeAlone cfg d).Sits c :=
    ⟨reach_closeAlone hr hcsits.1 (hr.acyclic.not_within (.single hmem)), by rw [hcalm.croot]; exact hcsits.2⟩
  have houter := @alters_closeAlone cfg _ _ _ hparentc' htypec'
  refine ⟨?_, ?_, fun q hedit ho => ?_⟩
  · refine (hinner.mono ?_ ?_ ?_).trans (houter.mono ?_ ?_ ?_)
    · exact fun x hx => .inr (.inl hx)
    · exact fun x hx => .inr hx
    · rintro x ⟨-, hx⟩
      rw [h.child, List.mem_singleton] at hx
      exact .inl hx
    · exact fun x hx => .inl hx
    · exact fun x hx => .inl hx
    · rintro x ⟨hlayout, hx⟩
      rw [hinner.layout] at hlayout
      rw [hnodes, if_neg (h.ne_parent hr).symm] at hx
      exact .inr ⟨hlayout, hx⟩
  · rw [closeAlone_nodesHead hparentc' htypec', if_pos rfl, hnodes, if_neg (h.ne_parent hr).symm]
  · -- neither container is a child of `q`
    have hnotd : d ∉ t.children q := fun hdq =>
      hedit (.inr (.inl (Option.some_inj.mp ((hr.parent q d hdq).symm.trans hparentd))))
    have hnotc : c ∉ (t.closeAlone cfg d).children q := fun hcq =>
      hedit (.inl (Option.some_inj.mp ((hvr.parent q c hcq).symm.trans hparentc')))
    obtain ⟨hfocus, ho'⟩ := @closeAlone_focusHead cfg t d q ht ho hdsits (hr.typeNodes c d h.mem_child) hnotd
    obtain ⟨hfocus', ho''⟩ := @closeAlone_focusHead cfg _ c q hcalm.healthy ho' hsits' htypec' hnotc
    exact ⟨hfocus'.trans hfocus, ho''⟩

/-- **Removing one pair.** -/
theorem unfolds_flattenAt : Unfolds t (t.flattenAt cfg c p d) p c d := by
  obtain ⟨hup, hupnodes, huporder⟩ := unfolds_raisedTree ht h
  have hr : Raised t (t.raisedTree p c d) p c d := raised_spec ht h
  have hstirs := (stirs_calmDown (t.raisedTree p c d) c).trans (stirs_calmDown _ d)
  have heq : t.flattenAt cfg c p d = (t.raisedTree p c d).treeCloseInternal cfg c .dontKillWindow true := rfl
  rw [heq, treeCloseInternal_pair (Nat.zero_lt_of_lt hr.calm.healthy.rooted.boundedRoot) hr.pair.child
    hr.childless]
  obtain ⟨u, hu⟩ : ∃ u, ((t.raisedTree p c d).calmDown c).calmDown d = u := ⟨_, rfl⟩
  rw [hu] at hstirs ⊢
  have hl := hstirs.links
  have hpair : Pair u p c d := ⟨by rw [hl.nodesHead]; exact hr.pair.parent,
    (hl.nodesHead c).trans hr.pair.child, hl.reach.mpr hr.pair.reach⟩
  obtain ⟨hclose, hclosenodes, hcloseorder⟩ := @unfolds_closePair cfg u c d p (hr.calm.healthy.links hl) hpair
  obtain ⟨pre, post, hp⟩ := List.append_of_mem h.parent
  refine ⟨by rw [closeAlone_nextCon, closeAlone_nextCon, hl.nextCon, hr.nextCon],
    (hup.trans (.of_stirs hstirs)).trans (hclose.mono (fun _ hx => hx) ?_ ?_), fun pre post hp => ?_,
    fun q hq hedit ho => ?_⟩
  · exact fun x hx => hx.imp_right .inl
  · rintro x (hx | ⟨hlayout, hx⟩)
    · exact .inl (.inr (.inl hx))
    · -- besides the children that have moved up, the parent has those that it had
      rw [hl.nodesHead, hupnodes pre post hp] at hx
      rw [hstirs.layout, hup.layout] at hlayout
      simp only [List.mem_append, List.mem_cons] at hx
      rcases hx with (hx | hx) | rfl | hx
      · exact .inr ⟨hlayout, by simp [hp, hx]⟩
      · exact .inl (.inr (.inr hx))
      · exact .inl (.inl rfl)
      · exact .inr ⟨hlayout, by simp [hp, hx]⟩
  · have hnodup := hr.calm.healthy.rooted.nodupNodes p
    rw [hupnodes pre post hp] at hnodup
    have hnot : c ∉ pre ++ (t.con d).nodesHead := fun hc =>
      List.disjoint_of_nodup_append hnodup hc List.mem_cons_self
    rw [hclosenodes, hl.nodesHead, hupnodes pre post hp, List.erase_append_right _ hnot,
      List.erase_cons_head]
  · obtain ⟨hfocus, ho'⟩ := huporder q hq hedit ho
    obtain ⟨hfocus', ho''⟩ := hcloseorder q hedit (hu ▸ (ho'.calmDown c).calmDown d)
    refine ⟨hfocus'.trans ?_, ho''⟩
    rw [← hu, (sameFocus_calmDown _ d).focusHead, (sameFocus_calmDown _ c).focusHead, hfocus]

end Pair

/-! ### The recursion -/

/-- What a child leaves in the list of its parent. -/
def unfolded (t : Tree) (c : ConId) : List ConId :=
  match t.redundant c with
  | some (_, d) => (t.con d).nodesHead
  | none => [c]

theorem Alters.isSplit {N R Q : ConId → Prop} (h : Alters N R Q t t') (hN : ¬ N c) :
    t'.isSplit c = t.isSplit c := by
  unfold Tree.isSplit isLeaf
  rw [h.nodesHead c hN, h.layout]

theorem Alters.orientation {N R Q : ConId → Prop} (h : Alters N R Q t t') (c : ConId) :
    t'.orientation c = t.orientation c := by
  unfold Tree.orientation
  rw [h.layout]

/-- A container is as redundant as before when it, its parent and its only child have stayed. -/
theorem Alters.redundant {N R Q : ConId → Prop} (h : Alters N R Q t t') (hN : ¬ N c) (hR : ¬ R c)
    (hchild : ∀ d ∈ (t.con c).nodesHead, ¬ N d) : t'.redundant c = t.redundant c := by
  unfold Tree.redundant
  rw [h.parent c hR, h.nodesHead c hN]
  cases (t.con c).parent with
  | none => rfl
  | some p =>
    match hnodes : (t.con c).nodesHead with
    | [] => rfl
    | [d] =>
      have hd : ¬ N d := hchild d (by simp [hnodes])
      simp only [h.isSplit hN, h.isSplit hd, h.orientation, h.type, h.layout, h.window c hR]
    | _ :: _ :: _ => rfl

/-- Nothing comes below a container that was not below it, where none is made. -/
theorem Calm.within_of_nextCon (h : Calm t t') (hnext : t'.nextCon = t.nextCon) (hc : c < t.nextCon)
    (hx : Descent.Within t'.children c x) : Descent.Within t.children c x := by
  rcases Descent.within_iff.mp hx with rfl | hbelow
  · exact .refl x
  · obtain ⟨y, -, hy⟩ := Descent.below_iff_exists.mp hbelow
    exact h.within hc (hnext ▸ h.healthy.rooted.bounded y x hy) hx

theorem Calm.below_of_nextCon (h : Calm t t') (hnext : t'.nextCon = t.nextCon) (hc : c < t.nextCon)
    (hx : Descent.Below t'.children c x) : Descent.Below t.children c x := by
  obtain ⟨y, -, hy⟩ := Descent.below_iff_exists.mp hx
  exact h.below c hc x (hnext ▸ h.healthy.rooted.bounded y x hy) hx

/-- Flattening a container that is not redundant, or its children: nothing outside of it changes. -/
structure Inside (t t' : Tree) (c : ConId) : Prop where
  flattens : Flattens t t' c
  nextCon : t'.nextCon = t.nextCon
  alters : Alters (Descent.Within t.children c) (Descent.Below t.children c) (Descent.Below t.children c) t t'

/-- Flattening a child of `p`: the list of `p` may change too, and the percentages there. -/
structure Around (t t' : Tree) (c p : ConId) : Prop where
  flattens : Flattens t t' c
  nextCon : t'.nextCon = t.nextCon
  alters : Alters (fun x => x = p ∨ Descent.Within t.children c x) (Descent.Within t.children c)
    (fun x => Descent.Within t.children c x ∨ t.Rescales p x) t t'

namespace Inside

theorem refl (ht : Healthy t) (c : ConId) : Inside t t c := ⟨.refl ht c, rfl, .refl t⟩

theorem trans (h : Inside t t' c) (h' : Inside t' t'' c) (ht : Rooted t) (hc : t.Reach c) :
    Inside t t'' c where
  flattens := h.flattens.trans h'.flattens ht hc
  nextCon := h'.nextCon.trans h.nextCon
  alters := h.alters.trans (h'.alters.mono
    (fun _ hx => h.flattens.calm.within_of_nextCon h.nextCon (ht.lt_nextCon hc) hx)
    (fun _ hx => h.flattens.calm.below_of_nextCon h.nextCon (ht.lt_nextCon hc) hx)
    fun _ hx => h.flattens.calm.below_of_nextCon h.nextCon (ht.lt_nextCon hc) hx)

theorem around (h : Inside t t' c) (p : ConId) : Around t t' c p :=
  ⟨h.flattens, h.nextCon, h.alters.mono (fun _ hx => .inr hx) (fun _ hx => hx.within)
    fun _ hx => .inl hx.within⟩

end Inside

/-- Flattening a child is flattening inside its parent. -/
theorem Around.inside (h : Around t t' x c) (hx : x ∈ t.children c) : Inside t t' c where
  flattens := h.flattens.mono (Descent.Below.single hx).within
  nextCon := h.nextCon
  alters := h.alters.mono
    (fun _ hy => hy.elim (fun heq => heq ▸ .refl _) fun hy => ((Descent.Below.single hx).trans_within hy).within)
    (fun _ hy => (Descent.Below.single hx).trans_within hy)
    fun _ hy => hy.elim (fun hy => (Descent.Below.single hx).trans_within hy)
      fun hy => .single (List.mem_append_left _ hy.2)

/-- **Flattening the children** of a container one after another. -/
theorem inside_foldl {f : Tree → ConId → Tree}
    (hf : ∀ {t c p}, Healthy t → t.Reach p → c ∈ t.children p → Around t (f t c) c p) {l : List ConId}
    (ht : Healthy t) (hc : t.Reach c) (hl : l ⊆ t.children c) (hnodup : l.Nodup) :
    Inside t (l.foldl f t) c ∧ (l.foldl f t).Reach c := by
  induction l generalizing t with
  | nil => exact ⟨.refl ht c, hc⟩
  | cons x l ih =>
    obtain ⟨hxl, hnodup⟩ := List.nodup_cons.mp hnodup
    have hx : x ∈ t.children c := hl List.mem_cons_self
    have haround := hf ht hc hx
    have hflat := haround.flattens
    have hc' := hflat.reach hc (ht.rooted.acyclic.not_within (.single hx))
    have hl' : l ⊆ (f t x).children c := by
      intro y hy
      have hyc : y ∈ t.children c := hl (List.mem_cons_of_mem x hy)
      refine hflat.kept c y hyc (ht.rooted.acyclic.separate ht.rooted.parent hyc hx ?_ (.refl _))
      rintro rfl
      exact hxl hy
    obtain ⟨hrest, hreach⟩ := ih hflat.calm.healthy hc' hl' hnodup
    exact ⟨(haround.inside hx).trans hrest ht.rooted hc, hreach⟩

/-- **One pair from around.** -/
theorem around_flattenAt (ht : Healthy t) (h : Pair t p c d) (hc : (t.con c).type = .con)
    (hd : (t.con d).nodesHead ≠ []) : Around t (t.flattenAt cfg c p d) c p := by
  have hunfolds := @unfolds_flattenAt cfg t c d p ht h
  have hchild : Descent.Below t.children c d := .single (List.mem_append_left _ h.mem_child)
  have huprooted : ∀ x, t.Uprooted c d x → Descent.Within t.children c x := by
    rintro x (rfl | rfl | hx)
    · exact .refl x
    · exact hchild.within
    · exact (hchild.trans (.single (List.mem_append_left _ hx))).within
  refine ⟨flattens_flattenAt ht h hc hd, hunfolds.nextCon, hunfolds.alters.mono ?_ huprooted ?_⟩
  · rintro x (rfl | rfl | rfl)
    · exact .inl rfl
    · exact .inr (.refl x)
    · exact .inr hchild.within
  · exact fun x hx => hx.imp_left (huprooted x)

/-- **Flattening** changes nothing outside of a container, but for the list of its parent where the
container itself is redundant. -/
theorem treeFlattenN_spec (n : ℕ) (ht : Healthy t) (hc : t.Reach c) :
    (t.redundant c = none → Inside t (treeFlattenN cfg n t c) c)
      ∧ ∀ p, c ∈ t.children p → Around t (treeFlattenN cfg n t c) c p := by
  induction n generalizing t c with
  | zero => exact ⟨fun _ => .refl ht c, fun p _ => (Inside.refl ht c).around p⟩
  | succ n ih =>
    unfold treeFlattenN
    split
    · next q d heq =>
      obtain ⟨hpair, htype, hnodes⟩ := ht.rooted.redundant_spec hc heq
      refine ⟨fun hnone => absurd (heq.symm.trans hnone) nofun, fun p hp => ?_⟩
      obtain rfl : q = p := Option.some_inj.mp
        ((ht.rooted.parent q c (List.mem_append_left _ hpair.parent)).symm.trans (ht.rooted.parent p c hp))
      exact around_flattenAt ht hpair htype hnodes
    · have hstep : ∀ {t c p}, Healthy t → t.Reach p → c ∈ t.children p →
          Around t (treeFlattenN cfg n t c) c p := fun ht hp hc =>
        (ih ht (hp.tail hc).within).2 _ hc
      obtain ⟨hnodes, hreach⟩ := inside_foldl hstep ht hc (List.subset_append_left _ _) (ht.rooted.nodupNodes c)
      obtain ⟨hfloating, -⟩ := inside_foldl hstep hnodes.flattens.calm.healthy hreach
        (List.subset_append_right _ _) (hnodes.flattens.calm.healthy.rooted.nodupFloating c)
      have hinside := hnodes.trans hfloating ht.rooted hc
      exact ⟨fun _ => hinside, fun p _ => hinside.around p⟩

end Tree

end I3
