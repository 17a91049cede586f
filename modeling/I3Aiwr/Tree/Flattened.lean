import I3Aiwr.Lib.Walk
import I3Aiwr.Tree.Percent
import I3Aiwr.Tree.Representation
import I3Aiwr.Tree.Unfold

/-!
# What flattening keeps

Where `tree_flatten` removes a pair of redundant containers, the leaves keep their order and the
orientation they stand in, and following the focus stacks leads to the same leaf as before. The percentages
of the parent's children sum up to 1 again, unless it scrolls: then they are widths, and
`con_fix_percent` leaves them alone.

## Main definitions

* `Tree.LeadsTo p m`: the first entries of the focus stacks lead from `p` down to `m`
* `Tree.KeepsContent t t' p c d`: the leaves, their orientation and the focus are the same

## Main results

* `Tree.keepsContent_flattenAt`: removing one pair
* `Tree.keepsContent_treeFlatten`
-/

namespace I3

namespace Tree

variable {cfg : Config} {t t' : Tree} {c d m n p q x y : ConId}

/-- The first entries of the focus stacks lead from `p` to `m`, where there is no further entry. -/
def LeadsTo (t : Tree) (p m : ConId) : Prop := t.Foremost p m ∧ (t.con m).focusHead = []

/-- Without the pair `c` and `d` the leaves below `p` are the same, every other container stands in a
container of the same orientation, and the focus stacks lead to the same leaf. -/
structure KeepsContent (t t' : Tree) (p c d : ConId) : Prop where
  leaves : t'.leaves p = t.leaves p
  orientation : ∀ x, x ≠ c → x ≠ d → (t'.con x).parent.bind t'.orientation = (t.con x).parent.bind t.orientation
  focus : ∃ m, t.LeadsTo p m ∧ t'.LeadsTo p m

/-! ### Leaves -/

theorem leavesN_eq (t : Tree) (n : ℕ) :
    t.leavesN n = Walk.leaves (fun x => (t.con x).nodesHead) t.isLeaf n := by
  induction n with
  | zero => rfl
  | succ n ih =>
    ext1 c
    rw [leavesN, Walk.leaves, ih]

theorem Rooted.acyclic_nodes (ht : Rooted t) : Descent.Acyclic fun x => (t.con x).nodesHead :=
  ht.acyclic.mono fun _ => List.subset_append_left _ _

/-- The leaves of a container are those of its children. -/
theorem Rooted.leaves_eq (ht : Rooted t) (hc : c < t.nextCon) :
    t.leaves c = if t.isLeaf c then [c] else (t.con c).nodesHead.flatMap t.leaves := by
  have hleaves : t.leaves = Walk.leaves (fun x => (t.con x).nodesHead) t.isLeaf t.nextCon := leavesN_eq t t.nextCon
  rw [hleaves, Walk.leaves_eq ht.acyclic_nodes (fun p x hx => ht.bounded p x (List.mem_append_left _ hx)) hc]

theorem Rooted.leaves_of_nodes (ht : Rooted t) (hc : c < t.nextCon) (hne : (t.con c).nodesHead ≠ []) :
    t.leaves c = (t.con c).nodesHead.flatMap t.leaves := by
  rw [ht.leaves_eq hc, if_neg (by simpa [isLeaf] using hne)]

/-- Where no list below a container has changed, its leaves have not. -/
theorem leaves_congr (ht : Rooted t) (ht' : Rooted t') (hnext : t'.nextCon = t.nextCon) (hx : x < t.nextCon)
    (hsame : ∀ y, Descent.Within t.children x y → (t'.con y).nodesHead = (t.con y).nodesHead) :
    t'.leaves x = t.leaves x := by
  revert hsame
  refine Walk.induction ht.acyclic_nodes (fun p x hx => ht.bounded p x (List.mem_append_left _ hx))
    (P := fun x => (∀ y, Descent.Within t.children x y → (t'.con y).nodesHead = (t.con y).nodesHead) →
      t'.leaves x = t.leaves x) (fun p hp ih hsame => ?_) hx
  have hnodes := hsame p (.refl p)
  rw [ht.leaves_eq hp, ht'.leaves_eq (hnext.symm ▸ hp), isLeaf, isLeaf, hnodes]
  split
  · rfl
  · refine List.flatMap_congr fun y hy => ih y hy fun z hz => hsame z ?_
    exact ((Descent.Below.single (List.mem_append_left _ hy)).trans_within hz).within

section Pair

variable (ht : Healthy t) (h : Pair t p c d)
include ht h

/-- The pair and its parent are not below another child of the parent. -/
theorem Pair.not_edited_beside (hx : x ∈ t.children p) (hne : x ≠ c) (hy : Descent.Within t.children x y) :
    ¬ Edited p c d y := by
  have hr := ht.rooted
  have hpc : c ∈ t.children p := List.mem_append_left _ h.parent
  have hcd : Descent.Below t.children c d := .single (List.mem_append_left _ h.mem_child)
  rintro (rfl | rfl | rfl)
  · exact hr.acyclic.not_within (.single hx) hy
  · exact hr.acyclic.separate hr.parent hx hpc hne hy (.refl _)
  · exact hr.acyclic.separate hr.parent hx hpc hne hy hcd.within

/-- Nor are they below a child of the inner container. -/
theorem Pair.not_edited_below (hx : x ∈ t.children d) (hy : Descent.Within t.children x y) :
    ¬ Edited p c d y := by
  have hr := ht.rooted
  have hcd : Descent.Below t.children c d := .single (List.mem_append_left _ h.mem_child)
  have hdx : Descent.Below t.children d x := .single hx
  rintro (rfl | rfl | rfl)
  · exact hr.acyclic.not_within (h.below_child.trans hdx) hy
  · exact hr.acyclic.not_within (hcd.trans hdx) hy
  · exact hr.acyclic.not_within hdx hy

/-- **The leaves** are the same, in their order. -/
theorem Unfolds.leaves (hu : Unfolds t t' p c d) (ht' : Rooted t') (hne : (t.con d).nodesHead ≠ []) :
    t'.leaves p = t.leaves p := by
  have hr := ht.rooted
  obtain ⟨pre, post, hp⟩ := List.append_of_mem h.parent
  have hnodes := hu.nodesHead pre post hp
  have hplt := hr.lt_nextCon h.reach
  have hclt := hr.lt_nextCon (h.sits hr).1
  have hdlt := hr.lt_nextCon (h.sits_child hr).1
  have hsame : ∀ x, x < t.nextCon → (∀ y, Descent.Within t.children x y → ¬ Edited p c d y) →
      t'.leaves x = t.leaves x := fun x hx hnot =>
    leaves_congr hr ht' hu.nextCon hx fun y hy => hu.alters.nodesHead y (hnot y hy)
  have hbeside : ∀ x ∈ (t.con p).nodesHead, x ≠ c → t'.leaves x = t.leaves x := fun x hx hxc =>
    hsame x (hr.bounded p x (List.mem_append_left _ hx)) fun y hy =>
      h.not_edited_beside ht (List.mem_append_left _ hx) hxc hy
  have hbelow : ∀ x ∈ (t.con d).nodesHead, t'.leaves x = t.leaves x := fun x hx =>
    hsame x (hr.bounded d x (List.mem_append_left _ hx)) fun y hy =>
      h.not_edited_below ht (List.mem_append_left _ hx) hy
  have hc : t.leaves c = (t.con d).nodesHead.flatMap t.leaves := by
    rw [hr.leaves_of_nodes hclt (by simp [h.child]), h.child, List.flatMap_singleton, hr.leaves_of_nodes hdlt hne]
  have hnodup := hr.nodupNodes p
  rw [hp] at hnodup
  have hcpre : c ∉ pre := fun hmem => List.disjoint_of_nodup_append hnodup hmem List.mem_cons_self
  have hcpost : c ∉ post := (List.nodup_cons.mp hnodup.of_append_right).1
  rw [ht'.leaves_of_nodes (hu.nextCon.symm ▸ hplt) (by simp [hnodes, hne]),
    hr.leaves_of_nodes hplt (by simp [hp]), hnodes, hp, List.flatMap_append, List.flatMap_append,
    List.flatMap_append, List.flatMap_cons, hc, List.append_assoc]
  congr 1
  · exact List.flatMap_congr fun x hx => hbeside x (by simp [hp, hx]) fun heq => hcpre (heq ▸ hx)
  · congr 1
    · exact List.flatMap_congr hbelow
    · exact List.flatMap_congr fun x hx => hbeside x (by simp [hp, hx]) fun heq => hcpost (heq ▸ hx)

/-- **Every other container** stands in one of the same orientation. -/
theorem Unfolds.orientation (hu : Unfolds t t' p c d) (ht' : Rooted t')
    (horient : t.orientation d = t.orientation p) (hxc : x ≠ c) (hxd : x ≠ d) :
    (t'.con x).parent.bind t'.orientation = (t.con x).parent.bind t.orientation := by
  have hsame : t'.orientation = t.orientation := funext hu.alters.orientation
  rw [hsame]
  by_cases hx : x ∈ (t.con d).nodesHead
  · obtain ⟨pre, post, hp⟩ := List.append_of_mem h.parent
    have hmem : x ∈ (t'.con p).nodesHead := by
      rw [hu.nodesHead pre post hp]
      simp [hx]
    rw [ht'.parent p x (List.mem_append_left _ hmem), ht.rooted.parent d x (List.mem_append_left _ hx),
      Option.bind_some, Option.bind_some, horient]
  · rw [hu.alters.parent x]
    rintro (heq | heq | hmem)
    · exact hxc heq
    · exact hxd heq
    · exact hx hmem

end Pair

/-! ### The focus -/

theorem Rooted.exists_leadsTo (ht : Rooted t) (hp : p < t.nextCon) : ∃ m, t.LeadsTo p m := by
  refine Walk.induction ht.acyclic ht.bounded (P := fun p => ∃ m, t.LeadsTo p m) (fun p _ ih => ?_) hp
  cases hfocus : (t.con p).focusHead with
  | nil => exact ⟨p, .refl p, hfocus⟩
  | cons x l =>
    have hx : x ∈ t.heads p := mem_heads.mpr (by rw [hfocus, List.head?_cons])
    obtain ⟨m, hxm, hm⟩ := ih x (ht.heads_subset p hx)
    exact ⟨m, .head hx hxm, hm⟩

/-- There is one leaf that the first entries lead to. -/
theorem LeadsTo.unique {m' : ConId} (h : t.LeadsTo x m) (h' : t.LeadsTo x m') : m = m' := by
  obtain ⟨hxm, hm⟩ := h
  obtain ⟨hxm', hm'⟩ := h'
  -- no step leads on from a leaf
  have hend : ∀ {y z}, (t.con y).focusHead = [] → z ∉ t.heads y := by
    intro y z hy hz
    rw [mem_heads, hy] at hz
    cases hz
  revert hxm'
  refine Relation.ReflTransGen.head_induction_on hxm (fun hm' => ?_) fun {y z} hz _ ih hym' => ?_
  · rcases Relation.ReflTransGen.cases_head hm' with heq | ⟨z, hz, -⟩
    · exact heq
    · exact absurd hz (hend hm)
  · rcases Relation.ReflTransGen.cases_head hym' with rfl | ⟨z', hz', hzm'⟩
    · exact absurd hz (hend hm')
    · exact ih (heads_unique hz hz' ▸ hzm')

/-- Where no first entry on the way has changed, the first entries lead to the same leaf. -/
theorem LeadsTo.of_heads (h : t.LeadsTo x m)
    (hsame : ∀ y, t.Foremost x y → (t'.con y).focusHead.head? = (t.con y).focusHead.head?) : t'.LeadsTo x m := by
  obtain ⟨hxm, hm⟩ := h
  refine ⟨?_, List.head?_eq_none_iff.mp (by rw [hsame m hxm, hm, List.head?_nil])⟩
  have hdown : ∀ y, t.Foremost x y → t.Foremost y m → t'.Foremost y m := by
    intro y hxy hym
    revert hxy
    refine Relation.ReflTransGen.head_induction_on hym (fun _ => .refl _) fun {y z} hz _ ih hxy => ?_
    refine .head ?_ (ih (hxy.tail hz).within)
    rwa [heads, hsame y hxy, ← heads]
  exact hdown x (.refl x) hxm

/-- Where no focus stack below a container has changed, they lead to the same leaf. -/
theorem LeadsTo.congr (h : t.LeadsTo x m) (ht : Rooted t)
    (hsame : ∀ y, Descent.Within t.children x y → (t'.con y).focusHead = (t.con y).focusHead) :
    t'.LeadsTo x m :=
  h.of_heads fun y hy => by rw [hsame y (ht.within_of_foremost hy)]

section Close

variable (ht : Healthy t) (h : Pair t p c d)
include ht h

/-- **Closing the pair** leaves the order of the others in the focus stack of the parent, and the focus
stacks of what is not above the pair. -/
theorem closePair_focusHead (htype : (t.con c).type = .con) :
    (((t.closeAlone cfg d).closeAlone cfg c).con p).focusHead = (t.con p).focusHead.erase c
      ∧ ∀ q, ¬ Edited p c d q → ¬ Descent.Below t.children q p →
        (((t.closeAlone cfg d).closeAlone cfg c).con q).focusHead = (t.con q).focusHead := by
  have hr := ht.rooted
  have hcsits := h.sits hr
  have hdsits := h.sits_child hr
  have hpc : c ∈ t.children p := List.mem_append_left _ h.parent
  have hcd : d ∈ t.children c := List.mem_append_left _ h.mem_child
  have hparentc : (t.con c).parent = some p := hr.parent p c hpc
  have hparentd : (t.con d).parent = some c := hr.parent c d hcd
  obtain ⟨hcalm, -⟩ := @calm_closeAlone cfg t d ht hdsits.2
  have halters := @alters_closeAlone cfg _ _ _ hparentd (hr.typeNodes c d h.mem_child)
  have hsits : (t.closeAlone cfg d).Sits c :=
    ⟨reach_closeAlone hr hcsits.1 (hr.acyclic.not_within (.single hcd)), by rw [hcalm.croot]; exact hcsits.2⟩
  have hparent : ((t.closeAlone cfg d).con c).parent = some p := by
    rw [halters.parent c (h.ne_child hr).symm, hparentc]
  have hsub : ∀ q, (t.closeAlone cfg d).children q ⊆ t.children q := fun q x hx =>
    closeOff_children_subset t d q (links_closeAlone.mem_children.mp hx)
  refine ⟨?_, fun q hedit hqp => ?_⟩
  · rw [closeAlone_focusHead_beside hcalm.healthy hsits hparent]
    exact erase_closeAlone_inner ht h (by simp [htype])
  · have hqc : ¬ Descent.Below t.children q c := by
      intro hbelow
      rcases Descent.within_iff.mp (Descent.within_parent hr.parent hbelow hparentc) with heq | hbelow
      · exact hedit (.inl heq.symm)
      · exact hqp hbelow
    have hqd : ¬ Descent.Below t.children q d := by
      intro hbelow
      rcases Descent.within_iff.mp (Descent.within_parent hr.parent hbelow hparentd) with heq | hbelow
      · exact hedit (.inr (.inl heq.symm))
      · exact hqc hbelow
    rw [closeAlone_focusHead_elsewhere hcalm.healthy hsits fun hbelow => hqc (hbelow.mono hsub),
      closeAlone_focusHead_elsewhere ht hdsits hqd]

omit ht h in
/-- The pair is closed, one container after the other. -/
theorem flattenAt_eq (ht' : Raised t (t.raisedTree p c d) p c d) : t.flattenAt cfg c p d
    = ((((t.raisedTree p c d).calmDown c).calmDown d).closeAlone cfg d).closeAlone cfg c := by
  have hpos := Nat.zero_lt_of_lt ht'.calm.healthy.rooted.boundedRoot
  exact treeCloseInternal_pair hpos ht'.pair.child ht'.childless

/-- **The focus stacks after flattening**: in that of the parent the outer container is missing, and what
is not above the pair has the same as before. -/
theorem flattenAt_focusHead (htype : (t.con c).type = .con) :
    ((t.flattenAt cfg c p d).con p).focusHead = ((t.raisedTree p c d).con p).focusHead.erase c
      ∧ ∀ q, t.Reach q → ¬ Edited p c d q → ¬ Descent.Below t.children q p →
        ((t.flattenAt cfg c p d).con q).focusHead = (t.con q).focusHead := by
  have hraised : Raised t (t.raisedTree p c d) p c d := raised_spec ht h
  have hr := hraised.calm.healthy
  obtain ⟨hlifts, -⟩ := lifts_foldl ht h rfl
  have hstirs := (stirs_calmDown (t.raisedTree p c d) c).trans (stirs_calmDown _ d)
  have hsame := (sameFocus_calmDown (t.raisedTree p c d) c).trans (sameFocus_calmDown _ d)
  rw [flattenAt_eq hraised]
  generalize ((t.raisedTree p c d).calmDown c).calmDown d = u at hstirs hsame ⊢
  have hl := hstirs.links
  have hpair : Pair u p c d := ⟨by rw [hl.nodesHead]; exact hraised.pair.parent,
    (hl.nodesHead c).trans hraised.pair.child, hl.reach.mpr hraised.pair.reach⟩
  have htypeu : (u.con c).type = .con := by
    rw [hl.type, hraised.calm.type c (ht.rooted.lt_nextCon (h.sits ht.rooted).1), htype]
  obtain ⟨hparent, helse⟩ := @closePair_focusHead cfg u c d p (hr.links hl) hpair htypeu
  refine ⟨by rw [hparent, hsame.focusHead], fun q hq hedit hqp => ?_⟩
  rw [helse q hedit, hsame.focusHead, raisedTree, restoreFocus_focusHead _ _ fun heq => hedit (.inl heq),
    hlifts.focusHead q (fun heq => hedit (.inl heq)) fun heq => hedit (.inr (.inr heq))]
  intro hbelow
  refine hqp (hraised.calm.below_of_nextCon hraised.nextCon (ht.rooted.lt_nextCon hq) ?_)
  exact hbelow.mono fun _ _ => hl.mem_children.mp

/-- **The focus stacks lead to the same leaf.** -/
theorem flattenAt_leadsTo (hs : Stacked t) (htype : (t.con c).type = .con) (hd : (t.con d).type ≠ .workspace)
    (hne : (t.con d).nodesHead ≠ []) : ∃ m, t.LeadsTo p m ∧ (t.flattenAt cfg c p d).LeadsTo p m := by
  have hr := ht.rooted
  obtain ⟨hlifts, -⟩ := lifts_foldl ht h rfl
  obtain ⟨hparent, helse⟩ := @flattenAt_focusHead cfg t c d p ht h htype
  have hpc : c ∈ t.children p := List.mem_append_left _ h.parent
  -- on the way down from a child of `p` or `d` nothing has changed
  have hdown : ∀ x m, Descent.Below t.children p x → (∀ y, Descent.Within t.children x y → ¬ Edited p c d y) →
      t.LeadsTo x m → (t.flattenAt cfg c p d).LeadsTo x m := by
    intro x m hpx hnot hxm
    refine hxm.congr hr fun y hy => helse y ?_ (hnot y hy) fun hyp => ?_
    · exact h.reach.trans (hpx.trans_within hy).within
    · exact hr.acyclic.not_within (hpx.trans_within hy) hyp.within
  obtain ⟨z, hz⟩ := hs.exists_mem_heads hpc
  by_cases hzc : z = c
  · -- the first entry of the inner container takes the place of the outer one
    subst hzc
    obtain ⟨w, hw⟩ := List.exists_mem_of_ne_nil _ hne
    obtain ⟨e, he⟩ := hs.exists_mem_heads (List.mem_append_left _ h.mem_child)
    obtain ⟨f, hf⟩ := hs.exists_mem_heads (List.mem_append_left _ hw)
    obtain rfl : e = d := by
      have hmem := hr.heads_subset z he
      rw [ht.layered.children_eq (by simp [htype] : (t.con z).type ≠ .workspace), h.child] at hmem
      exact List.mem_singleton.mp hmem
    have hfe : f ∈ (t.con e).nodesHead := by
      rw [← ht.layered.children_eq hd]
      exact hr.heads_subset e hf
    have hef : Descent.Below t.children e f := .single (List.mem_append_left _ hfe)
    have hfz : f ≠ z := hr.acyclic.ne ((Descent.Below.single (List.mem_append_left _ h.mem_child)).trans hef)
    obtain ⟨m, hm⟩ := hr.exists_leadsTo (hr.bounded e f (List.mem_append_left _ hfe))
    refine ⟨m, ⟨.head hz (.head he (.head hf hm.1)), hm.2⟩, ?_⟩
    have hm' := hdown f m (h.below_child.trans hef)
      (fun y hy => h.not_edited_below ht (List.mem_append_left _ hfe) hy) hm
    refine ⟨.head (mem_heads.mpr ?_) hm'.1, hm'.2⟩
    have hfirst : (((t.con e).nodesHead.foldl (liftChild z p) t).con p).focusHead.head? = some z := by
      rw [hlifts.focusParent, List.head?_append, mem_heads.mp hz, Option.some_or]
    have hmem : f ∈ (((t.con e).nodesHead.foldl (liftChild z p) t).con p).focusHead := by
      rw [hlifts.focusParent]
      exact List.mem_append_right _ hfe
    have hrestore : (((t.con e).nodesHead.foldl (liftChild z p) t).restoreFocus z p (some f))
        = ((t.con e).nodesHead.foldl (liftChild z p) t).editFocus p (Queue.toFront f) := if_pos hfirst
    rw [hparent, raisedTree, mem_heads.mp hf, hrestore, editFocus_focusHead, if_pos rfl, Queue.toFront, if_pos hmem,
      List.erase_cons_tail (by simpa using hfz), List.head?_cons]
  · have hzp : z ∈ t.children p := hr.heads_subset p hz
    obtain ⟨m, hm⟩ := hr.exists_leadsTo (hr.bounded p z hzp)
    refine ⟨m, ⟨.head hz hm.1, hm.2⟩, ?_⟩
    have hm' := hdown z m (.single hzp) (fun y hy => h.not_edited_beside ht hzp hzc hy) hm
    refine ⟨.head (mem_heads.mpr ?_) hm'.1, hm'.2⟩
    have hfirst : z ∈ (((t.con d).nodesHead.foldl (liftChild c p) t).heads p) := by
      rw [mem_heads, hlifts.focusParent, List.head?_append, mem_heads.mp hz, Option.some_or]
    have hkeep := restoreFocus_heads (c := c) (p := p) (t.con d).focusHead.head? hfirst (.inr hzc)
    obtain ⟨l, hl⟩ := List.head?_eq_some_iff.mp (mem_heads.mp hkeep)
    rw [hparent, raisedTree, hl, List.erase_cons_tail (by simpa using hzc), List.head?_cons]

end Close

/-! ### The percentages -/

/-- **Closing a child** of a container that does not scroll leaves percentages that sum up to 1. -/
theorem percentSum_closeAlone (hp : (t.con c).parent = some p) (htype : (t.con c).type ≠ .floatingCon)
    (hlayout : (t.con p).layout ≠ .scrolling) (hnodup : (t.con p).nodesHead.Nodup)
    (hne : (t.con p).nodesHead.erase c ≠ []) :
    (t.closeAlone cfg c).percentSum ((t.closeAlone cfg c).con p).nodesHead = 1 := by
  have hoff : (t.closeOff cfg c).percentSum ((t.con p).nodesHead.erase c) = 1 := by
    have hwindow := links_setWindow t c none
    have hlay : ((t.setWindow c none).con p).layout = (t.con p).layout :=
      (Alters.setWindow (N := fun _ => False) (R := fun _ => True) (Q := fun _ => False) trivial none).layout p
    have hp' : ((t.setWindow c none).con c).parent = some p := (hwindow.parent c).trans hp
    have htype' : ((t.setWindow c none).con c).type ≠ .floatingCon := by rwa [hwindow.type]
    have hdetach := conDetach_nodesHead hp' htype' p
    rw [if_pos rfl, hwindow.nodesHead] at hdetach
    have htimer := stirs_stopUrgencyTimer (t := (t.setWindow c none).conDetach c) c ((t.setWindow c none).getWorkspace c)
    generalize hu : ((t.setWindow c none).conDetach c).stopUrgencyTimer c ((t.setWindow c none).getWorkspace c) = u
      at htimer
    have hnodes : (u.con p).nodesHead = (t.con p).nodesHead.erase c := by rw [htimer.nodesHead, hdetach]
    have hparent : (u.con c).parent = some p := by rw [htimer.parent, conDetach_parent, hp']
    have htypeu : (u.con c).type ≠ .floatingCon := by rwa [htimer.type, conDetach_type]
    have hlayoutu : (u.con p).layout ≠ .scrolling := by
      have halters : Alters (fun _ => True) (fun _ => True) (fun _ => True) (t.setWindow c none)
          ((t.setWindow c none).conDetach c) := .conDetach fun _ _ => trivial
      rwa [htimer.layout, halters.layout, hlay]
    have hsum := percentSum_conFixPercent hlayoutu (by rwa [hnodes]) (by rw [hnodes]; exact hnodup.erase c)
    rw [hnodes] at hsum
    have hclose : (t.setWindow c none).closeDetach cfg c true = u.conFixPercent p := by
      rw [closeDetach]
      simp only [hu, hparent, if_neg htypeu, if_true]
    rw [closeOff, hclose, ← hsum]
    apply percentSum_congr
    intro x _
    rw [conFree_con]
  have hnodes := @closeAlone_nodesHead cfg _ _ _ hp htype p
  rw [if_pos rfl] at hnodes
  rw [hnodes, ← hoff]
  apply percentSum_congr
  intro x _
  rw [closeAlone]
  split
  · rfl
  · exact (stirs_conActivate cfg _ _).percent x

/-- The parent's percentages sum up to 1 after flattening, unless it scrolls. -/
theorem percentSum_flattenAt (ht : Healthy t) (h : Pair t p c d) (hne : (t.con d).nodesHead ≠ [])
    (hlayout : (t.con p).layout ≠ .scrolling) :
    (t.flattenAt cfg c p d).percentSum ((t.flattenAt cfg c p d).con p).nodesHead = 1 := by
  have hraised : Raised t (t.raisedTree p c d) p c d := raised_spec ht h
  obtain ⟨hup, hupnodes, -⟩ := unfolds_raisedTree ht h
  have hstirs := (stirs_calmDown (t.raisedTree p c d) c).trans (stirs_calmDown _ d)
  rw [flattenAt_eq hraised]
  generalize ((t.raisedTree p c d).calmDown c).calmDown d = u at hstirs ⊢
  have hl := hstirs.links
  have hu := hraised.calm.healthy.links hl
  have hr := hu.rooted
  have hpair : Pair u p c d := ⟨by rw [hl.nodesHead]; exact hraised.pair.parent,
    (hl.nodesHead c).trans hraised.pair.child, hl.reach.mpr hraised.pair.reach⟩
  have hparentd : (u.con d).parent = some c := hr.parent c d (List.mem_append_left _ hpair.mem_child)
  have htyped := hr.typeNodes c d hpair.mem_child
  have halters := @alters_closeAlone cfg _ _ _ hparentd htyped
  have hnodes := @closeAlone_nodesHead cfg _ _ _ hparentd htyped p
  rw [if_neg (hpair.ne_parent hr).symm] at hnodes
  have hnodup := hr.nodupNodes p
  apply percentSum_closeAlone
  · rw [halters.parent c (hpair.ne_child hr).symm, hr.parent p c (List.mem_append_left _ hpair.parent)]
  · rw [halters.type]
    exact hr.typeNodes p c hpair.parent
  · rwa [halters.layout, hstirs.layout, hup.layout]
  · rwa [hnodes]
  · -- the children that have moved up are left
    obtain ⟨x, hx⟩ := List.exists_mem_of_ne_nil _ hne
    obtain ⟨pre, post, hp⟩ := List.append_of_mem h.parent
    have hxc : x ≠ c := ht.rooted.acyclic.ne ((Descent.Below.single (List.mem_append_left _ h.mem_child)).trans
      (.single (List.mem_append_left _ hx)))
    refine List.ne_nil_of_mem ((List.mem_erase_of_ne hxc).mpr ?_)
    rw [hnodes, hl.nodesHead, hupnodes pre post hp]
    simp [hx]

/-! ### The redundant pair -/

/-- What makes the pair redundant besides its place. -/
theorem redundant_orientation (h : t.redundant c = some (p, d)) : t.orientation d = t.orientation p := by
  unfold redundant at h
  split at h
  · split at h
    · next hif =>
      cases h
      obtain ⟨-, -, -, -, -, -, -, -, horient⟩ := hif
      exact horient
    · cases h
  · cases h

/-- **What flattening keeps**: the leaves of the parent in their order, the orientation they stand in, and
the leaf that the focus stacks lead to. The percentages sum up to 1, unless the parent scrolls. -/
theorem keepsContent_treeFlatten (cfg : Config) (t : Tree) (p c d : ConId) (ht : Healthy t) (hs : Stacked t)
    (hc : t.Reach c) (hred : t.redundant c = some (p, d)) (hd : (t.con d).type ≠ .workspace) :
    KeepsContent t (t.treeFlatten cfg c) p c d
      ∧ ((t.con p).layout ≠ .scrolling →
        (t.treeFlatten cfg c).percentSum ((t.treeFlatten cfg c).con p).nodesHead = 1) := by
  obtain ⟨hpair, htype, hne⟩ := ht.rooted.redundant_spec hc hred
  have hflatten : t.treeFlatten cfg c = t.flattenAt cfg c p d := by
    obtain ⟨n, hn⟩ := Nat.exists_eq_succ_of_ne_zero (Nat.zero_lt_of_lt ht.rooted.boundedRoot).ne'
    rw [treeFlatten, hn, treeFlattenN, hred]
  have hu : Unfolds t (t.flattenAt cfg c p d) p c d := unfolds_flattenAt ht hpair
  have ht' := (@flattens_flattenAt cfg t c p d ht hpair htype hne).calm.healthy.rooted
  rw [hflatten]
  refine ⟨⟨hu.leaves ht hpair ht' hne, fun x hxc hxd => ?_, flattenAt_leadsTo ht hpair hs htype hd hne⟩, ?_⟩
  · exact hu.orientation ht hpair ht' (redundant_orientation hred) hxc hxd
  · exact percentSum_flattenAt ht hpair hne

/-! ### A pair in a column of a scrolling container -/

/-- A scrolling workspace with a redundant pair, `4` and `5`, beside another column. -/
def pairColumn (layout : Layout) : Tree := ofList [
  { type := .root, nodesHead := [1], focusHead := [1] },
  { type := .output, layout := .output, parent := some 0, nodesHead := [2], focusHead := [2] },
  { layout := .splith, parent := some 1, nodesHead := [3], focusHead := [3] },
  { type := .workspace, layout := layout, name := "1", fullscreenMode := .output, parent := some 2,
    nodesHead := [4, 8], focusHead := [4, 8] },
  { layout := .splitv, parent := some 3, percent := 1 / 2, nodesHead := [5], focusHead := [5] },
  { layout := .splith, parent := some 4, percent := 1, nodesHead := [6, 7], focusHead := [7, 6] },
  { layout := .splith, parent := some 5, percent := 1 / 2, window := some { id := 6 } },
  { layout := .splith, parent := some 5, percent := 1 / 2, window := some { id := 7 } },
  { layout := .splith, parent := some 3, percent := 1 / 2, window := some { id := 8 } }] (some 7)

theorem healthy_pairColumn (layout : Layout) (hl : layout ∈ [.splith, .scrolling]) :
    Healthy (pairColumn layout) ∧ Stacked (pairColumn layout) ∧ (pairColumn layout).Reach 4 := by
  have hroot : Rooted (pairColumn layout) := by
    apply rooted_ofList
    · revert layout
      decide +kernel
    · revert layout
      decide +kernel
  have hchain : List.IsChain (fun q c => c ∈ (pairColumn layout).children q) [0, 1, 2, 3, 4] := by
    clear hroot
    revert layout
    decide +kernel
  refine ⟨healthy_ofList (3 < ·) hroot ?_, stacked_ofList ?_, reach_of_isChain reach_croot hchain (by simp)⟩
  · clear hroot hchain
    revert layout
    decide +kernel
  · clear hroot hchain
    revert layout
    decide +kernel

/-- The pair of a workspace that is split. -/
theorem keepsContent_pairColumn :
    KeepsContent (pairColumn .splith) ((pairColumn .splith).treeFlatten {} 4) 3 4 5
      ∧ (((pairColumn .splith).con 3).layout ≠ .scrolling →
        ((pairColumn .splith).treeFlatten {} 4).percentSum
          (((pairColumn .splith).treeFlatten {} 4).con 3).nodesHead = 1) :=
  have h := healthy_pairColumn .splith (by decide)
  keepsContent_treeFlatten {} (pairColumn .splith) 3 4 5 h.1 h.2.1 h.2.2 (by decide +kernel) (by decide +kernel)

/-- The widths of the columns of a scrolling workspace are more than 1 together afterwards. -/
theorem not_sum_pairColumn : ¬ ∀ (cfg : Config) (t : Tree) (p c d : ConId), Healthy t → Stacked t →
    t.Reach c → t.redundant c = some (p, d) → (t.con d).type ≠ .workspace →
      KeepsContent t (t.treeFlatten cfg c) p c d
        ∧ (t.treeFlatten cfg c).percentSum ((t.treeFlatten cfg c).con p).nodesHead = 1 := by
  intro h
  have hhealthy := healthy_pairColumn .scrolling (by decide)
  have hsum := (h {} (pairColumn .scrolling) 3 4 5 hhealthy.1 hhealthy.2.1 hhealthy.2.2 (by decide +kernel)
    (by decide +kernel)).2
  exact absurd hsum (by decide +kernel)

end Tree

end I3
