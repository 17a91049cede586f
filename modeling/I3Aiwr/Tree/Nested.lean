import I3Aiwr.Tree.Wrapped

/-!
# A strip whose only column is redundant

The only column is then replaced by the containers two levels down. They take its percentage, and the
first of their focus order comes first; the others follow in the order of the list.

## Main definitions

* `Tree.Nested q c d l f w t`: the only column `c` of `q` is redundant, and has the child `d`
* `Tree.Emerged q l f w t`: the containers `l` are the columns of `q`, all as wide

## Main results

* `Tree.emerged_treeFlatten`: flattening the tree
-/

namespace I3

namespace Tree

variable {cfg : Config} {t t' : Tree} {c d e p q x y ws : ConId} {l : List ConId}

/-! ### The focus stack of the parent -/

/-- The focus, if it is in a child of `p` other than `c`, is in the first of these. -/
structure OrderlyBut (p c : ConId) (t : Tree) : Prop where
  first : ∀ f ∈ t.focused, ∀ x ∈ t.children p, x ≠ c → Descent.Within t.children x f →
    ((t.con p).focusHead.erase c).head? = some x
  plain : ∀ x, Descent.Below t.children p x → (t.con x).type ≠ .dockarea ∧ t.isFloating x = false

section Close

variable (ht : Healthy t) (ho : OrderlyBut p c t)
include ht ho

/-- **Closing a child**: the others keep their focus order. -/
theorem closeAlone_focusHead_parent (hp : t.Reach p) (hc : c ∈ (t.con p).nodesHead) :
    ((t.closeAlone cfg c).con p).focusHead = (t.con p).focusHead.erase c
      ∧ Orderly p (t.closeAlone cfg c) := by
  have hr := ht.rooted
  have hmem : c ∈ t.children p := List.mem_append_left _ hc
  have hsits := hr.sits_of_mem hp hmem
  have hparent := hr.parent p c hmem
  have hsub := @closeOff_children_subset cfg t c
  have halters := @alters_closeAlone cfg _ _ _ hparent (hr.typeNodes p c hc)
  have hl := @links_closeAlone cfg t c
  have hxc : ∀ x ∈ (t.closeOff cfg c).children p, x ≠ c := by
    rintro x hx rfl
    exact notMem_children_closeOff ht p hx
  have hfocus := @closeAlone_focusHead_beside cfg t c p ht hsits hparent
  refine ⟨hfocus, ⟨fun f hf x hx hxf => ?_, fun x hx => ?_⟩⟩
  · rw [hl.mem_children] at hx
    rw [hl.within] at hxf
    rw [mem_heads, hfocus]
    rcases closeAlone_focused_cases ht hsits hf hx hxf with hafter | ⟨-, hfocused⟩
    · exact focusAfter_beside ht hsits hparent hafter (hsub p hx) (hxf.mono hsub)
    · exact ho.first f hfocused x (hsub p hx) (hxc x hx) (hxf.mono hsub)
  · rw [halters.type, isFloating, halters.floating]
    exact ho.plain x ((hx.mono fun _ _ => hl.mem_children.mp).mono hsub)

/-- **Closing the only child of a child**: the focus moves to that child at most. -/
theorem closeAlone_focusHead_inner (h : Pair t p c d) :
    ((t.closeAlone cfg d).con p).focusHead.erase c = (t.con p).focusHead.erase c
      ∧ OrderlyBut p c (t.closeAlone cfg d) := by
  have hr := ht.rooted
  have hsits := h.sits_child hr
  have hparent := hr.parent c d (List.mem_append_left _ h.mem_child)
  have htype : (t.con c).type ≠ .dockarea := (ho.plain c (.single (List.mem_append_left _ h.parent))).1
  have hsub := @closeOff_children_subset cfg t d
  have halters := @alters_closeAlone cfg _ _ _ hparent (hr.typeNodes c d h.mem_child)
  have hl := @links_closeAlone cfg t d
  have herase := @erase_closeAlone_inner cfg t c p d ht h htype
  refine ⟨herase, ⟨fun f hf x hx hne hxf => ?_, fun x hx => ?_⟩⟩
  · rw [hl.mem_children] at hx
    rw [hl.within] at hxf
    rw [herase]
    rcases closeAlone_focused_cases ht hsits hf hx hxf with hafter | ⟨-, hfocused⟩
    · exact (focusAfter_inner ht h htype hafter (hsub p hx) (hxf.mono hsub)).resolve_left hne
    · exact ho.first f hfocused x (hsub p hx) hne (hxf.mono hsub)
  · rw [halters.type, isFloating, halters.floating]
    exact ho.plain x ((hx.mono fun _ _ => hl.mem_children.mp).mono hsub)

end Close

/-! ### The pair -/

section Pair

variable (ht : Healthy t) (h : Pair t p c d)
include ht h

/-- **The children take the percentage** of the outer container when they move up. -/
theorem percent_foldl_liftChild (hl : (t.con d).nodesHead = l) (hx : x ∈ l) :
    ((l.foldl (liftChild c p) t).con x).percent = (t.con c).percent := by
  induction l generalizing t with
  | nil => cases hx
  | cons y l ih =>
    have hr := ht.rooted
    obtain ⟨hlift, hrest⟩ := lifts_liftChild ht h hl
    have hnodup := hr.nodupNodes d
    rw [hl] at hnodup
    obtain ⟨hyl, -⟩ := List.nodup_cons.mp hnodup
    have hyd : y ∈ t.children d := List.mem_append_left _ (by simp [hl])
    have hyc : y ≠ c := hr.acyclic.ne ((Descent.Below.single (List.mem_append_left _ h.mem_child)).trans
      (.single hyd))
    -- only the percentage of the one that moves changes
    have hself : ((t.liftChild c p y).con y).percent = (t.con c).percent := by
      rw [liftChild, setPercent, modify_con, if_pos rfl]
    have hother : ∀ z ≠ y, ((t.liftChild c p y).con z).percent = (t.con z).percent := fun z hz => by
      have hdetach : Alters (fun _ => True) (fun _ => False) (fun _ => False) t (t.conDetach y) :=
        .conDetach fun _ _ => trivial
      rw [(alters_liftChild (d := d)).percent z hz, hdetach.percent z id]
    rw [List.foldl_cons]
    rcases List.mem_cons.mp hx with rfl | hx
    · obtain ⟨pre, post, hp⟩ := List.append_of_mem hlift.pair.parent
      obtain ⟨hup, -⟩ := foldl_liftChild hlift.calm.healthy hlift.pair hrest hp
      rw [hup.percent x hyl, hself]
    · rw [ih hlift.calm.healthy hlift.pair hrest hx, hother c (Ne.symm hyc)]

/-- **Raising the children**: the first of their focus order is in front, and behind it the outer container. -/
theorem raisedTree_focusHead {next : ConId} {f : List ConId} (hq : (t.con p).focusHead = [c])
    (hd : (t.con d).focusHead = next :: f) (hnext : next ∈ (t.con d).nodesHead) :
    ((t.raisedTree p c d).con p).focusHead = next :: c :: (t.con d).nodesHead.erase next := by
  have hr := ht.rooted
  obtain ⟨hlifts, -⟩ := lifts_foldl ht h rfl
  have hfocus := hlifts.focusParent
  rw [hq, List.singleton_append] at hfocus
  have hne : next ≠ c := hr.acyclic.ne ((Descent.Below.single (List.mem_append_left _ h.mem_child)).trans
    (.single (List.mem_append_left _ hnext)))
  have hfront : Queue.toFront next (c :: (t.con d).nodesHead) = next :: c :: (t.con d).nodesHead.erase next := by
    rw [Queue.toFront, if_pos (List.mem_cons_of_mem c hnext), List.erase_cons_tail (by simpa using hne.symm)]
  rw [raisedTree, hd, List.head?_cons]
  unfold restoreFocus
  dsimp only
  rw [if_pos (by rw [hfocus, List.head?_cons]), editFocus_focusHead, if_pos rfl, hfocus, hfront]

end Pair

/-- The only column `c` of `q` is redundant: its only child `d` has the children `l`, with the focus order
`f`. -/
structure Nested (q c d : ConId) (l f : List ConId) (w : ℚ) (t : Tree) : Prop where
  nodesHead : (t.con q).nodesHead = [c]
  focusHead : (t.con q).focusHead = [c]
  redundant : t.redundant c = some (q, d)
  children : (t.con d).nodesHead = l
  percent : (t.con c).percent = w
  orderly : Orderly q t
  focuses : Focuses d f t

/-- The containers `l` are the columns of `q`, all as wide, and `f` is their focus order. -/
structure Emerged (q : ConId) (l f : List ConId) (w : ℚ) (t : Tree) : Prop where
  nodesHead : (t.con q).nodesHead = l
  focusHead : (t.con q).focusHead = f
  percent : ∀ d ∈ l, (t.con d).percent = w
  orderly : Orderly q t

section Emerge

variable {next : ConId} {f : List ConId} {w : ℚ}

/-- The pair of a strip. -/
theorem Nested.pair (hi : Nested q c d l f w t) (h : Strip q ws t) : Pair t q c d := by
  have hmem : c ∈ t.children q := List.mem_append_left _ (by simp [hi.nodesHead])
  exact (h.healthy.rooted.redundant_spec (d := d) (h.reach.tail hmem).within hi.redundant).1

/-- **Raising the children of a strip**: the focus, if it is in one of them, is in the first. -/
theorem orderlyBut_raisedTree (h : Strip q ws t) (hi : Nested q c d l (next :: f) w t) (hnext : next ∈ l) :
    OrderlyBut q c (t.raisedTree q c d) := by
  have ht := h.healthy
  have hpair := hi.pair h
  have hraised : Raised t (t.raisedTree q c d) q c d := raised_spec ht hpair
  obtain ⟨halters, hnodes, -⟩ := @unfolds_raisedTree t c d q ht hpair
  have hchild := hi.children
  have hfocus := raisedTree_focusHead ht hpair hi.focusHead hi.focuses.1 (hchild ▸ hnext)
  have hqlt := ht.rooted.lt_nextCon h.reach
  have hne : next ≠ c := ht.rooted.acyclic.ne ((Descent.Below.single (List.mem_append_left _ hpair.mem_child)).trans
    (.single (List.mem_append_left _ (hchild ▸ hnext))))
  refine ⟨fun g hg x hx hxc hxg => ?_, fun x hx => ?_⟩
  · -- what is there besides `c` are the containers that have moved up
    have htypeq : ((t.raisedTree q c d).con q).type ≠ .workspace := by
      rw [hraised.calm.type q hqlt, h.type]
      exact nofun
    rw [hraised.calm.healthy.layered.children_eq htypeq, hnodes [] [] hi.nodesHead] at hx
    have hxd : x ∈ (t.con d).nodesHead := by
      rcases List.mem_append.mp hx with hx | hx
      · simpa using hx
      · exact absurd (List.mem_singleton.mp hx) hxc
    have hxmem : x ∈ t.children d := List.mem_append_left _ hxd
    have hwithin := hraised.calm.within_of_nextCon hraised.nextCon (ht.rooted.bounded d x hxmem) hxg
    have hhead := hi.focuses.2.first g (hraised.focused ▸ hg) x hxmem hwithin
    rw [mem_heads, hi.focuses.1, List.head?_cons] at hhead
    rw [hfocus, List.erase_cons_tail (by simpa using hne), List.head?_cons, hhead]
  · rw [halters.type, isFloating, halters.floating]
    exact hi.orderly.plain x (hraised.calm.below_of_nextCon hraised.nextCon hqlt hx)

/-- **Removing the pair of a strip.** -/
theorem emerged_flattenAt (h : Strip q ws t) (hi : Nested q c d l (next :: f) w t) (hnext : next ∈ l) :
    Emerged q l (next :: l.erase next) w (t.flattenAt cfg c q d) := by
  have ht := h.healthy
  have hpair := hi.pair h
  have hr : Raised t (t.raisedTree q c d) q c d := raised_spec ht hpair
  have hchild := hi.children
  have hfocus := raisedTree_focusHead ht hpair hi.focusHead hi.focuses.1 (hchild ▸ hnext)
  rw [hchild] at hfocus
  have ho := orderlyBut_raisedTree h hi hnext
  have hunfolds := (@unfolds_flattenAt cfg t c d q ht hpair).nodesHead [] [] hi.nodesHead
  have hstirs := (stirs_calmDown (t.raisedTree q c d) c).trans (stirs_calmDown _ d)
  have hsame := (sameFocus_calmDown (t.raisedTree q c d) c).trans (sameFocus_calmDown _ d)
  have hqlt := ht.rooted.lt_nextCon h.reach
  have hmemd := ht.rooted.acyclic
  have hne : next ≠ c := hmemd.ne ((Descent.Below.single (List.mem_append_left _ hpair.mem_child)).trans
    (.single (List.mem_append_left _ (hchild ▸ hnext))))
  have heq : t.flattenAt cfg c q d = (t.raisedTree q c d).treeCloseInternal cfg c .dontKillWindow true := rfl
  rw [heq, treeCloseInternal_pair (Nat.zero_lt_of_lt hr.calm.healthy.rooted.boundedRoot) hr.pair.child
    hr.childless] at hunfolds ⊢
  -- the percentages of the containers that have moved up
  have hpercent : ∀ x ∈ l, ((t.raisedTree q c d).con x).percent = w := by
    intro x hx
    have hrestore := stirs_restoreFocus ((t.con d).nodesHead.foldl (liftChild c q) t) c q (t.con d).focusHead.head?
    rw [raisedTree, hrestore.percent, hchild, percent_foldl_liftChild ht hpair hchild hx, hi.percent]
  obtain ⟨u, hu⟩ : ∃ u, ((t.raisedTree q c d).calmDown c).calmDown d = u := ⟨_, rfl⟩
  rw [hu] at hstirs hsame hunfolds ⊢
  have hl := hstirs.links
  have hhealthy := hr.calm.healthy.links hl
  have hupair : Pair u q c d := ⟨by rw [hl.nodesHead]; exact hr.pair.parent,
    (hl.nodesHead c).trans hr.pair.child, hl.reach.mpr hr.pair.reach⟩
  have hufocus : (u.con q).focusHead = next :: c :: l.erase next := (hsame.focusHead q).trans hfocus
  have hobut : OrderlyBut q c u := by
    refine ⟨fun g hg x hx hxc hxg => ?_, fun x hx => ?_⟩
    · rw [hsame.focusHead]
      exact ho.first g (hsame.focused ▸ hg) x (hl.mem_children.mp hx) hxc (hl.within.mp hxg)
    · rw [hl.type, isFloating, hstirs.floating]
      exact ho.plain x (hx.mono fun _ _ => hl.mem_children.mp)
  -- the inner container is closed, and then the outer one
  have hur := hhealthy.rooted
  have hdsits := hupair.sits_child hur
  obtain ⟨herase, hobut'⟩ := @closeAlone_focusHead_inner cfg _ _ _ _ hhealthy hobut hupair
  obtain ⟨hcalm, -⟩ := @calm_closeAlone cfg u d hhealthy hdsits.2
  have hparentd := hur.parent c d (List.mem_append_left _ hupair.mem_child)
  have htyped := hur.typeNodes c d hupair.mem_child
  have hreach := @reach_closeAlone cfg _ _ _ hur hupair.reach (hur.acyclic.not_within hupair.below_child)
  have hcnodes : c ∈ ((u.closeAlone cfg d).con q).nodesHead := by
    rw [closeAlone_nodesHead hparentd htyped, if_neg (hupair.ne_parent hur).symm]
    exact hupair.parent
  have hufocus' : (u.con q).focusHead.erase c = next :: l.erase next := by
    rw [hufocus, List.erase_cons_tail (by simpa using hne), List.erase_cons_head]
  rw [hufocus'] at herase
  obtain ⟨hend, horderly⟩ := @closeAlone_focusHead_parent cfg _ _ _ hcalm.healthy hobut' hreach hcnodes
  refine ⟨by simpa [hchild] using hunfolds, hend.trans herase, fun x hx => ?_, horderly⟩
  obtain ⟨hclose, -⟩ := @unfolds_closePair cfg u c d q hhealthy hupair
  rw [hclose.percent x ?_, hstirs.percent, hpercent x hx]
  have hxd : x ≠ d := (ht.rooted.acyclic.ne (.single (List.mem_append_left _ (hchild ▸ hx))))
  rintro (heq | ⟨hlayout, -⟩)
  · exact hxd heq
  · obtain ⟨halters, -, -⟩ := @unfolds_raisedTree t c d q ht hpair
    exact hlayout (by rw [hstirs.layout, halters.layout, h.layout])

/-- **Flattening elsewhere** leaves the focus order of what is in the strip. -/
theorem focuses_elsewhere (n : ℕ) (h : Strip q ws t) (hi : Focuses d f t) (hqd : Descent.Within t.children q d)
    (hy : t.Reach y) (hyq : ¬ Descent.Within t.children y q) (hqy : ¬ Descent.Within t.children q y) :
    Focuses d f (treeFlattenN cfg n t y) := by
  induction n generalizing t y with
  | zero => exact hi
  | succ n ih =>
    have ht := h.healthy.rooted
    have hyd : ¬ Descent.Within t.children y d := fun hw =>
      (Descent.within_total ht.parent hqd hw).elim hqy hyq
    cases hred : t.redundant y with
    | some r =>
      obtain ⟨p, e⟩ := r
      obtain ⟨hpair, -, -⟩ := ht.redundant_spec hy hred
      unfold treeFlattenN
      rw [hred]
      have hye : Descent.Below t.children y e := .single (List.mem_append_left _ hpair.mem_child)
      have hpy : y ∈ t.children p := List.mem_append_left _ hpair.parent
      have hdreach : t.Reach d := h.reach.trans hqd
      obtain ⟨hfocus, ho⟩ := (@unfolds_flattenAt cfg t y e p h.healthy hpair).orderly d hdreach (by
        rintro (rfl | rfl | rfl)
        · exact hqy (hqd.tail hpy).within
        · exact hyd (.refl d)
        · exact hyd hye.within) hi.2
      exact ⟨hfocus.trans hi.1, ho⟩
    | none =>
      -- what is beside or below `y` is elsewhere, too
      let I : Tree → Prop := fun t => Focuses d f t ∧ Descent.Within t.children q d
        ∧ ¬ Descent.Within t.children q y
      have hstep : ∀ {t z}, Strip q ws t → I t → t.Reach y → z ∈ t.children y →
          ¬ Descent.Within t.children z q → I (treeFlattenN cfg n t z) := by
        rintro t z h ⟨hi, hqd, hqy⟩ hyr hz hzq
        have ht := h.healthy.rooted
        have hzreach := (hyr.tail hz).within
        have hqz : ¬ Descent.Within t.children q z := by
          intro hw
          rcases Descent.within_iff.mp hw with rfl | hbelow
          · exact hzq (.refl z)
          · exact hqy (Descent.within_parent ht.parent hbelow (ht.parent y z hz))
        have haround := (@treeFlattenN_spec cfg t z n h.healthy hzreach).2 y hz
        refine ⟨ih h hi hqd hzreach hzq hqz, haround.flattens.within (fun hzd => ?_) hqd, fun hw => hqy ?_⟩
        · exact (Descent.within_total ht.parent hqd hzd).elim hqz hzq
        · exact haround.flattens.calm.within_of_nextCon haround.nextCon (ht.lt_nextCon h.reach) hw
      refine (strip_children hstep h ⟨hi, hqd, hqy⟩ hy hred fun z hz hzq => hyq ?_).2.1
      exact ((Descent.Below.single (List.mem_append_left _ hz)).trans_within hzq).within

theorem keptElsewhere_nested : KeptElsewhere cfg q ws (Nested q c d l f w) := by
  intro t y n h hi hy hyq hqy
  have ht := h.healthy.rooted
  obtain ⟨p, hmem⟩ := h.exists_parent hy hyq
  have haround := (@treeFlattenN_spec cfg t y n h.healthy hy).2 p hmem
  have hun := @undisturbed_elsewhere cfg t q y ws n h hi.orderly hy hyq hqy
  have hcq : c ∈ t.children q := List.mem_append_left _ (by simp [hi.nodesHead])
  have hpair := hi.pair h
  have hqd : Descent.Within t.children q d := hpair.below_child.within
  have hnot : ¬ (d = p ∨ Descent.Within t.children y d) := by
    rintro (rfl | hyd)
    · exact hqy (hqd.tail hmem).within
    · exact (Descent.within_total ht.parent hqd hyd).elim hqy hyq
  refine ⟨by rw [hun.nodesHead, hi.nodesHead], by rw [hun.focusHead, hi.focusHead], ?_, ?_, ?_, hun.orderly, ?_⟩
  · rw [(haround.unfolded_elsewhere ht hmem hyq hqy hcq).1, hi.redundant]
  · rw [haround.alters.nodesHead d hnot, hi.children]
  · rw [hun.percent c (by simp [hi.nodesHead]), hi.percent]
  · exact focuses_elsewhere n h hi.focuses hqd hy hyq hqy

theorem keptElsewhere_emerged : KeptElsewhere cfg q ws (Emerged q l f w) := by
  intro t y n h hi hy hyq hqy
  have hun := @undisturbed_elsewhere cfg t q y ws n h hi.orderly hy hyq hqy
  refine ⟨by rw [hun.nodesHead, hi.nodesHead], by rw [hun.focusHead, hi.focusHead], fun e he => ?_, hun.orderly⟩
  rw [hun.percent e (by rwa [hi.nodesHead]), hi.percent e he]

theorem arrives_emerged (hnext : next ∈ l) :
    Arrives cfg q ws (Nested q c d l (next :: f) w) (Emerged q l (next :: l.erase next) w) := by
  intro t n h hi
  have ht := h.healthy.rooted
  have hcq : c ∈ t.children q := List.mem_append_left _ (by simp [hi.nodesHead])
  have hemerged := @emerged_flattenAt cfg _ _ _ _ _ _ _ _ _ h hi hnext
  have hstrip := @Strip.treeFlattenN cfg _ _ _ _ _ h (n + 1) (h.reach.tail hcq).within
    (ht.acyclic.not_within (.single hcq)) hcq
  have hone : treeFlattenN cfg (n + 1) t c = t.flattenAt cfg c q d := by
    unfold treeFlattenN
    rw [hi.redundant]
  unfold treeFlattenN
  rw [redundant_scrolling h.layout]
  dsimp only
  rw [hi.nodesHead, List.foldl_cons, List.foldl_nil, hstrip.floatingHead, List.foldl_nil, hone]
  exact hemerged

/-- **Flattening the tree** around a strip whose only column is redundant. -/
theorem emerged_treeFlatten (h : Strip q ws t) (hi : Nested q c d l (next :: f) w t) (hnext : next ∈ l) :
    Strip q ws (t.treeFlatten cfg t.croot)
      ∧ Emerged q l (next :: l.erase next) w (t.treeFlatten cfg t.croot) := by
  have hcq : c ∈ t.children q := List.mem_append_left _ (by simp [hi.nodesHead])
  exact strip_treeFlatten keptElsewhere_nested keptElsewhere_emerged (arrives_emerged hnext) h hi hcq

end Emerge

end Tree

end I3
