import I3Aiwr.Lib.Recent
import I3Aiwr.Tree.Attach

/-!
# The focus stacks

What `con_focus` does to the focus stacks: on each level above the container, the child that leads
to it moves to the front, and nothing else does. Urgency and the scroll leave the stacks alone.

## Main definitions

* `Tree.Stacked`: every child is in the focus stack of its parent
* `Tree.SameFocus t t'`: the focus and the focus stacks are the same
* `Tree.towards c q`: the child of `q` that leads to `c`

## Main results

* `Tree.Rooted.conFocus_focusHead`: the focus stacks after `con_focus`
* `Tree.Rooted.towards_eq_some`: the child that leads to a container
-/

namespace I3

namespace Tree

variable {cfg : Config} {t t' t'' : Tree} {c p q x : ConId}

/-- Every child is in the focus stack of its parent. -/
def Stacked (t : Tree) : Prop := ∀ p, t.children p ⊆ (t.con p).focusHead

namespace Stacked

theorem links (hs : Stacked t) (h : Links t t') : Stacked t' := fun q _ hx =>
  (h.focusHead q).mem_iff.mpr (hs q (h.mem_children.mp hx))

theorem conDetach (hs : Stacked t) (ht : Rooted t) (c : ConId) : Stacked (t.conDetach c) := by
  intro q x hx
  obtain ⟨hx, hxc⟩ := (ht.mem_children_conDetach c).mp hx
  exact (ht.mem_focusHead_conDetach c).mpr ⟨hs q hx, hxc⟩

theorem conFree (hs : Stacked t) (c : ConId) : Stacked (t.conFree c) := by
  intro q x hx
  rw [conFree_children] at hx
  rw [conFree_con]
  exact hs q hx

theorem attaches (hs : Stacked t) (h : Attaches t t' c p) : Stacked t' := fun q _ hx =>
  h.mem_focusHead.mpr ((h.mem_children.mp hx).imp_left fun hx => hs q hx)

theorem creates (hs : Stacked t) (h : Creates t t' c) : Stacked t' := by
  intro q x hx
  have hq : q ≠ t.nextCon := by
    rintro rfl
    simp [h.children_new] at hx
  rw [h.focusHead q hq]
  exact hs q (h.children_subset q hx)

end Stacked

theorem stacked_ofList {l : List Con} {focused : Option ConId}
    (hlist : ∀ p < l.length, (ofList l focused).children p ⊆ ((ofList l focused).con p).focusHead) :
    Stacked (ofList l focused) := by
  intro p
  by_cases hp : p < l.length
  · exact hlist p hp
  · rw [children, ofList_con hp]
    exact List.nil_subset _

/-! ### What leaves the stacks alone -/

theorem setUrgent_focusHead (urgent : Bool) :
    ((t.setUrgent c urgent).con q).focusHead = (t.con q).focusHead := by
  rw [setUrgent, modify_con]
  split <;> rfl

theorem updateUrgencyOf_focusHead (urgent : Bool) (ps : List ConId) (t : Tree) :
    ((updateUrgencyOf urgent ps t).con q).focusHead = (t.con q).focusHead := by
  induction ps generalizing t with
  | nil => rfl
  | cons p ps ih =>
    rw [updateUrgencyOf]
    split
    · rfl
    · rw [ih]
      split
      · exact setUrgent_focusHead true
      · split
        · rfl
        · exact setUrgent_focusHead false

theorem updateParentsUrgency_focusHead :
    ((t.updateParentsUrgency c).con q).focusHead = (t.con q).focusHead := by
  rw [updateParentsUrgency]
  split
  · rfl
  · exact updateUrgencyOf_focusHead _ _ t

theorem workspaceUpdateUrgentFlag_focusHead (ws : Option ConId) :
    ((t.workspaceUpdateUrgentFlag ws).con q).focusHead = (t.con q).focusHead := by
  cases ws with
  | none => rfl
  | some ws => exact setUrgent_focusHead _

theorem conSetUrgency_focusHead (urgent : Bool) :
    ((t.conSetUrgency c urgent).con q).focusHead = (t.con q).focusHead := by
  rw [conSetUrgency]
  split
  · rfl
  · dsimp only
    rw [workspaceUpdateUrgentFlag_focusHead, updateParentsUrgency_focusHead]
    split
    · rfl
    · exact setUrgent_focusHead urgent

theorem clearUrgency_focusHead : ((t.clearUrgency c).con q).focusHead = (t.con q).focusHead := by
  rw [clearUrgency, workspaceUpdateUrgentFlag_focusHead, updateParentsUrgency_focusHead,
    conSetUrgency_focusHead]

/-- The focus and the focus stacks are the same. -/
structure SameFocus (t t' : Tree) : Prop where
  focused : t'.focused = t.focused
  focusHead : ∀ q, (t'.con q).focusHead = (t.con q).focusHead

namespace SameFocus

@[refl] theorem refl (t : Tree) : SameFocus t t := ⟨rfl, fun _ => rfl⟩

theorem trans (h : SameFocus t t') (h' : SameFocus t' t'') : SameFocus t t'' :=
  ⟨h'.focused.trans h.focused, fun q => (h'.focusHead q).trans (h.focusHead q)⟩

theorem of_modify (t : Tree) (c : ConId) (f : Con → Con)
    (h : (f (t.con c)).focusHead = (t.con c).focusHead) : SameFocus t (t.modify c f) := by
  refine ⟨rfl, fun q => ?_⟩
  by_cases hq : q = c
  · subst hq
    rw [modify_con_self, h]
  · rw [modify_con_of_ne _ _ hq]

theorem foldl {f : Tree → ConId → Tree} (h : ∀ t c, SameFocus t (f t c)) (l : List ConId)
    (t : Tree) : SameFocus t (l.foldl f t) := by
  induction l generalizing t with
  | nil => exact .refl t
  | cons c l ih => exact (h t c).trans (ih _)

end SameFocus

theorem sameFocus_setPercent (t : Tree) (c : ConId) (percent : ℚ) :
    SameFocus t (t.setPercent c percent) := .of_modify t c _ rfl

theorem sameFocus_percentFill (n : ℕ) (l : List ConId) (t : Tree) (total : ℚ) :
    SameFocus t (percentFill n l t total).1 := by
  induction l generalizing t total with
  | nil => exact .refl t
  | cons c l ih =>
    rw [percentFill]
    split
    · exact (sameFocus_setPercent t c _).trans (ih _ _)
    · exact ih t total

theorem sameFocus_percentScale (nodes : List ConId) (t : Tree) (total : ℚ) :
    SameFocus t (percentScale nodes (t, total)) := by
  rw [percentScale]
  split
  · exact .foldl (fun t c => sameFocus_setPercent t c _) nodes t
  · split
    · exact .foldl (fun t c => sameFocus_setPercent t c _) nodes t
    · exact .refl t

theorem sameFocus_conFixPercent (t : Tree) (c : ConId) : SameFocus t (t.conFixPercent c) := by
  rw [conFixPercent]
  split
  · exact .refl t
  · dsimp only
    split
    · exact (sameFocus_percentFill _ _ t _).trans (sameFocus_percentScale _ _ _)
    · exact sameFocus_percentScale _ t _

theorem sameFocus_treeRender (t : Tree) : SameFocus t (t.treeRender cfg) := ⟨rfl, fun _ => rfl⟩

theorem sameFocus_conFree (t : Tree) (c : ConId) : SameFocus t (t.conFree c) := by
  refine ⟨?_, fun q => by rw [conFree_con]⟩
  rw [conFree, scrollingForget]
  split
  · split <;> rfl
  · rfl

theorem sameFocus_clearUrgency (t : Tree) (c : ConId) : SameFocus t (t.clearUrgency c) :=
  ⟨clearUrgency_focused c, fun _ => clearUrgency_focusHead⟩

theorem sameFocus_conSetUrgency (t : Tree) (c : ConId) (urgent : Bool) :
    SameFocus t (t.conSetUrgency c urgent) :=
  ⟨conSetUrgency_focused c urgent, fun _ => conSetUrgency_focusHead urgent⟩

theorem sameFocus_updateParentsUrgency (t : Tree) (c : ConId) :
    SameFocus t (t.updateParentsUrgency c) :=
  ⟨updateParentsUrgency_focused c, fun _ => updateParentsUrgency_focusHead⟩

theorem setScrollOffset_focusHead (offset : ℚ) :
    ((t.setScrollOffset c offset).con q).focusHead = (t.con q).focusHead := by
  rw [setScrollOffset, modify_con]
  split <;> rfl

theorem scrollToOffset_focusHead (target : ℚ) :
    ((t.scrollToOffset cfg c target).con q).focusHead = (t.con q).focusHead := by
  have hcancel : (t.scrollCancel.con q).focusHead = (t.con q).focusHead := by
    rw [scrollCancel]
    split <;> rfl
  unfold scrollToOffset
  dsimp only
  split
  · rfl
  · split
    · rw [setScrollOffset_focusHead, hcancel]
    · split
      · exact hcancel
      · exact (setScrollOffset_focusHead _).trans hcancel

theorem scrollingOnFocus_focusHead :
    ((t.scrollingOnFocus cfg c).con q).focusHead = (t.con q).focusHead := by
  rw [scrollingOnFocus]
  split
  · rfl
  · rw [scrollingReveal]
    split
    · rfl
    · split
      · rfl
      · split
        · rfl
        · exact scrollToOffset_focusHead _

theorem focusHere_focusHead : ((t.focusHere cfg c).con q).focusHead = (t.con q).focusHead := by
  rw [focusHere, scrollingOnFocus_focusHead]
  split
  · exact clearUrgency_focusHead
  · rfl

/-! ### Focusing -/

/-- The container among those from `c` upwards that is a child of `q`, at most `n` containers up. -/
def towardsN (t : Tree) (n : ℕ) (c q : ConId) : Option ConId :=
  (t.chainN n c).find? fun x => (t.con x).parent = some q

/-- The child of `q` that leads to `c`. -/
def towards (t : Tree) (c q : ConId) : Option ConId := t.towardsN t.nextCon c q

theorem Links.chainN (h : Links t t') (n : ℕ) : t'.chainN n c = t.chainN n c := by
  induction n generalizing c with
  | zero => rfl
  | succ n ih =>
    rw [Tree.chainN, Tree.chainN, h.parent]
    split
    · rfl
    · rw [ih]

theorem Links.towardsN (h : Links t t') (n : ℕ) : t'.towardsN n c q = t.towardsN n c q := by
  rw [Tree.towardsN, Tree.towardsN, h.chainN]
  simp only [h.parent]

namespace Rooted

variable (ht : Rooted t)
include ht

theorem towardsN_eq_some {n : ℕ} (hc : t.Reach c) (h : t.towardsN n c q = some x) :
    x ∈ t.children q ∧ Descent.Within t.children x c := by
  have hx := ht.within_of_mem_chainN hc (List.mem_of_find?_eq_some h)
  refine ⟨?_, hx⟩
  have hp : (t.con x).parent = some q := by simpa using List.find?_some h
  rcases Descent.within_total ht.parent hx hc with hroot | hreach
  · rcases Descent.within_iff.mp hroot with rfl | hbelow
    · rw [ht.parentRoot] at hp
      cases hp
    · obtain ⟨r, -, hr⟩ := Descent.below_iff_exists.mp hbelow
      exact absurd hr ht.notMem_children_croot
  · exact ht.mem_children_of_parent hreach hp

/-- **The child that leads to a container** is the one that is at or above it. -/
theorem towards_eq_some (hc : t.Reach c) :
    t.towards c q = some x ↔ x ∈ t.children q ∧ Descent.Within t.children x c := by
  refine ⟨ht.towardsN_eq_some hc, fun ⟨hx, hxc⟩ => ?_⟩
  have hmem : x ∈ t.chain c := (ht.mem_chain hc).mpr hxc
  have hsome : (t.towards c q).isSome := by
    rw [towards, towardsN, List.find?_isSome]
    exact ⟨x, hmem, by simpa using ht.parent q x hx⟩
  obtain ⟨y, hy⟩ := Option.isSome_iff_exists.mp hsome
  obtain ⟨hyq, hyc⟩ := ht.towardsN_eq_some hc hy
  -- two children of one container have nothing in common
  by_contra hne
  refine ht.acyclic.separate ht.parent hx hyq ?_ hxc hyc
  rintro rfl
  exact hne hy

theorem conFocusN_focusHead (n : ℕ) (hc : t.Reach c) :
    ((conFocusN cfg n t c).con q).focusHead
      = Recent.bring (t.towardsN n c q) (t.con q).focusHead := by
  induction n generalizing t c with
  | zero => rfl
  | succ n ih =>
    unfold conFocusN
    split
    · next hnone =>
      rw [towardsN, chainN, hnone, List.find?_cons, hnone]
      rfl
    · next p hp =>
      have hlinks := (stirs_toFront t c p).links
      have hreach := ht.reach_parent hc hp
      have hmem := ht.mem_children_of_parent hc hp
      dsimp only
      rw [focusHere_focusHead, towardsN, chainN, hp, List.find?_cons, hp]
      by_cases hpq : p = q
      · -- nothing above `p` is a child of `p`
        subst hpq
        have hnone : t.towardsN n p p = none := by
          by_contra hsome
          obtain ⟨y, hy⟩ := Option.ne_none_iff_exists'.mp hsome
          obtain ⟨hyp, hyp'⟩ := ht.towardsN_eq_some hreach hy
          exact ht.acyclic.not_within (.single hyp) hyp'
        split
        · rw [ih (ht.links hlinks) (hlinks.reach.mpr hreach), hlinks.towardsN, hnone]
          simp [Recent.bring]
        · simp [Recent.bring]
      · have hne : decide (some p = some q) = false := by simpa using hpq
        rw [hne]
        split
        · rw [ih (ht.links hlinks) (hlinks.reach.mpr hreach), hlinks.towardsN, editFocus_focusHead,
            if_neg (Ne.symm hpq), towardsN]
        · next hroot =>
          -- above the root there is nothing
          rw [editFocus_focusHead, if_neg (Ne.symm hpq)]
          rw [editFocus_parent, Option.not_isSome_iff_eq_none] at hroot
          cases n with
          | zero => rfl
          | succ n => simp [chainN, hroot, Recent.bring]

/-- **The focus stacks after `con_focus`**: on each level the child that leads to the container has
moved to the front. -/
theorem conFocus_focusHead (hc : t.Reach c) :
    ((t.conFocus cfg c).con q).focusHead = Recent.bring (t.towards c q) (t.con q).focusHead :=
  ht.conFocusN_focusHead _ hc

end Rooted

end Tree

end I3
