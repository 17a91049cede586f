import I3Aiwr.Tree.Foremost

/-!
# Flattening the tree

`tree_flatten` removes pairs of redundant split containers: a split container with a single child
that is split the other way, the way the parent of both is. The children of the inner one move up
in front of the outer one, and the two are closed.

Nothing comes below a container it was not below before, and what is foremost stays foremost: the
first entry of the inner container's focus stack takes the place of the outer one.

## Main definitions

* `Tree.redundant con`: the parent and the child of a redundant container
* `Tree.flattenAt`, `Tree.treeFlatten`
* `Tree.Flattens t t' c`: what flattening below `c` does

## Main results

* `Tree.flattens_flattenAt`: removing one pair
* `Tree.flattens_treeFlatten`: the recursion
-/

namespace I3

namespace Tree

variable (cfg : Config) (t : Tree)

/-- The parent of a redundant container, and its child. -/
def redundant (con : ConId) : Option (ConId × ConId) :=
  match (t.con con).parent, (t.con con).nodesHead with
  | some parent, [child] =>
    if (t.con con).type = .con ∧ (t.con parent).layout ≠ .output ∧ (t.con con).window = none
        ∧ t.isSplit con ∧ t.isSplit child
        ∧ ((t.con con).layout = .splith ∨ (t.con con).layout = .splitv)
        ∧ ((t.con child).layout = .splith ∨ (t.con child).layout = .splitv)
        ∧ t.orientation con ≠ t.orientation child ∧ t.orientation child = t.orientation parent then
      some (parent, child)
    else none
  | _, _ => none

/-- One of the children is attached to the parent, before `con`. -/
def liftChild (con parent : ConId) (t : Tree) (current : ConId) : Tree :=
  (((((t.conDetach current).setParent current parent).editNodes parent
    (Queue.insertBefore con current)).editFocus parent (· ++ [current])).setPercent current
    (t.con con).percent)

/-- The focus is restored if it was on `con`. -/
def restoreFocus (con parent : ConId) (focusNext : Option ConId) : Tree :=
  match focusNext with
  | none => t
  | some next =>
    if (t.con parent).focusHead.head? = some con then t.editFocus parent (Queue.toFront next) else t

/-- The pair is removed. -/
def flattenAt (con parent child : ConId) : Tree :=
  (((t.con child).nodesHead.foldl (liftChild con parent) t).restoreFocus con parent
    (t.con child).focusHead.head?).treeCloseInternal cfg con .dontKillWindow true

/-- `tree_flatten`, at most `n` levels down. The children that come after one stay where they are
while it is flattened. -/
def treeFlattenN : ℕ → Tree → ConId → Tree
  | 0, t, _ => t
  | n + 1, t, con => match t.redundant con with
    | some (parent, child) => t.flattenAt cfg con parent child
    | none =>
      let t := (t.con con).nodesHead.foldl (treeFlattenN n) t
      (t.con con).floatingHead.foldl (treeFlattenN n) t

/-- `tree_flatten`. -/
def treeFlatten (con : ConId) : Tree := treeFlattenN cfg t.nextCon t con

variable {cfg : Config} {t t' t'' : Tree} {c p q x ws : ConId}

/-- **A container attached higher up** than before is a calm change. -/
theorem calm_of_attaches (ht : Healthy t) (hx : t.Reach x) (h : Attaches (t.conDetach x) t' x p)
    (hp : Descent.Below t.children p x) (htype : (t.con x).type ≠ .floatingCon) : Calm t t' := by
  have hsub := conDetach_children_subset (t := t) x
  have hnot : ¬ Descent.Within (t.conDetach x).children x p := fun h' =>
    ht.rooted.acyclic.not_within hp (h'.mono hsub)
  have hdetach := calm_conDetach ht x
  have hne : x ≠ t.croot := fun h' => by
    subst h'
    obtain ⟨q, -, hq⟩ := Descent.below_iff_exists.mp hp
    exact ht.rooted.notMem_children_croot hq
  have hrooted : Rooted t' := by
    refine (ht.rooted.conDetach x).attaches h (ht.rooted.notMem_children_conDetach x) hnot
      (fun y hy => ?_) ?_ (by simpa using hne)
    · rw [Alive, conDetach_allCons]
      exact ht.rooted.alive y (hx.trans (hy.mono hsub))
    · simpa using ht.rooted.lt_nextCon hx
  have hlayered : Layered t' := by
    refine (ht.layered.conDetach x).attaches h hnot (fun w hw hwp y hy => ?_) fun h' => ?_
    · rw [conDetach_type] at hw ⊢
      exact ht.layered.workspace w hw y
        (((hwp.mono hsub).trans_below hp).trans_within (hy.mono hsub))
    · exact absurd (by simpa using h') htype
  refine ⟨⟨hrooted, hlayered, fun w hlt hw => ?_⟩, ?_, ?_, fun d _ => ?_, fun d _ => .inl ?_,
    fun d _ => ?_, fun d hd hd' => ?_, fun q _ y _ hy => ?_⟩
  · rw [h.nextCon, conDetach_nextCon] at hlt
    rw [h.type, h.croot, conDetach_type, conDetach_croot] at hw
    rw [h.fullscreenMode, conDetach_fullscreenMode]
    exact ht.global w hlt hw
  · rw [h.croot, conDetach_croot]
  · rw [h.nextCon, conDetach_nextCon]
  · rw [h.type, conDetach_type]
  · rw [h.fullscreenMode, conDetach_fullscreenMode]
  · rw [h.sticky, conDetach_sticky]
  · rw [h.nextCon, conDetach_nextCon] at hd'
    exact absurd hd' hd.not_gt
  · rcases Descent.below_of_insert h.inserts hnot hy with hy | ⟨hqp, hxy⟩
    · exact hy.mono hsub
    · exact ((hqp.mono hsub).trans_below hp).trans_within (hxy.mono hsub)

/-! ### The children move up -/

/-- The pair: `d` is the only child of `c`, and `c` a child of `p`. -/
structure Pair (t : Tree) (p c d : ConId) : Prop where
  parent : c ∈ (t.con p).nodesHead
  child : (t.con c).nodesHead = [d]
  reach : t.Reach p

namespace Pair

variable {d : ConId} (h : Pair t p c d) (ht : Rooted t)
include h

theorem mem_child : d ∈ (t.con c).nodesHead := by simp [h.child]

theorem below_child : Descent.Below t.children p d :=
  (Descent.Below.single (List.mem_append_left _ h.parent)).trans
    (.single (List.mem_append_left _ h.mem_child))

include ht

theorem ne_parent : c ≠ p := ht.acyclic.ne (.single (List.mem_append_left _ h.parent))

theorem ne_child : d ≠ c := ht.acyclic.ne (.single (List.mem_append_left _ h.mem_child))

theorem child_ne_parent : d ≠ p := ht.acyclic.ne h.below_child

theorem sits : t.Sits c := ht.sits_of_mem h.reach (List.mem_append_left _ h.parent)

theorem sits_child : t.Sits d := ht.sits_of_mem (h.sits ht).1 (List.mem_append_left _ h.mem_child)

end Pair

/-- The containers `l` have moved up from `d` to `p`, in front of `c`. -/
structure Lifts (t t' : Tree) (p c d : ConId) (l : List ConId) : Prop where
  calm : Calm t t'
  nextCon : t'.nextCon = t.nextCon
  stacked : Stacked t → Stacked t'
  focused : t'.focused = t.focused
  pair : Pair t' p c d
  subset : ∀ q, q ≠ p → t'.children q ⊆ t.children q
  kept : ∀ q, q ≠ d → t.children q ⊆ t'.children q
  focusParent : (t'.con p).focusHead = (t.con p).focusHead ++ l
  focusHead : ∀ q, q ≠ p → q ≠ d → (t'.con q).focusHead = (t.con q).focusHead

section Lift

variable {d : ConId} (ht : Healthy t) (h : Pair t p c d)
include ht h

/-- **One child moves up.** -/
theorem lifts_liftChild {l : List ConId} (hl : (t.con d).nodesHead = x :: l) :
    Lifts t (t.liftChild c p x) p c d [x] ∧ ((t.liftChild c p x).con d).nodesHead = l := by
  have hr := ht.rooted
  have hxd : x ∈ (t.con d).nodesHead := by simp [hl]
  have hparent : (t.con x).parent = some d := hr.parent d x (List.mem_append_left _ hxd)
  have htype : (t.con x).type ≠ .floatingCon := hr.typeNodes d x hxd
  have hpx : Descent.Below t.children p x :=
    h.below_child.trans (.single (List.mem_append_left _ hxd))
  have hreach : t.Reach x := (h.reach.trans_below hpx).within
  have hcp := h.ne_parent hr
  have hdc := h.ne_child hr
  have hdp := h.child_ne_parent hr
  have hxc : x ≠ c := (hr.acyclic.ne ((Descent.Below.single (List.mem_append_left _ h.mem_child)).trans
    (.single (List.mem_append_left _ hxd))))
  have hsame : SameFocus _ (t.liftChild c p x) := sameFocus_setPercent _ x (t.con c).percent
  have hlinks : Links _ (t.liftChild c p x) := links_setPercent _ x (t.con c).percent
  -- the container stands in front of `c`, which stays in the list of `p`
  have hcmem : c ∈ ((t.conDetach x).con p).nodesHead :=
    (hr.mem_nodesHead_conDetach x).mpr ⟨h.parent, hxc.symm⟩
  have hattach : Attaches (t.conDetach x) (t.liftChild c p x) x p :=
    (attaches_editNodes (Queue.insertBefore c x) (by simpa using htype)
      (Queue.insertBefore_perm hcmem)).trans_links (.refl _) hlinks
  have hcalm : Calm t (t.liftChild c p x) := calm_of_attaches ht hreach hattach hpx htype
  have hmem : ∀ q y, y ∈ (t.liftChild c p x).children q ↔
      y ∈ t.children q ∧ y ≠ x ∨ q = p ∧ y = x := fun q y => by
    rw [hattach.mem_children, hr.mem_children_conDetach]
  have hfocus : ∀ q, ((t.liftChild c p x).con q).focusHead =
      if q = p then (t.con q).focusHead ++ [x] else
        if q = d then (t.con q).focusHead.erase x else (t.con q).focusHead := by
    intro q
    rw [hsame.focusHead]
    simp only [editFocus_focusHead, editNodes_focusHead, setParent_focusHead, conDetach_con, hparent,
      Option.some_inj]
    by_cases hq : q = p
    · subst hq
      simp [hdp]
    · by_cases hqd : d = q
      · subst hqd
        simp [hq]
      · simp [hq, hqd, Ne.symm hqd]
  have hnodes : ∀ q, q ≠ p → ((t.liftChild c p x).con q).nodesHead =
      if q = d then (t.con q).nodesHead.erase x else (t.con q).nodesHead := by
    intro q hq
    rw [hlinks.nodesHead]
    simp only [editFocus_nodesHead, editNodes_nodesHead, setParent_nodesHead, conDetach_con, hparent,
      Option.some_inj, if_neg hq, if_neg htype]
    by_cases hqd : d = q
    · subst hqd
      simp
    · simp [hqd, Ne.symm hqd]
  refine ⟨⟨hcalm, hattach.nextCon.trans (conDetach_nextCon x),
    fun hs => (hs.conDetach hr x).attaches hattach, ?_, ⟨?_, ?_, ?_⟩, ?_, ?_, ?_, ?_⟩, ?_⟩
  · rw [hsame.focused]
    exact conDetach_focused x
  · exact hattach.mem_nodesHead.mpr (.inl hcmem)
  · rw [hnodes c hcp, if_neg hdc.symm, h.child]
  · have hreachp := hr.reach_conDetach x h.reach (hr.acyclic.not_within hpx)
    rw [Reach, hattach.croot]
    exact hattach.within_mono hreachp
  · intro q hq y hy
    exact (((hmem q y).mp hy).resolve_right fun h' => hq h'.1).1
  · intro q hq y hy
    refine (hmem q y).mpr (.inl ⟨hy, ?_⟩)
    rintro rfl
    have := hr.parent q y hy
    rw [hparent] at this
    exact hq (Option.some_inj.mp this).symm
  · rw [hfocus, if_pos rfl]
  · intro q hq hqd
    rw [hfocus, if_neg hq, if_neg hqd]
  · rw [hnodes d hdp, if_pos rfl, hl, List.erase_cons_head]

omit ht h in
theorem Lifts.trans {l l' : List ConId} (h : Lifts t t' p c d l) (h' : Lifts t' t'' p c d l') :
    Lifts t t'' p c d (l ++ l') where
  calm := h.calm.trans h'.calm
  nextCon := h'.nextCon.trans h.nextCon
  stacked hs := h'.stacked (h.stacked hs)
  focused := h'.focused.trans h.focused
  pair := h'.pair
  subset q hq _ hx := h.subset q hq (h'.subset q hq hx)
  kept q hq _ hx := h'.kept q hq (h.kept q hq hx)
  focusParent := by rw [h'.focusParent, h.focusParent, List.append_assoc]
  focusHead q hq hqd := (h'.focusHead q hq hqd).trans (h.focusHead q hq hqd)

/-- **All children move up.** -/
theorem lifts_foldl {l : List ConId} (hl : (t.con d).nodesHead = l) :
    Lifts t (l.foldl (liftChild c p) t) p c d l
      ∧ ((l.foldl (liftChild c p) t).con d).nodesHead = [] := by
  induction l generalizing t with
  | nil =>
    exact ⟨⟨.refl ht, rfl, id, rfl, h, fun _ _ => List.Subset.refl _, fun _ _ => List.Subset.refl _,
      (List.append_nil _).symm, fun _ _ _ => rfl⟩, hl⟩
  | cons x l ih =>
    obtain ⟨hlift, hrest⟩ := lifts_liftChild ht h hl
    obtain ⟨hlifts, hnil⟩ := ih hlift.calm.healthy hlift.pair hrest
    exact ⟨hlift.trans hlifts, hnil⟩

end Lift

/-- What flattening below `c` does. What is not below `c` stays, and the focus and what is foremost
below a workspace that stays. -/
structure Flattens (t t' : Tree) (c : ConId) : Prop where
  calm : Calm t t'
  stacked : Stacked t → Stacked t'
  kept : ∀ q, ∀ x ∈ t.children q, ¬ Descent.Within t.children c x → x ∈ t'.children q
  focused : ∀ m < t.nextCon, t'.Reach m → t.focused = some m → t'.focused = some m
  foremost : Stacked t → ∀ ws < t.nextCon, ∀ m < t.nextCon, (t.con ws).type = .workspace → t'.Reach ws →
    t'.Reach m → t.focused = some m → (t'.Foremost ws m ↔ t.Foremost ws m)

namespace Flattens

theorem refl (ht : Healthy t) (c : ConId) : Flattens t t c :=
  ⟨.refl ht, id, fun _ _ hx _ => hx, fun _ _ _ h => h, fun _ _ _ _ _ _ _ _ _ => Iff.rfl⟩

theorem trans (h : Flattens t t' c) (h' : Flattens t' t'' c) (ht : Rooted t) (hc : t.Reach c) :
    Flattens t t'' c where
  calm := h.calm.trans h'.calm
  stacked hs := h'.stacked (h.stacked hs)
  kept q x hx hxc := h'.kept q x (h.kept q x hx hxc) fun hw =>
    hxc (h.calm.within (ht.lt_nextCon hc) (ht.bounded q x hx) hw)
  focused m hlt hm hf := by
    have hlt' := hlt.trans_le h.calm.nextCon
    exact h'.focused m hlt' hm (h.focused m hlt (h'.calm.reach h.calm.healthy.rooted hlt' hm) hf)
  foremost hs ws hws m hm htype hwsr hmr hf := by
    have hback : ∀ x < t.nextCon, t''.Reach x → t'.Reach x := fun x hx =>
      h'.calm.reach h.calm.healthy.rooted (hx.trans_le h.calm.nextCon)
    have hf' := h.focused m hm (hback m hm hmr) hf
    rw [h'.foremost (h.stacked hs) ws (hws.trans_le h.calm.nextCon) m (hm.trans_le h.calm.nextCon)
      (by rw [h.calm.type ws hws, htype]) hwsr hmr hf']
    exact h.foremost hs ws hws m hm htype (hback ws hws hwsr) (hback m hm hmr) hf

/-- Flattening below something below `c`. -/
theorem mono (h : Flattens t t' x) (hx : Descent.Within t.children c x) : Flattens t t' c :=
  { h with kept := fun q y hy hyc => h.kept q y hy fun hxy => hyc (hx.trans hxy) }

/-- What is not below `c` is reached as before. -/
theorem reach (h : Flattens t t' c) (hx : t.Reach x) (hc : ¬ Descent.Within t.children c x) :
    t'.Reach x := by
  rw [Reach, h.calm.croot]
  induction hx with
  | refl => exact .refl _
  | @tail y z _ hz ih =>
    have hcy : ¬ Descent.Within t.children c y := fun hw => hc (Descent.Within.tail hw hz).within
    exact (Descent.Within.tail (ih hcy) (h.kept y z hz hc)).within

end Flattens

/-- The first entry of the focus stacks, when the pair is removed. -/
structure Heads (t t' : Tree) (p c d : ConId) : Prop where
  other : ∀ q, q ≠ c → q ≠ d → ∀ x ∈ t.heads q, x ≠ c → x ∈ t'.heads q
  taken : c ∈ t.heads p → ∀ x ∈ t.heads d, x ∈ (t.con d).nodesHead → x ∈ t'.heads p

theorem mem_heads_toFront {l : List ConId} (hx : x ∈ l) : (Queue.toFront x l).head? = some x := by
  rw [Queue.toFront, if_pos hx, List.head?_cons]

/-- The pair before it is closed: the children have moved up, and the focus is restored. -/
structure Raised (t s : Tree) (p c d : ConId) : Prop where
  calm : Calm t s
  nextCon : s.nextCon = t.nextCon
  stacked : Stacked t → Stacked s
  focused : s.focused = t.focused
  pair : Pair s p c d
  childless : (s.con d).nodesHead = []
  kept : ∀ q, q ≠ d → t.children q ⊆ s.children q
  heads : Heads t s p c d

section Pair

variable {d : ConId}

theorem stirs_restoreFocus (t : Tree) (c p : ConId) (next : Option ConId) :
    Stirs t (t.restoreFocus c p next) := by
  unfold restoreFocus
  split
  · exact .refl t
  · split
    · exact stirs_toFront t _ p
    · exact .refl t

theorem restoreFocus_focused (t : Tree) (c p : ConId) (next : Option ConId) :
    (t.restoreFocus c p next).focused = t.focused := by
  unfold restoreFocus
  split
  · rfl
  · split <;> rfl

/-- Only the focus stack of the parent changes, and only where `c` was first. -/
theorem restoreFocus_heads (next : Option ConId) (hx : x ∈ t.heads q) (hne : q ≠ p ∨ x ≠ c) :
    x ∈ (t.restoreFocus c p next).heads q := by
  rw [mem_heads] at hx ⊢
  unfold restoreFocus
  split
  · exact hx
  · split
    · next hhead =>
      rw [editFocus_focusHead]
      split
      · next hqp =>
        subst hqp
        rw [hx, Option.some_inj] at hhead
        exact absurd hhead (hne.resolve_left (not_not.mpr rfl))
      · exact hx
    · exact hx

theorem raised_spec (ht : Healthy t) (h : Pair t p c d) :
    Raised t (((t.con d).nodesHead.foldl (liftChild c p) t).restoreFocus c p
      (t.con d).focusHead.head?) p c d := by
  obtain ⟨hl, hnil⟩ := lifts_foldl ht h rfl
  generalize (t.con d).nodesHead.foldl (liftChild c p) t = u at hl hnil ⊢
  have hlinks := (stirs_restoreFocus u c p (t.con d).focusHead.head?).links
  -- appending to a focus stack leaves its first entry alone
  have happend : ∀ y, y ∈ t.heads p → y ∈ u.heads p := by
    intro y hy
    rw [mem_heads] at hy ⊢
    rw [hl.focusParent, List.head?_append, hy, Option.some_or]
  refine ⟨hl.calm.trans_links hlinks, hlinks.nextCon.trans hl.nextCon,
    fun hs => (hl.stacked hs).links hlinks,
    (restoreFocus_focused u c p _).trans hl.focused, ⟨?_, ?_, hlinks.reach.mpr hl.pair.reach⟩, ?_,
    fun q hq y hy => hlinks.mem_children.mpr (hl.kept q hq hy), ⟨fun q hqc hqd y hy hyc => ?_, ?_⟩⟩
  · rw [hlinks.nodesHead]
    exact hl.pair.parent
  · rw [hlinks.nodesHead]
    exact hl.pair.child
  · rw [hlinks.nodesHead]
    exact hnil
  · refine restoreFocus_heads _ ?_ (.inr hyc)
    by_cases hqp : q = p
    · subst hqp
      exact happend y hy
    · rwa [Tree.heads, hl.focusHead q hqp hqd]
  · intro hcp y hy hyd
    have hfirst : (u.con p).focusHead.head? = some c := mem_heads.mp (happend c hcp)
    rw [mem_heads.mp hy, mem_heads]
    simp only [restoreFocus, hfirst, if_true, editFocus_focusHead]
    refine mem_heads_toFront ?_
    rw [hl.focusParent]
    exact List.mem_append_right _ hyd

end Pair

/-- A pair that was raised and then closed. -/
structure Closed (t s s' : Tree) (p c d : ConId) : Prop where
  healthy : Healthy t
  pair : Pair t p c d
  type : (t.con c).type = .con
  nonempty : (t.con d).nodesHead ≠ []
  raised : Raised t s p c d
  keeps : Keeps (Descent.Within s.children c) s s'
  calm : Calm s s'
  gone : ∀ x, Descent.Within s.children c x → ¬ s'.Reach x

namespace Closed

variable {s s' : Tree} {d m : ConId} (h : Closed t s s' p c d)
include h

theorem rooted : Rooted t := h.healthy.rooted

theorem rooted_raised : Rooted s := h.raised.calm.healthy.rooted

theorem reach (hx : s'.Reach x) : s.Reach x := by
  rw [Reach, h.calm.croot] at hx
  exact hx.mono h.keeps.subset

theorem lt_nextCon (hx : s'.Reach x) : x < t.nextCon :=
  lt_of_lt_of_eq (h.rooted_raised.lt_nextCon (h.reach hx)) h.raised.nextCon

theorem within (hx : s'.Reach x) (hq : s'.Reach q) (hqx : Descent.Within s'.children q x) :
    Descent.Within t.children q x :=
  h.raised.calm.within (h.lt_nextCon hq) (h.lt_nextCon hx) (hqx.mono h.keeps.subset)

/-- Below the outer container is what is below it afterwards. -/
theorem not_doomed_of_parent (hx : x ∈ s.children q) (hxc : x ≠ c)
    (hq : ¬ Descent.Within s.children c q) : ¬ Descent.Within s.children c x := fun hD =>
  hq (Descent.within_parent h.rooted_raised.parent ((Descent.within_iff.mp hD).resolve_left hxc)
    (h.rooted_raised.parent q x hx))

/-- The outer container has the inner one only. -/
theorem eq_child_of_mem (hx : x ∈ t.children c) : x = d := by
  rw [h.healthy.layered.children_eq (by simp [h.type]), h.pair.child] at hx
  exact List.mem_singleton.mp hx

section Heads

variable (hfocus : ∀ f ∈ s.focused, ¬ Descent.Within s.children c f)
include hfocus

/-- A first entry that is not the closed container stays first. -/
theorem mem_heads (hq : ¬ Descent.Within s.children c q) (hx : x ∈ t.heads q) (hxc : x ≠ c) :
    x ∈ s'.heads q := by
  have hqc : q ≠ c := fun hqc => hq (hqc ▸ .refl q)
  have hqd : q ≠ d := by
    rintro rfl
    exact hq (Descent.Below.single (List.mem_append_left _ h.raised.pair.mem_child)).within
  have hxs := h.raised.heads.other q hqc hqd x hx hxc
  exact h.keeps.heads hfocus q x hxs
    (h.not_doomed_of_parent (h.rooted_raised.heads_subset q hxs) hxc hq)

/-- The first entry of the inner container takes the place of the outer one. -/
theorem taken (hcp : c ∈ t.heads p) (hx : x ∈ t.heads d) (hxd : x ∈ (t.con d).nodesHead) :
    x ∈ s'.heads p := by
  have hsr := h.rooted_raised
  have hxs := h.raised.heads.taken hcp x hx hxd
  have hxc : x ≠ c := h.rooted.acyclic.ne
    ((Descent.Below.single (List.mem_append_left _ h.pair.mem_child)).trans
      (.single (List.mem_append_left _ hxd)))
  exact h.keeps.heads hfocus p x hxs (h.not_doomed_of_parent (hsr.heads_subset p hxs) hxc
    (hsr.acyclic.not_within (.single (List.mem_append_left _ h.raised.pair.parent))))

end Heads

section Workspace

variable (hws : (t.con ws).type = .workspace) (hwsr : s'.Reach ws)
include hws hwsr

/-- The inner container is no workspace if it is above something on a workspace that stays. -/
theorem type_child_ne (hdm : Descent.Within t.children d m) (hwsm : Descent.Within t.children ws m) :
    (t.con d).type ≠ .workspace := by
  intro htype
  have heq : d = ws := h.healthy.layered.unique h.rooted htype hws hdm hwsm
  subst heq
  exact h.gone d (Descent.Below.single (List.mem_append_left _ h.raised.pair.mem_child)).within hwsr

/-- Of the containers above something on the workspace only the pair goes away. -/
theorem eq_of_doomed (hqm : Descent.Within t.children q m)
    (hwsm : Descent.Within t.children ws m) (hq : Descent.Within s.children c q) : q = c ∨ q = d := by
  have hsl := h.raised.calm.healthy.layered
  have htype : ∀ x, t.Reach x → (s.con x).type = (t.con x).type := fun x hx =>
    h.raised.calm.type x (h.rooted.lt_nextCon hx)
  rcases Descent.within_iff.mp hq with rfl | hbelow
  · exact .inl rfl
  refine .inr ?_
  -- one step down from the outer container is the inner one
  obtain ⟨x, hx, hxq⟩ := Descent.below_iff_head.mp hbelow
  obtain rfl : x = d := by
    have hc : (s.con c).type ≠ .workspace := by
      rw [htype c (h.pair.sits h.rooted).1, h.type]
      exact nofun
    rw [hsl.children_eq hc, h.raised.pair.child] at hx
    exact List.mem_singleton.mp hx
  by_contra hne
  obtain ⟨y, hy, -⟩ := Descent.below_iff_head.mp ((Descent.within_iff.mp hxq).resolve_left hne)
  -- another step would be to a floating window of a workspace
  have hfloating : y ∈ (s.con x).floatingHead :=
    (List.mem_append.mp hy).resolve_left (by simp [h.raised.childless])
  have hxr := (h.pair.sits_child h.rooted).1
  have hqs : s.Reach q := Descent.Within.trans (h.raised.pair.sits h.rooted_raised).1 hq
  have hxm : Descent.Within t.children x m :=
    (h.raised.calm.within (h.rooted.lt_nextCon hxr)
      (lt_of_lt_of_eq (h.rooted_raised.lt_nextCon hqs) h.raised.nextCon) hxq).trans hqm
  refine h.type_child_ne hws hwsr hxm hwsm ?_
  rw [← htype x hxr]
  exact hsl.floating x y hfloating

/-- What is first in the inner container leads on to the container below it, and is a tiling child. -/
theorem mem_nodesHead (hwsm : Descent.Within t.children ws m) (hdm : Descent.Within t.children d m)
    (hx : x ∈ t.heads d) : x ∈ (t.con d).nodesHead := by
  refine (List.mem_append.mp (h.rooted.heads_subset d hx)).resolve_right fun hfloating => ?_
  exact h.type_child_ne hws hwsr hdm hwsm (h.healthy.layered.floating d x hfloating)

variable (hfocus : ∀ f ∈ s.focused, ¬ Descent.Within s.children c f)
include hfocus

/-- What was foremost is foremost. -/
theorem foremost_of_foremost (hm : s'.Reach m) (hf : t.Foremost ws m) : s'.Foremost ws m := by
  have hwsm := h.rooted.within_of_foremost hf
  have hmc : ¬ Descent.Within s.children c m := fun hD => h.gone m hD hm
  -- from the pair the way leads on to what is first in the inner container
  have key : ∀ q, t.Foremost q m → (q ≠ c → q ≠ d → s'.Foremost q m)
      ∧ (q = c ∨ q = d → ∃ f ∈ t.heads d, f ∈ (t.con d).nodesHead ∧ s'.Foremost f m) := by
    intro q hq
    refine Relation.ReflTransGen.head_induction_on hq ⟨fun _ _ => .refl _, ?_⟩
      fun {q x} hx hxm ih => ?_
    · rintro (rfl | rfl)
      · exact absurd (.refl _) hmc
      · exact absurd (Descent.Below.single
          (List.mem_append_left _ h.raised.pair.mem_child)).within hmc
    · have hxq := h.rooted.heads_subset q hx
      have hqm : Descent.Within t.children q m :=
        ((Descent.Below.single hxq).trans_within (h.rooted.within_of_foremost hxm)).within
      have hxc : q ≠ p → x ≠ c := by
        rintro hqp rfl
        have := h.rooted.parent q x hxq
        rw [h.rooted.parent p x (List.mem_append_left _ h.pair.parent)] at this
        exact hqp (Option.some_inj.mp this).symm
      have hxd : q ≠ c → x ≠ d := by
        rintro hqc rfl
        have := h.rooted.parent q x hxq
        rw [h.rooted.parent c x (List.mem_append_left _ h.pair.mem_child)] at this
        exact hqc (Option.some_inj.mp this).symm
      refine ⟨fun hqc hqd => ?_, ?_⟩
      · have hqD : ¬ Descent.Within s.children c q := fun hD =>
          (h.eq_of_doomed hws hwsr hqm hwsm hD).elim hqc hqd
        by_cases hxeq : x = c
        · subst hxeq
          obtain rfl : q = p := by
            by_contra hqp
            exact hxc hqp rfl
          obtain ⟨f, hf, hfd, hfm⟩ := ih.2 (.inl rfl)
          exact Relation.ReflTransGen.head (h.taken hfocus hx hf hfd) hfm
        · exact Relation.ReflTransGen.head (h.mem_heads hfocus hqD hx hxeq) (ih.1 hxeq (hxd hqc))
      · rintro (rfl | rfl)
        · exact ih.2 (.inr (h.eq_child_of_mem hxq))
        · have hxc : x ≠ c := h.rooted.acyclic.ne
            ((Descent.Below.single (List.mem_append_left _ h.pair.mem_child)).trans (.single hxq))
          exact ⟨x, hx, h.mem_nodesHead hws hwsr hwsm hqm hx,
            ih.1 hxc (h.rooted.acyclic.ne (.single hxq))⟩
  refine (key ws hf).1 ?_ ?_
  · rintro rfl
    exact h.gone ws (.refl _) hwsr
  · rintro rfl
    exact h.gone ws (Descent.Below.single (List.mem_append_left _ h.raised.pair.mem_child)).within hwsr

/-- What is foremost was foremost. -/
theorem foremost_of_closed (hs : Stacked t) (hf : s'.Foremost ws m) : t.Foremost ws m := by
  have hr' := h.calm.healthy.rooted
  have key : ∀ q, s'.Foremost q m → s'.Foremost ws q → t.Foremost q m := by
    intro q hq
    refine Relation.ReflTransGen.head_induction_on hq (fun _ => .refl _) fun {q x} hx hxm ih hwsq => ?_
    have hwsx : s'.Foremost ws x := (Descent.Within.tail hwsq hx).within
    have hreach : ∀ {y}, s'.Foremost ws y → s'.Reach y := fun hy =>
      Descent.Within.trans hwsr (hr'.within_of_foremost hy)
    have hqD : ¬ Descent.Within s.children c q := fun hD => h.gone q hD (hreach hwsq)
    have hwsq' : Descent.Within t.children ws q :=
      h.within (hreach hwsq) hwsr (hr'.within_of_foremost hwsq)
    have hqx : Descent.Below t.children q x :=
      (Descent.within_iff.mp (h.within (hreach hwsx) (hreach hwsq)
        (Descent.Below.single (hr'.heads_subset q hx)).within)).resolve_left
        (hr'.acyclic.ne (.single (hr'.heads_subset q hx)))
    obtain ⟨z, hz, -⟩ := Descent.below_iff_head.mp hqx
    obtain ⟨y, hy⟩ := hs.exists_mem_heads hz
    by_cases hyc : y = c
    · -- the way led through the pair
      subst hyc
      obtain rfl : q = p := by
        have := h.rooted.parent q y (h.rooted.heads_subset q hy)
        rw [h.rooted.parent p y (List.mem_append_left _ h.pair.parent)] at this
        exact (Option.some_inj.mp this).symm
      obtain ⟨e, he⟩ := hs.exists_mem_heads (List.mem_append_left _ h.pair.mem_child)
      obtain rfl := h.eq_child_of_mem (h.rooted.heads_subset y he)
      obtain ⟨w, hw⟩ := List.exists_mem_of_ne_nil _ h.nonempty
      obtain ⟨f, hf⟩ := hs.exists_mem_heads (List.mem_append_left _ hw)
      have hfe : f ∈ (t.con e).nodesHead := by
        refine (List.mem_append.mp (h.rooted.heads_subset e hf)).resolve_right fun hfloating => ?_
        exact h.healthy.layered.workspace ws hws e (hwsq'.trans_below h.pair.below_child)
          (h.healthy.layered.floating e f hfloating)
      obtain rfl := heads_unique (h.taken hfocus hy hf hfe) hx
      exact .head hy (.head he (.head hf (ih hwsx)))
    · obtain rfl := heads_unique (h.mem_heads hfocus hqD hy hyc) hx
      exact .head hy (ih hwsx)
  exact key ws hf (.refl _)

end Workspace

end Closed

/-- **Removing one pair.** -/
theorem flattens_flattenAt {d : ConId} (ht : Healthy t) (h : Pair t p c d)
    (hc : (t.con c).type = .con) (hd : (t.con d).nodesHead ≠ []) :
    Flattens t (t.flattenAt cfg c p d) c := by
  have hup := raised_spec ht h
  rw [flattenAt]
  generalize ((t.con d).nodesHead.foldl (liftChild c p) t).restoreFocus c p
    (t.con d).focusHead.head? = s at hup ⊢
  have hsr := hup.calm.healthy.rooted
  obtain ⟨hkeeps, hstacked, hcalm⟩ :=
    @keeps_treeCloseInternal cfg s c hup.calm.healthy (hup.pair.sits hsr) .dontKillWindow
  obtain ⟨hgonec, hgoned⟩ := @not_reach_treeCloseInternal cfg s c hup.calm.healthy d
    (hup.pair.sits hsr) hup.pair.child hup.childless
  generalize s.treeCloseInternal cfg c .dontKillWindow true = s' at hkeeps hstacked hcalm hgonec hgoned ⊢
  -- what is below the outer container is not reached any more
  have hgone : ∀ x, Descent.Within s.children c x → ¬ s'.Reach x := fun x hx hreach =>
    hgonec (hkeeps.reach_above hsr hcalm.croot hx hreach)
  have h' : Closed t s s' p c d := ⟨ht, h, hc, hd, hup, hkeeps, hcalm, hgone⟩
  have hfocus : ∀ m, s'.Reach m → t.focused = some m →
      ∀ f ∈ s.focused, ¬ Descent.Within s.children c f := by
    intro m hm hf f hmem hD
    rw [hup.focused, hf, Option.mem_def, Option.some_inj] at hmem
    subst hmem
    exact hgone m hD hm
  refine ⟨hup.calm.trans hcalm, fun hs => hstacked (hup.stacked hs), fun q x hx hxc => ?_, fun m _ hm hf => ?_,
    fun hs ws _ m _ hws hwsr hm hf => ⟨h'.foremost_of_closed hws hwsr (hfocus m hm hf) hs,
      h'.foremost_of_foremost hws hwsr (hfocus m hm hf) hm⟩⟩
  · have hqd : q ≠ d := by
      rintro rfl
      exact hxc ((Descent.Below.single (List.mem_append_left _ h.mem_child)).trans (.single hx)).within
    refine hkeeps.kept q x (hup.kept q hqd hx) fun hD => hxc ?_
    exact hup.calm.within (ht.rooted.lt_nextCon (h.sits ht.rooted).1) (ht.rooted.bounded q x hx) hD
  · rw [hkeeps.focused (hfocus m hm hf), hup.focused, hf]

/-! ### The recursion -/

theorem Rooted.redundant_spec (ht : Rooted t) {d : ConId} (hc : t.Reach c)
    (h : t.redundant c = some (p, d)) :
    Pair t p c d ∧ (t.con c).type = .con ∧ (t.con d).nodesHead ≠ [] := by
  unfold redundant at h
  split at h
  · next parent child hp hnodes =>
    split at h
    · next hif =>
      obtain ⟨rfl, rfl⟩ := Prod.mk.inj (Option.some_inj.mp h)
      obtain ⟨htype, -, -, -, hsplit, -⟩ := hif
      have hmem := ht.mem_children_of_parent hc hp
      refine ⟨⟨?_, hnodes, ht.reach_parent hc hp⟩, htype, ?_⟩
      · refine (List.mem_append.mp hmem).resolve_right fun hfloating => ?_
        have := ht.typeFloating _ _ hfloating
        rw [htype] at this
        cases this
      · intro hnil
        simp [isSplit, isLeaf, hnil] at hsplit
    · cases h
  · cases h

/-- **Flattening the children** of a container one after another. -/
theorem flattens_foldl {f : Tree → ConId → Tree}
    (hf : ∀ {t c}, Healthy t → t.Reach c → Flattens t (f t c) c) {l : List ConId}
    (ht : Healthy t) (hc : t.Reach c) (hl : l ⊆ t.children c) (hnodup : l.Nodup) :
    Flattens t (l.foldl f t) c ∧ (l.foldl f t).Reach c := by
  induction l generalizing t with
  | nil => exact ⟨.refl ht c, hc⟩
  | cons x l ih =>
    obtain ⟨hxl, hnodup⟩ := List.nodup_cons.mp hnodup
    have hx : x ∈ t.children c := hl (by simp)
    have hcx : Descent.Below t.children c x := .single hx
    have hflat := hf ht (hc.trans_below hcx).within
    have hc' := hflat.reach hc (ht.rooted.acyclic.not_within hcx)
    have hl' : l ⊆ (f t x).children c := by
      intro y hy
      refine hflat.kept c y (hl (by simp [hy])) ?_
      -- the siblings that come after it are not below it
      refine ht.rooted.acyclic.separate ht.rooted.parent (hl (by simp [hy])) hx ?_ (.refl _)
      rintro rfl
      exact hxl hy
    obtain ⟨hrest, hreach⟩ := ih hflat.calm.healthy hc' hl' hnodup
    exact ⟨(hflat.mono hcx.within).trans hrest ht.rooted hc, hreach⟩

theorem flattens_treeFlattenN (n : ℕ) (ht : Healthy t) (hc : t.Reach c) :
    Flattens t (treeFlattenN cfg n t c) c := by
  induction n generalizing t c with
  | zero => exact .refl ht c
  | succ n ih =>
    unfold treeFlattenN
    split
    · next p d heq =>
      obtain ⟨hpair, htype, hnodes⟩ := ht.rooted.redundant_spec hc heq
      exact flattens_flattenAt ht hpair htype hnodes
    · obtain ⟨hnodes, hreach⟩ := flattens_foldl (fun ht hc => ih ht hc) ht hc
        (List.subset_append_left _ _) (ht.rooted.nodupNodes c)
      obtain ⟨hfloating, -⟩ := flattens_foldl (fun ht hc => ih ht hc) hnodes.calm.healthy
        hreach (List.subset_append_right _ _) (hnodes.calm.healthy.rooted.nodupFloating c)
      exact hnodes.trans hfloating ht.rooted hc

/-- **Flattening the tree.** -/
theorem flattens_treeFlatten (ht : Healthy t) (hc : t.Reach c) :
    Flattens t (t.treeFlatten cfg c) c := flattens_treeFlattenN t.nextCon ht hc

end Tree

end I3
