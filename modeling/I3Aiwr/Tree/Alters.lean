import I3Aiwr.Tree.Flatten

/-!
# What closing and flattening leave alone

`tree_flatten` takes away a pair of containers. Its children move up in front of the outer one, and
then the inner and the outer one are closed, each when it has no children left. Outside of the pair, of
its children and of its parent nothing changes but the order of focus stacks, and there it matters
where the focus goes: down the first entries from a container beside the closed one.

## Main definitions

* `Tree.Alters N R Q t t'`: what an operation leaves alone
* `Tree.Orderly q t`: the focus is in the first of the columns of `q`

## Main results

* `Tree.alters_closeAlone`, `Tree.closeAlone_nodesHead`: what closing one container changes
* `Tree.Rooted.nextFocused_foremost`: where the focus goes
* `Tree.closeAlone_focusHead`: closing a container in a column leaves the order of the columns
-/

namespace I3

namespace Tree

variable {cfg : Config} {t t' t'' : Tree} {c d p x : ConId}

/-! ### What an operation leaves alone -/

/-- Types, layouts and the floating state stay. Only containers of `N` change their list of children,
only those of `R` their parent or window, and only those of `Q` their percentage. -/
structure Alters (N R Q : ConId → Prop) (t t' : Tree) : Prop where
  type : ∀ x, (t'.con x).type = (t.con x).type
  layout : ∀ x, (t'.con x).layout = (t.con x).layout
  floating : ∀ x, (t'.con x).floating = (t.con x).floating
  nodesHead : ∀ x, ¬ N x → (t'.con x).nodesHead = (t.con x).nodesHead
  parent : ∀ x, ¬ R x → (t'.con x).parent = (t.con x).parent
  window : ∀ x, ¬ R x → (t'.con x).window = (t.con x).window
  percent : ∀ x, ¬ Q x → (t'.con x).percent = (t.con x).percent

namespace Alters

variable {N R Q : ConId → Prop}

@[refl] theorem refl (t : Tree) : Alters N R Q t t :=
  ⟨fun _ => rfl, fun _ => rfl, fun _ => rfl, fun _ _ => rfl, fun _ _ => rfl, fun _ _ => rfl, fun _ _ => rfl⟩

theorem trans (h : Alters N R Q t t') (h' : Alters N R Q t' t'') : Alters N R Q t t'' where
  type x := (h'.type x).trans (h.type x)
  layout x := (h'.layout x).trans (h.layout x)
  floating x := (h'.floating x).trans (h.floating x)
  nodesHead x hx := (h'.nodesHead x hx).trans (h.nodesHead x hx)
  parent x hx := (h'.parent x hx).trans (h.parent x hx)
  window x hx := (h'.window x hx).trans (h.window x hx)
  percent x hx := (h'.percent x hx).trans (h.percent x hx)

theorem mono {N' R' Q' : ConId → Prop} (h : Alters N R Q t t') (hN : ∀ x, N x → N' x)
    (hR : ∀ x, R x → R' x) (hQ : ∀ x, Q x → Q' x) : Alters N' R' Q' t t' :=
  { h with
    nodesHead := fun x hx => h.nodesHead x fun hn => hx (hN x hn)
    parent := fun x hx => h.parent x fun hr => hx (hR x hr)
    window := fun x hx => h.window x fun hr => hx (hR x hr)
    percent := fun x hx => h.percent x fun hq => hx (hQ x hq) }

theorem of_stirs (h : Stirs t t') : Alters N R Q t t' :=
  ⟨h.type, h.layout, h.floating, fun x _ => h.nodesHead x, fun x _ => h.parent x, fun x _ => h.window x,
    fun x _ => h.percent x⟩

theorem of_con (h : t'.con = t.con) : Alters N R Q t t' :=
  ⟨fun _ => by rw [h], fun _ => by rw [h], fun _ => by rw [h], fun _ _ => by rw [h],
    fun _ _ => by rw [h], fun _ _ => by rw [h], fun _ _ => by rw [h]⟩

/-- One container changes. -/
theorem of_modify {f : Con → Con} (htype : (f (t.con c)).type = (t.con c).type)
    (hlayout : (f (t.con c)).layout = (t.con c).layout)
    (hfloating : (f (t.con c)).floating = (t.con c).floating)
    (hnodes : N c ∨ (f (t.con c)).nodesHead = (t.con c).nodesHead)
    (hparent : R c ∨ (f (t.con c)).parent = (t.con c).parent)
    (hwindow : R c ∨ (f (t.con c)).window = (t.con c).window)
    (hpercent : Q c ∨ (f (t.con c)).percent = (t.con c).percent) : Alters N R Q t (t.modify c f) := by
  refine ⟨fun x => ?_, fun x => ?_, fun x => ?_, fun x hx => ?_, fun x hx => ?_, fun x hx => ?_,
    fun x hx => ?_⟩ <;> by_cases hxc : x = c
  all_goals first | (subst hxc; rw [modify_con_self]) | rw [modify_con_of_ne _ _ hxc]
  · exact htype
  · exact hlayout
  · exact hfloating
  · exact hnodes.resolve_left hx
  · exact hparent.resolve_left hx
  · exact hwindow.resolve_left hx
  · exact hpercent.resolve_left hx

theorem setPercent (hc : Q c) (q : ℚ) : Alters N R Q t (t.setPercent c q) :=
  of_modify rfl rfl rfl (.inr rfl) (.inr rfl) (.inr rfl) (.inl hc)

theorem setWindow (hc : R c) (window : Option Window) : Alters N R Q t (t.setWindow c window) :=
  of_modify rfl rfl rfl (.inr rfl) (.inr rfl) (.inl hc) (.inr rfl)

theorem setParent (hc : R c) (p : ConId) : Alters N R Q t (t.setParent c p) :=
  of_modify rfl rfl rfl (.inr rfl) (.inl hc) (.inr rfl) (.inr rfl)

theorem editNodes (hp : N p) (f : List ConId → List ConId) : Alters N R Q t (t.editNodes p f) :=
  of_modify rfl rfl rfl (.inl hp) (.inr rfl) (.inr rfl) (.inr rfl)

theorem editFloating (p : ConId) (f : List ConId → List ConId) :
    Alters N R Q t (t.editFloating p f) :=
  of_modify rfl rfl rfl (.inr rfl) (.inr rfl) (.inr rfl) (.inr rfl)

theorem editFocus (p : ConId) (f : List ConId → List ConId) : Alters N R Q t (t.editFocus p f) :=
  of_modify rfl rfl rfl (.inr rfl) (.inr rfl) (.inr rfl) (.inr rfl)

theorem foldl {f : Tree → ConId → Tree} {l : List ConId} (h : ∀ t, ∀ c ∈ l, Alters N R Q t (f t c)) :
    Alters N R Q t (l.foldl f t) := by
  induction l generalizing t with
  | nil => exact .refl t
  | cons c l ih =>
    exact (h t c List.mem_cons_self).trans (ih fun t d hd => h t d (List.mem_cons_of_mem c hd))

theorem percentFill (n : ℕ) {nodes : List ConId} (h : ∀ d ∈ nodes, Q d) (total : ℚ) :
    Alters N R Q t (percentFill n nodes t total).1 := by
  induction nodes generalizing t total with
  | nil => exact .refl t
  | cons d nodes ih =>
    have hnodes : ∀ d ∈ nodes, Q d := fun d hd => h d (List.mem_cons_of_mem _ hd)
    rw [Tree.percentFill]
    split
    · exact (setPercent (h d List.mem_cons_self) _).trans (ih hnodes _)
    · exact ih hnodes _

theorem percentScale {nodes : List ConId} (h : ∀ d ∈ nodes, Q d) (total : ℚ) :
    Alters N R Q t (percentScale nodes (t, total)) := by
  rw [Tree.percentScale]
  split
  · exact foldl fun _ d hd => .setPercent (h d hd) _
  split
  · exact foldl fun _ d hd => .setPercent (h d hd) _
  · exact .refl t

theorem conFixPercent (h : (t.con p).layout = .scrolling ∨ ∀ d ∈ (t.con p).nodesHead, Q d) :
    Alters N R Q t (t.conFixPercent p) := by
  rw [Tree.conFixPercent]
  split
  · exact .refl t
  · next hlayout =>
    have hnodes := h.resolve_left hlayout
    dsimp only
    split
    · exact (Alters.percentFill _ hnodes _).trans (.percentScale hnodes _)
    · exact .percentScale hnodes _

theorem conDetach (h : ∀ p, (t.con c).parent = some p → N p) : Alters N R Q t (t.conDetach c) := by
  unfold Tree.conDetach
  split
  · exact .refl t
  · next p hp =>
    split
    · exact (Alters.editFloating p _).trans (.editFocus p _)
    · exact (Alters.editNodes (h p hp) _).trans (.editFocus p _)

end Alters

/-! ### What closing one container changes -/

/-- The percentages that closing a child of `p` may change. -/
def Rescales (t : Tree) (p x : ConId) : Prop := (t.con p).layout ≠ .scrolling ∧ x ∈ (t.con p).nodesHead

section CloseAlone

variable (hp : (t.con c).parent = some p) (htype : (t.con c).type ≠ .floatingCon)
include hp htype

theorem conDetach_nodesHead (y : ConId) : ((t.conDetach c).con y).nodesHead
    = if y = p then (t.con y).nodesHead.erase c else (t.con y).nodesHead := by
  rw [conDetach_con]
  by_cases hy : y = p
  · subst hy
    simp [hp, htype]
  · simp [hp, hy, Ne.symm hy]

omit htype in
theorem conDetach_focusHead (y : ConId) : ((t.conDetach c).con y).focusHead
    = if y = p then (t.con y).focusHead.erase c else (t.con y).focusHead := by
  rw [conDetach_con]
  by_cases hy : y = p
  · subst hy
    simp [hp]
  · simp [hp, hy, Ne.symm hy]

theorem alters_closeDetach :
    Alters (· = p) (· = c) (t.Rescales p) t (t.closeDetach cfg c true) := by
  have hdetach : Alters (· = p) (· = c) (t.Rescales p) t (t.conDetach c) :=
    .conDetach fun q hq => Option.some_inj.mp (hq.symm.trans hp)
  have htimer := stirs_stopUrgencyTimer (t := t.conDetach c) c (t.getWorkspace c)
  have hparent : (((t.conDetach c).stopUrgencyTimer c (t.getWorkspace c)).con c).parent = some p := by
    rw [htimer.parent, conDetach_parent, hp]
  have htype' : (((t.conDetach c).stopUrgencyTimer c (t.getWorkspace c)).con c).type ≠ .floatingCon := by
    rwa [htimer.type, conDetach_type]
  rw [closeDetach]
  simp only [hparent, if_neg htype', if_true]
  refine (hdetach.trans (.of_stirs htimer)).trans (.conFixPercent ?_)
  -- the other children of the parent take up the space
  rw [htimer.layout, hdetach.layout, htimer.nodesHead, conDetach_nodesHead hp htype, if_pos rfl]
  exact or_iff_not_imp_left.mpr fun hlayout d hd => ⟨hlayout, List.mem_of_mem_erase hd⟩

theorem alters_closeOff : Alters (· = p) (· = c) (t.Rescales p) t (t.closeOff cfg c) := by
  have hwindow : Alters (· = p) (· = c) (t.Rescales p) t (t.setWindow c none) :=
    .setWindow (R := (· = c)) rfl none
  have hp' : ((t.setWindow c none).con c).parent = some p := by simp [setWindow, hp]
  have htype' : ((t.setWindow c none).con c).type ≠ .floatingCon := by simpa [setWindow] using htype
  have hrescales : (t.setWindow c none).Rescales p = t.Rescales p := by
    funext x
    rw [Rescales, Rescales, hwindow.layout, (links_setWindow t c none).nodesHead]
  refine (hwindow.trans ?_).trans (.of_con (conFree_con c))
  rw [← hrescales]
  exact alters_closeDetach hp' htype'

/-- **Closing one container** changes the list of its parent, and the percentages of the others there. -/
theorem alters_closeAlone : Alters (· = p) (· = c) (t.Rescales p) t (t.closeAlone cfg c) := by
  have hoff := @alters_closeOff cfg _ _ _ hp htype
  rw [closeAlone]
  split
  · exact hoff
  · exact hoff.trans (.of_stirs (stirs_conActivate cfg _ _))

theorem closeOff_nodesHead (y : ConId) : ((t.closeOff cfg c).con y).nodesHead
    = if y = p then (t.con y).nodesHead.erase c else (t.con y).nodesHead := by
  have hwindow := links_setWindow t c none
  rw [closeOff, conFree_con, (links_closeDetach c true).nodesHead,
    conDetach_nodesHead ((hwindow.parent c).trans hp) (by rwa [hwindow.type]), hwindow.nodesHead]

/-- **The lists of children** after closing one container. -/
theorem closeAlone_nodesHead (y : ConId) : ((t.closeAlone cfg c).con y).nodesHead
    = if y = p then (t.con y).nodesHead.erase c else (t.con y).nodesHead := by
  rw [closeAlone]
  split
  · exact closeOff_nodesHead hp htype y
  · rw [(stirs_conActivate cfg _ _).nodesHead]
    exact closeOff_nodesHead hp htype y

omit htype in
theorem closeOff_focusHead (y : ConId) : ((t.closeOff cfg c).con y).focusHead
    = if y = p then (t.con y).focusHead.erase c else (t.con y).focusHead := by
  have hwindow := links_setWindow t c none
  have hfocus : ∀ y, ((t.setWindow c none).con y).focusHead = (t.con y).focusHead := fun y => by
    rw [setWindow, modify_con]
    split <;> rfl
  rw [closeOff, conFree_con, (sameFocus_closeDetach (t.setWindow c none) c true).focusHead,
    conDetach_focusHead ((hwindow.parent c).trans hp), hfocus]

end CloseAlone

theorem closeOff_focused (t : Tree) (c : ConId) : (t.closeOff cfg c).focused = t.focused := by
  rw [closeOff, (sameFocus_conFree _ c).focused, (sameFocus_closeDetach _ c true).focused, conDetach_focused]
  rfl

/-! ### Where the focus goes -/

/-- The container to be focused beside one that goes away is the first of the others. -/
theorem focusBeside_eq {y : ConId} (hy : ((t.con p).focusHead.erase c).head? = some y) :
    t.focusBeside c p = y := by
  rw [focusBeside]
  cases hfocus : (t.con p).focusHead with
  | nil =>
    rw [hfocus] at hy
    cases hy
  | cons a l =>
    rw [hfocus] at hy
    by_cases hac : a = c
    · subst hac
      rw [List.erase_cons_head] at hy
      simp [Queue.next, hy]
    · rw [List.erase_cons_tail (by simpa using hac), List.head?_cons] at hy
      obtain rfl := Option.some_inj.mp hy
      simp [hac]

/-- Where there are no others, it is the parent. -/
theorem nextFocusedIn_eq_parent (hnone : (t.con p).focusHead.erase c = []) : t.nextFocusedIn c p = p := by
  have hcases : (t.con p).focusHead = [] ∨ (t.con p).focusHead = [c] := by
    cases hfocus : (t.con p).focusHead with
    | nil => exact .inl rfl
    | cons a l =>
      rw [hfocus] at hnone
      by_cases hac : a = c
      · subst hac
        rw [List.erase_cons_head] at hnone
        exact .inr (by rw [hnone])
      · rw [List.erase_cons_tail (by simpa using hac)] at hnone
        cases hnone
  have hbeside : t.focusBeside c p = p := by
    rcases hcases with hfocus | hfocus
    · simp [focusBeside, hfocus]
    · simp [focusBeside, hfocus, Queue.next]
  have hdescend : t.descendExcludingN c t.nextCon p = p := by
    cases t.nextCon with
    | zero => rfl
    | succ n =>
      rcases hcases with hfocus | hfocus
      · simp [descendExcludingN, hfocus]
      · simp [descendExcludingN, hfocus]
  rw [nextFocusedIn, hbeside, hdescend]
  simp

namespace Rooted

variable {n q y : ConId} (ht : Rooted t)

theorem descendFocusedN_foremost (k : ℕ) (d : ConId) : t.Foremost d (t.descendFocusedN k d) := by
  induction k generalizing d with
  | zero => exact .refl d
  | succ k ih =>
    rw [descendFocusedN]
    split
    · exact .refl d
    · split
      · exact .refl d
      · next e _ he => exact .head (mem_heads.mpr (by rw [he, List.head?_cons])) (ih e)

theorem descendExcludingN_foremost (k : ℕ) (d : ConId) : t.Foremost d (t.descendExcludingN c k d) := by
  induction k generalizing d with
  | zero => exact .refl d
  | succ k ih =>
    rw [descendExcludingN]
    split
    · exact .refl d
    · next e _ he =>
      split
      · exact .refl d
      · exact .head (mem_heads.mpr (by rw [he, List.head?_cons])) (ih e)

include ht

/-- What is above a foremost container is above where it is foremost, or on the way down. -/
theorem foremost_or_within (h : t.Foremost d n) (hy : Descent.Within t.children y n) :
    Descent.Within t.children y d ∨ t.Foremost y n := by
  revert hy
  refine Relation.ReflTransGen.head_induction_on h (fun hy => .inl hy) fun {u v} hv hvn ih hy => ?_
  rcases ih hy with hyv | hyn
  · rcases Descent.within_iff.mp hyv with rfl | hbelow
    · exact .inr hvn
    · exact .inl (Descent.within_parent ht.parent hbelow (ht.parent u v (ht.heads_subset u hv)))
  · exact .inr hyn

omit ht in
theorem focusBeside_mem (t : Tree) (c p : ConId) :
    t.focusBeside c p = p ∨ t.focusBeside c p ∈ (t.con p).focusHead := by
  rw [focusBeside]
  split
  · cases hhead : (t.con p).focusHead.head? with
    | none => exact .inl rfl
    | some e => exact .inr (List.mem_of_mem_head? hhead)
  · cases hnext : Queue.next c (t.con p).focusHead with
    | none => exact .inl rfl
    | some e => exact .inr (Queue.mem_of_next hnext)

/-- **From beside a container down**: above the next focus is what is above the container, or what is on
the way down. -/
theorem nextFocusedIn_foremost (hc : c ∈ t.children p)
    (hy : Descent.Within t.children y (t.nextFocusedIn c p)) :
    Descent.Below t.children y c ∨ t.Foremost y (t.nextFocusedIn c p) := by
  have hdown : t.Foremost (t.focusBeside c p) (t.nextFocusedIn c p) := by
    rw [nextFocusedIn]
    have hdescend := @descendExcludingN_foremost t c t.nextCon (t.focusBeside c p)
    split
    · exact hdescend.trans (descendFocusedN_foremost _ _)
    · exact hdescend
  rcases ht.foremost_or_within hdown hy with hbeside | hforemost
  · rcases Descent.within_iff.mp hbeside with heq | hbelow
    · exact .inr (heq ▸ hdown)
    · -- what is above a container beside `c` is at or above `p`
      refine .inl (Descent.Within.tail ?_ hc)
      rcases focusBeside_mem t c p with heq | hmem
      · exact (heq ▸ hbelow).within
      · exact Descent.within_parent ht.parent hbelow (ht.parent p _ (ht.focus p _ hmem))
  · exact .inr hforemost

/-- **Where the focus goes**: above the next focus is what is above the container that goes away, or what
is on the way down the first entries. -/
theorem nextFocused_foremost (hc : t.Sits c) (hn : t.nextFocused c = some n)
    (hy : Descent.Within t.children y n) : Descent.Below t.children y c ∨ t.Foremost y n := by
  obtain ⟨p, hp, hreach, hmem⟩ := ht.exists_parent hc
  simp only [nextFocused, hp] at hn
  split at hn
  · -- a dock client: the content is beside the dock area
    next hdock =>
    obtain ⟨output, ho, hn⟩ := Option.bind_eq_some_iff.mp hn
    obtain ⟨content, hcontent, rfl⟩ := Option.map_eq_some_iff.mp hn
    have hcont : content ∈ t.children output :=
      List.mem_append_left _ (List.mem_of_find?_eq_some hcontent)
    rcases ht.foremost_or_within (descendFocusedN_foremost t.nextCon content) hy with hwithin | hforemost
    · rcases Descent.within_iff.mp hwithin with rfl | hbelow
      · exact .inr (descendFocusedN_foremost t.nextCon content)
      · have hyo := Descent.within_parent ht.parent hbelow (ht.parent output content hcont)
        exact .inl (((hyo.tail (ht.mem_children_of_parent hreach ho)).tail hmem))
    · exact .inr hforemost
  · split at hn
    · -- a floating window: its floating container goes away with it
      obtain ⟨q, hq, rfl⟩ := Option.map_eq_some_iff.mp hn
      exact (ht.nextFocusedIn_foremost (ht.mem_children_of_parent hreach hq) hy).imp_left
        fun hyp => hyp.tail hmem
    · cases hn
      exact ht.nextFocusedIn_foremost hmem hy

/-- The next focus beside `c`, if it is below a child of the parent, is below the first of the others. -/
theorem nextFocusedIn_beside (hy : y ∈ t.children p)
    (hyn : Descent.Within t.children y (t.nextFocusedIn c p)) :
    ((t.con p).focusHead.erase c).head? = some y := by
  cases herase : (t.con p).focusHead.erase c with
  | nil =>
    rw [nextFocusedIn_eq_parent herase] at hyn
    exact absurd hyn (ht.acyclic.not_within (.single hy))
  | cons z l =>
    have hz : ((t.con p).focusHead.erase c).head? = some z := by rw [herase, List.head?_cons]
    have hzp : z ∈ t.children p := ht.focus p z (List.mem_of_mem_erase (List.mem_of_mem_head? hz))
    have hzn : t.Foremost z (t.nextFocusedIn c p) := by
      rw [nextFocusedIn, focusBeside_eq hz]
      have hdescend := @descendExcludingN_foremost t c t.nextCon z
      split
      · exact hdescend.trans (descendFocusedN_foremost _ _)
      · exact hdescend
    rw [ht.acyclic.eq_of_within ht.parent hy hzp hyn (ht.within_of_foremost hzn), List.head?_cons]

/-- **The next focus**, if it is below a child of the parent, is below the first of the others. -/
theorem nextFocused_beside (hc : t.Sits c) (hp : (t.con c).parent = some p) (hn : t.nextFocused c = some n)
    (hy : y ∈ t.children p) (hyn : Descent.Within t.children y n) :
    ((t.con p).focusHead.erase c).head? = some y := by
  obtain ⟨q, hq, hreach, hmem⟩ := ht.exists_parent hc
  obtain rfl := Option.some_inj.mp (hq.symm.trans hp)
  have hqn : Descent.Within t.children q n := ((Descent.Below.single hy).trans_within hyn).within
  simp only [nextFocused, hp] at hn
  split at hn
  · -- the content is beside the dock area, and not in it
    next hdock =>
    obtain ⟨output, ho, hn⟩ := Option.bind_eq_some_iff.mp hn
    obtain ⟨content, hcontent, rfl⟩ := Option.map_eq_some_iff.mp hn
    have hcont : content ∈ t.children output :=
      List.mem_append_left _ (List.mem_of_find?_eq_some hcontent)
    have htype : (t.con content).type = .con := by simpa using List.find?_some hcontent
    have hne : content ≠ q := by
      rintro rfl
      exact absurd (htype.symm.trans hdock) (by rintro ⟨⟩)
    have hdescend := ht.within_of_foremost (@descendFocusedN_foremost t t.nextCon content)
    exact absurd hqn (ht.acyclic.separate ht.parent hcont (ht.mem_children_of_parent hreach ho) hne hdescend)
  · split at hn
    · obtain ⟨o, ho, rfl⟩ := Option.map_eq_some_iff.mp hn
      exact absurd hqn (ht.nextFocusedIn_spec (ht.mem_children_of_parent hreach ho)).2
    · cases hn
      exact ht.nextFocusedIn_beside hy hyn

end Rooted

/-! ### The order of the columns -/

section Raise

variable (t : Tree) (n : ConId)

theorem conRaise_focusHead (q : ConId) : ((t.conRaise n).con q).focusHead = (t.con q).focusHead := by
  rw [conRaise]
  split
  · rfl
  · rw [floatingRaiseCon]
    split
    · rfl
    · exact editFloating_focusHead _ _ _ _

theorem conRaise_focused : (t.conRaise n).focused = t.focused := by
  rw [conRaise]
  split
  · rfl
  · rw [floatingRaiseCon]
    split <;> rfl

/-- The focus is on the container, or where it was. -/
theorem conActivate_focused : (t.conActivate cfg n).focused = some n ∨ (t.conActivate cfg n).focused = t.focused := by
  rw [conActivate, conRaise_focused]
  rcases Nat.eq_zero_or_pos t.nextCon with hzero | hpos
  · exact .inr (by rw [conFocus, hzero, conFocusN])
  · cases hp : (t.con n).parent with
    | none =>
      obtain ⟨k, hk⟩ := Nat.exists_eq_succ_of_ne_zero hpos.ne'
      exact .inr (by rw [conFocus, hk, conFocusN, hp])
    | some p => exact .inl (conFocus_focused hp hpos)

variable {t n} in
/-- **`con_activate` focuses the container.** -/
theorem Rooted.focused_conActivate (ht : Rooted t) (hn : t.Sits n) : (t.conActivate cfg n).focused = some n := by
  obtain ⟨p, hp, -, -⟩ := ht.exists_parent hn
  rw [conActivate, conRaise_focused]
  exact conFocus_focused hp (Nat.zero_lt_of_lt ht.boundedRoot)

end Raise

/-- Bringing to the front what is first already. -/
theorem bring_of_mem_heads {q : ConId} (h : x ∈ t.heads q) :
    Recent.bring (some x) (t.con q).focusHead = (t.con q).focusHead := by
  obtain ⟨l, hl⟩ := List.head?_eq_some_iff.mp (mem_heads.mp h)
  simp [Recent.bring, Queue.toFront, hl]

/-- The focus, if it is in a column of `q`, is in the one that is first in the focus order, and in the
columns nothing floats and nothing is docked. -/
structure Orderly (q : ConId) (t : Tree) : Prop where
  first : ∀ f ∈ t.focused, ∀ x ∈ t.children q, Descent.Within t.children x f → x ∈ t.heads q
  plain : ∀ x, Descent.Below t.children q x → (t.con x).type ≠ .dockarea ∧ t.isFloating x = false

/-- What only moves the focus within its column, or not at all, keeps the order. -/
theorem Orderly.congr {q : ConId} (ho : Orderly q t) (hl : Links t t') (hf : SameFocus t t')
    (hfloating : ∀ x, (t'.con x).floating = (t.con x).floating) : Orderly q t' where
  first f hmem x hx hxf := by
    rw [hf.heads]
    exact ho.first f (hf.focused ▸ hmem) x (hl.mem_children.mp hx) (hl.within.mp hxf)
  plain x hx := by
    rw [hl.type, isFloating, hfloating]
    exact ho.plain x (hx.mono fun _ _ => hl.mem_children.mp)

theorem sameFocus_setWindow (t : Tree) (c : ConId) (window : Option Window) :
    SameFocus t (t.setWindow c window) := .of_modify t c _ rfl

theorem Orderly.setWindow {q : ConId} (ho : Orderly q t) (c : ConId) (window : Option Window) :
    Orderly q (t.setWindow c window) :=
  ho.congr (links_setWindow t c window) (sameFocus_setWindow t c window)
    (Alters.setWindow (N := fun _ => False) (R := fun _ => True) (Q := fun _ => False) trivial window).floating

theorem Orderly.calmDown {q : ConId} (ho : Orderly q t) (c : ConId) : Orderly q (t.calmDown c) :=
  ho.congr (stirs_calmDown t c).links (sameFocus_calmDown t c) (stirs_calmDown t c).floating

theorem closeOff_children_subset (t : Tree) (c q : ConId) : (t.closeOff cfg c).children q ⊆ t.children q := by
  intro x hx
  rw [closeOff, conFree_children] at hx
  exact (links_setWindow t c none).mem_children.mp
    (conDetach_children_subset c q ((links_closeDetach c true).mem_children.mp hx))

/-- What is not below the closed container is reached as before. -/
theorem reach_closeOff (ht : Rooted t) (hx : t.Reach x) (hnot : ¬ Descent.Within t.children c x) :
    (t.closeOff cfg c).Reach x := by
  have hwindow := links_setWindow t c none
  have hdetach := (ht.links hwindow).reach_conDetach c (hwindow.reach.mpr hx)
    fun h => hnot (hwindow.within.mp h)
  have hclose := (@links_closeDetach cfg (t.setWindow c none) c true).reach.mpr hdetach
  rw [Reach, closeOff, conFree_croot]
  exact hclose.mono fun p => by rw [conFree_children]; exact List.Subset.refl _

theorem reach_closeAlone (ht : Rooted t) (hx : t.Reach x) (hnot : ¬ Descent.Within t.children c x) :
    (t.closeAlone cfg c).Reach x := by
  have hoff := @reach_closeOff cfg _ _ _ ht hx hnot
  rw [closeAlone]
  split
  · exact hoff
  · exact (stirs_conActivate cfg _ _).links.reach.mpr hoff

section Order

variable {q n : ConId} (ht : Healthy t) (ho : Orderly q t) (hc : t.Sits c)
include ht ho hc

/-- **The next focus is in the first column**, if in one at all. -/
theorem Orderly.focusAfter (hq : c ∉ t.children q) (hf : t.focused = some c)
    (hn : t.nextFocused c = some n) (hx : x ∈ t.children q) (hxn : Descent.Within t.children x n) :
    x ∈ t.heads q := by
  have hr := ht.rooted
  have hqn : Descent.Below t.children q n := (Descent.Below.single hx).trans_within hxn
  rcases hr.nextFocused_foremost hc hn hqn.within with hqc | hforemost
  · -- the container that goes away is in a column, and so is the next focus
    obtain ⟨d, hd, hdc⟩ := Descent.below_iff_head.mp hqc
    obtain ⟨p, hp, hreach, hmem⟩ := hr.exists_parent hc
    have hbelow : Descent.Below t.children d c :=
      (Descent.within_iff.mp hdc).resolve_left fun h => hq (h ▸ hd)
    have hdp := Descent.within_parent hr.parent hbelow hp
    have hplain := ho.plain p ((Descent.Below.single hd).trans_within hdp)
    have hdn : Descent.Within t.children d n := by
      simp only [nextFocused, hp, if_neg hplain.1, (ho.plain c hqc).2, Bool.false_eq_true,
        if_false, Option.some_inj] at hn
      exact hdp.trans (hn ▸ (hr.nextFocusedIn_spec hmem).1)
    rw [hr.acyclic.eq_of_within hr.parent hx hd hxn hdn]
    exact ho.first c hf d hd hdc
  · rcases Relation.ReflTransGen.cases_head hforemost with heq | ⟨z, hz, hzn⟩
    · exact absurd heq.symm (hr.acyclic.ne hqn)
    · rwa [hr.acyclic.eq_of_within hr.parent hx (hr.heads_subset q hz) hxn (hr.within_of_foremost hzn)]

omit ho in
theorem focusAfter_reach (hn : (t.setWindow c none).nextFocused c = some n) : (t.closeOff cfg c).Reach n := by
  have hwindow := links_setWindow t c none
  obtain ⟨hreach, hnot⟩ := (ht.rooted.links hwindow).nextFocused_spec (hwindow.sits.mpr hc) hn
  exact reach_closeOff ht.rooted (hwindow.reach.mp hreach) fun h => hnot (hwindow.within.mpr h)

omit ho in
/-- **The focus stacks after closing one container**: where the focus moves on, it is brought to the front. -/
theorem closeAlone_focusHead_eq (q : ConId) : ((t.closeAlone cfg c).con q).focusHead
    = Recent.bring ((t.focusAfter c).bind fun n => (t.closeOff cfg c).towards n q)
      ((t.closeOff cfg c).con q).focusHead := by
  have hrs := (@calm_closeOff cfg t c ht hc.2).healthy.rooted
  rw [closeAlone]
  cases hafter : t.focusAfter c with
  | none => rfl
  | some n =>
    have hn := (focusAfter_eq_some.mp hafter).2
    dsimp only
    rw [conActivate, conRaise_focusHead, hrs.conFocus_focusHead (focusAfter_reach ht hc hn)]
    rfl

omit ho in
/-- Where the focus stack of `q` is touched when the focus moves on from `c`. -/
theorem focusAfter_towards (hafter : t.focusAfter c = some n) (hy : (t.closeOff cfg c).towards n q = some y) :
    (t.setWindow c none).nextFocused c = some n ∧ y ∈ t.children q ∧ Descent.Within t.children y n := by
  have hrs := (@calm_closeOff cfg t c ht hc.2).healthy.rooted
  have hsub := @closeOff_children_subset cfg t c
  have hn := (focusAfter_eq_some.mp hafter).2
  obtain ⟨hyq, hyn⟩ := (hrs.towards_eq_some (focusAfter_reach ht hc hn)).mp hy
  exact ⟨hn, hsub q hyq, hyn.mono hsub⟩

omit ho in
/-- Where the focus moves on to what is first in `q`, the focus stack of `q` loses the closed container only. -/
theorem closeAlone_focusHead_of_heads (hhead : ∀ n y, t.focusAfter c = some n → y ∈ t.children q →
      Descent.Within t.children y n → y ∈ (t.closeOff cfg c).heads q) :
    ((t.closeAlone cfg c).con q).focusHead = ((t.closeOff cfg c).con q).focusHead := by
  rw [closeAlone_focusHead_eq ht hc]
  cases hafter : t.focusAfter c with
  | none => rfl
  | some n =>
    cases htowards : (t.closeOff cfg c).towards n q with
    | none => simp [htowards, Recent.bring]
    | some y =>
      obtain ⟨-, hy, hyn⟩ := focusAfter_towards ht hc hafter htowards
      rw [Option.bind_some, htowards]
      apply bring_of_mem_heads
      exact hhead n y hafter hy hyn

omit ho in
/-- **The focus after closing one container** has moved on, or is where it was; what is closed is below
nothing. -/
theorem closeAlone_focused_cases {f : ConId} (hf : f ∈ (t.closeAlone cfg c).focused)
    (hx : x ∈ (t.closeOff cfg c).children q) (hxf : Descent.Within (t.closeOff cfg c).children x f) :
    t.focusAfter c = some f ∨ f ≠ c ∧ t.focused = some f := by
  have hne : f ≠ c := by
    rintro rfl
    rcases Descent.within_iff.mp hxf with rfl | hbelow
    · exact notMem_children_closeOff ht q hx
    · obtain ⟨y, -, hy⟩ := Descent.below_iff_exists.mp hbelow
      exact notMem_children_closeOff ht y hy
  rw [closeAlone] at hf
  cases hafter : t.focusAfter c with
  | none =>
    rw [hafter] at hf
    exact .inr ⟨hne, (closeOff_focused t c) ▸ hf⟩
  | some n =>
    rw [hafter] at hf
    rcases @conActivate_focused cfg (t.closeOff cfg c) n with heq | heq
    · exact .inl (heq.symm.trans hf)
    · exact .inr ⟨hne, by rw [← @closeOff_focused cfg t c, ← heq]; exact hf⟩

omit ht hc ho in
theorem links_closeAlone : Links (t.closeOff cfg c) (t.closeAlone cfg c) := by
  rw [closeAlone]
  split
  · exact .refl _
  · exact (stirs_conActivate cfg _ _).links

/-- **Closing a container in a column** leaves the order of the columns as it is. -/
theorem closeAlone_focusHead (htype : (t.con c).type ≠ .floatingCon) (hq : c ∉ t.children q) :
    ((t.closeAlone cfg c).con q).focusHead = (t.con q).focusHead ∧ Orderly q (t.closeAlone cfg c) := by
  have hr := ht.rooted
  obtain ⟨p, hp, hreach, hmem⟩ := hr.exists_parent hc
  have hpq : q ≠ p := by
    rintro rfl
    exact hq hmem
  have hoff := @closeOff_focusHead cfg _ _ _ hp q
  rw [if_neg hpq] at hoff
  have hsub := @closeOff_children_subset cfg t c
  have halters := @alters_closeAlone cfg _ _ _ hp htype
  have hl := @links_closeAlone cfg t c
  -- where the focus moves on into a column, that column is the first
  have hnext : ∀ n x, t.focusAfter c = some n → x ∈ t.children q → Descent.Within t.children x n →
      x ∈ t.heads q := by
    intro n x hafter hx hxn
    obtain ⟨hfocused, hn⟩ := focusAfter_eq_some.mp hafter
    have hwindow := links_setWindow t c none
    rw [← (sameFocus_setWindow t c none).heads]
    exact (ho.setWindow c none).focusAfter (ht.links hwindow) (hwindow.sits.mpr hc)
      (fun h => hq (hwindow.mem_children.mp h)) hfocused hn (hwindow.mem_children.mpr hx)
      (hwindow.within.mpr hxn)
  have hfocus : ((t.closeAlone cfg c).con q).focusHead = (t.con q).focusHead := by
    rw [closeAlone_focusHead_of_heads ht hc fun n x hafter hx hxn => ?_, hoff]
    rw [heads, hoff, ← heads]
    exact hnext n x hafter hx hxn
  refine ⟨hfocus, ⟨fun f hf x hx hxf => ?_, fun x hx => ?_⟩⟩
  · rw [hl.mem_children] at hx
    rw [hl.within] at hxf
    rw [heads, hfocus, ← heads]
    rcases closeAlone_focused_cases ht hc hf hx hxf with hafter | ⟨-, hfocused⟩
    · exact hnext f x hafter (hsub q hx) (hxf.mono hsub)
    · exact ho.first f hfocused x (hsub q hx) (hxf.mono hsub)
  · rw [halters.type, isFloating, halters.floating]
    exact ho.plain x ((hx.mono fun _ _ => hl.mem_children.mp).mono hsub)

end Order

section Beside

variable {n q y : ConId} (ht : Healthy t) (hc : t.Sits c)
include ht hc

/-- The focus moves on to the first of the others beside the container, if to one of them at all. -/
theorem focusAfter_beside (hp : (t.con c).parent = some p) (hafter : t.focusAfter c = some n)
    (hy : y ∈ t.children p) (hyn : Descent.Within t.children y n) :
    ((t.con p).focusHead.erase c).head? = some y := by
  have hwindow := links_setWindow t c none
  have hfirst := (ht.rooted.links hwindow).nextFocused_beside (hwindow.sits.mpr hc)
    ((hwindow.parent c).trans hp) (focusAfter_eq_some.mp hafter).2 (hwindow.mem_children.mpr hy)
    (hwindow.within.mpr hyn)
  rwa [(sameFocus_setWindow t c none).focusHead] at hfirst

/-- **The focus order beside a container that is closed** stays. -/
theorem closeAlone_focusHead_beside (hp : (t.con c).parent = some p) :
    ((t.closeAlone cfg c).con p).focusHead = (t.con p).focusHead.erase c := by
  have hoff := @closeOff_focusHead cfg _ _ _ hp p
  rw [if_pos rfl] at hoff
  rw [closeAlone_focusHead_of_heads ht hc fun n y hafter hy hyn => ?_, hoff]
  rw [mem_heads, hoff]
  exact focusAfter_beside ht hc hp hafter hy hyn

/-- The focus order of a container stays that is not above the one that is closed. -/
theorem closeAlone_focusHead_elsewhere (hq : ¬ Descent.Below t.children q c) :
    ((t.closeAlone cfg c).con q).focusHead = (t.con q).focusHead := by
  have hwindow := links_setWindow t c none
  obtain ⟨p, hp, -, hmem⟩ := ht.rooted.exists_parent hc
  have hqp : q ≠ p := by
    rintro rfl
    exact hq (.single hmem)
  have hoff := @closeOff_focusHead cfg _ _ _ hp q
  rw [if_neg hqp] at hoff
  rw [closeAlone_focusHead_of_heads ht hc fun n y hafter hy hyn => ?_, hoff]
  have hn := (focusAfter_eq_some.mp hafter).2
  have hqn : Descent.Below t.children q n := (Descent.Below.single hy).trans_within hyn
  -- the way down leads through the first entries
  have hforemost : t.Foremost q n := by
    rcases (ht.rooted.links hwindow).nextFocused_foremost (hwindow.sits.mpr hc) hn
      (hwindow.within.mpr hqn.within) with hbelow | hforemost
    · exact absurd (hbelow.mono fun _ _ hx => hwindow.mem_children.mp hx) hq
    · rwa [Foremost, (sameFocus_setWindow t c none).heads] at hforemost
  rw [heads, hoff, ← heads]
  rcases Relation.ReflTransGen.cases_head hforemost with heq | ⟨z, hz, hzn⟩
  · exact absurd heq.symm (ht.rooted.acyclic.ne hqn)
  · rwa [ht.rooted.acyclic.eq_of_within ht.rooted.parent hy (ht.rooted.heads_subset q hz) hyn
      (ht.rooted.within_of_foremost hzn)]

end Beside

/-- Moving the first of the others to the front does not change their order. -/
theorem erase_toFront_of_head {l : List ConId} (hy : (l.erase c).head? = some y) :
    (Queue.toFront y l).erase c = l.erase c := by
  obtain ⟨r, hr⟩ := List.head?_eq_some_iff.mp hy
  have hmem : y ∈ l := List.mem_of_mem_erase (List.mem_of_mem_head? hy)
  rw [Queue.toFront, if_pos hmem]
  by_cases hyc : y = c
  · rw [hyc, List.erase_cons_head]
  · rw [List.erase_cons_tail (by simpa using hyc), List.erase_comm, hr, List.erase_cons_head]

section Inner

variable {d n : ConId} (ht : Healthy t) (h : Pair t p c d) (htype : (t.con c).type ≠ .dockarea)
include ht h htype

/-- Closing the only child of a child moves the focus below that child, or to the first of the others
beside it. -/
theorem focusAfter_inner (hafter : t.focusAfter d = some n) (hy : y ∈ t.children p)
    (hyn : Descent.Within t.children y n) : y = c ∨ ((t.con p).focusHead.erase c).head? = some y := by
  have hr := ht.rooted
  have hpc : c ∈ t.children p := List.mem_append_left _ h.parent
  have hcd : d ∈ t.children c := List.mem_append_left _ h.mem_child
  have hwindow := links_setWindow t d none
  have hrw := hr.links hwindow
  have hn := (focusAfter_eq_some.mp hafter).2
  have htypec : ((t.setWindow d none).con c).type ≠ .dockarea := by rwa [hwindow.type]
  simp only [nextFocused, hwindow.parent, hr.parent c d hcd, if_neg htypec, hr.parent p c hpc,
    Option.map_some] at hn
  split at hn
  · -- a floating container: the focus goes to what is beside the parent
    obtain rfl := Option.some_inj.mp hn
    have hfirst := hrw.nextFocusedIn_beside (hwindow.mem_children.mpr hy) (hwindow.within.mpr hyn)
    rw [(sameFocus_setWindow t d none).focusHead] at hfirst
    exact .inr hfirst
  · obtain rfl := Option.some_inj.mp hn
    have hcn := (hrw.nextFocusedIn_spec (hwindow.mem_children.mpr hcd)).1
    exact .inl (hr.acyclic.eq_of_within hr.parent hy hpc hyn (hwindow.within.mp hcn))

/-- **The order of the others** beside a child whose only child is closed. -/
theorem erase_closeAlone_inner : ((t.closeAlone cfg d).con p).focusHead.erase c = (t.con p).focusHead.erase c := by
  have hr := ht.rooted
  have hsits := h.sits_child hr
  have hoff := @closeOff_focusHead cfg _ _ _ (hr.parent c d (List.mem_append_left _ h.mem_child)) p
  rw [if_neg (h.ne_parent hr).symm] at hoff
  rw [closeAlone_focusHead_eq ht hsits, hoff]
  cases hafter : t.focusAfter d with
  | none => rfl
  | some n =>
    cases htowards : (t.closeOff cfg d).towards n p with
    | none => simp [htowards, Recent.bring]
    | some y =>
      obtain ⟨-, hy, hyn⟩ := focusAfter_towards ht hsits hafter htowards
      rw [Option.bind_some, htowards, Recent.bring]
      rcases focusAfter_inner ht h htype hafter hy hyn with rfl | hfirst
      · rw [Queue.toFront]
        split
        · rw [List.erase_cons_head]
        · rfl
      · exact erase_toFront_of_head hfirst

end Inner

/-- Closing makes no container. -/
theorem closeAlone_nextCon (t : Tree) (c : ConId) : (t.closeAlone cfg c).nextCon = t.nextCon := by
  have hoff : (t.closeOff cfg c).nextCon = t.nextCon := by
    rw [closeOff, conFree_nextCon, (links_closeDetach c true).nextCon, conDetach_nextCon]
    rfl
  rw [closeAlone]
  split
  · exact hoff
  · rw [(stirs_conActivate cfg _ _).nextCon, hoff]

end Tree

end I3
