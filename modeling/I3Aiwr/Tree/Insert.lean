import I3Aiwr.Tree.Move

/-!
# Inserting next to a container

`insert_con_into` detaches a container and puts it beside its target. Where that is a workspace with
a `workspace_layout`, a new split container around it takes its place.

## Main definitions

* `Tree.Inserted t t' c p x`: `c` was moved to `p`, as the child `x`

## Main results

* `Tree.inserted_insertBeside`
* `Tree.Inserted.foremost_iff`: when the container is foremost in its new place
-/

namespace I3

namespace Tree

variable {cfg : Config} {t t' : Tree} {c p q x ws : ConId}

theorem attaches_edit {f g : List ConId → List ConId} (htype : (t.con c).type ≠ .floatingCon)
    (hf : (f (t.con p).nodesHead).Perm (c :: (t.con p).nodesHead))
    (hg : (g (t.con p).focusHead).Perm (c :: (t.con p).focusHead)) :
    Attaches t (((t.setParent c p).editFocus p g).editNodes p f) c p where
  allCons := rfl
  croot := rfl
  nextCon := rfl
  type d := by simp
  fullscreenMode d := by simp
  sticky d := by simp
  parent d := by simp
  nodesHead d := by
    by_cases hd : d = p
    · subst hd
      simpa [htype] using hf
    · simp [hd]
  floatingHead d := by simp [htype]
  focusHead d := by
    by_cases hd : d = p
    · subst hd
      simpa using hg
    · simp [hd]

/-- **Attaching a container elsewhere** keeps the tree healthy. -/
theorem Healthy.attaches (ht : Healthy t) (hc : t.Sits c) (h : Attaches (t.conDetach c) t' c p)
    (hcp : ¬ Descent.Within t.children c p)
    (hws : ∀ w, (t.con w).type = .workspace → Descent.Within t.children w p →
      ∀ y, Descent.Within t.children c y → (t.con y).type ≠ .workspace)
    (hfloating : (t.con c).type = .floatingCon → (t.con p).type = .workspace) : Healthy t' := by
  have hsub := conDetach_children_subset (t := t) c
  have hnot : ¬ Descent.Within (t.conDetach c).children c p := fun h' => hcp (h'.mono hsub)
  refine ⟨?_, ?_, fun w hlt hw => ?_⟩
  · refine (ht.rooted.conDetach c).attaches h (ht.rooted.notMem_children_conDetach c) hnot
      (fun y hy => ?_) ?_ (by simpa using hc.2)
    · rw [Alive, conDetach_allCons]
      exact ht.rooted.alive y (hc.1.trans (hy.mono hsub))
    · simpa using ht.rooted.lt_nextCon hc.1
  · refine (ht.layered.conDetach c).attaches h hnot (fun w hw hwp y hy => ?_) (by simpa using hfloating)
    rw [conDetach_type] at hw ⊢
    exact hws w hw (hwp.mono hsub) y (hy.mono hsub)
  · rw [h.nextCon, conDetach_nextCon] at hlt
    rw [h.type, h.croot, conDetach_type, conDetach_croot] at hw
    rw [h.fullscreenMode, conDetach_fullscreenMode]
    exact ht.global w hlt hw

/-- The container `c` was moved to `p`: `x` is a child of `p` now, which is `c` or a new container
around it. -/
structure Inserted (t t' : Tree) (c p x : ConId) : Prop where
  healthy : Healthy t'
  stacked : Stacked t → Stacked t'
  croot : t'.croot = t.croot
  nextCon : t.nextCon ≤ t'.nextCon
  type : ∀ d < t.nextCon, (t'.con d).type = (t.con d).type
  focused : t'.focused = t.focused
  new : x ≠ c → x = t.nextCon ∧ t'.children x = [c] ∧ (t'.con x).focusHead = [c]
  mem_children : ∀ q, (q = x → x = c) → ∀ y, y ∈ t'.children q ↔
    y ∈ t.children q ∧ y ≠ c ∨ q = p ∧ y = x
  focusHead : ∀ q, q ≠ p → (q = x → x = c) → (t'.con q).focusHead = (t.con q).focusHead.erase c

/-- The end of an insertion: `c`, detached, is put into the queues of `p`. -/
theorem inserted_of_attaches (ht : Healthy t) (hc : t.Sits c) (hcp : ¬ Descent.Within t.children c p)
    (hws : ∀ y, Descent.Within t.children c y → (t.con y).type ≠ .workspace)
    (htype : (t.con c).type ≠ .floatingCon) (h : Attaches (t.conDetach c) t' c p)
    (hfocused : t'.focused = t.focused)
    (hfocus : ∀ q, q ≠ p → (t'.con q).focusHead = (t.con q).focusHead.erase c) :
    Inserted t t' c p c where
  healthy := ht.attaches hc h hcp (fun _ _ _ => hws) fun h' => absurd h' htype
  stacked hs := (hs.conDetach ht.rooted c).attaches h
  croot := by rw [h.croot, conDetach_croot]
  nextCon := by rw [h.nextCon, conDetach_nextCon]
  type d _ := by rw [h.type, conDetach_type]
  focused := hfocused
  new hne := absurd rfl hne
  mem_children q _ y := by rw [h.mem_children, ht.rooted.mem_children_conDetach]
  focusHead q hq _ := hfocus q hq

theorem Rooted.conDetach_focusHead (ht : Rooted t) (c q : ConId) :
    ((t.conDetach c).con q).focusHead = (t.con q).focusHead.erase c := by
  rw [conDetach_con]
  split
  · rfl
  · next hp =>
    refine (List.erase_of_not_mem fun hc => hp ?_).symm
    exact ht.parent q c (ht.focus q c hc)

theorem Attaches.of_setParent (h : Attaches (t.setParent c q) t' c p) : Attaches t t' c p where
  allCons := h.allCons
  croot := h.croot
  nextCon := h.nextCon
  type d := by rw [h.type, setParent_type]
  fullscreenMode d := by rw [h.fullscreenMode, setParent_fullscreenMode]
  sticky d := by rw [h.sticky, setParent_sticky]
  parent d := by
    rw [h.parent, setParent_parent]
    split <;> rfl
  nodesHead d := by simpa using h.nodesHead d
  floatingHead d := by simpa using h.floatingHead d
  focusHead d := by simpa using h.focusHead d

theorem attachPlain_focusHead (previous : Option ConId) (ignoreFocus : Bool) :
    ((t.attachPlain c p previous ignoreFocus).con q).focusHead =
      if q = p then (t.con q).focusHead ++ [c] else (t.con q).focusHead := by
  unfold attachPlain
  dsimp only
  rw [editFocus_focusHead]
  split_ifs
  all_goals try split
  all_goals first | rfl | simp

theorem attachPlain_focused (previous : Option ConId) (ignoreFocus : Bool) :
    (t.attachPlain c p previous ignoreFocus).focused = t.focused := by
  unfold attachPlain
  dsimp only
  split_ifs
  all_goals try split
  all_goals rfl

/-! ### Between the siblings -/

section Put

variable {target lca : ConId} {position : Position}

theorem sameFocus_putBeside (t : Tree) (before : Bool) :
    SameFocus ((t.setParent c p).placeFocus c target p lca before)
      (t.putBeside c target p lca before position) := by
  refine SameFocus.trans ?_ ((sameFocus_setPercent _ c 0).trans (sameFocus_conFixPercent _ p))
  exact ⟨rfl, fun q => by simp⟩

/-- The focus stack of the parent afterwards, where the container comes before the target. -/
theorem putBeside_focusHead (t : Tree) (q : ConId) :
    ((t.putBeside c target p lca true position).con q).focusHead =
      if q = p then
        if p = lca then Queue.insertBefore target c (t.con q).focusHead else c :: (t.con q).focusHead
      else (t.con q).focusHead := by
  rw [(sameFocus_putBeside t true).focusHead, placeFocus]
  simp only [editFocus_focusHead, setParent_focusHead, if_true]
  by_cases hq : q = p <;> by_cases hp : p = lca <;> simp [hq, hp]

theorem putBeside_focusHead_of_ne (t : Tree) (before : Bool) (hq : q ≠ p) :
    ((t.putBeside c target p lca before position).con q).focusHead = (t.con q).focusHead := by
  rw [(sameFocus_putBeside t before).focusHead, placeFocus, editFocus_focusHead, if_neg hq, setParent_focusHead]

theorem attaches_putBeside {before : Bool} (htype : (t.con c).type ≠ .floatingCon)
    (htarget : target ∈ (t.con p).nodesHead) (hfocus : target ∈ (t.con p).focusHead) :
    Attaches t (t.putBeside c target p lca before position) c p := by
  refine Attaches.trans_links (attaches_edit htype ?_ ?_) (.refl _)
    ((links_setPercent _ c 0).trans (links_conFixPercent _ p))
  · cases position with
    | before => exact Queue.insertBefore_perm htarget
    | after => exact Queue.insertAfter_perm htarget
  · split
    · split
      · exact Queue.insertBefore_perm hfocus
      · exact Queue.insertAfter_perm hfocus
    · split
      · exact .refl _
      · exact List.perm_append_singleton c _

end Put

/-! ### The new split container -/

/-- What `workspace_attach_to` and attaching `c` to the new container do: `c` is on `p` in the new
container. -/
structure Wrapped (t t' : Tree) (c p : ConId) : Prop where
  joins : Joins t t' c p
  stacked : Stacked t → Stacked t'
  nextCon : t'.nextCon = t.nextCon + 1
  focused : t'.focused = t.focused
  new : t'.children t.nextCon = [c] ∧ (t'.con t.nextCon).focusHead = [c]
  mem_children : ∀ q ≠ t.nextCon, ∀ y, y ∈ t'.children q ↔ y ∈ t.children q ∨ q = p ∧ y = t.nextCon
  focusHead : ∀ q ≠ t.nextCon, (t'.con q).focusHead =
    if q = p then (t.con q).focusHead ++ [t.nextCon] else (t.con q).focusHead

section Split

variable (ht : Rooted t) (hl : Layered t) (hc : ∀ q, c ∉ t.children q) (hroot : c ≠ t.croot)
  (hlt : c < t.nextCon) (hp : ¬ Descent.Within t.children c p)
  (halive : ∀ x, Descent.Within t.children c x → t.Alive x)
  (hws : ∀ x, Descent.Within t.children c x → (t.con x).type ≠ .workspace)
  (htype : (t.con c).type ≠ .floatingCon) (hplt : p < t.nextCon)
include ht hl hc hroot hlt hp halive hws htype hplt

/-- **A new split container** on a workspace is wrapped around `c`, and detached again. -/
theorem splitFor_cases : t.splitFor cfg c p = (t, c) ∨
    (t.con p).type = .workspace ∧ ∃ t', Wrapped t t' c p
      ∧ t.splitFor cfg c p = (t'.conDetach t.nextCon, t.nextCon) := by
  by_cases hptype : (t.con p).type = .workspace
  swap
  · exact .inl (if_pos hptype)
  by_cases hlayout : (t.con p).workspaceLayout = .default
  · simp [splitFor, hptype, workspaceAttachTo, hlayout]
  -- the new container is attached to the workspace, and the container to it
  obtain ⟨t₁, h₁⟩ : ∃ t₁, ((t.conNew cfg none).1.setParent t.nextCon p).setLayout t.nextCon
      ((t.conNew cfg none).1.con p).workspaceLayout = t₁ := ⟨_, rfl⟩
  have hcreates : Creates t t₁ c := h₁ ▸ creates_conNew t none p _
  have hfocused₁ : t₁.focused = t.focused := h₁ ▸ rfl
  have hrooted : Rooted t₁ := ht.creates hcreates hc hroot
  have hnewtype : (t₁.con t.nextCon).type = .con := hcreates.new.1
  obtain ⟨t₂, h₂⟩ : ∃ t₂, (t₁.attachPlain t.nextCon p none false).conFixPercent p = t₂ := ⟨_, rfl⟩
  have hsame₂ : SameFocus (t₁.attachPlain t.nextCon p none false) t₂ :=
    h₂ ▸ sameFocus_conFixPercent _ p
  have hattach₂ : Attaches t₁ t₂ t.nextCon p := by
    have hlinks : Links (t₁.attachPlain t.nextCon p none false) t₂ := h₂ ▸ links_conFixPercent _ p
    refine Attaches.trans_links ?_ (.refl _) hlinks
    exact attaches_attachPlain (fun _ => by simp [hnewtype]) fun _ => hrooted.anchorOk p
  have hfocus₂ : (t₂.con t.nextCon).focusHead = [] := by
    rw [hsame₂.focusHead, attachPlain_focusHead, if_neg hplt.ne', hcreates.new.2.2.2.2.2]
  have hto : t.workspaceAttachTo cfg p = (t₂, t.nextCon) := by
    rw [workspaceAttachTo, if_neg hlayout, ← h₂, ← h₁]
    rfl
  have hplain : ¬ (t₂.setParent c t.nextCon).followsWorkspaceLayout c t.nextCon := by
    rintro ⟨-, hws, -⟩
    rw [setParent_type, hattach₂.type, hnewtype] at hws
    cases hws
  obtain ⟨t₃, h₃⟩ : ∃ t₃, (((t₂.setParent c t.nextCon).attachPlain c t.nextCon none false).setPercent
      c 0).conFixPercent t.nextCon = t₃ := ⟨_, rfl⟩
  have hsame₃ : SameFocus ((t₂.setParent c t.nextCon).attachPlain c t.nextCon none false) t₃ :=
    h₃ ▸ (sameFocus_setPercent _ c 0).trans (sameFocus_conFixPercent _ _)
  have hattach₃ : Attaches t₂ t₃ c t.nextCon := by
    have hlinks : Links ((t₂.setParent c t.nextCon).attachPlain c t.nextCon none false) t₃ :=
      h₃ ▸ (links_setPercent _ c 0).trans (links_conFixPercent _ _)
    refine Attaches.of_setParent (q := t.nextCon) (Attaches.trans_links ?_ (.refl _) hlinks)
    refine attaches_attachPlain (fun _ => ?_) fun _ d hd => ?_
    · rwa [setParent_type, hattach₂.type, hcreates.type c hlt.ne]
    · simp [focusedTiling, hfocus₂] at hd
  have hsplit : t.splitFor cfg c p = (t₃.conDetach t.nextCon, t.nextCon) := by
    rw [splitFor, if_neg (not_not.mpr hptype), hto]
    dsimp only
    rw [if_neg hplt.ne', conAttach, conAttachAt, if_neg hplain, h₃]
  refine .inr ⟨hptype, t₃, ⟨?_, fun hs => ?_, ?_, ?_, ⟨?_, ?_⟩, fun q hq y => ?_, fun q hq => ?_⟩, hsplit⟩
  · exact hcreates.joins ht hl hc hroot hlt hp halive (fun _ _ _ => hws) hplt hattach₂ hattach₃ htype
  · exact ((hs.creates hcreates).attaches hattach₂).attaches hattach₃
  · rw [hattach₃.nextCon, hattach₂.nextCon, hcreates.nextCon]
  · rw [hsame₃.focused, attachPlain_focused]
    exact hsame₂.focused.trans ((attachPlain_focused _ _).trans hfocused₁)
  · have hnodes : (t₃.con t.nextCon).nodesHead = [c] := by
      have h' := hattach₃.nodesHead t.nextCon
      have h'' := hattach₂.nodesHead t.nextCon
      rw [if_neg (fun h => hplt.ne' h.1), hcreates.new.2.2.2.1] at h''
      rw [hattach₂.type, hcreates.type c hlt.ne, if_pos ⟨rfl, htype⟩, h''.eq_nil] at h'
      exact List.perm_singleton.mp h'
    have hfloating : (t₃.con t.nextCon).floatingHead = [] := by
      have h' := hattach₃.floatingHead t.nextCon
      have h'' := hattach₂.floatingHead t.nextCon
      rw [if_neg (fun h => hplt.ne' h.1), hcreates.new.2.2.2.2.1] at h''
      rw [hattach₂.type, hcreates.type c hlt.ne, if_neg (fun h => htype h.2), h''.eq_nil] at h'
      exact h'.eq_nil
    rw [children, hnodes, hfloating, List.append_nil]
  · rw [hsame₃.focusHead, attachPlain_focusHead, if_pos rfl, setParent_focusHead, hfocus₂,
      List.nil_append]
  · rw [hattach₃.mem_children, hattach₂.mem_children]
    simp [hq, children, hcreates.nodesHead q hq, hcreates.floatingHead q hq]
  · rw [hsame₃.focusHead, attachPlain_focusHead, if_neg hq, setParent_focusHead, hsame₂.focusHead,
      attachPlain_focusHead, hcreates.focusHead q hq]

end Split

/-- Joining after a change of other things. -/
theorem Joins.of_links {s : Tree} (h : Joins s t' c p) (hl : Links t s) : Joins t t' c p where
  rooted := h.rooted
  layered := h.layered
  croot := h.croot.trans hl.croot
  nextCon := hl.nextCon ▸ h.nextCon
  type d hd := (h.type d (hl.nextCon ▸ hd)).trans (hl.type d)
  fullscreenMode d hd := (h.fullscreenMode d (hl.nextCon ▸ hd)).trans (hl.fullscreenMode d)
  sticky d hd := (h.sticky d (hl.nextCon ▸ hd)).trans (hl.sticky d)
  new d hd := h.new d (hl.nextCon ▸ hd)
  below q hq y hy hbelow := by
    rw [← hl.within, ← hl.within]
    refine (h.below q (hl.nextCon ▸ hq) y (hl.nextCon ▸ hy) hbelow).imp_left fun h' => ?_
    exact h'.mono fun _ _ => hl.mem_children.mp

theorem Joins.healthy (ht : Healthy t) (h : Joins (t.conDetach c) t' c p) : Healthy t' := by
  refine ⟨h.rooted, h.layered, fun w hlt hw => ?_⟩
  by_cases hold : w < t.nextCon
  · have hold' : w < (t.conDetach c).nextCon := by rwa [conDetach_nextCon]
    rw [h.type w hold', h.croot, conDetach_type, conDetach_croot] at hw
    rw [h.fullscreenMode w hold', conDetach_fullscreenMode]
    exact ht.global w hold hw
  · have hnew : (t.conDetach c).nextCon ≤ w := by rw [conDetach_nextCon]; exact not_lt.mp hold
    rw [(h.new w hnew hlt).2.1]
    simp

/-! ### Inserting -/

/-- **Inserting beside a target** puts the container, or a new one around it, in the place it should
have among the children, and in the focus stack. -/
theorem inserted_insertBeside {target old lca : ConId} (ht : Healthy t) (hs : Stacked t)
    (hc : t.Sits c) (hp : t.Reach p) (hcp : ¬ Descent.Within t.children c p)
    (hws : ∀ y, Descent.Within t.children c y → (t.con y).type ≠ .workspace)
    (htype : (t.con c).type ≠ .floatingCon) (htarget : target ∈ (t.con p).nodesHead)
    (hne : target ≠ c) (before : Bool) (position : Position) :
    ∃ x, Inserted t (((t.conDetach c).conFixPercent old).insertBeside cfg c target p lca before
        position) c p x
      ∧ (before = true → ((((t.conDetach c).conFixPercent old).insertBeside cfg c target p lca before
          position).con p).focusHead
        = if p = lca then Queue.insertBefore target x ((t.con p).focusHead.erase c)
          else x :: (t.con p).focusHead.erase c) := by
  have hr := ht.rooted
  have hsub := conDetach_children_subset (t := t) c
  obtain ⟨s, hdetach⟩ : ∃ s, (t.conDetach c).conFixPercent old = s := ⟨_, rfl⟩
  have hl : Links (t.conDetach c) s := hdetach ▸ links_conFixPercent _ old
  have hsame : SameFocus (t.conDetach c) s := hdetach ▸ sameFocus_conFixPercent _ old
  have hwithin : ∀ {q y}, Descent.Within s.children q y → Descent.Within t.children q y :=
    fun h => (hl.within.mp h).mono hsub
  have hnext : s.nextCon = t.nextCon := by rw [hl.nextCon, conDetach_nextCon]
  have htargets : target ∈ (s.con p).nodesHead := by
    rw [hl.nodesHead]
    exact (hr.mem_nodesHead_conDetach c).mpr ⟨htarget, hne⟩
  have hfocuss : ∀ q, (s.con q).focusHead = (t.con q).focusHead.erase c := fun q => by
    rw [hsame.focusHead, hr.conDetach_focusHead]
  have hstacked : Stacked s := (hs.conDetach hr c).links hl
  have hrs : Rooted s := (hr.conDetach c).links hl
  have hplt := hr.lt_nextCon hp
  rw [hdetach, insertBeside]
  have halive : ∀ y, Descent.Within s.children c y → s.Alive y := by
    intro y hy
    rw [hl.isAlive, Alive, conDetach_allCons]
    exact hr.alive y (hc.1.trans (hwithin hy))
  rcases @splitFor_cases cfg s c p hrs ((ht.layered.conDetach c).links hl)
    (fun q h => hr.notMem_children_conDetach c q (hl.mem_children.mp h))
    (by rw [hl.croot, conDetach_croot]; exact hc.2) (hnext ▸ hr.lt_nextCon hc.1)
    (fun h => hcp (hwithin h)) halive
    (fun y hy => by rw [hl.type, conDetach_type]; exact hws y (hwithin hy))
    (by rwa [hl.type, conDetach_type]) (hnext ▸ hplt) with h | ⟨hptype, s', hw, h⟩
  · -- without a new container
    rw [h]
    dsimp only
    have hattach : Attaches s (s.putBeside c target p lca before position) c p :=
      attaches_putBeside (by rwa [hl.type, conDetach_type]) htargets
        (hstacked p (List.mem_append_left _ htargets))
    refine ⟨c, inserted_of_attaches ht hc hcp hws htype (hattach.trans_links hl (.refl _)) ?_
      fun q hq => ?_, ?_⟩
    · rw [(sameFocus_putBeside s before).focused]
      exact hsame.focused.trans (conDetach_focused c)
    · rw [putBeside_focusHead_of_ne s before hq, hfocuss]
    · rintro rfl
      rw [putBeside_focusHead, if_pos rfl, hfocuss]
  · -- the new container is wrapped around it, and takes its place
    rw [h]
    dsimp only
    have hjoins : Joins (t.conDetach c) s' c p := hw.joins.of_links hl
    have hs' : Healthy s' := hjoins.healthy ht
    have hnew : p ≠ s.nextCon := hnext ▸ hplt.ne
    have hmem : s.nextCon ∈ s'.children p := (hw.mem_children p hnew _).mpr (.inr ⟨rfl, rfl⟩)
    have hreachp : s'.Reach p := by
      have hreach : s.Reach p := hl.reach.mpr (hr.reach_conDetach c hp hcp)
      rw [Reach, hw.joins.croot]
      refine hreach.transfer fun q y hq hy _ => ?_
      exact (hw.mem_children q (hrs.lt_nextCon hq).ne y).mpr (.inl hy)
    have hsits : s'.Sits s.nextCon := hs'.rooted.sits_of_mem hreachp hmem
    have hnewtype : (s'.con s.nextCon).type = .con :=
      (hw.joins.new s.nextCon le_rfl (hw.nextCon ▸ Nat.lt_succ_self _)).1
    have hchild : (s'.conDetach s.nextCon).con s.nextCon = s'.con s.nextCon := by
      rw [conDetach_con, if_neg]
      rw [hs'.rooted.parent p _ hmem, Option.some_inj]
      exact hnew
    have hattach : Attaches (s'.conDetach s.nextCon)
        ((s'.conDetach s.nextCon).putBeside s.nextCon target p lca before position) s.nextCon p := by
      have hts' : target ∈ (s'.con p).nodesHead := by
        have hmem' := (hw.mem_children p hnew target).mpr (.inl (List.mem_append_left _ htargets))
        refine (List.mem_append.mp hmem').resolve_right fun h' => ?_
        have hfloat := hs'.rooted.typeFloating p target h'
        rw [hw.joins.type target (hrs.bounded p target (List.mem_append_left _ htargets))] at hfloat
        exact hrs.typeNodes p target htargets hfloat
      have htd : target ∈ ((s'.conDetach s.nextCon).con p).nodesHead :=
        (hs'.rooted.mem_nodesHead_conDetach _).mpr
          ⟨hts', (hrs.bounded p target (List.mem_append_left _ htargets)).ne⟩
      refine attaches_putBeside (by simp [hnewtype]) htd ?_
      exact ((hw.stacked hstacked).conDetach hs'.rooted _) p (List.mem_append_left _ htd)
    have hcnew : c ≠ s.nextCon := hnext ▸ (hr.lt_nextCon hc.1).ne
    have herase : ∀ q, (((t.con q).focusHead.erase c).erase s.nextCon) = (t.con q).focusHead.erase c := by
      intro q
      refine List.erase_of_not_mem fun h' => lt_irrefl s.nextCon ?_
      rw [hnext] at h' ⊢
      exact hr.bounded q _ (hr.focus q _ (List.mem_of_mem_erase h'))
    refine ⟨s.nextCon, ⟨?_, fun _ => ((hw.stacked hstacked).conDetach hs'.rooted _).attaches hattach, ?_,
      ?_, fun d hd => ?_, ?_, fun _ => ⟨hnext, ?_, ?_⟩, fun q hq y => ?_, fun q hq hqx => ?_⟩, ?_⟩
    · refine hs'.attaches hsits hattach (fun h' => hs'.rooted.acyclic.not_within (.single hmem) h') ?_
        (by simp [hnewtype])
      exact fun w hw' hwp y hy => hs'.layered.workspace w hw' y ((hwp.tail hmem).trans_within hy)
    · rw [hattach.croot, conDetach_croot, hjoins.croot, conDetach_croot]
    · rw [hattach.nextCon, conDetach_nextCon, hw.nextCon, hnext]
      exact Nat.le_succ _
    · rw [hattach.type, conDetach_type, hjoins.type d (by rwa [conDetach_nextCon]), conDetach_type]
    · rw [(sameFocus_putBeside _ before).focused]
      change (s'.conDetach s.nextCon).focused = t.focused
      rw [conDetach_focused, hw.focused, hsame.focused, conDetach_focused]
    · -- the queues of the new container are the same
      have hnodes := hattach.nodesHead s.nextCon
      have hfloating := hattach.floatingHead s.nextCon
      rw [if_neg (fun h' => hnew h'.1.symm), hchild] at hnodes hfloating
      have hperm := hnodes.append hfloating
      rw [← children, ← children, hw.new.1] at hperm
      exact List.perm_singleton.mp hperm
    · rw [putBeside_focusHead_of_ne _ before hnew.symm, hchild, hw.new.2]
    · have hqnew : q ≠ s.nextCon := fun h' => hcnew (hq h').symm
      rw [hattach.mem_children, hs'.rooted.mem_children_conDetach, hw.mem_children q hqnew,
        hl.mem_children, hr.mem_children_conDetach]
      have hbound : y ∈ t.children q → y ≠ s.nextCon := fun h' => hnext ▸ (hr.bounded q y h').ne
      tauto
    · have hqnew : q ≠ s.nextCon := fun h' => hcnew (hqx h').symm
      rw [putBeside_focusHead_of_ne _ before hq, hs'.rooted.conDetach_focusHead, hw.focusHead q hqnew,
        if_neg hq, hfocuss, herase]
    · rintro rfl
      have hlast : ((s'.conDetach s.nextCon).con p).focusHead = (t.con p).focusHead.erase c := by
        rw [hs'.rooted.conDetach_focusHead, hw.focusHead p hnew, if_pos rfl, hfocuss]
        have hnot : s.nextCon ∉ (t.con p).focusHead.erase c := by
          rw [← herase p]
          exact (((hr.nodupFocus p).erase c).mem_erase_iff.not).mpr (by simp)
        rw [List.erase_append_right _ hnot, List.erase_cons_head, List.append_nil]
      rw [putBeside_focusHead, if_pos rfl, hlast]

/-- A child is foremost where its parent is and it is the first one there. -/
theorem Rooted.foremost_iff_of_mem (ht : Rooted t) (hws : Descent.Within t.children ws p)
    (hx : x ∈ t.children p) : t.Foremost ws x ↔ t.Foremost ws p ∧ x ∈ t.heads p := by
  refine ⟨fun h => ?_, fun h => (Descent.Within.tail h.1 h.2).within⟩
  obtain ⟨hp, hpx⟩ := ht.acyclic.between ht.parent ht.heads_subset h hws
    (Descent.Below.single hx).within
  refine ⟨hp, ?_⟩
  rcases Relation.ReflTransGen.cases_head hpx with rfl | ⟨y, hy, hyx⟩
  · exact absurd rfl (ht.acyclic.ne (.single hx))
  · obtain rfl := ht.acyclic.eq_of_within ht.parent (ht.heads_subset p hy) hx
      (ht.within_of_foremost hyx) (.refl _)
    exact hy

theorem head_erase {l : List ConId} (h : l.head? ≠ some c) : (l.erase c).head? = l.head? := by
  cases l with
  | nil => rfl
  | cons a l =>
    rw [List.erase_cons_tail (by simpa using h)]
    rfl

namespace Inserted

variable (h : Inserted t t' c p x)
include h

/-- An old container is the new child only if that is the container itself. -/
theorem eq_of_lt (hq : q < t.nextCon) : q = x → x = c := by
  rintro rfl
  by_contra hne
  exact hq.ne (h.new hne).1

theorem mem (hp : p < t.nextCon) : x ∈ t'.children p :=
  (h.mem_children p (h.eq_of_lt hp) x).mpr (.inr ⟨rfl, rfl⟩)

theorem foremost_child : t'.Foremost x c := by
  by_cases hne : x = c
  · exact hne ▸ .refl _
  · exact .single (mem_heads.mpr (by rw [(h.new hne).2.2, List.head?_cons]))

theorem below_parent (hp : p < t.nextCon) : Descent.Below t'.children p c :=
  (Descent.Below.single (h.mem hp)).trans_within (h.healthy.rooted.within_of_foremost h.foremost_child)

/-- What is above the parent was above it before. -/
theorem within_parent (hp : p < t.nextCon) (hq : Descent.Within t'.children q p) :
    Descent.Within t.children q p := by
  have hac := h.healthy.rooted.acyclic
  refine hq.transfer fun r y hr hy hyp => ?_
  by_cases hrx : r = x ∧ x ≠ c
  · -- the only child of a new container is not above its parent
    obtain ⟨rfl, hne⟩ := hrx
    rw [(h.new hne).2.1, List.mem_singleton] at hy
    subst hy
    exact absurd hyp (hac.not_within (h.below_parent hp))
  · have hold : r = x → x = c := fun h' => by
      by_contra hne
      exact hrx ⟨h', hne⟩
    rcases (h.mem_children r hold y).mp hy with ⟨hy, -⟩ | ⟨rfl, rfl⟩
    · exact hy
    · exact absurd hyp (hac.not_within (.single (h.mem hp)))

/-- What was above a container that stays still is. -/
theorem within_of_within (ht : Rooted t) (hq : t.Reach q) {y : ConId}
    (hcy : ¬ Descent.Within t.children c y) (hqy : Descent.Within t.children q y) :
    Descent.Within t'.children q y := by
  refine hqy.transfer fun r z hr hz hzy => ?_
  refine (h.mem_children r (h.eq_of_lt (ht.lt_nextCon (hq.trans hr))) z).mpr (.inl ⟨hz, ?_⟩)
  rintro rfl
  exact hcy hzy

/-- **Where a container that was moved is foremost.** The container was not the first entry of a
focus stack above its new parent. -/
theorem foremost_iff (ht : Rooted t) (hcp : ¬ Descent.Within t.children c p) (hws : t.Reach ws)
    (hwsp : Descent.Within t.children ws p)
    (hhead : ∀ q, Descent.Below t.children q p → c ∉ t.heads q) :
    t'.Foremost ws c ↔ t.Foremost ws p ∧ x ∈ t'.heads p := by
  have hr' := h.healthy.rooted
  have hp : p < t.nextCon := ht.lt_nextCon (hws.trans hwsp)
  have hheads : ∀ q, (q = x → x = c) → Descent.Below t.children q p → t'.heads q = t.heads q := by
    intro q hqx hqp
    rw [heads, heads, h.focusHead q (ht.acyclic.ne hqp).symm hqx, head_erase]
    exact fun h' => hhead q hqp (mem_heads.mpr h')
  constructor
  · intro hf
    obtain ⟨hfp, hpc⟩ := hr'.acyclic.between hr'.parent hr'.heads_subset hf
      (h.within_of_within ht hws hcp hwsp) (h.below_parent hp).within
    constructor
    · refine hfp.transfer fun q y hq hy hyp => ?_
      have hqp : Descent.Below t'.children q p :=
        (Descent.Below.single (hr'.heads_subset q hy)).trans_within (hr'.within_of_foremost hyp)
      rwa [← hheads q ?_ ?_]
      · rintro rfl
        by_contra hne
        exact hr'.acyclic.not_within (.single (h.mem hp)) hqp.within
      · exact (Descent.within_iff.mp (h.within_parent hp hqp.within)).resolve_left
          (hr'.acyclic.ne hqp)
    · -- the first step from the parent leads to the container
      rcases Relation.ReflTransGen.cases_head hpc with rfl | ⟨y, hy, hyc⟩
      · exact absurd (.refl _) hcp
      · obtain rfl := hr'.acyclic.eq_of_within hr'.parent (hr'.heads_subset p hy) (h.mem hp)
          (hr'.within_of_foremost hyc) (hr'.within_of_foremost h.foremost_child)
        exact hy
  · rintro ⟨hf, hx⟩
    refine Relation.ReflTransGen.trans ?_ (.head hx h.foremost_child)
    refine Descent.Within.transfer hf fun q y hq hy hyp => ?_
    have hqp : Descent.Below t.children q p :=
      (Descent.Below.single (ht.heads_subset q hy)).trans_within (ht.within_of_foremost hyp)
    have hlt : q < t.nextCon := ht.lt_nextCon (hws.trans (ht.within_of_foremost hq))
    rwa [hheads q (h.eq_of_lt hlt) hqp]

end Inserted

/-! ### What follows an insertion -/

/-- **Asking the old parent whether it is empty, and flattening,** leave what is foremost alone. The
container and its old parent are below different children of `z`, and the one that leads to the old
parent is not the first in the focus stack. -/
theorem foremost_settle {old z : ConId} (ht : Healthy t) (hs : Stacked t) (hold : t.Reach old)
    (hfocused : t.focused = some c) (hzc : Descent.Below t.children z c)
    (hzo : Descent.Within t.children z old)
    (hchild : ∀ q ∈ t.children z, Descent.Within t.children q c → ¬ Descent.Within t.children q old)
    (hhead : ∀ d ∈ t.heads z, ¬ Descent.Within t.children d old)
    (hws : (t.con ws).type = .workspace) (hlt : ws < t.nextCon)
    (hwsr : ((t.onRemoveChild cfg old).treeFlatten cfg t.croot).Reach ws)
    (hcr : ((t.onRemoveChild cfg old).treeFlatten cfg t.croot).Reach c) :
    ((t.onRemoveChild cfg old).treeFlatten cfg t.croot).Foremost ws c ↔ t.Foremost ws c := by
  have hr := ht.rooted
  obtain ⟨y, hy, hyc⟩ := Descent.below_iff_head.mp hzc
  have hnot : ¬ Descent.Within t.children c old := fun h => hchild y hy hyc (hyc.trans h)
  obtain ⟨hkeeps, hs', ht'⟩ := @keeps_onRemoveChild cfg t old c ht hs hold hnot
  have hcalm : Calm t (t.onRemoveChild cfg old) := calm_onRemoveChild ht old
  have hfree : ∀ f ∈ t.focused, ¬ t.AboveOnly old c f := by
    rintro f hf ⟨-, hfc⟩
    rw [hfocused, Option.mem_def, Option.some_inj] at hf
    exact hfc (hf ▸ .refl _)
  have hkept : (t.onRemoveChild cfg old).Foremost ws c ↔ t.Foremost ws c := by
    apply hkeeps.foremost hr hs ht'.rooted hfree (fun d hd => hd.2)
    -- what goes away is not ahead of what leads to the container
    rintro q hqc d hd ⟨hdo, hdc⟩
    have hdq := hr.heads_subset q hd
    rcases Descent.within_total hr.parent hqc hzc.within with hqz | hzq
    · rcases Descent.within_iff.mp hqz with rfl | hqz
      · exact hhead d hd hdo
      · obtain ⟨e, he, hez⟩ := Descent.below_iff_head.mp hqz
        obtain rfl := hr.acyclic.eq_of_within hr.parent hdq he hdo (hez.trans hzo)
        exact hdc (hez.trans hzc.within)
    · rcases Descent.within_iff.mp hzq with rfl | hzq
      · exact hhead d hd hdo
      · obtain ⟨e, he, heq⟩ := Descent.below_iff_head.mp hzq
        refine hchild e he (heq.trans hqc) (heq.trans ?_)
        exact ((Descent.Below.single hdq).trans_within hdo).within
  have hclt : c < t.nextCon := by
    obtain ⟨q, -, hq⟩ := Descent.below_iff_exists.mp hzc
    exact hr.bounded q c hq
  have hcroot : (t.onRemoveChild cfg old).Reach t.croot := by
    rw [← hcalm.croot]
    exact .refl _
  rw [← hkept]
  apply (flattens_treeFlatten ht' hcroot).foremost hs' ws (hlt.trans_le hcalm.nextCon) c
    (hclt.trans_le hcalm.nextCon) ((hcalm.type ws hlt).trans hws) hwsr hcr
  rw [hkeeps.focused hfree, hfocused]

/-! ### Where the container is put -/

theorem Rooted.lowestCommonAncestor_eq (ht : Rooted t) {a b z : ConId} (ha : t.Reach a) (hb : t.Reach b)
    (hza : Descent.Within t.children z a) (hzb : Descent.Within t.children z b)
    (hlow : ∀ y, Descent.Below t.children z y → Descent.Within t.children y a →
      ¬ Descent.Within t.children y b) : t.lowestCommonAncestor a b = some z := by
  apply ht.find?_chain ha hza
  · simpa using (ht.mem_chain hb).mpr hzb
  · intro y hy hya
    simpa using (ht.mem_chain hb).not.mpr (hlow y hy hya)

/-- In two branches below `z`, what is above both is `z` or above it. -/
theorem Rooted.lowestCommonAncestor_branches (ht : Rooted t) {a b z : ConId} (hc : t.Reach c)
    (hp : t.Reach p) (ha : a ∈ t.children z) (hac : Descent.Within t.children a c)
    (hb : b ∈ t.children z) (hba : b ≠ a) (hplace : p = z ∨ Descent.Within t.children b p) :
    t.lowestCommonAncestor c p = some z := by
  have hzp : Descent.Within t.children z p := by
    rcases hplace with rfl | hbp
    · exact .refl _
    · exact (Descent.Below.single hb).within.trans hbp
  apply ht.lowestCommonAncestor_eq hc hp ((Descent.Below.single ha).within.trans hac) hzp
  intro y hy hyc hyp
  -- what is below `z` and above the container is in its branch
  obtain ⟨e, he, hey⟩ := Descent.below_iff_head.mp hy
  obtain rfl := ht.acyclic.eq_of_within ht.parent he ha (hey.trans hyc) hac
  rcases hplace with rfl | hbp
  · exact ht.acyclic.not_within (.single ha) (hey.trans hyp)
  · exact hba (ht.acyclic.eq_of_within ht.parent hb ha hbp (hey.trans hyp))

theorem Rooted.childContaining_eq (ht : Rooted t) {a : ConId} (hx : t.Reach x) (ha : a ∈ t.children p)
    (hax : Descent.Within t.children a x) : t.childContaining p x = some a :=
  (ht.towards_eq_some hx).mpr ⟨ha, hax⟩

theorem editFocus_eq_self {f : List ConId → List ConId} (h : f (t.con p).focusHead = (t.con p).focusHead) :
    t.editFocus p f = t := by
  rw [editFocus, modify, h]
  simp

theorem bringBefore_self {l : List ConId} (hx : x ∈ l) (hl : l.Nodup) : bringBefore x x l = l := by
  obtain ⟨l₁, l₂, rfl⟩ := List.append_of_mem hx
  obtain ⟨-, hl₂, hdisj⟩ := List.nodup_append'.mp hl
  have hx₁ : x ∉ l₁ := fun h => hdisj h List.mem_cons_self
  rw [bringBefore, Queue.prev_append_self (List.nodup_cons.mp hl₂).1, List.erase_append_right _ hx₁,
    List.erase_cons_head]
  rcases List.eq_nil_or_concat l₁ with rfl | ⟨l, a, rfl⟩
  · rfl
  · have hal : a ∉ l := by
      have := (List.nodup_append'.mp hl).1
      rw [List.concat_eq_append] at this
      exact fun h => (List.nodup_append'.mp this).2.2 h List.mem_cons_self
    simp only [List.concat_eq_append, List.getLast?_concat, List.append_assoc, List.singleton_append]
    exact Queue.insertAfter_append_self hal

theorem bringBefore_head {l : List ConId} (hl : (x :: l).Nodup) (y : ConId) :
    bringBefore x y (x :: l) = y :: (x :: l).erase y := by
  have hprev : Queue.prev x (x :: l) = none := by
    rw [Queue.prev, List.reverse_cons, Queue.next_append_self]
    · rfl
    · simpa using (List.nodup_cons.mp hl).1
  rw [bringBefore, hprev]

/-- `insert_con_into` where the container has the focus of its branch, and that branch comes first. -/
theorem insertConInto_eq {target z a b old : ConId} (position : Position)
    (hparent : (t.con target).parent = some p) (hlca : t.lowestCommonAncestor c p = some z)
    (hzc : z ≠ c) (ha : t.childContaining z c = some a) (hb : t.childContaining z target = some b)
    (hold : (t.con c).parent = some old) (hmoves : t.isFocusedDescendant c a = true)
    (hbefore : t.focusBefore z a b true = true) :
    t.insertConInto cfg c target position =
      ((((t.editFocus z (bringBefore a b)).conDetach c).conFixPercent old).insertBeside cfg c target p z
        true position).onRemoveChild cfg old := by
  simp only [insertConInto, hparent, hlca, if_neg hzc, ha, hb, hold, hmoves, hbefore, and_self, if_true]

/-- The child that comes first gives way to another one. -/
theorem bringBefore_spec {z a b : ConId} (ht : Rooted t) (ha : a ∈ t.heads z)
    (hb : b ∈ (t.con z).focusHead) :
    Links t (t.editFocus z (bringBefore a b)) ∧ b ∈ (t.editFocus z (bringBefore a b)).heads z
      ∧ ∀ q ≠ z, (t.editFocus z (bringBefore a b)).heads q = t.heads q := by
  obtain ⟨l, hl⟩ := List.head?_eq_some_iff.mp (mem_heads.mp ha)
  have hbring : bringBefore a b (t.con z).focusHead = b :: (t.con z).focusHead.erase b := by
    rw [hl]
    exact bringBefore_head (hl ▸ ht.nodupFocus z) b
  have hperm : (bringBefore a b (t.con z).focusHead).Perm (t.con z).focusHead := by
    rw [hbring]
    exact (List.perm_cons_erase hb).symm
  refine ⟨(Stirs.of_modify t z _ rfl hperm (.refl _)).links, ?_, fun q hq => ?_⟩
  · rw [mem_heads, editFocus_focusHead, if_pos rfl, hbring, List.head?_cons]
  · rw [heads, heads, editFocus_focusHead, if_neg hq]

section Place

variable {above branch target : ConId} (ht : Healthy t) (hs : Stacked t) (hc : t.Reach c)
  (hfocused : t.focused = some c) (htype : (t.con c).type ≠ .floatingCon)
  (hwstype : (t.con ws).type = .workspace) (hwsp : Descent.Within t.children ws p)
include ht hs hc hfocused htype hwstype hwsp

/-- **Next to a container above**, what is moved is foremost if that was. -/
theorem foremost_insertAbove (habove : above ∈ (t.con p).nodesHead)
    (hac : Descent.Below t.children above c) (hforemost : t.Foremost above c) (position : Position)
    (hwsr : ((t.insertConInto cfg c above position).treeFlatten cfg t.croot).Reach ws)
    (hcr : ((t.insertConInto cfg c above position).treeFlatten cfg t.croot).Reach c) :
    ((t.insertConInto cfg c above position).treeFlatten cfg t.croot).Foremost ws c
      ↔ t.Foremost ws above := by
  have hr := ht.rooted
  have hmem : above ∈ t.children p := List.mem_append_left _ habove
  have hpc : Descent.Below t.children p c := (Descent.Below.single hmem).trans hac
  have hcp : ¬ Descent.Within t.children c p := hr.acyclic.not_within hpc
  obtain ⟨old, hao, hco⟩ := Descent.below_iff_exists.mp hac
  have hpo : Descent.Below t.children p old := (Descent.Below.single hmem).trans_within hao
  have hreachp : t.Reach p := hr.reach_of_within hc hpc.within
  have hreachws : t.Reach ws := hr.reach_of_within hreachp hwsp
  have hwsc : Descent.Below t.children ws c := hwsp.trans_below hpc
  have hne : above ≠ c := (hr.acyclic.ne hac).symm
  have hlca : t.lowestCommonAncestor c p = some p :=
    hr.lowestCommonAncestor_eq hc hreachp hpc.within (.refl _) fun y hy _ => hr.acyclic.not_within hy
  have heq := @insertConInto_eq cfg t c p _ _ _ _ _ position (hr.parent p above hmem) hlca
    (hr.acyclic.ne hpc).symm (hr.childContaining_eq hc hmem hac.within)
    (hr.childContaining_eq (hreachp.trans (Descent.Below.single hmem).within) hmem (.refl _))
    (hr.parent old c hco) ((hr.isFocusedDescendant_iff hc).mpr hforemost) (if_pos rfl)
  rw [editFocus_eq_self (bringBefore_self (hs p hmem) (hr.nodupFocus p))] at heq
  obtain ⟨x, hin, hfocus⟩ := @inserted_insertBeside cfg t c p above old p ht hs
    (hr.sits_of_mem (hreachp.trans hpo.within) hco) hreachp hcp
    (fun y hy => ht.layered.workspace ws hwstype y (hwsc.trans_within hy)) htype habove hne true position
  replace hfocus := hfocus rfl
  rw [heq] at hwsr hcr ⊢
  generalize ((t.conDetach c).conFixPercent old).insertBeside cfg c above p p true position = s
    at hin hfocus hwsr hcr ⊢
  have hsr := hin.healthy.rooted
  have hplt := hr.lt_nextCon hreachp
  have hco' : ¬ Descent.Within t.children c old := hr.acyclic.not_within (.single hco)
  have habove' : above ∈ s.children p := (hin.mem_children p (hin.eq_of_lt hplt) above).mpr (.inl ⟨hmem, hne⟩)
  have haold : Descent.Within s.children above old :=
    hin.within_of_within hr (hreachp.trans (Descent.Below.single hmem).within) hco' hao
  have hax : above ≠ x := by
    rintro rfl
    exact hne (hin.eq_of_lt (hr.bounded p above hmem) rfl)
  have hpold : p ≠ old := (hr.acyclic.ne hpo).symm
  have hnotp : c ∉ t.children p := fun h =>
    hpold (Option.some_inj.mp ((hr.parent p c h).symm.trans (hr.parent old c hco)))
  have hx : x ∉ t.children p := by
    intro h
    have hxc : x = c := by
      by_contra hne
      exact (hr.bounded p x h).ne (hin.new hne).1
    exact hnotp (hxc ▸ h)
  rw [if_pos rfl, List.erase_of_not_mem fun h => hnotp (hr.focus p c h)] at hfocus
  rw [← hin.croot] at hwsr hcr ⊢
  rw [foremost_settle hin.healthy (hin.stacked hs) (z := p) ?_ (hin.focused.trans hfocused)
    (hin.below_parent hplt) (Descent.Within.trans (Descent.Below.single habove').within haold) ?_ ?_
    ((hin.type ws (hr.lt_nextCon hreachws)).trans hwstype)
    ((hr.lt_nextCon hreachws).trans_le hin.nextCon) hwsr hcr]
  · -- in both trees the way leads to the parent, and there to the container above
    rw [hin.foremost_iff hr hcp hreachws hwsp fun q hq hcq => ?_, hr.foremost_iff_of_mem hwsp hmem,
      mem_heads, mem_heads, hfocus, Queue.head?_insertBefore (hs p hmem) fun h => hx (hr.focus p x h)]
    have hqold := Option.some_inj.mp
      ((hr.parent q c (hr.heads_subset q hcq)).symm.trans (hr.parent old c hco))
    exact hr.acyclic.not_within hpo (hqold ▸ hq.within)
  · rw [Reach, hin.croot]
    exact hin.within_of_within hr (.refl _) hco' (hreachp.trans hpo.within)
  · intro q hq hqc hqo
    obtain rfl := hsr.acyclic.eq_of_within hsr.parent hq (hin.mem hplt) hqc
      (hsr.within_of_foremost hin.foremost_child)
    exact hax (hsr.acyclic.eq_of_within hsr.parent habove' hq haold hqo)
  · intro d hd hdo
    obtain rfl := hsr.acyclic.eq_of_within hsr.parent habove' (hsr.heads_subset p hd) haold hdo
    rw [mem_heads, hfocus] at hd
    exact Queue.head?_insertBefore_ne hax.symm hd

omit hwsp in
/-- The same next to a container in a branch that comes before the one of `c`. -/
theorem foremost_besideBranch {z a old : ConId} (hfz : t.Foremost ws z) (ha : a ∈ t.children z)
    (hac : Descent.Within t.children a c) (hbz : branch ∈ t.heads z) (hba : branch ≠ a)
    (hplace : p = z ∧ target = branch ∨ target ≠ branch ∧ Descent.Within t.children branch p)
    (htarget : target ∈ (t.con p).nodesHead) (hco : c ∈ t.children old) (position : Position)
    (hwsr : (((((t.conDetach c).conFixPercent old).insertBeside cfg c target p z true
      position).onRemoveChild cfg old).treeFlatten cfg t.croot).Reach ws)
    (hcr : (((((t.conDetach c).conFixPercent old).insertBeside cfg c target p z true
      position).onRemoveChild cfg old).treeFlatten cfg t.croot).Reach c) :
    (((((t.conDetach c).conFixPercent old).insertBeside cfg c target p z true
      position).onRemoveChild cfg old).treeFlatten cfg t.croot).Foremost ws c
      ↔ target = branch ∨ t.Foremost branch p := by
  have hr := ht.rooted
  have hb : branch ∈ t.children z := hr.heads_subset z hbz
  have hzc : Descent.Below t.children z c := (Descent.Below.single ha).trans_within hac
  have hreachz : t.Reach z := hr.reach_of_within hc hzc.within
  have hwsz : Descent.Within t.children ws z := hr.within_of_foremost hfz
  have hreachws : t.Reach ws := hr.reach_of_within hreachz hwsz
  have hwsc : Descent.Below t.children ws c := hwsz.trans_below hzc
  have hzp : Descent.Within t.children z p := by
    rcases hplace with ⟨rfl, -⟩ | ⟨-, hbp⟩
    · exact .refl _
    · exact (Descent.Below.single hb).within.trans hbp
  have hreachp : t.Reach p := hreachz.trans hzp
  have hnota : ∀ y, Descent.Within t.children a y → ¬ Descent.Within t.children y p := by
    intro y hay hyp
    rcases hplace with ⟨rfl, -⟩ | ⟨-, hbp⟩
    · exact hr.acyclic.not_within (.single ha) (hay.trans hyp)
    · exact hba (hr.acyclic.eq_of_within hr.parent hb ha hbp (hay.trans hyp))
  have hcp : ¬ Descent.Within t.children c p := hnota c hac
  have hcb : branch ≠ c := by
    rintro rfl
    exact hba (hr.acyclic.eq_of_within hr.parent hb ha (.refl _) hac)
  have htc : target ≠ c := by
    rintro rfl
    rcases hplace with ⟨-, rfl⟩ | ⟨-, hbp⟩
    · exact hcb rfl
    · have hmem : target ∈ t.children p := List.mem_append_left _ htarget
      exact hba (hr.acyclic.eq_of_within hr.parent hb ha (hbp.tail hmem).within hac)
  obtain ⟨x, hin, hfocus⟩ := @inserted_insertBeside cfg t c p target old z ht hs
    (hr.sits_of_mem (hr.reach_parent hc (hr.parent old c hco)) hco) hreachp hcp
    (fun y hy => ht.layered.workspace ws hwstype y (hwsc.trans_within hy)) htype htarget htc true position
  replace hfocus := hfocus rfl
  generalize ((t.conDetach c).conFixPercent old).insertBeside cfg c target p z true position = s
    at hin hfocus hwsr hcr ⊢
  have hsr := hin.healthy.rooted
  have hplt := hr.lt_nextCon hreachp
  have hzlt := hr.lt_nextCon hreachz
  have hco' : ¬ Descent.Within t.children c old := hr.acyclic.not_within (.single hco)
  have hzold : Descent.Within t.children z old :=
    Descent.within_parent hr.parent hzc (hr.parent old c hco)
  have hxl : x ∉ (t.con p).focusHead.erase c := by
    intro hx
    obtain ⟨hne, hx⟩ := (hr.nodupFocus p).mem_erase_iff.mp hx
    exact (hr.bounded p x (hr.focus p x hx)).ne (hin.new hne).1
  -- the child of `z` that leads to the container now
  obtain ⟨e, hez, hec, hxp, hea⟩ : ∃ e, e ∈ s.heads z ∧ Descent.Within s.children e c
      ∧ x ∈ s.heads p ∧ (e = a → a = c) := by
    have hhead : (t.con z).focusHead.head? ≠ some c := fun h =>
      hcb (Option.some_inj.mp ((mem_heads.mp hbz).symm.trans h))
    rcases hplace with ⟨rfl, rfl⟩ | ⟨-, hbp⟩
    · have hx : x ∈ s.heads p := by
        have hl : ((t.con p).focusHead.erase c).head? = some target := by
          rw [head_erase hhead, mem_heads.mp hbz]
        rw [mem_heads, hfocus, if_pos rfl]
        exact (Queue.head?_insertBefore (List.mem_of_mem_head? hl) hxl).mpr hl
      refine ⟨x, hx, hsr.within_of_foremost hin.foremost_child, hx, ?_⟩
      rintro rfl
      exact hin.eq_of_lt (hr.bounded p x ha) rfl
    · have hpz : p ≠ z := by
        rintro rfl
        exact hr.acyclic.not_within (.single hb) hbp
      refine ⟨branch, ?_, ?_, ?_, fun h => absurd h hba⟩
      · rw [mem_heads, hin.focusHead z hpz.symm (hin.eq_of_lt hzlt), head_erase hhead]
        exact mem_heads.mp hbz
      · refine Descent.Within.trans ?_ (hin.below_parent hplt).within
        exact hin.within_of_within hr (hreachz.trans (Descent.Below.single hb).within) hcp hbp
      · rw [mem_heads, hfocus, if_neg hpz, List.head?_cons]
  have hechild : e ∈ s.children z := hsr.heads_subset z hez
  -- it does not lead to the old parent
  have heold : ¬ Descent.Within s.children e old := by
    intro h
    by_cases hac' : a = c
    · subst hac'
      have hzo := Option.some_inj.mp ((hr.parent z a ha).symm.trans (hr.parent old a hco))
      exact hsr.acyclic.not_within (.single hechild) (hzo ▸ h)
    · have haold : Descent.Within t.children a old := by
        refine Descent.within_parent hr.parent ?_ (hr.parent old c hco)
        exact (Descent.within_iff.mp hac).resolve_left (Ne.symm hac')
      have haz : a ∈ s.children z := (hin.mem_children z (hin.eq_of_lt hzlt) a).mpr (.inl ⟨ha, hac'⟩)
      refine hac' (hea (hsr.acyclic.eq_of_within hsr.parent hechild haz h ?_))
      exact hin.within_of_within hr (hreachz.trans (Descent.Below.single ha).within) hco' haold
  rw [← hin.croot] at hwsr hcr ⊢
  rw [foremost_settle hin.healthy (hin.stacked hs) (z := z) ?_ (hin.focused.trans hfocused)
    ((Descent.Below.single hechild).trans_within hec) (hin.within_of_within hr hreachz hco' hzold) ?_ ?_
    ((hin.type ws (hr.lt_nextCon hreachws)).trans hwstype)
    ((hr.lt_nextCon hreachws).trans_le hin.nextCon) hwsr hcr]
  · rw [hin.foremost_iff hr hcp hreachws (hwsz.trans hzp) fun q hq hcq => ?_]
    · rcases hplace with ⟨rfl, rfl⟩ | ⟨hne, hbp⟩
      · exact ⟨fun _ => .inl rfl, fun _ => ⟨hfz, hxp⟩⟩
      · constructor
        · intro h
          exact .inr (hr.acyclic.between hr.parent hr.heads_subset h.1 (hwsz.tail hb).within hbp).2
        · intro h
          exact ⟨(Descent.Within.tail hfz hbz).within.trans (h.resolve_left hne), hxp⟩
    · -- where the container came first, it is in the way to its new place only at `z`
      have hqc := hr.heads_subset q hcq
      by_cases hac' : a = c
      · subst hac'
        have hqz := Option.some_inj.mp ((hr.parent q a hqc).symm.trans (hr.parent z a ha))
        subst hqz
        exact hcb (heads_unique hbz hcq)
      · refine hnota q (Descent.within_parent hr.parent ?_ (hr.parent q c hqc)) hq.within
        exact (Descent.within_iff.mp hac).resolve_left (Ne.symm hac')
  · rw [Reach, hin.croot]
    exact hin.within_of_within hr (.refl _) hco' (hreachz.trans hzold)
  · intro q hq hqc
    obtain rfl := hsr.acyclic.eq_of_within hsr.parent hq hechild hqc hec
    exact heold
  · intro d hd
    exact heads_unique hez hd ▸ heold

omit hwsp in
/-- **Into a branch beside a container above,** what is moved is foremost if its place is foremost in
the branch, or next to the branch. -/
theorem foremost_insertInto {z a : ConId} (hwsz : Descent.Within t.children ws z)
    (hforemost : t.Foremost ws c) (ha : a ∈ t.children z) (hac : Descent.Within t.children a c)
    (hb : branch ∈ t.children z) (hba : branch ≠ a) (hbt : Descent.Within t.children branch target)
    (htarget : target ∈ (t.con p).nodesHead) (position : Position)
    (hwsr : ((t.insertConInto cfg c target position).treeFlatten cfg t.croot).Reach ws)
    (hcr : ((t.insertConInto cfg c target position).treeFlatten cfg t.croot).Reach c) :
    ((t.insertConInto cfg c target position).treeFlatten cfg t.croot).Foremost ws c
      ↔ target = branch ∨ t.Foremost branch p := by
  have hr := ht.rooted
  have hzc : Descent.Below t.children z c := (Descent.Below.single ha).trans_within hac
  have hreachz : t.Reach z := hr.reach_of_within hc hzc.within
  have hwsc : Descent.Below t.children ws c := hwsz.trans_below hzc
  obtain ⟨hfa, hfac⟩ := hr.acyclic.between hr.parent hr.heads_subset hforemost
    (hwsz.tail ha).within hac
  obtain ⟨hfz, haz⟩ := (hr.foremost_iff_of_mem hwsz ha).mp hfa
  obtain ⟨old, hzo, hco⟩ := Descent.below_iff_exists.mp hzc
  have hmem : target ∈ t.children p := List.mem_append_left _ htarget
  -- the parent of the target is `z`, or in the branch
  have hplace : p = z ∧ target = branch ∨ target ≠ branch ∧ Descent.Within t.children branch p := by
    rcases Descent.within_iff.mp hbt with rfl | hbt
    · have hpz := (hr.parent p target hmem).symm.trans (hr.parent z target hb)
      exact .inl ⟨Option.some_inj.mp hpz, rfl⟩
    · exact .inr ⟨hr.acyclic.ne hbt, Descent.within_parent hr.parent hbt (hr.parent p target hmem)⟩
  have hzp : Descent.Within t.children z p := by
    rcases hplace with ⟨rfl, -⟩ | ⟨-, hbp⟩
    · exact .refl _
    · exact (Descent.Below.single hb).within.trans hbp
  have hreachp : t.Reach p := hreachz.trans hzp
  have hlca : t.lowestCommonAncestor c p = some z :=
    hr.lowestCommonAncestor_branches hc hreachp ha hac hb hba (hplace.imp And.left And.right)
  have hbefore : t.focusBefore z a branch true = true := by
    obtain ⟨l, hl⟩ := List.head?_eq_some_iff.mp (mem_heads.mp haz)
    rw [focusBefore, if_neg hba.symm, hl, List.find?_cons]
    simp
  have heq := @insertConInto_eq cfg t c p _ _ _ _ _ position (hr.parent p target hmem) hlca
    (hr.acyclic.ne hzc).symm (hr.childContaining_eq hc ha hac)
    (hr.childContaining_eq (hreachp.trans (Descent.Below.single hmem).within) hb hbt)
    (hr.parent old c hco) ((hr.isFocusedDescendant_iff hc).mpr hfac) hbefore
  obtain ⟨hl, hbz, hheads⟩ := bringBefore_spec hr haz (hs z hb)
  rw [heq] at hwsr hcr ⊢
  have hf₀ : (t.editFocus z (bringBefore a branch)).focused = t.focused := rfl
  generalize t.editFocus z (bringBefore a branch) = t₀ at hl hbz hheads hwsr hcr hf₀ ⊢
  have hr₀ := hr.links hl
  rw [← hl.croot] at hwsr hcr ⊢
  -- where the branch comes first nothing else has changed
  rw [foremost_besideBranch (ht.links hl) (hs.links hl) (hl.reach.mpr hc) ?_ (by rwa [hl.type])
    (by rwa [hl.type]) ?_ (hl.mem_children.mpr ha) (hl.within.mpr hac) hbz hba
    (hplace.imp_right fun h => ⟨h.1, hl.within.mpr h.2⟩) (by rwa [hl.nodesHead]) (hl.mem_children.mpr hco)
    position hwsr hcr]
  · refine or_congr_right ⟨fun h => ?_, fun h => ?_⟩
    · refine Descent.Within.transfer h fun q y hq hy _ => ?_
      rwa [← hheads q]
      rintro rfl
      exact hr.acyclic.not_within (.single hb) (hl.within.mp (hr₀.within_of_foremost hq))
    · refine Descent.Within.transfer h fun q y hq hy _ => ?_
      rwa [hheads q]
      rintro rfl
      exact hr.acyclic.not_within (.single hb) (hr.within_of_foremost hq)
  · rw [hf₀, hfocused]
  · refine Descent.Within.transfer hfz fun q y _ hy hyz => ?_
    rwa [hheads q]
    rintro rfl
    exact hr.acyclic.not_within (.single (hr.heads_subset q hy)) (hr.within_of_foremost hyz)

end Place

end Tree

end I3
