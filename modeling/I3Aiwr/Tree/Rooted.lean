import I3Aiwr.Tree.Focus

/-!
# The tree below the root

What the lists and pointers of a healthy tree have to do with each other: a container listed by
another one has it as its parent, floating containers and only they are listed as floating, no
container is listed twice or below itself, the focus stack lists children, and everything below the
root is alive. The operations that leave the links alone keep all this, and so does detaching a
container.

## Main definitions

* `Tree.Reach t c`: `c` is the root or below it
* `Tree.Links t t'`: the same links, up to the order of focus stacks and of floating windows
* `Tree.Rooted t`: the invariant

## Main results

* `Tree.Rooted.links`: the invariant depends on the links only
* `Tree.Rooted.conDetach`, `Tree.reach_conDetach`: detaching a container
-/

namespace I3

namespace Tree

/-- The container is the root or below it. -/
def Reach (t : Tree) (c : ConId) : Prop := Descent.Within t.children t.croot c

/-- The container is below the root. -/
def Sits (t : Tree) (c : ConId) : Prop := t.Reach c ∧ c ≠ t.croot

/-- A healthy tree. -/
structure Rooted (t : Tree) : Prop where
  typeRoot : (t.con t.croot).type = .root
  parentRoot : (t.con t.croot).parent = none
  parent : ∀ p, ∀ c ∈ t.children p, (t.con c).parent = some p
  acyclic : Descent.Acyclic t.children
  nodupNodes : ∀ p, (t.con p).nodesHead.Nodup
  nodupFloating : ∀ p, (t.con p).floatingHead.Nodup
  nodupFocus : ∀ p, (t.con p).focusHead.Nodup
  typeNodes : ∀ p, ∀ c ∈ (t.con p).nodesHead, (t.con c).type ≠ .floatingCon
  typeFloating : ∀ p, ∀ c ∈ (t.con p).floatingHead, (t.con c).type = .floatingCon
  focus : ∀ p, ∀ c ∈ (t.con p).focusHead, c ∈ t.children p
  bounded : ∀ p, ∀ c ∈ t.children p, c < t.nextCon
  boundedRoot : t.croot < t.nextCon
  alive : ∀ c, t.Reach c → t.Alive c

/-! ### The same links -/

/-- The links, types, fullscreen modes and sticky flags of `t'` are those of `t`, up to the order of
focus stacks and of floating windows. -/
structure Links (t t' : Tree) : Prop where
  allCons : t'.allCons = t.allCons
  croot : t'.croot = t.croot
  nextCon : t'.nextCon = t.nextCon
  type : ∀ c, (t'.con c).type = (t.con c).type
  fullscreenMode : ∀ c, (t'.con c).fullscreenMode = (t.con c).fullscreenMode
  sticky : ∀ c, (t'.con c).sticky = (t.con c).sticky
  parent : ∀ c, (t'.con c).parent = (t.con c).parent
  nodesHead : ∀ c, (t'.con c).nodesHead = (t.con c).nodesHead
  focusHead : ∀ c, (t'.con c).focusHead.Perm (t.con c).focusHead
  floatingHead : ∀ c, (t'.con c).floatingHead.Perm (t.con c).floatingHead

theorem Stirs.links {t t' : Tree} (h : Stirs t t') : Links t t' :=
  ⟨h.allCons, h.croot, h.nextCon, h.type, h.fullscreenMode, h.sticky, h.parent, h.nodesHead,
    h.focusHead, h.floatingHead⟩

namespace Links

variable {t t' t'' : Tree}

@[refl] theorem refl (t : Tree) : Links t t := (Stirs.refl t).links

theorem trans (h : Links t t') (h' : Links t' t'') : Links t t'' where
  allCons := h'.allCons.trans h.allCons
  croot := h'.croot.trans h.croot
  nextCon := h'.nextCon.trans h.nextCon
  type c := (h'.type c).trans (h.type c)
  fullscreenMode c := (h'.fullscreenMode c).trans (h.fullscreenMode c)
  sticky c := (h'.sticky c).trans (h.sticky c)
  parent c := (h'.parent c).trans (h.parent c)
  nodesHead c := (h'.nodesHead c).trans (h.nodesHead c)
  focusHead c := (h'.focusHead c).trans (h.focusHead c)
  floatingHead c := (h'.floatingHead c).trans (h.floatingHead c)

/-- Updating a field of one container that is no link. -/
theorem of_modify (t : Tree) (c : ConId) (f : Con → Con)
    (htype : (f (t.con c)).type = (t.con c).type)
    (hmode : (f (t.con c)).fullscreenMode = (t.con c).fullscreenMode)
    (hsticky : (f (t.con c)).sticky = (t.con c).sticky)
    (hparent : (f (t.con c)).parent = (t.con c).parent)
    (hnodes : (f (t.con c)).nodesHead = (t.con c).nodesHead)
    (hfocus : (f (t.con c)).focusHead = (t.con c).focusHead)
    (hfloating : (f (t.con c)).floatingHead = (t.con c).floatingHead) :
    Links t (t.modify c f) := by
  refine ⟨rfl, rfl, rfl, fun d => ?_, fun d => ?_, fun d => ?_, fun d => ?_, fun d => ?_,
    fun d => ?_, fun d => ?_⟩ <;> by_cases hd : d = c <;> simp_all

theorem mem_children (h : Links t t') {p c : ConId} : c ∈ t'.children p ↔ c ∈ t.children p := by
  simp only [children, List.mem_append, h.nodesHead, (h.floatingHead p).mem_iff]

theorem within (h : Links t t') {p c : ConId} :
    Descent.Within t'.children p c ↔ Descent.Within t.children p c :=
  ⟨.mono fun _ _ => h.mem_children.mp, .mono fun _ _ => h.mem_children.mpr⟩

theorem reach (h : Links t t') {c : ConId} : t'.Reach c ↔ t.Reach c := by
  rw [Reach, Reach, h.croot, h.within]

theorem sits (h : Links t t') {c : ConId} : t'.Sits c ↔ t.Sits c := by
  rw [Sits, Sits, h.reach, h.croot]

theorem isAlive (h : Links t t') {c : ConId} : t'.Alive c ↔ t.Alive c := by
  rw [Alive, Alive, h.allCons]

end Links

variable {t t' : Tree}

/-- **A healthy tree is one by its links.** -/
theorem Rooted.links (ht : Rooted t) (h : Links t t') : Rooted t' where
  typeRoot := by rw [h.croot, h.type, ht.typeRoot]
  parentRoot := by rw [h.croot, h.parent, ht.parentRoot]
  parent p c hc := by rw [h.parent, ht.parent p c (h.mem_children.mp hc)]
  acyclic := ht.acyclic.mono fun _ _ => h.mem_children.mp
  nodupNodes p := by rw [h.nodesHead]; exact ht.nodupNodes p
  nodupFloating p := (h.floatingHead p).nodup_iff.mpr (ht.nodupFloating p)
  nodupFocus p := (h.focusHead p).nodup_iff.mpr (ht.nodupFocus p)
  typeNodes p c hc := by rw [h.type]; exact ht.typeNodes p c (h.nodesHead p ▸ hc)
  typeFloating p c hc := by
    rw [h.type]
    exact ht.typeFloating p c ((h.floatingHead p).mem_iff.mp hc)
  focus p c hc := h.mem_children.mpr (ht.focus p c ((h.focusHead p).mem_iff.mp hc))
  bounded p c hc := by rw [h.nextCon]; exact ht.bounded p c (h.mem_children.mp hc)
  boundedRoot := by rw [h.croot, h.nextCon]; exact ht.boundedRoot
  alive c hc := h.isAlive.mpr (ht.alive c (h.reach.mp hc))

/-! ### Links that stay -/

variable (t)

theorem links_setPercent (c : ConId) (p : ℚ) : Links t (t.setPercent c p) :=
  .of_modify t c _ rfl rfl rfl rfl rfl rfl rfl

theorem links_setLayout (c : ConId) (l : Layout) : Links t (t.setLayout c l) :=
  .of_modify t c _ rfl rfl rfl rfl rfl rfl rfl

theorem links_percentFill (n : ℕ) (l : List ConId) (total : ℚ) :
    Links t (percentFill n l t total).1 := by
  induction l generalizing t total with
  | nil => exact .refl t
  | cons c l ih =>
    rw [percentFill]
    split
    · exact (links_setPercent t c _).trans (ih _ _)
    · exact ih t total

theorem links_foldl_setPercent (p : Tree → ConId → ℚ) (l : List ConId) :
    Links t (l.foldl (fun t c => t.setPercent c (p t c)) t) := by
  induction l generalizing t with
  | nil => exact .refl t
  | cons c l ih => exact (links_setPercent t c _).trans (ih _)

theorem links_percentScale (nodes : List ConId) (total : ℚ) :
    Links t (percentScale nodes (t, total)) := by
  rw [percentScale]
  split
  · exact links_foldl_setPercent t _ nodes
  · split
    · exact links_foldl_setPercent t _ nodes
    · exact .refl t

theorem links_conFixPercent (c : ConId) : Links t (t.conFixPercent c) := by
  rw [conFixPercent]
  split
  · exact .refl t
  · dsimp only
    split
    · exact (links_percentFill t _ _ _).trans (links_percentScale _ _ _)
    · exact links_percentScale t _ _

variable {t}

/-! ### Reaching -/

theorem reach_croot : t.Reach t.croot := .refl _

/-- Every container on a path down from a reached one is reached. -/
theorem reach_of_isChain {p c : ConId} {l : List ConId} (hp : t.Reach p)
    (h : (p :: l).IsChain fun p c => c ∈ t.children p) (hc : c ∈ l) : t.Reach c := by
  induction l generalizing p with
  | nil => cases hc
  | cons q l ih =>
    obtain ⟨hq, hl⟩ := List.isChain_cons_cons.mp h
    have hreach : t.Reach q := (Descent.Within.tail hp hq).within
    rcases List.mem_cons.mp hc with rfl | hc
    · exact hreach
    · exact ih hreach hl hc

namespace Rooted

variable (ht : Rooted t)
include ht

theorem notMem_children_croot {p : ConId} : t.croot ∉ t.children p := by
  intro h
  have := ht.parent p _ h
  rw [ht.parentRoot] at this
  cases this

theorem ne_croot_of_mem {p c : ConId} (hc : c ∈ t.children p) : c ≠ t.croot := by
  rintro rfl
  exact ht.notMem_children_croot hc

theorem sits_of_mem {p c : ConId} (hp : t.Reach p) (hc : c ∈ t.children p) : t.Sits c :=
  ⟨(Descent.Within.tail hp hc).within, ht.ne_croot_of_mem hc⟩

/-- A container below the root is listed by its parent. -/
theorem exists_parent {c : ConId} (hc : t.Sits c) :
    ∃ p, (t.con c).parent = some p ∧ t.Reach p ∧ c ∈ t.children p := by
  obtain ⟨p, hp, hcp⟩ := Descent.below_iff_exists.mp
    ((Descent.within_iff.mp hc.1).resolve_left hc.2)
  exact ⟨p, ht.parent p c hcp, hp, hcp⟩

theorem reach_parent {c p : ConId} (hc : t.Reach c) (hp : (t.con c).parent = some p) : t.Reach p := by
  have hne : c ≠ t.croot := by
    rintro rfl
    rw [ht.parentRoot] at hp
    cases hp
  obtain ⟨q, hq, hreach, _⟩ := ht.exists_parent ⟨hc, hne⟩
  rw [hq] at hp
  cases hp
  exact hreach

end Rooted

/-! ### Detaching -/

section Detach

variable (c : ConId)

@[simp] theorem conDetach_allCons : (t.conDetach c).allCons = t.allCons := by
  rw [conDetach]
  split
  · rfl
  · split <;> rfl

@[simp] theorem conDetach_croot : (t.conDetach c).croot = t.croot := by
  rw [conDetach]
  split
  · rfl
  · split <;> rfl

@[simp] theorem conDetach_nextCon : (t.conDetach c).nextCon = t.nextCon := by
  rw [conDetach]
  split
  · rfl
  · split <;> rfl

@[simp] theorem conDetach_scrollAnim : (t.conDetach c).scrollAnim = t.scrollAnim := by
  rw [conDetach]
  split
  · rfl
  · split <;> rfl

@[simp] theorem conDetach_focused : (t.conDetach c).focused = t.focused := by
  rw [conDetach]
  split
  · rfl
  · split <;> rfl

/-- **What detaching does**: `c` leaves the queues of its parent. -/
theorem conDetach_con (d : ConId) :
    (t.conDetach c).con d =
      if (t.con c).parent = some d then
        { t.con d with
          nodesHead := if (t.con c).type = .floatingCon then (t.con d).nodesHead
            else (t.con d).nodesHead.erase c
          floatingHead := if (t.con c).type = .floatingCon then (t.con d).floatingHead.erase c
            else (t.con d).floatingHead
          focusHead := (t.con d).focusHead.erase c }
      else t.con d := by
  rw [conDetach]
  cases hp : (t.con c).parent with
  | none => simp
  | some p =>
    by_cases hd : d = p
    · subst hd
      by_cases hf : (t.con c).type = .floatingCon <;> simp [hf, editFloating, editNodes, editFocus]
    · have hd' : ¬ p = d := fun h => hd h.symm
      by_cases hf : (t.con c).type = .floatingCon <;>
        simp [hf, hd, hd', editFloating, editNodes, editFocus]

@[simp] theorem conDetach_type (d : ConId) : ((t.conDetach c).con d).type = (t.con d).type := by
  rw [conDetach_con]
  split <;> rfl

@[simp] theorem conDetach_fullscreenMode (d : ConId) :
    ((t.conDetach c).con d).fullscreenMode = (t.con d).fullscreenMode := by
  rw [conDetach_con]
  split <;> rfl

@[simp] theorem conDetach_sticky (d : ConId) :
    ((t.conDetach c).con d).sticky = (t.con d).sticky := by
  rw [conDetach_con]
  split <;> rfl

@[simp] theorem conDetach_parent (d : ConId) :
    ((t.conDetach c).con d).parent = (t.con d).parent := by
  rw [conDetach_con]
  split <;> rfl

theorem conDetach_nodesHead_sublist (d : ConId) :
    ((t.conDetach c).con d).nodesHead.Sublist (t.con d).nodesHead := by
  rw [conDetach_con]
  split
  · split
    · exact .refl _
    · exact List.erase_sublist
  · exact .refl _

theorem conDetach_floatingHead_sublist (d : ConId) :
    ((t.conDetach c).con d).floatingHead.Sublist (t.con d).floatingHead := by
  rw [conDetach_con]
  split
  · split
    · exact List.erase_sublist
    · exact .refl _
  · exact .refl _

theorem conDetach_focusHead_sublist (d : ConId) :
    ((t.conDetach c).con d).focusHead.Sublist (t.con d).focusHead := by
  rw [conDetach_con]
  split
  · exact List.erase_sublist
  · exact .refl _

theorem conDetach_children_subset (d : ConId) : (t.conDetach c).children d ⊆ t.children d := by
  intro x hx
  rcases List.mem_append.mp hx with hx | hx
  · exact List.mem_append_left _ ((conDetach_nodesHead_sublist c d).subset hx)
  · exact List.mem_append_right _ ((conDetach_floatingHead_sublist c d).subset hx)

namespace Rooted

variable (ht : Rooted t)
include ht

theorem mem_nodesHead_conDetach {x d : ConId} :
    x ∈ ((t.conDetach c).con d).nodesHead ↔ x ∈ (t.con d).nodesHead ∧ x ≠ c := by
  rw [conDetach_con]
  by_cases hd : (t.con c).parent = some d
  · by_cases hf : (t.con c).type = .floatingCon
    · simp only [if_pos hd, if_pos hf]
      exact ⟨fun hx => ⟨hx, fun h => ht.typeNodes d x hx (h ▸ hf)⟩, And.left⟩
    · simp only [if_pos hd, if_neg hf]
      rw [(ht.nodupNodes d).mem_erase_iff, and_comm]
  · rw [if_neg hd]
    refine ⟨fun hx => ⟨hx, ?_⟩, And.left⟩
    rintro rfl
    exact hd (ht.parent d x (List.mem_append_left _ hx))

theorem mem_floatingHead_conDetach {x d : ConId} :
    x ∈ ((t.conDetach c).con d).floatingHead ↔ x ∈ (t.con d).floatingHead ∧ x ≠ c := by
  rw [conDetach_con]
  by_cases hd : (t.con c).parent = some d
  · by_cases hf : (t.con c).type = .floatingCon
    · simp only [if_pos hd, if_pos hf]
      rw [(ht.nodupFloating d).mem_erase_iff, and_comm]
    · simp only [if_pos hd, if_neg hf]
      exact ⟨fun hx => ⟨hx, fun h => hf (h ▸ ht.typeFloating d x hx)⟩, And.left⟩
  · rw [if_neg hd]
    refine ⟨fun hx => ⟨hx, ?_⟩, And.left⟩
    rintro rfl
    exact hd (ht.parent d x (List.mem_append_right _ hx))

theorem mem_focusHead_conDetach {x d : ConId} :
    x ∈ ((t.conDetach c).con d).focusHead ↔ x ∈ (t.con d).focusHead ∧ x ≠ c := by
  rw [conDetach_con]
  by_cases hd : (t.con c).parent = some d
  · simp only [if_pos hd]
    rw [(ht.nodupFocus d).mem_erase_iff, and_comm]
  · rw [if_neg hd]
    refine ⟨fun hx => ⟨hx, ?_⟩, And.left⟩
    rintro rfl
    exact hd (ht.parent d x (ht.focus d x hx))

theorem mem_children_conDetach {x d : ConId} :
    x ∈ (t.conDetach c).children d ↔ x ∈ t.children d ∧ x ≠ c := by
  simp only [children, List.mem_append, ht.mem_nodesHead_conDetach c,
    ht.mem_floatingHead_conDetach c, or_and_right]

/-- Detaching a container keeps the tree healthy. -/
theorem conDetach : Rooted (t.conDetach c) where
  typeRoot := by simpa using ht.typeRoot
  parentRoot := by simpa using ht.parentRoot
  parent p x hx := by
    rw [conDetach_parent, ht.parent p x (conDetach_children_subset c p hx)]
  acyclic := ht.acyclic.mono (conDetach_children_subset c)
  nodupNodes p := (ht.nodupNodes p).sublist (conDetach_nodesHead_sublist c p)
  nodupFloating p := (ht.nodupFloating p).sublist (conDetach_floatingHead_sublist c p)
  nodupFocus p := (ht.nodupFocus p).sublist (conDetach_focusHead_sublist c p)
  typeNodes p x hx := by
    rw [conDetach_type]
    exact ht.typeNodes p x ((conDetach_nodesHead_sublist c p).subset hx)
  typeFloating p x hx := by
    rw [conDetach_type]
    exact ht.typeFloating p x ((conDetach_floatingHead_sublist c p).subset hx)
  focus p x hx := by
    rw [ht.mem_focusHead_conDetach] at hx
    exact (ht.mem_children_conDetach c).mpr ⟨ht.focus p x hx.1, hx.2⟩
  bounded p x hx := by
    rw [conDetach_nextCon]
    exact ht.bounded p x (conDetach_children_subset c p hx)
  boundedRoot := by simpa using ht.boundedRoot
  alive x hx := by
    rw [Alive, conDetach_allCons]
    apply ht.alive x
    rw [Reach, conDetach_croot] at hx
    exact hx.mono (conDetach_children_subset c)

/-- A detached container is listed nowhere. -/
theorem notMem_children_conDetach (p : ConId) : c ∉ (t.conDetach c).children p :=
  fun h => ((ht.mem_children_conDetach c).mp h).2 rfl

/-- **What is not below a container is reached as before when it is detached.** -/
theorem within_conDetach {p x : ConId} (hx : Descent.Within t.children p x)
    (hc : ¬ Descent.Within t.children c x) : Descent.Within (t.conDetach c).children p x := by
  induction hx with
  | refl => exact .refl _
  | @tail y z hy hz ih =>
    have hyc : ¬ Descent.Within t.children c y := fun h => hc (Descent.Within.tail h hz).within
    refine (Descent.Within.tail (ih hyc) ?_).within
    refine (ht.mem_children_conDetach c).mpr ⟨hz, ?_⟩
    rintro rfl
    exact hc (.refl _)

theorem reach_conDetach {x : ConId} (hx : t.Reach x) (hc : ¬ Descent.Within t.children c x) :
    (t.conDetach c).Reach x := by
  rw [Reach, conDetach_croot]
  exact ht.within_conDetach c hx hc

end Rooted

end Detach

/-! ### Freeing -/

section Free

variable (c : ConId)

@[simp] theorem conFree_con : (t.conFree c).con = t.con := by
  rw [conFree, scrollingForget]
  split
  · split <;> rfl
  · rfl

@[simp] theorem conFree_allCons : (t.conFree c).allCons = t.allCons.erase c := by
  rw [conFree, scrollingForget]
  split
  · split <;> rfl
  · rfl

@[simp] theorem conFree_croot : (t.conFree c).croot = t.croot := by
  rw [conFree, scrollingForget]
  split
  · split <;> rfl
  · rfl

@[simp] theorem conFree_nextCon : (t.conFree c).nextCon = t.nextCon := by
  rw [conFree, scrollingForget]
  split
  · split <;> rfl
  · rfl

@[simp] theorem conFree_children : (t.conFree c).children = t.children := by
  funext p
  simp [children]

theorem reach_conFree {x : ConId} : (t.conFree c).Reach x ↔ t.Reach x := by
  rw [Reach, Reach, conFree_children, conFree_croot]

/-- Freeing a container that is listed nowhere keeps the tree healthy. -/
theorem Rooted.conFree (ht : Rooted t) (hc : ∀ p, c ∉ t.children p) (hroot : c ≠ t.croot) :
    Rooted (t.conFree c) where
  typeRoot := by simpa using ht.typeRoot
  parentRoot := by simpa using ht.parentRoot
  parent p x hx := by
    rw [conFree_children] at hx
    rw [conFree_con, ht.parent p x hx]
  acyclic := by rw [conFree_children]; exact ht.acyclic
  nodupNodes p := by rw [conFree_con]; exact ht.nodupNodes p
  nodupFloating p := by rw [conFree_con]; exact ht.nodupFloating p
  nodupFocus p := by rw [conFree_con]; exact ht.nodupFocus p
  typeNodes p x hx := by
    rw [conFree_con] at hx ⊢
    exact ht.typeNodes p x hx
  typeFloating p x hx := by
    rw [conFree_con] at hx ⊢
    exact ht.typeFloating p x hx
  focus p x hx := by
    rw [conFree_con] at hx
    rw [conFree_children]
    exact ht.focus p x hx
  bounded p x hx := by
    rw [conFree_children] at hx
    rw [conFree_nextCon]
    exact ht.bounded p x hx
  boundedRoot := by simpa using ht.boundedRoot
  alive x hx := by
    rw [reach_conFree] at hx
    have hne : x ≠ c := by
      rintro rfl
      obtain ⟨p, _, _, hp⟩ := ht.exists_parent ⟨hx, hroot⟩
      exact hc p hp
    rw [Alive, conFree_allCons]
    exact (List.mem_erase_of_ne hne).mpr (ht.alive x hx)

end Free

/-! ### Trees given by a list -/

/-- The tree whose containers are the entries of a list, with the root as the first one. -/
def ofList (l : List Con) (focused : Option ConId) : Tree where
  con c := l.getD c {}
  allCons := List.range l.length
  croot := 0
  focused := focused
  nextCon := l.length

/-- Behind the end of the list nothing has been filled in. -/
theorem ofList_con {l : List Con} {focused : Option ConId} {p : ConId} (hp : ¬ p < l.length) :
    (ofList l focused).con p = {} := by
  simp [ofList, List.getElem?_eq_none (not_lt.mp hp)]

/-- A list of containers in which children come after their parents makes a healthy tree. -/
theorem rooted_ofList {l : List Con} {focused : Option ConId}
    (hroot : (l.getD 0 {}).type = .root ∧ (l.getD 0 {}).parent = none ∧ l ≠ [])
    (hlist : ∀ p < l.length, (∀ c ∈ (ofList l focused).children p,
        p < c ∧ c < l.length ∧ (l.getD c {}).parent = some p)
      ∧ (l.getD p {}).nodesHead.Nodup ∧ (l.getD p {}).floatingHead.Nodup
      ∧ (l.getD p {}).focusHead.Nodup
      ∧ (∀ c ∈ (l.getD p {}).nodesHead, (l.getD c {}).type ≠ .floatingCon)
      ∧ (∀ c ∈ (l.getD p {}).floatingHead, (l.getD c {}).type = .floatingCon)
      ∧ ∀ c ∈ (l.getD p {}).focusHead, c ∈ (ofList l focused).children p) :
    Rooted (ofList l focused) := by
  have hnew : ∀ p, ¬ p < l.length → (ofList l focused).con p = {} := fun p hp => ofList_con hp
  have hchild : ∀ p, ∀ c ∈ (ofList l focused).children p,
      p < c ∧ c < l.length ∧ ((ofList l focused).con c).parent = some p := by
    intro p c hc
    by_cases hp : p < l.length
    · exact (hlist p hp).1 c hc
    · simp [children, hnew p hp] at hc
  -- what holds of the listed containers, and of a new one, holds of all
  have hall : ∀ {P : ConId → Con → Prop}, (∀ p < l.length, P p (l.getD p {})) → (∀ p, P p {}) →
      ∀ p, P p ((ofList l focused).con p) := by
    intro P h hempty p
    by_cases hp : p < l.length
    · exact h p hp
    · rw [hnew p hp]
      exact hempty p
  exact {
    typeRoot := hroot.1
    parentRoot := hroot.2.1
    parent := fun p c hc => (hchild p c hc).2.2
    acyclic := Descent.acyclic_of_lt fun p c hc => (hchild p c hc).1
    nodupNodes := hall (P := fun _ d => d.nodesHead.Nodup) (fun p hp => (hlist p hp).2.1) (by simp)
    nodupFloating := hall (P := fun _ d => d.floatingHead.Nodup)
      (fun p hp => (hlist p hp).2.2.1) (by simp)
    nodupFocus := hall (P := fun _ d => d.focusHead.Nodup)
      (fun p hp => (hlist p hp).2.2.2.1) (by simp)
    typeNodes := hall (P := fun _ d => ∀ c ∈ d.nodesHead, ((ofList l focused).con c).type ≠ _)
      (fun p hp => (hlist p hp).2.2.2.2.1) (by simp)
    typeFloating := hall (P := fun _ d => ∀ c ∈ d.floatingHead, ((ofList l focused).con c).type = _)
      (fun p hp => (hlist p hp).2.2.2.2.2.1) (by simp)
    focus := hall (P := fun p d => ∀ c ∈ d.focusHead, c ∈ (ofList l focused).children p)
      (fun p hp => (hlist p hp).2.2.2.2.2.2) (by simp)
    bounded := fun p c hc => (hchild p c hc).2.1
    boundedRoot := List.length_pos_iff.mpr hroot.2.2
    alive := by
      intro c hc
      refine List.mem_range.mpr ?_
      rcases Descent.within_iff.mp hc with rfl | hbelow
      · exact List.length_pos_iff.mpr hroot.2.2
      · obtain ⟨p, _, hp⟩ := Descent.below_iff_exists.mp hbelow
        exact (hchild p c hp).2.1 }

end Tree

end I3
