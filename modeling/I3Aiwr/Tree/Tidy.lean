import I3Aiwr.Tree.Alters
import I3Aiwr.Tree.CloseEnds

/-!
# Closing keeps the tree tidy

A container below a workspace is closed with everything below it. What becomes empty above it is closed
as well, and where the focus was on one of the closed containers, it moves on until it is on one that is
still in the tree.

## Main definitions

* `Tree.InWorkspace x`: the container is below a workspace
* `Tree.Housed t`: workspaces are in the content of an output, and only containers are in them
* `Closing.asked s`: the call of `con_next_focused` that the next step makes, and its result
* `Closing.Tidying t₀ c s`: in the middle of closing `c` in `t₀`
* `Tree.Tidied cfg t c`: what closing `c` comes to

## Main results

* `Closing.Tidying.step`: a step keeps the tree tidy
* `Tree.tidied_treeCloseInternal`
-/

namespace I3

namespace Tree

variable {cfg : Config} {t t' t₀ : Tree} {c d m n p q w x : ConId}

/-- The container is below a workspace. -/
def InWorkspace (t : Tree) (x : ConId) : Prop :=
  ∃ w, t.Reach w ∧ (t.con w).type = .workspace ∧ Descent.Below t.children w x

/-- The container is a workspace, or below one. -/
def OnWorkspace (t : Tree) (x : ConId) : Prop :=
  ∃ w, t.Reach w ∧ (t.con w).type = .workspace ∧ Descent.Within t.children w x

/-- The container is below a workspace and has neither a window nor children. -/
def EmptySplit (t : Tree) (x : ConId) : Prop :=
  t.InWorkspace x ∧ (t.con x).window = none ∧ (t.con x).nodesHead = []

/-- A workspace is in the content container of an output, and nothing but split containers, windows and
floating containers are below it. -/
structure Housed (t : Tree) : Prop where
  content : ∀ w, t.Reach w → (t.con w).type = .workspace →
    ∃ p o, w ∈ t.children p ∧ (t.con p).type = .con ∧ p ∈ t.children o ∧ (t.con o).type = .output
  inside : ∀ x, t.InWorkspace x → (t.con x).type = .con ∨ (t.con x).type = .floatingCon

theorem InWorkspace.on (h : t.InWorkspace x) : t.OnWorkspace x := by
  obtain ⟨w, hw, htype, hwx⟩ := h
  exact ⟨w, hw, htype, hwx.within⟩

theorem InWorkspace.reach (h : t.InWorkspace x) : t.Reach x := by
  obtain ⟨w, hw, -, hwx⟩ := h
  exact hw.trans hwx.within

theorem OnWorkspace.child (h : t.OnWorkspace p) (hx : x ∈ t.children p) : t.InWorkspace x := by
  obtain ⟨w, hw, htype, hwp⟩ := h
  exact ⟨w, hw, htype, hwp.tail hx⟩

theorem OnWorkspace.cases (h : t.OnWorkspace x) :
    t.Reach x ∧ (t.con x).type = .workspace ∨ t.InWorkspace x := by
  obtain ⟨w, hw, htype, hwx⟩ := h
  rcases Descent.within_iff.mp hwx with rfl | hwx
  · exact .inl ⟨hw, htype⟩
  · exact .inr ⟨w, hw, htype, hwx⟩

/-- The parent of a container below a workspace is the workspace or below it. -/
theorem InWorkspace.parent (h : t.InWorkspace x) (ht : Rooted t) (hx : x ∈ t.children p) :
    t.OnWorkspace p := by
  obtain ⟨w, hw, htype, hwx⟩ := h
  exact ⟨w, hw, htype, Descent.within_parent ht.parent hwx (ht.parent p x hx)⟩

theorem InWorkspace.type_ne (h : t.InWorkspace x) (hl : Layered t) : (t.con x).type ≠ .workspace := by
  obtain ⟨w, -, htype, hwx⟩ := h
  exact hl.workspace w htype x hwx

namespace Housed

variable (hh : Housed t)
include hh

/-- A workspace and what is below it is no part of the bars, the outputs and the root. -/
theorem type_of_on (hx : t.OnWorkspace x) :
    (t.con x).type ≠ .output ∧ (t.con x).type ≠ .root ∧ (t.con x).type ≠ .dockarea := by
  rcases hx.cases with ⟨-, htype⟩ | hin
  · simp [htype]
  · rcases hh.inside x hin with htype | htype
    · simp [htype]
    · simp [htype]

/-- There are two containers above what is on a workspace, and the upper one is not the root. -/
theorem exists_parents (ht : Rooted t) (hx : t.OnWorkspace x) :
    ∃ p q, x ∈ t.children p ∧ p ∈ t.children q ∧ (t.con p).type ≠ .dockarea ∧ (t.con q).type ≠ .root := by
  -- a container on a workspace is not the root, so that there is one above it
  have hroot : ∀ y, t.OnWorkspace y → t.Sits y := by
    intro y hy
    refine ⟨?_, fun h => (hh.type_of_on hy).2.1 (h ▸ ht.typeRoot)⟩
    exact hy.cases.elim And.left InWorkspace.reach
  rcases hx.cases with ⟨hreach, htype⟩ | hin
  · obtain ⟨p, o, hp, hptype, ho, hotype⟩ := hh.content x hreach htype
    exact ⟨p, o, hp, ho, by simp [hptype], by simp [hotype]⟩
  · obtain ⟨p, -, -, hp⟩ := ht.exists_parent (hroot x hx)
    have hon := hin.parent ht hp
    obtain ⟨q, -, -, hq⟩ := ht.exists_parent (hroot p hon)
    refine ⟨p, q, hp, hq, (hh.type_of_on hon).2.2, ?_⟩
    rcases hon.cases with ⟨hreach, htype⟩ | hin'
    · obtain ⟨p', o, hp', hptype, -, -⟩ := hh.content p hreach htype
      have heq : q = p' := Option.some_inj.mp ((ht.parent q p hq).symm.trans (ht.parent p' p hp'))
      simp [heq, hptype]
    · exact (hh.type_of_on (hin'.parent ht hq)).2.1

/-- The parent of a container below a workspace is no output. -/
theorem parent_not_output (ht : Rooted t) (hx : t.InWorkspace x) (hp : x ∈ t.children p) :
    (t.con p).type ≠ .output :=
  (hh.type_of_on (hx.parent ht hp)).1

end Housed

/-! ### A tree with some containers left -/

/-- Some containers of `t₀` are left in `t`. -/
structure Pruned (t₀ t : Tree) : Prop where
  rooted : Rooted t
  layered : Layered t
  stacked : Stacked t
  croot : t.croot = t₀.croot
  children : ∀ p, t.children p ⊆ t₀.children p
  type : ∀ x, (t.con x).type = (t₀.con x).type

namespace Pruned

theorem refl (ht : Rooted t) (hl : Layered t) (hs : Stacked t) : Pruned t t :=
  ⟨ht, hl, hs, rfl, fun _ => List.Subset.refl _, fun _ => rfl⟩

theorem links (h : Pruned t₀ t) (hl : Links t t') : Pruned t₀ t' where
  rooted := h.rooted.links hl
  layered := h.layered.links hl
  stacked := h.stacked.links hl
  croot := hl.croot.trans h.croot
  children p _ hx := h.children p (hl.mem_children.mp hx)
  type x := (hl.type x).trans (h.type x)

theorem conDetach (h : Pruned t₀ t) (c : ConId) : Pruned t₀ (t.conDetach c) where
  rooted := h.rooted.conDetach c
  layered := h.layered.conDetach c
  stacked := h.stacked.conDetach h.rooted c
  croot := (conDetach_croot c).trans h.croot
  children p _ hx := h.children p (conDetach_children_subset c p hx)
  type x := (conDetach_type c x).trans (h.type x)

theorem conFree (h : Pruned t₀ t) (hc : ∀ p, c ∉ t.children p) (hroot : c ≠ t.croot) : Pruned t₀ (t.conFree c) where
  rooted := h.rooted.conFree c hc hroot
  layered := h.layered.conFree c
  stacked := h.stacked.conFree c
  croot := (conFree_croot c).trans h.croot
  children p _ hx := by
    rw [conFree_children] at hx
    exact h.children p hx
  type x := by rw [conFree_con, h.type]

variable (h : Pruned t₀ t)
include h

theorem reach (hx : t.Reach x) : t₀.Reach x := by
  rw [Reach, h.croot] at hx
  exact hx.mono h.children

theorem inWorkspace (hx : t.InWorkspace x) : t₀.InWorkspace x := by
  obtain ⟨w, hw, htype, hwx⟩ := hx
  exact ⟨w, h.reach hw, (h.type w).symm.trans htype, hwx.mono h.children⟩

/-- What is above a container that is left is left. -/
theorem within (ht : Rooted t₀) (hx : t.Reach x) (hc : t₀.Reach c) (hcx : Descent.Within t₀.children c x) :
    t.Reach c ∧ Descent.Within t.children c x := by
  rw [Reach, h.croot] at hx ⊢
  exact ht.acyclic.between ht.parent h.children hx hc hcx

/-- Parents are those of the whole tree. -/
theorem parent_eq (ht : Rooted t₀) (hx : x ∈ t.children p) (hx' : x ∈ t₀.children q) : p = q :=
  Option.some_inj.mp ((ht.parent p x (h.children p hx)).symm.trans (ht.parent q x hx'))

/-- Below a workspace nothing is floating but on the workspace itself. -/
theorem floatingHead_eq_nil (hl : Layered t₀) (hx : t₀.InWorkspace x) : (t.con x).floatingHead = [] := by
  refine h.layered.floatingHead_eq_nil ?_
  rw [h.type]
  exact hx.type_ne hl

/-- **There is a container to be focused next**, and it is not the root. -/
theorem exists_nextFocused (ht : Rooted t₀) (hh : Housed t₀) (hc : t.Sits c) (hon : t₀.OnWorkspace c) :
    ∃ n, t.nextFocused c = some n ∧ t.Sits n := by
  have hr := h.rooted
  obtain ⟨p, hp, hpreach, hmem⟩ := hr.exists_parent hc
  obtain ⟨p', q', hp', hq', hdock, hroot⟩ := hh.exists_parents ht hon
  obtain rfl := h.parent_eq ht hmem hp'
  -- the parent of the parent
  have hpsits : t.Sits p := by
    refine ⟨hpreach, fun heq => ?_⟩
    have := ht.notMem_children_croot (p := q')
    exact this (h.croot ▸ heq ▸ hq')
  obtain ⟨q, hq, hqreach, hpq⟩ := hr.exists_parent hpsits
  obtain rfl := h.parent_eq ht hpq hq'
  have hnot : ∀ n, Descent.Within t.children q n → n ≠ t.croot := by
    rintro n hqn rfl
    rcases Descent.within_iff.mp hqn with heq | hbelow
    · apply hroot
      rw [← heq, ← h.type, hr.typeRoot]
    · obtain ⟨y, -, hy⟩ := Descent.below_iff_exists.mp hbelow
      exact hr.notMem_children_croot hy
  obtain ⟨n, hn, hqn⟩ : ∃ n, t.nextFocused c = some n ∧ Descent.Within t.children q n := by
    rw [nextFocused, hp]
    dsimp only
    rw [if_neg (by rw [h.type]; exact hdock)]
    split
    · exact ⟨_, by rw [hq, Option.map_some], (hr.nextFocusedIn_spec hpq).1⟩
    · exact ⟨_, rfl, (Descent.Below.single hpq).within.trans (hr.nextFocusedIn_spec hmem).1⟩
  exact ⟨n, hn, (hr.nextFocused_spec hc hn).1, hnot n hqn⟩

end Pruned

/-! ### Detaching what has no children -/

/-- Closing changes no window. -/
theorem alters_closeDetach_window (t : Tree) (c : ConId) (dontKillParent : Bool) :
    Alters (fun _ => True) (fun _ => False) (fun _ => True) t (t.closeDetach cfg c dontKillParent) := by
  have hdetach : Alters (fun _ => True) (fun _ => False) (fun _ => True) t
      ((t.conDetach c).stopUrgencyTimer c (t.getWorkspace c)) :=
    (Alters.conDetach fun _ _ => trivial).trans (.of_stirs (stirs_stopUrgencyTimer c _))
  unfold closeDetach
  dsimp only
  generalize (t.conDetach c).stopUrgencyTimer c (t.getWorkspace c) = s at hdetach ⊢
  have hrender : ∀ {u : Tree}, Alters (fun _ => True) (fun _ => False) (fun _ => True) t u →
      Alters (fun _ => True) (fun _ => False) (fun _ => True) t
        (if dontKillParent then u else u.treeRender cfg) := by
    intro u hu
    split
    · exact hu
    · exact hu.trans (.of_stirs (stirs_treeRender cfg _))
  refine hrender ?_
  split
  · exact hdetach
  · split
    · exact hdetach
    · exact hdetach.trans (.conFixPercent (.inr fun _ _ => trivial))

/-- What `tree_close_internal` leaves of the tree before it frees the container. -/
def closedTree (cfg : Config) (t : Tree) (c : ConId) (dontKillParent : Bool) : Tree :=
  (t.setWindow c none).closeDetach cfg c dontKillParent

section ClosedTree

variable (ht : Rooted t) (dontKillParent : Bool)

theorem closedTree_allCons : (t.closedTree cfg c dontKillParent).allCons = t.allCons :=
  closeDetach_allCons (t.setWindow c none) c dontKillParent

theorem closedTree_croot : (t.closedTree cfg c dontKillParent).croot = t.croot := by
  rw [closedTree, (links_closeDetach c dontKillParent).croot, conDetach_croot]
  rfl

theorem closedTree_focused : (t.closedTree cfg c dontKillParent).focused = t.focused := by
  rw [closedTree, (sameFocus_closeDetach _ c dontKillParent).focused, conDetach_focused]
  rfl

theorem closedTree_window (hx : x ≠ c) : ((t.closedTree cfg c dontKillParent).con x).window = (t.con x).window := by
  rw [closedTree, (alters_closeDetach_window _ c dontKillParent).window x not_false, setWindow, modify_con_of_ne _ _ hx]

theorem closedTree_floatingHead (hx : (t.con x).floatingHead = []) :
    ((t.closedTree cfg c dontKillParent).con x).floatingHead = [] := by
  have hperm := (@links_closeDetach cfg (t.setWindow c none) c dontKillParent).floatingHead x
  have hsub := conDetach_floatingHead_sublist (t := t.setWindow c none) c x
  have hwindow : ((t.setWindow c none).con x).floatingHead = [] :=
    List.perm_nil.mp (hx ▸ (links_setWindow t c none).floatingHead x)
  rw [hwindow, List.sublist_nil] at hsub
  rw [hsub] at hperm
  exact List.perm_nil.mp hperm

include ht

theorem mem_children_closedTree :
    x ∈ (t.closedTree cfg c dontKillParent).children q ↔ x ∈ t.children q ∧ x ≠ c := by
  have hwindow := links_setWindow t c none
  rw [closedTree, (links_closeDetach c dontKillParent).mem_children, (ht.links hwindow).mem_children_conDetach,
    hwindow.mem_children]

theorem closedTree_nodesHead :
    ((t.closedTree cfg c dontKillParent).con q).nodesHead = (t.con q).nodesHead.erase c := by
  have hwindow := links_setWindow t c none
  rw [closedTree, (links_closeDetach c dontKillParent).nodesHead, conDetach_con]
  split
  · split
    · next hfloating =>
      -- a floating container is in no list of children
      rw [hwindow.nodesHead, List.erase_of_not_mem]
      exact fun h => ht.typeNodes q c h ((hwindow.type c).symm.trans hfloating)
    · exact congrArg (fun l : List ConId => l.erase c) (hwindow.nodesHead q)
  · next hparent =>
    rw [hwindow.nodesHead, List.erase_of_not_mem]
    exact fun h => hparent ((hwindow.parent c).trans (ht.parent q c (List.mem_append_left _ h)))

theorem reach_closedTree (hc : c ≠ t.croot) (hempty : t.children c = []) :
    (t.closedTree cfg c dontKillParent).Reach x ↔ t.Reach x ∧ x ≠ c := by
  have hmem : ∀ {q x}, x ∈ (t.closedTree cfg c dontKillParent).children q ↔ x ∈ t.children q ∧ x ≠ c :=
    mem_children_closedTree ht dontKillParent
  rw [Reach, Reach, closedTree_croot]
  constructor
  · intro hx
    refine ⟨hx.mono fun q y hy => (hmem.mp hy).1, ?_⟩
    rcases Descent.within_iff.mp hx with rfl | hbelow
    · exact hc.symm
    · obtain ⟨q, -, hq⟩ := Descent.below_iff_exists.mp hbelow
      exact (hmem.mp hq).2
  · rintro ⟨hx, hne⟩
    refine hx.transfer fun q y _ hy hyx => hmem.mpr ⟨hy, ?_⟩
    rintro rfl
    -- nothing is below the container
    rcases Descent.within_iff.mp hyx with rfl | hbelow
    · exact hne rfl
    · obtain ⟨z, hz, -⟩ := Descent.below_iff_head.mp hbelow
      simp [hempty] at hz

end ClosedTree

/-! ### What is left to do -/

/-- The container is being closed: it is on a workspace, and has no floating windows. -/
structure Closes (t₀ t : Tree) (c : ConId) : Prop where
  on : t₀.OnWorkspace c
  floating : (t.con c).floatingHead = []

/-- Below the call for `c`, the loop over the siblings is at `c`. -/
def Returns (t₀ t : Tree) : ConId → Bool → List CloseAction → Prop
  | _, false, rest => ∀ a ∈ rest, a = .returnTrue
  | c, true, .childClosed p _ dontKillParent next _ :: rest =>
    Closes t₀ t p ∧ (∃ l, (t.con p).nodesHead = c :: l ∧ next = l.head?) ∧ Returns t₀ t p dontKillParent rest
  | _, true, _ => False

/-- The loop over the children of a container is at the first one that is left, as the others are
detached. -/
def Goes (t₀ t : Tree) : List CloseAction → Prop
  | [] => True
  | .close c _ dontKillParent :: rest => Closes t₀ t c ∧ Returns t₀ t c dontKillParent rest
  | .child c _ dontKillParent d _ :: rest | .childClosed c _ dontKillParent d _ :: rest =>
    Closes t₀ t c ∧ (t.con c).nodesHead.head? = d ∧ Returns t₀ t c dontKillParent rest
  | .activate n :: rest => t.Sits n ∧ Goes t₀ t rest
  | .removeChild p :: rest =>
    (t₀.OnWorkspace p ∨ ∃ o, p ∈ t₀.children o ∧ (t₀.con o).type = .output) ∧ ∀ a ∈ rest, a = .returnTrue
  | .free _ :: rest | .returnTrue :: rest => Goes t₀ t rest

theorem returns_false {rest : List CloseAction} :
    Returns t₀ t c false rest ↔ ∀ a ∈ rest, a = .returnTrue := by
  cases rest <;> exact Iff.rfl

theorem goes_of_forall {todo : List CloseAction} (h : ∀ a ∈ todo, a = .returnTrue) : Goes t₀ t todo := by
  induction todo with
  | nil => trivial
  | cons a rest ih =>
    obtain rfl := h a List.mem_cons_self
    exact ih fun b hb => h b (List.mem_cons_of_mem _ hb)

/-- The loops further up go on where the lists of their containers stay. -/
theorem Returns.congr {dontKillParent : Bool} {rest : List CloseAction} (h : Returns t₀ t c dontKillParent rest)
    (hfloating : ∀ x, (t.con x).floatingHead = [] → (t'.con x).floatingHead = [])
    (hnodes : ∀ x, Descent.Below t.children x c → (t'.con x).nodesHead = (t.con x).nodesHead) :
    Returns t₀ t' c dontKillParent rest := by
  induction rest generalizing c dontKillParent with
  | nil => cases dontKillParent <;> exact h
  | cons a rest ih =>
    cases dontKillParent with
    | false => exact returns_false.mpr (returns_false.mp h)
    | true =>
      cases a with
      | childClosed p kill dkp next abort =>
        obtain ⟨hp, ⟨l, hl, hnext⟩, hrest⟩ := h
        have hpc : Descent.Below t.children p c := .single (List.mem_append_left _ (by simp [hl]))
        refine ⟨⟨hp.on, hfloating p hp.floating⟩, ⟨l, (hnodes p hpc).trans hl, hnext⟩, ih hrest fun x hx => ?_⟩
        exact hnodes x (hx.trans hpc)
      | _ => exact h.elim

theorem Goes.congr {todo : List CloseAction} (h : Goes t₀ t todo)
    (hfloating : ∀ x, (t.con x).floatingHead = [] → (t'.con x).floatingHead = [])
    (hnodes : ∀ x, (t'.con x).nodesHead = (t.con x).nodesHead) (hsits : ∀ n, t.Sits n → t'.Sits n) :
    Goes t₀ t' todo := by
  have hcloses : ∀ {c}, Closes t₀ t c → Closes t₀ t' c := fun hc => ⟨hc.on, hfloating _ hc.floating⟩
  induction todo with
  | nil => trivial
  | cons a rest ih =>
    cases a with
    | close c kill dkp => exact ⟨hcloses h.1, h.2.congr hfloating fun x _ => hnodes x⟩
    | child c kill dkp d abort =>
      exact ⟨hcloses h.1, by rw [hnodes]; exact h.2.1, h.2.2.congr hfloating fun x _ => hnodes x⟩
    | childClosed c kill dkp d abort =>
      exact ⟨hcloses h.1, by rw [hnodes]; exact h.2.1, h.2.2.congr hfloating fun x _ => hnodes x⟩
    | activate n => exact ⟨hsits n h.1, ih h.2⟩
    | removeChild p => exact h
    | free c => exact ih h
    | returnTrue => exact ih h

theorem Goes.stirs {todo : List CloseAction} (h : Goes t₀ t todo) (hs : Stirs t t') : Goes t₀ t' todo := by
  apply h.congr
  · intro x hx
    exact List.perm_nil.mp (hx ▸ hs.floatingHead x)
  · exact hs.nodesHead
  · exact fun n => hs.links.sits.mpr

theorem Goes.conFree {todo : List CloseAction} (h : Goes t₀ t todo) (c : ConId) : Goes t₀ (t.conFree c) todo := by
  apply h.congr
  · intro x hx
    rwa [conFree_con]
  · intro x
    rw [conFree_con]
  · intro n hn
    exact ⟨(reach_conFree c).mpr hn.1, by rw [conFree_croot]; exact hn.2⟩

end Tree

/-! ### In the middle of a call -/

namespace Closing

open I3.Tree

variable {cfg : Config} {t t₀ : Tree} {c d m n p q x : ConId} {rest todo : List CloseAction} {killed : Bool}

/-- The call of `con_next_focused` that the next step makes: its argument, and what it returns. -/
def asked (s : Closing) : Option (ConId × ConId) :=
  match s.todo with
  | .child c kill _ none abortKill :: _ =>
    if abortKill ∨ (s.tree.con c).window.isSome ∧ kill ≠ .dontKillWindow then none
    else (s.tree.focusAfter c).map (c, ·)
  | _ => none

/-- While `c₀` is closed in `t₀`: what is not in the tree any more is freed, or will be next; a container
that has become empty is being closed, or will be asked; and the focused one is in the tree, or the focus
is about to move. -/
structure Tidying (t₀ : Tree) (c₀ : ConId) (s : Closing) : Prop where
  sound : Sound s
  certain : Certain s
  nodup : s.tree.allCons.Nodup
  pruned : Pruned t₀ s.tree
  window : ∀ x, s.tree.Reach x → (s.tree.con x).window = (t₀.con x).window
  goes : Goes t₀ s.tree s.todo
  focus : (∃ n, .activate n ∈ s.todo) ∨ ∃ f, s.tree.focused = some f ∧ s.tree.Reach f
  freed : ∀ x ∈ s.tree.allCons, t₀.Reach x → s.tree.Reach x ∨ .free x ∈ s.todo
  leaf : ∀ x, t₀.InWorkspace x → s.tree.Reach x → (s.tree.con x).nodesHead = [] →
    (t₀.con x).nodesHead = [] ∨ x ∈ opened s.todo ∨ .removeChild x ∈ s.todo
  gone : s.tree.Reach c₀ → c₀ ∈ opened s.todo

/-- A step that leaves the tree but for urgency and geometry. -/
theorem Tidying.of_stirs {c₀ : ConId} {s s' : Closing} (h : Tidying t₀ c₀ s) (hsound : Sound s')
    (hcertain : Certain s') (hs : Stirs s.tree s'.tree) (hf : s'.tree.focused = s.tree.focused)
    (hgoes : Goes t₀ s.tree s'.todo)
    (hactivate : ∀ n, .activate n ∈ s.todo → .activate n ∈ s'.todo)
    (hfree : ∀ x, .free x ∈ s.todo → .free x ∈ s'.todo)
    (hopened : ∀ x ∈ opened s.todo, x ∈ opened s'.todo)
    (hasked : ∀ x, .removeChild x ∈ s.todo → t₀.InWorkspace x → (s.tree.con x).nodesHead = [] →
      x ∈ opened s'.todo ∨ .removeChild x ∈ s'.todo) : Tidying t₀ c₀ s' where
  sound := hsound
  certain := hcertain
  nodup := hs.allCons ▸ h.nodup
  pruned := h.pruned.links hs.links
  window x hx := (hs.window x).trans (h.window x (hs.links.reach.mp hx))
  goes := hgoes.stirs hs
  focus := by
    rcases h.focus with ⟨n, hn⟩ | ⟨f, hfocused, hreach⟩
    · exact .inl ⟨n, hactivate n hn⟩
    · exact .inr ⟨f, hf.trans hfocused, hs.links.reach.mpr hreach⟩
  freed x hx hreach := by
    rcases h.freed x (hs.allCons ▸ hx) hreach with hreach | hmem
    · exact .inl (hs.links.reach.mpr hreach)
    · exact .inr (hfree x hmem)
  leaf x hin hreach hempty := by
    rw [hs.nodesHead] at hempty
    rcases h.leaf x hin (hs.links.reach.mp hreach) hempty with hleaf | hmem | hmem
    · exact .inl hleaf
    · exact .inr (.inl (hopened x hmem))
    · exact .inr (hasked x hmem hin hempty)
  gone hreach := hopened c₀ (h.gone (hs.links.reach.mp hreach))

theorem goes_closedTree (ht : Rooted t) {dontKillParent dontKillParent' : Bool}
    (h : Returns t₀ t c dontKillParent rest) : Goes t₀ (t.closedTree cfg c dontKillParent') rest := by
  cases dontKillParent with
  | false => exact goes_of_forall (returns_false.mp h)
  | true =>
    match rest with
    | [] => trivial
    | .childClosed p kill dkp next abort :: rest =>
      obtain ⟨hp, ⟨l, hl, hnext⟩, hrest⟩ := h
      have hpc : Descent.Below t.children p c := .single (List.mem_append_left _ (by simp [hl]))
      refine ⟨⟨hp.on, closedTree_floatingHead _ hp.floating⟩, ?_, hrest.congr ?_ fun x hx => ?_⟩
      · rw [closedTree_nodesHead ht, hl, List.erase_cons_head, hnext]
      · exact fun x hx => closedTree_floatingHead _ hx
      · -- the parent of the detached container is another one
        rw [closedTree_nodesHead ht, List.erase_of_not_mem]
        intro hmem
        have hparent := ht.parent x c (List.mem_append_left _ hmem)
        exact ht.acyclic.not_within hx (Descent.within_parent ht.parent hpc hparent)

/-- Where a closed container was, its parent is asked. -/
theorem Tidying.goes_finish {c₀ : ConId} {dontKillParent : Bool} (hrooted : Rooted t₀) (hh : Housed t₀)
    (h : Tidying t₀ c₀ ⟨t, .child c .dontKillWindow dontKillParent none false :: rest, killed⟩) :
    Goes t₀ (t.closedTree cfg c dontKillParent) (finish cfg t c dontKillParent rest killed).todo := by
  have ht : Rooted t := h.sound.rooted
  obtain ⟨hc, -, -⟩ := h.sound.todo
  obtain ⟨hcloses, hhead, hreturns⟩ := h.goes
  have hempty : t.children c = [] := by
    rw [children, List.head?_eq_none_iff.mp hhead, hcloses.floating, List.append_nil]
  have hwindow := links_setWindow t c none
  obtain ⟨p, hp, -, hmem⟩ := ht.exists_parent hc
  have hgoes : Goes t₀ (t.closedTree cfg c dontKillParent) rest := goes_closedTree ht hreturns
  have hlast : Goes t₀ (t.closedTree cfg c dontKillParent)
      (((if dontKillParent then none else ((t.setWindow c none).con c).parent).map
        CloseAction.removeChild).toList ++ .returnTrue :: rest) := by
    cases dontKillParent with
    | true => exact hgoes
    | false =>
      rw [if_neg Bool.false_ne_true, hwindow.parent, hp]
      refine ⟨?_, List.forall_mem_cons.mpr ⟨rfl, returns_false.mp hreturns⟩⟩
      have hmem₀ := h.pruned.children p hmem
      rcases hcloses.on.cases with ⟨hreach, htype⟩ | hin
      · obtain ⟨q, o, hq, -, ho, hotype⟩ := hh.content c hreach htype
        obtain rfl := h.pruned.parent_eq hrooted hmem hq
        exact .inr ⟨o, ho, hotype⟩
      · exact .inl (hin.parent hrooted hmem₀)
  have hafter : (if (t.setWindow c none).focused = some c then (t.setWindow c none).nextFocused c else none)
      = t.focusAfter c := rfl
  rw [finish, hafter, List.append_assoc]
  cases hnext : t.focusAfter c with
  | none => exact hlast
  | some n =>
    refine ⟨?_, hlast⟩
    -- the next focus is not the container itself
    have hn := (focusAfter_eq_some.mp hnext).2
    obtain ⟨n', hn', hsits⟩ := (h.pruned.links hwindow).exists_nextFocused hrooted hh (hwindow.sits.mpr hc) hcloses.on
    cases hn.symm.trans hn'
    have hnot := ((ht.links hwindow).nextFocused_spec (hwindow.sits.mpr hc) hn).2
    refine ⟨(reach_closedTree ht dontKillParent hc.2 hempty).mpr ⟨hwindow.reach.mp hsits.1, ?_⟩, ?_⟩
    · rintro rfl
      exact hnot (.refl _)
    · rw [closedTree_croot]
      exact hsits.2

/-- **The end of a call** keeps the tree tidy. -/
theorem Tidying.finish {c₀ : ConId} {dontKillParent : Bool} (hrooted : Rooted t₀) (hh : Housed t₀)
    (h : Tidying t₀ c₀ ⟨t, .child c .dontKillWindow dontKillParent none false :: rest, killed⟩) :
    Tidying t₀ c₀ (finish cfg t c dontKillParent rest killed) := by
  have ht : Rooted t := h.sound.rooted
  obtain ⟨hc, -, hunder⟩ := h.sound.todo
  obtain ⟨hcloses, hhead, hreturns⟩ := h.goes
  have hempty : t.children c = [] := by
    rw [children, List.head?_eq_none_iff.mp hhead, hcloses.floating, List.append_nil]
  have hreach : ∀ {x}, (t.closedTree cfg c dontKillParent).Reach x ↔ t.Reach x ∧ x ≠ c :=
    reach_closedTree ht dontKillParent hc.2 hempty
  have htree : (Closing.finish cfg t c dontKillParent rest killed).tree = t.closedTree cfg c dontKillParent := rfl
  have hsound : Sound (Closing.finish cfg t c dontKillParent rest killed) := sound_finish ht hc hunder
  have hcertain : Certain (Closing.finish cfg t c dontKillParent rest killed) :=
    certain_finish t c dontKillParent h.certain.killed (List.forall_mem_cons.mp h.certain.todo).2
  -- what is left of the stack stays on it
  have hrest : ∀ a ∈ rest, a ∈ (Closing.finish cfg t c dontKillParent rest killed).todo := by
    intro a ha
    simp [Closing.finish, ha]
  have hopened : opened (Closing.finish cfg t c dontKillParent rest killed).todo = c :: opened rest := by
    rw [Closing.finish, opened_rest]
  have hpruned : Pruned t₀ (t.closedTree cfg c dontKillParent) :=
    ((h.pruned.links (links_setWindow t c none)).conDetach c).links (links_closeDetach c dontKillParent)
  obtain ⟨p, hp, hpreach, hmem⟩ := ht.exists_parent hc
  refine ⟨hsound, hcertain, ?_, hpruned, ?_, ?_, ?_, ?_, ?_, ?_⟩
  · rw [htree, closedTree_allCons]
    exact h.nodup
  · intro x hx
    obtain ⟨hx, hne⟩ := hreach.mp hx
    exact (closedTree_window dontKillParent hne).trans (h.window x hx)
  · exact goes_finish hrooted hh h
  · -- the focus is elsewhere, or it moves on
    by_cases hfocused : t.focused = some c
    · have hwindow := links_setWindow t c none
      obtain ⟨n, hn, -⟩ := (h.pruned.links hwindow).exists_nextFocused hrooted hh (hwindow.sits.mpr hc) hcloses.on
      have hafter : t.focusAfter c = some n := by rw [focusAfter, if_pos hfocused, hn]
      refine .inl ⟨n, ?_⟩
      have hmem : CloseAction.activate n ∈ ((t.focusAfter c).map CloseAction.activate).toList := by simp [hafter]
      exact List.mem_cons_of_mem _ (List.mem_append_left _ (List.mem_append_left _ hmem))
    · rcases h.focus with ⟨n, hn⟩ | ⟨f, hf, hfreach⟩
      · exact .inl ⟨n, hrest _ ((List.mem_cons.mp hn).resolve_left (by rintro ⟨⟩))⟩
      · refine .inr ⟨f, ?_, hreach.mpr ⟨hfreach, ?_⟩⟩
        · rw [htree, closedTree_focused]
          exact hf
        · rintro rfl
          exact hfocused hf
  · intro x hx hx₀
    rw [htree, closedTree_allCons] at hx
    rcases h.freed x hx hx₀ with hxr | hmem
    · by_cases hxc : x = c
      · exact .inr (by simp [Closing.finish, hxc])
      · exact .inl (hreach.mpr ⟨hxr, hxc⟩)
    · exact .inr (hrest _ ((List.mem_cons.mp hmem).resolve_left (by rintro ⟨⟩)))
  · intro x hin hx hleaf
    obtain ⟨hx, hne⟩ := hreach.mp hx
    rw [htree, closedTree_nodesHead ht] at hleaf
    rw [hopened]
    by_cases hnodes : (t.con x).nodesHead = []
    · rcases h.leaf x hin hx hnodes with hleaf | hmem | hmem
      · exact .inl hleaf
      · exact .inr (.inl hmem)
      · exact .inr (.inr (hrest _ ((List.mem_cons.mp hmem).resolve_left (by rintro ⟨⟩))))
    · -- the container has lost its last child
      have hcx : c ∈ (t.con x).nodesHead := by
        by_contra hnot
        exact hnodes ((List.erase_of_not_mem hnot).symm.trans hleaf)
      obtain rfl : p = x := Option.some_inj.mp (hp.symm.trans (ht.parent x c (List.mem_append_left _ hcx)))
      cases dontKillParent with
      | false =>
        have hparent : ((t.setWindow c none).con c).parent = some p := ((links_setWindow t c none).parent c).trans hp
        exact .inr (.inr (by simp [Closing.finish, hparent]))
      | true =>
        cases rest with
        | nil => exact False.elim hreturns
        | cons a rest =>
        cases a with
        | childClosed q kill dkp next abort =>
          obtain ⟨-, ⟨l, hl, -⟩, -⟩ := hreturns
          have hcq : c ∈ (t.con q).nodesHead := by
            rw [hl]
            exact List.mem_cons_self
          have hq := ht.parent q c (List.mem_append_left _ hcq)
          obtain rfl := Option.some_inj.mp (hq.symm.trans hp)
          exact .inr (.inl (List.mem_cons_of_mem _ List.mem_cons_self))
        | _ => exact False.elim hreturns
  · intro hx
    obtain ⟨hx, hne⟩ := hreach.mp hx
    rw [hopened]
    exact h.gone hx

/-- **Asking a container** whether it is empty: if it is, it will be closed. -/
theorem Tidying.removeChild {c₀ : ConId} (hrooted : Rooted t₀) (hlayered : Layered t₀) (hh : Housed t₀)
    (h : Tidying t₀ c₀ ⟨t, .removeChild c :: rest, killed⟩) : Tidying t₀ c₀ (removeChild t c rest killed) := by
  have ht : Rooted t := h.sound.rooted
  obtain ⟨hc, hlast⟩ : t.Reach c ∧ ∀ a ∈ rest, a = .returnTrue := h.sound.todo
  have hkilled := h.certain.killed
  have hrest := (List.forall_mem_cons.mp h.certain.todo).2
  have hsound : Sound (Closing.removeChild t c rest killed) := sound_removeChild ht hc hlast
  have hcertain : Certain (Closing.removeChild t c rest killed) := certain_removeChild t c hkilled hrest
  have hgoes : Goes t₀ t rest := goes_of_forall hlast
  -- one of the other actions stays on the stack
  have hstay : ∀ {t' : Tree} {b : Bool}, Sound ⟨t', rest, b⟩ → Certain ⟨t', rest, b⟩ → Stirs t t' →
      t'.focused = t.focused → (t₀.InWorkspace c → (t.con c).nodesHead ≠ []) → Tidying t₀ c₀ ⟨t', rest, b⟩ := by
    intro t' b hsound hcertain hs hf hnot
    refine h.of_stirs hsound hcertain hs hf hgoes (fun n hn => ?_) (fun x hx => ?_) (fun x hx => hx) ?_
    · exact (List.mem_cons.mp hn).resolve_left nofun
    · exact (List.mem_cons.mp hx).resolve_left nofun
    · intro x hx hin hempty
      rcases List.mem_cons.mp hx with heq | hx
      · cases heq
        exact absurd hempty (hnot hin)
      · exact .inr hx
  have hclose : ∀ {t' : Tree} {b : Bool}, Sound ⟨t', .close c .dontKillWindow false :: rest, b⟩ →
      Certain ⟨t', .close c .dontKillWindow false :: rest, b⟩ → Stirs t t' → t'.focused = t.focused →
      Closes t₀ t c → Tidying t₀ c₀ ⟨t', .close c .dontKillWindow false :: rest, b⟩ := by
    intro t' b hsound hcertain hs hf hcloses
    have hgoes' : Goes t₀ t (.close c .dontKillWindow false :: rest) := ⟨hcloses, returns_false.mpr hlast⟩
    refine h.of_stirs hsound hcertain hs hf hgoes' (fun n hn => ?_) (fun x hx => ?_) (fun x hx => ?_) ?_
    · exact List.mem_cons_of_mem _ ((List.mem_cons.mp hn).resolve_left nofun)
    · exact List.mem_cons_of_mem _ ((List.mem_cons.mp hx).resolve_left nofun)
    · exact List.mem_cons_of_mem _ hx
    · intro x hx _ _
      rcases List.mem_cons.mp hx with heq | hx
      · cases heq
        exact .inl List.mem_cons_self
      · exact .inr (List.mem_cons_of_mem _ hx)
  unfold Closing.removeChild at hsound hcertain ⊢
  split
  · next hif =>
    rw [if_pos hif] at hsound hcertain
    refine hstay hsound hcertain (.refl t) rfl fun hin => ?_
    -- a container below a workspace is none of the types above
    exfalso
    have htype := hh.type_of_on hin.on
    rw [← h.pruned.type] at htype
    rcases hif with hif | hif | hif | hif
    · exact htype.1 hif
    · exact htype.2.1 hif
    · exact htype.2.2 hif
    · obtain ⟨p, hp, hout⟩ := (Option.any_eq_true _ _).mp hif
      have hmem := h.pruned.children p (ht.mem_children_of_parent hc hp)
      refine hh.parent_not_output hrooted hin hmem ?_
      rw [← h.pruned.type]
      simpa using hout
  · next hif =>
    rw [if_neg hif] at hsound hcertain
    have hon : t₀.OnWorkspace c := by
      rcases h.goes.1 with hon | ⟨o, ho, hotype⟩
      · exact hon
      · -- the content of an output is not asked
        exfalso
        have hsits : t.Sits c := ⟨hc, fun heq => hif (.inr (.inl (heq ▸ ht.typeRoot)))⟩
        obtain ⟨p, hp, -, hmem⟩ := ht.exists_parent hsits
        obtain rfl := h.pruned.parent_eq hrooted hmem ho
        refine hif (.inr (.inr (.inr ?_)))
        have htype : (t.con p).type = .output := (h.pruned.type p).trans hotype
        simp [hp, htype]
    split
    · next hws =>
      rw [if_pos hws] at hsound hcertain
      have hnot : t₀.InWorkspace c → (t.con c).nodesHead ≠ [] := fun hin =>
        absurd ((h.pruned.type c).symm.trans hws) (hin.type_ne hlayered)
      split
      · next hempty =>
        rw [if_pos hempty] at hsound hcertain
        refine hclose hsound hcertain (.refl t) rfl ⟨hon, ?_⟩
        refine List.eq_nil_iff_forall_not_mem.mpr fun x hx => ?_
        simpa [hempty.1] using h.pruned.stacked c (List.mem_append_right _ hx)
      · next hempty =>
        rw [if_neg hempty] at hsound hcertain
        exact hstay hsound hcertain (.refl t) rfl hnot
    · next hws =>
      rw [if_neg hws] at hsound hcertain
      have hs := (stirs_setUrgent t c (t.hasUrgentChild c)).trans (stirs_updateParentsUrgency _ c)
      have hf : ((t.setUrgent c (t.hasUrgentChild c)).updateParentsUrgency c).focused = t.focused := by
        rw [updateParentsUrgency_focused]
        rfl
      dsimp only at hsound hcertain ⊢
      split
      · next hnone =>
        rw [if_pos hnone] at hsound hcertain
        exact hclose hsound hcertain hs hf ⟨hon, h.pruned.layered.floatingHead_eq_nil hws⟩
      · next hsome =>
        rw [if_neg hsome] at hsound hcertain
        refine hstay hsound hcertain hs hf fun _ hempty => hsome ?_
        rw [numChildren, hs.nodesHead, hempty, List.length_nil]

/-- **A step keeps the tree tidy.** -/
theorem Tidying.step {c₀ : ConId} {s : Closing} (hrooted : Rooted t₀) (hlayered : Layered t₀) (hh : Housed t₀)
    (h : Tidying t₀ c₀ s) : Tidying t₀ c₀ (s.step cfg) := by
  have hsound : Sound (s.step cfg) := h.sound.step
  have hcertain : Certain (s.step cfg) := h.certain.step
  obtain ⟨t, todo, killed⟩ := s
  have ht : Rooted t := h.sound.rooted
  match todo with
  | [] => exact h
  | .close c kill dontKillParent :: rest =>
    have hs : Stirs t (if (t.con c).urgent then t.clearUrgency c else t) := by
      split
      · exact stirs_clearUrgency t c
      · exact .refl t
    have hf : (if (t.con c).urgent then t.clearUrgency c else t).focused = t.focused := by
      split
      · exact clearUrgency_focused c
      · rfl
    refine h.of_stirs hsound hcertain hs hf ⟨h.goes.1, ?_, h.goes.2⟩ (fun n hn => ?_) (fun x hx => ?_)
      (fun x hx => hx) fun x hx _ _ => ?_
    · rw [hs.nodesHead]
    · exact List.mem_cons_of_mem _ ((List.mem_cons.mp hn).resolve_left (by rintro ⟨⟩))
    · exact List.mem_cons_of_mem _ ((List.mem_cons.mp hx).resolve_left (by rintro ⟨⟩))
    · exact .inr (List.mem_cons_of_mem _ ((List.mem_cons.mp hx).resolve_left (by rintro ⟨⟩)))
  | .child c kill dontKillParent (some d) abortKill :: rest =>
    obtain ⟨hcloses, hhead, hreturns⟩ := h.goes
    obtain ⟨l, hl⟩ : ∃ l, (t.con c).nodesHead = d :: l := List.head?_eq_some_iff.mp hhead
    have hmem : d ∈ (t.con c).nodesHead := by
      rw [hl]
      exact List.mem_cons_self
    have hin : t₀.InWorkspace d := hcloses.on.child (h.pruned.children c (List.mem_append_left _ hmem))
    have hnext : Queue.next d (t.con c).nodesHead = l.head? := by simp [hl, Queue.next]
    refine h.of_stirs hsound hcertain (.refl t) rfl
      ⟨⟨hin.on, h.pruned.floatingHead_eq_nil hlayered hin⟩, hcloses, ⟨l, hl, hnext⟩, hreturns⟩
      (fun n hn => ?_) (fun x hx => ?_) (fun x hx => ?_) fun x hx _ _ => ?_
    · exact List.mem_cons_of_mem _ (List.mem_cons_of_mem _ ((List.mem_cons.mp hn).resolve_left (by rintro ⟨⟩)))
    · exact List.mem_cons_of_mem _ (List.mem_cons_of_mem _ ((List.mem_cons.mp hx).resolve_left (by rintro ⟨⟩)))
    · exact List.mem_cons_of_mem _ hx
    · exact .inr (List.mem_cons_of_mem _ (List.mem_cons_of_mem _ ((List.mem_cons.mp hx).resolve_left (by rintro ⟨⟩))))
  | .childClosed c kill dontKillParent next abortKill :: rest =>
    refine h.of_stirs hsound hcertain (.refl t) rfl h.goes (fun n hn => ?_) (fun x hx => ?_)
      (fun x hx => hx) fun x hx _ _ => ?_
    · exact List.mem_cons_of_mem _ ((List.mem_cons.mp hn).resolve_left (by rintro ⟨⟩))
    · exact List.mem_cons_of_mem _ ((List.mem_cons.mp hx).resolve_left (by rintro ⟨⟩))
    · exact .inr (List.mem_cons_of_mem _ ((List.mem_cons.mp hx).resolve_left (by rintro ⟨⟩)))
  | .child c kill dontKillParent none abortKill :: rest =>
    obtain ⟨rfl, rfl⟩ := (List.forall_mem_cons.mp h.certain.todo).1
    rw [step_last]
    exact h.finish hrooted hh
  | .free c :: rest =>
    obtain ⟨hnot, hroot, -⟩ := h.sound.todo
    have hgone : ¬ t.Reach c := not_reach_of_notMem hroot hnot
    refine ⟨hsound, hcertain, nodup_step h.nodup, h.pruned.conFree hnot hroot, ?_, h.goes.conFree c, ?_, ?_, ?_, ?_⟩
    · intro x hx
      change (((t.conFree c).con x).window) = _
      rw [conFree_con]
      exact h.window x ((reach_conFree c).mp hx)
    · rcases h.focus with ⟨n, hn⟩ | ⟨f, hf, hfreach⟩
      · exact .inl ⟨n, (List.mem_cons.mp hn).resolve_left (by rintro ⟨⟩)⟩
      · exact .inr ⟨f, (sameFocus_conFree t c).focused.trans hf, (reach_conFree c).mpr hfreach⟩
    · intro x hx hx₀
      change x ∈ (t.conFree c).allCons at hx
      rw [conFree_allCons, h.nodup.mem_erase_iff] at hx
      rcases h.freed x hx.2 hx₀ with hreach | hmem
      · exact .inl ((reach_conFree c).mpr hreach)
      · rcases List.mem_cons.mp hmem with heq | hmem
        · cases heq
          exact absurd rfl hx.1
        · exact .inr hmem
    · intro x hin hreach hempty
      change (t.conFree c).Reach x at hreach
      change ((t.conFree c).con x).nodesHead = [] at hempty
      rw [reach_conFree] at hreach
      rw [conFree_con] at hempty
      rcases h.leaf x hin hreach hempty with hleaf | hmem | hmem
      · exact .inl hleaf
      · rcases List.mem_cons.mp (show x ∈ c :: opened rest from hmem) with rfl | hmem
        · exact absurd hreach hgone
        · exact .inr (.inl hmem)
      · exact .inr (.inr ((List.mem_cons.mp hmem).resolve_left (by rintro ⟨⟩)))
    · intro hreach
      change (t.conFree c).Reach c₀ at hreach
      rw [reach_conFree] at hreach
      rcases List.mem_cons.mp (show c₀ ∈ c :: opened rest from h.gone hreach) with rfl | hmem
      · exact absurd hreach hgone
      · exact hmem
  | .activate n :: rest =>
    have hs := stirs_conActivate cfg t n
    obtain ⟨hsits, hgoes⟩ := h.goes
    have hfocused : (t.conActivate cfg n).focused = some n := ht.focused_conActivate hsits
    refine ⟨hsound, hcertain, nodup_step h.nodup, h.pruned.links hs.links, ?_, hgoes.stirs hs, ?_, ?_, ?_, ?_⟩
    · intro x hx
      exact (hs.window x).trans (h.window x (hs.links.reach.mp hx))
    · exact .inr ⟨n, hfocused, hs.links.reach.mpr hsits.1⟩
    · intro x hx hx₀
      rcases h.freed x (hs.allCons ▸ hx) hx₀ with hreach | hmem
      · exact .inl (hs.links.reach.mpr hreach)
      · exact .inr ((List.mem_cons.mp hmem).resolve_left (by rintro ⟨⟩))
    · intro x hin hreach hempty
      rcases h.leaf x hin (hs.links.reach.mp hreach) ((hs.nodesHead x).symm.trans hempty) with hleaf | hmem | hmem
      · exact .inl hleaf
      · exact .inr (.inl hmem)
      · exact .inr (.inr ((List.mem_cons.mp hmem).resolve_left (by rintro ⟨⟩)))
    · exact fun hreach => h.gone (hs.links.reach.mp hreach)
  | .removeChild c :: rest => exact h.removeChild hrooted hlayered hh
  | .returnTrue :: rest =>
    refine h.of_stirs hsound hcertain (.refl t) rfl h.goes (fun n hn => ?_) (fun x hx => ?_)
      (fun x hx => hx) fun x hx _ _ => ?_
    · exact (List.mem_cons.mp hn).resolve_left (by rintro ⟨⟩)
    · exact (List.mem_cons.mp hx).resolve_left (by rintro ⟨⟩)
    · exact .inr ((List.mem_cons.mp hx).resolve_left (by rintro ⟨⟩))

theorem Tidying.run {c₀ : ConId} {s : Closing} (hrooted : Rooted t₀) (hlayered : Layered t₀) (hh : Housed t₀)
    (h : Tidying t₀ c₀ s) (n : ℕ) : Tidying t₀ c₀ (s.run cfg n) := by
  induction n generalizing s with
  | zero => exact h
  | succ n ih => exact ih (h.step hrooted hlayered hh)

theorem Tidying.start (hrooted : Rooted t) (hlayered : Layered t) (hs : Stacked t) (hnodup : t.allCons.Nodup)
    (hfocus : ∃ f, t.focused = some f ∧ t.Reach f) (hc : t.InWorkspace c) :
    Tidying t c ⟨t, [.close c .dontKillWindow false], true⟩ where
  sound := by
    obtain ⟨w, -, -, hw⟩ := id hc
    obtain ⟨p, -, hp⟩ := Descent.below_iff_exists.mp hw
    exact ⟨hrooted, ⟨hc.reach, hrooted.ne_croot_of_mem hp⟩, under_false.mpr nofun⟩
  certain := ⟨rfl, List.forall_mem_singleton.mpr rfl⟩
  nodup := hnodup
  pruned := .refl hrooted hlayered hs
  window _ _ := rfl
  goes := by
    refine ⟨⟨hc.on, ?_⟩, returns_false.mpr nofun⟩
    exact (Pruned.refl hrooted hlayered hs).floatingHead_eq_nil hlayered hc
  focus := .inr hfocus
  freed x _ hx := .inl hx
  leaf _ _ _ hempty := .inl hempty
  gone _ := List.mem_cons_self

/-- **`con_next_focused` leads elsewhere**: not to its argument, nor to what was below it. -/
theorem Tidying.not_within {c₀ : ConId} {s : Closing} (hrooted : Rooted t₀) (h : Tidying t₀ c₀ s)
    (hasked : s.asked = some (x, m)) : ¬ Descent.Within t₀.children x m := by
  obtain ⟨t, todo, killed⟩ := s
  unfold asked at hasked
  split at hasked
  · next c kill dkp abort rest heq =>
    cases heq
    split at hasked
    · cases hasked
    obtain ⟨n, hn, heq⟩ := Option.map_eq_some_iff.mp hasked
    cases heq
    have ht : Rooted t := h.sound.rooted
    have hwindow := links_setWindow t x none
    obtain ⟨hc, -⟩ := h.sound.todo
    have hnext : (t.setWindow x none).nextFocused x = some m := by
      change t.focusAfter x = some m at hn
      unfold focusAfter at hn
      split at hn
      · exact hn
      · cases hn
    obtain ⟨hreach, hnot⟩ := (ht.links hwindow).nextFocused_spec (hwindow.sits.mpr hc) hnext
    intro hwithin
    have hxm := (h.pruned.within hrooted (hwindow.reach.mp hreach) (h.pruned.reach hc.1) hwithin).2
    exact hnot (hwindow.within.mpr hxm)
  · cases hasked

end Closing

namespace Tree

open Closing

variable {cfg : Config} {t : Tree} {c m w x : ConId}

/-- The call of `tree_close_internal` for `c`, which leaves the windows alone. -/
def closeCall (t : Tree) (c : ConId) : Closing := ⟨t, [.close c .dontKillWindow false], true⟩

/-- What closing `c` comes to: the call returns, nothing that was below `c` is in `all_cons`, no container
below a workspace has become empty, the focused container is in the tree, and `con_next_focused` has never
led back to the container it was asked about. -/
structure Tidied (cfg : Config) (t : Tree) (c : ConId) : Prop where
  returns : (Closing.run cfg t.closeSteps (t.closeCall c)).todo = []
  freed : ∀ x, Descent.Within t.children c x → x ∉ (t.treeCloseInternal cfg c .dontKillWindow false).allCons
  tidy : (∀ x, ¬ t.EmptySplit x) → ∀ x, ¬ (t.treeCloseInternal cfg c .dontKillWindow false).EmptySplit x
  leaf : ∀ x, (t.treeCloseInternal cfg c .dontKillWindow false).InWorkspace x →
    ((t.treeCloseInternal cfg c .dontKillWindow false).con x).nodesHead = [] →
      t.InWorkspace x ∧ (t.con x).nodesHead = []
  focused : ∃ f, (t.treeCloseInternal cfg c .dontKillWindow false).focused = some f
    ∧ (t.treeCloseInternal cfg c .dontKillWindow false).Reach f
  asked : ∀ n x m, ((t.closeCall c).run cfg n).asked = some (x, m) → ¬ Descent.Within t.children x m

/-- **Closing keeps the tree tidy and the focus alive.** -/
theorem tidied_treeCloseInternal (cfg : Config) (t : Tree) (c : ConId) (ht : Rooted t) (hl : Layered t)
    (hs : Stacked t) (hh : Housed t) (hnodup : t.allCons.Nodup)
    (hfocus : ∃ f, t.focused = some f ∧ t.Reach f) (hc : t.InWorkspace c) : Tidied cfg t c := by
  have hstart := Tidying.start ht hl hs hnodup hfocus hc
  have hrun : ∀ n, Tidying t c ((t.closeCall c).run cfg n) := hstart.run ht hl hh
  have hend : ((t.closeCall c).run cfg t.closeSteps).todo = [] :=
    treeCloseInternal_ends ht hnodup hstart.sound.todo.1 false
  have hlast : Tidying t c ((t.closeCall c).run cfg t.closeSteps) := hrun t.closeSteps
  -- nothing is left to do
  have hleaf : ∀ x, (t.treeCloseInternal cfg c .dontKillWindow false).InWorkspace x →
      ((t.treeCloseInternal cfg c .dontKillWindow false).con x).nodesHead = [] →
        t.InWorkspace x ∧ (t.con x).nodesHead = [] := by
    intro x hin hempty
    have hin' := hlast.pruned.inWorkspace hin
    rcases hlast.leaf x hin' hin.reach hempty with hleaf | hmem | hmem
    · exact ⟨hin', hleaf⟩
    · rw [hend] at hmem
      cases hmem
    · rw [hend] at hmem
      cases hmem
  refine ⟨hend, fun x hcx hx => ?_, fun htidy x hempty => ?_, hleaf, ?_, fun n x m => (hrun n).not_within ht⟩
  · -- a container that is left would have the closed one above it
    rcases hlast.freed x hx (hc.reach.trans hcx) with hreach | hmem
    · have hgone := hlast.gone (hlast.pruned.within ht hreach hc.reach hcx).1
      rw [hend] at hgone
      cases hgone
    · rw [hend] at hmem
      cases hmem
  · obtain ⟨hin, hwindow, hnodes⟩ := hempty
    obtain ⟨hin', hnodes'⟩ := hleaf x hin hnodes
    exact htidy x ⟨hin', (hlast.window x hin.reach).symm.trans hwindow, hnodes'⟩
  · rcases hlast.focus with ⟨n, hn⟩ | hfocused
    · rw [hend] at hn
      cases hn
    · exact hfocused

/-- A list of containers with the root, an output, its content and a workspace at its beginning and only
containers behind them. -/
theorem housed_ofList {l : List Con} {focused : Option ConId} (ht : Rooted (ofList l focused))
    (hl : Layered (ofList l focused))
    (htypes : ∀ x < l.length, (l.getD x {}).type = .con ∨ x = 0 ∨ x = 1 ∨ x = 3)
    (hfirst : (l.getD 0 {}).type = .root ∧ (l.getD 1 {}).type = .output ∧ (l.getD 2 {}).type = .con)
    (hchain : 2 ∈ (ofList l focused).children 1 ∧ 3 ∈ (ofList l focused).children 2) :
    Housed (ofList l focused) := by
  obtain ⟨hroot, hout, hcontent⟩ := hfirst
  have htype : ∀ x, ((ofList l focused).con x).type = .con ∨ x = 0 ∨ x = 1 ∨ x = 3 := by
    intro x
    by_cases hx : x < l.length
    · exact htypes x hx
    · exact .inl (by rw [ofList_con hx])
  have hws : ∀ w, ((ofList l focused).con w).type = .workspace → w = 3 := by
    intro w hw
    rcases htype w with hcon | rfl | rfl | rfl
    · rw [hcon] at hw
      cases hw
    · cases hroot.symm.trans hw
    · cases hout.symm.trans hw
    · rfl
  refine ⟨fun w _ hw => ?_, fun x hx => ?_⟩
  · obtain rfl := hws w hw
    exact ⟨2, 1, hchain.2, hcontent, hchain.1, hout⟩
  · -- the root, the output and the workspace are not below the workspace
    have hne := hx.type_ne hl
    obtain ⟨w, hreach, hw, hwx⟩ := hx
    obtain rfl := hws w hw
    rcases htype x with hcon | rfl | rfl | rfl
    · exact .inl hcon
    · obtain ⟨p, -, hp⟩ := Descent.below_iff_exists.mp hwx
      exact absurd hp ht.notMem_children_croot
    · have hdown : Descent.Below (ofList l focused).children 1 3 :=
        (Descent.Below.single hchain.1).trans (.single hchain.2)
      exact absurd hwx.within (ht.acyclic.not_within hdown)
    · exact absurd hw hne

/-! ### A split container with the focus in it -/

/-- A workspace with a window and a split container with two windows, one of them focused. -/
def splitFocused : Tree := ofList [
  { type := .root, nodesHead := [1], focusHead := [1] },
  { type := .output, layout := .output, parent := some 0, nodesHead := [2], focusHead := [2] },
  { layout := .splith, parent := some 1, nodesHead := [3], focusHead := [3] },
  { type := .workspace, layout := .splith, name := "1", fullscreenMode := .output, parent := some 2,
    nodesHead := [4, 7], focusHead := [4, 7] },
  { layout := .splitv, parent := some 3, percent := 1 / 2, nodesHead := [5, 6], focusHead := [6, 5] },
  { layout := .splith, parent := some 4, percent := 1 / 2, window := some { id := 5 } },
  { layout := .splith, parent := some 4, percent := 1 / 2, window := some { id := 6 } },
  { layout := .splith, parent := some 3, percent := 1 / 2, window := some { id := 7 } }] (some 6)

theorem rooted_splitFocused : Rooted splitFocused := rooted_ofList (by decide +kernel) (by decide +kernel)

theorem healthy_splitFocused : Healthy splitFocused :=
  healthy_ofList (3 < ·) rooted_splitFocused (by decide +kernel)

theorem stacked_splitFocused : Stacked splitFocused := stacked_ofList (by decide +kernel)

theorem housed_splitFocused : Housed splitFocused :=
  housed_ofList rooted_splitFocused healthy_splitFocused.layered (by decide +kernel) (by decide +kernel)
    (by decide +kernel)

theorem inWorkspace_splitFocused : splitFocused.InWorkspace 4 := by
  have hchain : List.IsChain (fun q c => c ∈ splitFocused.children q) [0, 1, 2, 3] := by decide +kernel
  exact ⟨3, reach_of_isChain reach_croot hchain (by simp), rfl, .single (by decide +kernel)⟩

theorem focused_splitFocused : ∃ f, splitFocused.focused = some f ∧ splitFocused.Reach f := by
  have hchain : List.IsChain (fun q c => c ∈ splitFocused.children q) [0, 1, 2, 3, 4, 6] := by decide +kernel
  exact ⟨6, rfl, reach_of_isChain reach_croot hchain (by simp)⟩

/-- Closing the split container around the focused window. -/
theorem tidied_splitFocused : Tidied {} splitFocused 4 :=
  tidied_treeCloseInternal {} splitFocused 4 rooted_splitFocused healthy_splitFocused.layered stacked_splitFocused
    housed_splitFocused (by decide +kernel) focused_splitFocused inWorkspace_splitFocused

/-- On the way `con_next_focused` leads from the focused window to the split container, which is closed as
well. -/
theorem not_asked_splitFocused : ¬ ∀ (cfg : Config) (t : Tree) (c : ConId), Rooted t → Layered t → Stacked t →
    Housed t → t.allCons.Nodup → (∃ f, t.focused = some f ∧ t.Reach f) → t.InWorkspace c →
      ∀ n x m, ((t.closeCall c).run cfg n).asked = some (x, m) → ¬ Descent.Within t.children c m := by
  intro h
  have hnot := h {} splitFocused 4 rooted_splitFocused healthy_splitFocused.layered stacked_splitFocused
    housed_splitFocused (by decide +kernel) focused_splitFocused inWorkspace_splitFocused
  have hasked : ((splitFocused.closeCall 4).run {} 9).asked = some (6, 4) := by decide +kernel
  exact hnot 9 6 4 hasked (.refl 4)

end Tree

end I3
