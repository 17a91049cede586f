import I3Aiwr.Tree.Calm
import I3Aiwr.Tree.Stacks

/-!
# The focus chain

A container is foremost below a workspace when it is the first entry of the focus stack on every
level from the workspace down to itself: following the first entries leads to it.

Closing containers takes their entries out of the focus stacks and leaves the others in place, as
long as the focused container is not among them. So it neither makes nor breaks a chain that leads
past the closed containers.

## Main definitions

* `Tree.heads p`: the first entry of the focus stack
* `Tree.Foremost ws c`: the first entries lead from `ws` to `c`
* `Tree.Keeps D t t'`: the containers outside of `D` keep their places
* `Tree.closeAlone c`: a container without children is closed

## Main results

* `Tree.Rooted.isFocusedDescendant_iff`: `is_focused_descendant` finds out what is foremost
* `Tree.Keeps.foremost`: what is foremost when a container keeps its place
* `Tree.keeps_onRemoveChild`, `Tree.keeps_treeCloseInternal`: closing keeps the other places
* `Tree.treeCloseInternal_pair`: closing a container around an empty one
-/

namespace I3

namespace Tree

variable {cfg : Config} {t t' t'' : Tree} {c p q x ws : ConId}

/-- The first entry of the focus stack. -/
def heads (t : Tree) (p : ConId) : List ConId := (t.con p).focusHead.head?.toList

theorem mem_heads : x ∈ t.heads p ↔ (t.con p).focusHead.head? = some x := by
  rw [heads, Option.mem_toList]

theorem heads_unique (h : x ∈ t.heads p) (h' : q ∈ t.heads p) : x = q :=
  Option.some_inj.mp ((mem_heads.mp h).symm.trans (mem_heads.mp h'))

/-- The container is the first entry of the focus stack on every level below `ws`. -/
def Foremost (t : Tree) (ws c : ConId) : Prop := Descent.Within t.heads ws c

theorem SameFocus.heads (h : SameFocus t t') : t'.heads = t.heads := by
  ext1 p
  rw [Tree.heads, Tree.heads, h.focusHead]

theorem Rooted.heads_subset (ht : Rooted t) (p : ConId) : t.heads p ⊆ t.children p := fun _ hx =>
  ht.focus p _ (List.mem_of_mem_head? (mem_heads.mp hx))

theorem Stacked.exists_mem_heads (hs : Stacked t) (hx : x ∈ t.children p) : ∃ y, y ∈ t.heads p := by
  obtain ⟨a, l, hl⟩ := List.exists_cons_of_ne_nil (List.ne_nil_of_mem (hs p hx))
  exact ⟨a, mem_heads.mpr (by rw [hl, List.head?_cons])⟩

theorem Rooted.within_of_foremost (ht : Rooted t) (h : t.Foremost ws c) :
    Descent.Within t.children ws c := h.mono ht.heads_subset

/-- The loop of `is_focused_descendant`. -/
def isFocusedDescendantN (t : Tree) (ancestor : ConId) : ℕ → ConId → Bool
  | 0, _ => false
  | n + 1, current =>
    if current = ancestor then true
    else match (t.con current).parent with
      | none => false
      | some p =>
        if (t.con p).focusHead.head? ≠ some current then false else isFocusedDescendantN t ancestor n p

/-- `is_focused_descendant`. -/
def isFocusedDescendant (t : Tree) (con ancestor : ConId) : Bool :=
  t.isFocusedDescendantN ancestor t.nextCon con

theorem Rooted.foremost_of_isFocusedDescendantN (ht : Rooted t) {n : ℕ} (hc : t.Reach c)
    (h : t.isFocusedDescendantN ws n c = true) : t.Foremost ws c := by
  induction n generalizing c with
  | zero => cases h
  | succ n ih =>
    rw [isFocusedDescendantN] at h
    split at h
    · next heq =>
      subst heq
      exact .refl _
    · split at h
      · cases h
      · next p hp =>
        split at h
        · cases h
        · next hhead =>
          have hmem : c ∈ t.heads p := mem_heads.mpr (not_not.mp hhead)
          exact (Descent.Within.tail (ih (ht.reach_parent hc hp) h) hmem).within

/-- **`is_focused_descendant` finds out what is foremost.** -/
theorem Rooted.isFocusedDescendant_iff (ht : Rooted t) (hc : t.Reach c) :
    t.isFocusedDescendant c ws = true ↔ t.Foremost ws c := by
  refine ⟨ht.foremost_of_isFocusedDescendantN hc, fun h => ?_⟩
  -- the loop does not end before it comes to `ws`
  have hloop : ∀ n x, ws ∈ t.chainN n x → t.Foremost ws x →
      t.isFocusedDescendantN ws n x = true := by
    intro n
    induction n with
    | zero => exact fun x hx => by cases hx
    | succ n ih =>
      intro x hmem hx
      rw [isFocusedDescendantN]
      split
      · rfl
      · next hne =>
        obtain ⟨p, hp, hxp⟩ := Descent.below_iff_exists.mp
          ((Descent.within_iff.mp hx).resolve_left hne)
        have hparent := ht.parent p x (ht.heads_subset p hxp)
        rw [chainN, hparent] at hmem
        rw [hparent]
        dsimp only
        rw [if_neg (not_not.mpr (mem_heads.mp hxp))]
        exact ih p ((List.mem_cons.mp hmem).resolve_left (Ne.symm hne)) hp
  exact hloop t.nextCon c ((ht.mem_chain hc).mpr (ht.within_of_foremost h)) h

/-! ### Keeping the others' places -/

/-- The containers outside of `D` stay where they are. Where the focus is outside of `D`, it stays,
and so do the first entries of the focus stacks that are. -/
structure Keeps (D : ConId → Prop) (t t' : Tree) : Prop where
  subset : ∀ p, t'.children p ⊆ t.children p
  kept : ∀ p, ∀ c ∈ t.children p, ¬ D c → c ∈ t'.children p
  focused : (∀ f ∈ t.focused, ¬ D f) → t'.focused = t.focused
  heads : (∀ f ∈ t.focused, ¬ D f) → ∀ p, ∀ h ∈ t.heads p, ¬ D h → h ∈ t'.heads p

namespace Keeps

variable {D : ConId → Prop}

theorem trans (h : Keeps D t t') (h' : Keeps D t' t'') : Keeps D t t'' where
  subset p _ hx := h.subset p (h'.subset p hx)
  kept p c hc hD := h'.kept p c (h.kept p c hc hD) hD
  focused hf := by
    have heq := h.focused hf
    rw [h'.focused (heq ▸ hf), heq]
  heads hf p c hc hD := h'.heads (h.focused hf ▸ hf) p c (h.heads hf p c hc hD) hD

theorem of_links (h : Links t t') (hf : SameFocus t t') : Keeps D t t' where
  subset _ _ := h.mem_children.mp
  kept _ _ hc _ := h.mem_children.mpr hc
  focused _ := hf.focused
  heads _ p x hx _ := by rwa [hf.heads]

theorem refl (t : Tree) : Keeps D t t := of_links (.refl t) (.refl t)

theorem conDetach (ht : Rooted t) (hc : D c) : Keeps D t (t.conDetach c) where
  subset := conDetach_children_subset c
  kept p x hx hD := (ht.mem_children_conDetach c).mpr ⟨hx, fun h => hD (h ▸ hc)⟩
  focused _ := conDetach_focused c
  heads _ p x hx hD := by
    rw [mem_heads] at hx ⊢
    rw [conDetach_con]
    split
    · obtain ⟨l, hl⟩ := List.head?_eq_some_iff.mp hx
      have hne : x ≠ c := fun h => hD (h ▸ hc)
      simp [hl, hne]
    · exact hx

theorem conFree (t : Tree) (c : ConId) : Keeps D t (t.conFree c) where
  subset p := by rw [conFree_children]; exact List.Subset.refl _
  kept p x hx _ := by rwa [conFree_children]
  focused _ := (sameFocus_conFree t c).focused
  heads _ p x hx _ := by rwa [(sameFocus_conFree t c).heads]

/-- What is above a container that is still reached is reached. -/
theorem reach_above (h : Keeps D t t') (ht : Rooted t) (hroot : t'.croot = t.croot)
    (hx : Descent.Within t.children c x) (hr : t'.Reach x) : t'.Reach c := by
  induction hx with
  | refl => exact hr
  | @tail y x _ hx ih =>
    have hne : x ≠ t'.croot := by rw [hroot]; exact ht.ne_croot_of_mem hx
    obtain ⟨z, hz, hxz⟩ := Descent.below_iff_exists.mp ((Descent.within_iff.mp hr).resolve_left hne)
    have hparent := (ht.parent z x (h.subset z hxz)).symm.trans (ht.parent y x hx)
    exact ih (Option.some_inj.mp hparent ▸ hz)

/-- Nothing on the way to a container is closed. -/
theorem within (h : Keeps D t t') (hD : ∀ d, D d → ¬ Descent.Within t.children d c)
    (hp : Descent.Within t.children p c) : Descent.Within t'.children p c := by
  refine Relation.ReflTransGen.head_induction_on hp (.refl _) fun {q x} hx hwithin ih => ?_
  exact Relation.ReflTransGen.head (h.kept q x hx fun hd => hD x hd hwithin) ih

/-- **What is foremost when a container keeps its place.** The containers that go away are not above
it, and none of them is ahead of what leads to it. -/
theorem foremost (h : Keeps D t t') (ht : Rooted t) (hs : Stacked t) (ht' : Rooted t')
    (hfocus : ∀ f ∈ t.focused, ¬ D f) (hD : ∀ d, D d → ¬ Descent.Within t.children d c)
    (hahead : ∀ q, Descent.Within t.children q c → ∀ d ∈ t.heads q, ¬ D d) :
    t'.Foremost ws c ↔ t.Foremost ws c := by
  constructor
  · intro hws
    refine Relation.ReflTransGen.head_induction_on hws (.refl _) fun {q x} hx hwithin ih => ?_
    refine Relation.ReflTransGen.head ?_ ih
    -- there was a first entry before, and it is still there
    have hmem : x ∈ t.children q := h.subset q (ht'.heads_subset q hx)
    have hqc : Descent.Within t.children q c :=
      ((Descent.Below.single hmem).trans_within (ht.within_of_foremost ih)).within
    obtain ⟨d, hd⟩ := hs.exists_mem_heads hmem
    have hd' := h.heads hfocus q d hd (hahead q hqc d hd)
    exact heads_unique hd' hx ▸ hd
  · intro hws
    refine Relation.ReflTransGen.head_induction_on hws (.refl _) fun {q x} hx hwithin ih => ?_
    refine Relation.ReflTransGen.head (h.heads hfocus q x hx fun hd => hD x hd ?_) ih
    exact ht.within_of_foremost hwithin

end Keeps

/-! ### Closing -/

theorem sameFocus_closeDetach (t : Tree) (c : ConId) (dontKillParent : Bool) :
    SameFocus (t.conDetach c) (t.closeDetach cfg c dontKillParent) := by
  have htimer : SameFocus (t.conDetach c) ((t.conDetach c).stopUrgencyTimer c (t.getWorkspace c)) := by
    rw [stopUrgencyTimer]
    split
    · refine SameFocus.trans ⟨workspaceUpdateUrgentFlag_focused _, fun _ => ?_⟩ (.of_modify _ c _ rfl)
      exact workspaceUpdateUrgentFlag_focusHead _
    · exact .refl _
  unfold closeDetach
  dsimp only
  generalize (t.conDetach c).stopUrgencyTimer c (t.getWorkspace c) = s at htimer ⊢
  have hpercent : SameFocus (t.conDetach c) (match (s.con c).parent with
      | none => s
      | some p => if (s.con c).type = .floatingCon then s else s.conFixPercent p) := by
    split
    · exact htimer
    · split
      · exact htimer
      · exact htimer.trans (sameFocus_conFixPercent s _)
  split
  · exact hpercent
  · exact hpercent.trans (sameFocus_treeRender _)

end Tree

/-! ### The run of closing actions -/

namespace Closing

open I3.Tree

variable {cfg : Config} {D Up : ConId → Prop} {t₀ : Tree}

/-- The action is about containers that may be closed, or leave the parent of one to ask. -/
def Dooms (D Up : ConId → Prop) (t₀ t : Tree) : CloseAction → Prop
  | .close c _ dontKillParent =>
    (∀ x, Descent.Within t.children c x → D x)
      ∧ (dontKillParent = false → ∀ p, c ∈ t₀.children p → Up p)
  | .child c _ dontKillParent next _ | .childClosed c _ dontKillParent next _ =>
    (∀ x, Descent.Within t.children c x → D x)
      ∧ (dontKillParent = false → ∀ p, c ∈ t₀.children p → Up p)
      ∧ ∀ d ∈ next, ∀ x, Descent.Within t.children d x → D x
  | .free _ | .returnTrue => True
  | .activate _ => ∃ f ∈ t₀.focused, D f
  | .removeChild p => Up p

/-- The stack in the middle of a call that closes containers of `D` only, and asks those of `Up`
whether they are empty. -/
structure Dooming (D Up : ConId → Prop) (t₀ : Tree) (s : Closing) : Prop where
  sound : Sound s
  layered : Layered s.tree
  stacked : Stacked t₀ → Stacked s.tree
  keeps : Keeps D t₀ s.tree
  todo : ∀ a ∈ s.todo, Dooms D Up t₀ s.tree a

theorem Dooms.mono {t t' : Tree} (hsub : ∀ p, t'.children p ⊆ t.children p) {a : CloseAction}
    (h : Dooms D Up t₀ t a) : Dooms D Up t₀ t' a := by
  cases a with
  | close c kill dkp => exact ⟨fun x hx => h.1 x (hx.mono hsub), h.2⟩
  | child c kill dkp next abort =>
    exact ⟨fun x hx => h.1 x (hx.mono hsub), h.2.1, fun d hd x hx => h.2.2 d hd x (hx.mono hsub)⟩
  | childClosed c kill dkp next abort =>
    exact ⟨fun x hx => h.1 x (hx.mono hsub), h.2.1, fun d hd x hx => h.2.2 d hd x (hx.mono hsub)⟩
  | _ => exact h

/-- A change of other things. -/
theorem Dooming.of_links {s s' : Closing} (h : Dooming D Up t₀ s) (hs : Sound s')
    (hl : Links s.tree s'.tree) (hf : SameFocus s.tree s'.tree)
    (htodo : ∀ a ∈ s'.todo, Dooms D Up t₀ s.tree a) : Dooming D Up t₀ s' where
  sound := hs
  layered := h.layered.links hl
  stacked hs := (h.stacked hs).links hl
  keeps := h.keeps.trans (.of_links hl hf)
  todo a ha := (htodo a ha).mono fun _ _ hx => hl.mem_children.mp hx

theorem dooming_finish {t : Tree} {c : ConId} {kill : KillWindow} {dontKillParent abortKill : Bool}
    {rest : List CloseAction} {killed : Bool}
    (h : Dooming D Up t₀ ⟨t, .child c kill dontKillParent none abortKill :: rest, killed⟩) :
    Dooming D Up t₀ (finish cfg t c dontKillParent rest killed) := by
  obtain ⟨⟨hdoomed, hparent, -⟩, hrest⟩ := List.forall_mem_cons.mp h.todo
  have hc : D c := hdoomed c (.refl _)
  have hsound : Sound (finish cfg t c dontKillParent rest killed) :=
    sound_finish h.sound.rooted h.sound.todo.1 h.sound.todo.2.2
  have hwindow := links_setWindow t c none
  have hroot := h.sound.rooted.links hwindow
  have hfwindow : SameFocus t (t.setWindow c none) := .of_modify t c _ rfl
  have hclose := @links_closeDetach cfg (t.setWindow c none) c dontKillParent
  have hkeeps : Keeps D t (finish cfg t c dontKillParent rest killed).tree :=
    (Keeps.of_links hwindow hfwindow).trans ((Keeps.conDetach hroot hc).trans
      (.of_links hclose (sameFocus_closeDetach _ c dontKillParent)))
  refine ⟨hsound, ((h.layered.links hwindow).conDetach c).links hclose,
    fun hs => (((h.stacked hs).links hwindow).conDetach hroot c).links hclose,
    h.keeps.trans hkeeps, ?_⟩
  have hmono : ∀ a, Dooms D Up t₀ t a →
      Dooms D Up t₀ (finish cfg t c dontKillParent rest killed).tree a :=
    fun a ha => ha.mono hkeeps.subset
  intro a ha
  simp only [finish, List.mem_cons, List.mem_append, Option.mem_toList, Option.map_eq_some_iff]
    at ha
  rcases ha with rfl | (⟨n, hn, rfl⟩ | ⟨p, hp, rfl⟩) | rfl | ha
  · trivial
  · -- the focus moves on from a closed container
    change ∃ f ∈ t₀.focused, D f
    by_contra hnot
    have hsame : t.focused = t₀.focused :=
      h.keeps.focused fun f hf hD => hnot ⟨f, hf, hD⟩
    split at hn
    · next hfocused =>
      rw [hfwindow.focused, hsame] at hfocused
      exact hnot ⟨c, hfocused, hc⟩
    · cases hn
  · cases dontKillParent with
    | true => cases hp
    | false =>
      obtain ⟨q, hq, -, hmem⟩ := hroot.exists_parent (hwindow.sits.mpr h.sound.todo.1)
      rw [if_neg Bool.false_ne_true, hq] at hp
      obtain rfl := Option.some_inj.mp hp
      exact hparent rfl q (h.keeps.subset q (hwindow.mem_children.mp hmem))
  · trivial
  · exact hmono a (hrest a ha)

section Step

variable (hasked : ∀ p, Up p → Stacked t₀) (hup : ∀ p, Up p → (∀ x ∈ t₀.children p, D x) → D p)
  (hstep : ∀ p q, Up p → p ∈ t₀.children q → Up q)
include hup hstep

/-- A container without children that may be asked may be closed. -/
theorem Dooming.dooms_empty {s : Closing} (h : Dooming D Up t₀ s) {c : ConId} (hc : Up c)
    (hempty : s.tree.children c = []) (kill : KillWindow) :
    Dooms D Up t₀ s.tree (.close c kill false) := by
  refine ⟨fun x hx => ?_, fun _ p hp => hstep c p hc hp⟩
  rcases Descent.within_iff.mp hx with rfl | hx
  · refine hup x hc fun y hy => ?_
    by_contra hD
    simpa [hempty] using h.keeps.kept x y hy hD
  · obtain ⟨y, hy, -⟩ := Descent.below_iff_head.mp hx
    simp [hempty] at hy

include hasked

theorem dooming_removeChild {t : Tree} {c : ConId} {rest : List CloseAction} {killed : Bool}
    (h : Dooming D Up t₀ ⟨t, .removeChild c :: rest, killed⟩) :
    Dooming D Up t₀ (removeChild t c rest killed) := by
  obtain ⟨hc, hrest⟩ := List.forall_mem_cons.mp h.todo
  have hsound : Sound (removeChild t c rest killed) :=
    sound_removeChild h.sound.rooted h.sound.todo.1 h.sound.todo.2
  unfold removeChild at hsound ⊢
  split
  · next hif =>
    rw [if_pos hif] at hsound
    exact h.of_links hsound (.refl t) (.refl t) hrest
  · next hif =>
    rw [if_neg hif] at hsound
    split
    · next hws =>
      rw [if_pos hws] at hsound
      split
      · next hempty =>
        rw [if_pos hempty] at hsound
        refine h.of_links hsound (.refl t) (.refl t) (List.forall_mem_cons.mpr ⟨?_, hrest⟩)
        -- nothing in the focus stack means no children
        refine h.dooms_empty hup hstep hc (List.eq_nil_iff_forall_not_mem.mpr fun x hx => ?_) _
        simpa [hempty.1] using h.stacked (hasked c hc) c hx
      · next hempty =>
        rw [if_neg hempty] at hsound
        exact h.of_links hsound (.refl t) (.refl t) hrest
    · next hws =>
      rw [if_neg hws] at hsound
      have hl := ((stirs_setUrgent t c (t.hasUrgentChild c)).trans
        (stirs_updateParentsUrgency _ c)).links
      have hf : SameFocus t ((t.setUrgent c (t.hasUrgentChild c)).updateParentsUrgency c) :=
        SameFocus.trans (.of_modify t c _ rfl) (sameFocus_updateParentsUrgency _ c)
      dsimp only at hsound ⊢
      split
      · next hnone =>
        rw [if_pos hnone] at hsound
        refine h.of_links hsound hl hf (List.forall_mem_cons.mpr ⟨?_, hrest⟩)
        refine h.dooms_empty hup hstep hc ?_ _
        -- only a workspace has floating windows
        rw [h.layered.children_eq hws, ← hl.nodesHead]
        exact List.eq_nil_of_length_eq_zero hnone
      · next hnone =>
        rw [if_neg hnone] at hsound
        exact h.of_links hsound hl hf hrest

/-- **A step closes only what may be closed.** -/
theorem Dooming.step {s : Closing} (h : Dooming D Up t₀ s) : Dooming D Up t₀ (s.step cfg) := by
  have hsound : Sound (s.step cfg) := h.sound.step
  obtain ⟨t, todo, killed⟩ := s
  match todo with
  | [] => exact h
  | .close c kill dontKillParent :: rest =>
    obtain ⟨⟨hdoomed, hparent⟩, hrest⟩ := List.forall_mem_cons.mp h.todo
    have hl : Links t (if (t.con c).urgent then t.clearUrgency c else t) := by
      split
      · exact (stirs_clearUrgency t c).links
      · exact .refl t
    have hf : SameFocus t (if (t.con c).urgent then t.clearUrgency c else t) := by
      split
      · exact sameFocus_clearUrgency t c
      · exact .refl t
    refine h.of_links hsound hl hf (List.forall_mem_cons.mpr ⟨⟨hdoomed, hparent, ?_⟩, hrest⟩)
    intro d hd x hx
    have hmem : d ∈ (t.con c).nodesHead := hl.nodesHead c ▸ List.mem_of_mem_head? hd
    exact hdoomed x ((Descent.Below.single (List.mem_append_left _ hmem)).trans_within hx).within
  | .child c kill dontKillParent (some d) abortKill :: rest =>
    obtain ⟨⟨hdoomed, hparent, hd⟩, hrest⟩ := List.forall_mem_cons.mp h.todo
    refine h.of_links hsound (.refl t) (.refl t) (List.forall_mem_cons.mpr
      ⟨⟨hd d rfl, nofun⟩, List.forall_mem_cons.mpr ⟨⟨hdoomed, hparent, ?_⟩, hrest⟩⟩)
    intro e he x hx
    have hmem : e ∈ (t.con c).nodesHead := Queue.mem_of_next he
    exact hdoomed x ((Descent.Below.single (List.mem_append_left _ hmem)).trans_within hx).within
  | .childClosed c kill dontKillParent next abortKill :: rest =>
    obtain ⟨hc, hrest⟩ := List.forall_mem_cons.mp h.todo
    exact h.of_links hsound (.refl t) (.refl t) (List.forall_mem_cons.mpr ⟨hc, hrest⟩)
  | .child c kill dontKillParent none abortKill :: rest =>
    rw [Closing.step] at hsound ⊢
    dsimp only at hsound ⊢
    split
    · next hif =>
      rw [if_pos hif] at hsound
      exact h.of_links hsound (.refl t) (.refl t) (List.forall_mem_cons.mp h.todo).2
    · exact dooming_finish h
  | .free c :: rest =>
    have hkeeps : Keeps D t (t.conFree c) := .conFree t c
    exact ⟨hsound, h.layered.conFree c, fun hs => (h.stacked hs).conFree c, h.keeps.trans hkeeps, fun a ha =>
      ((List.forall_mem_cons.mp h.todo).2 a ha).mono hkeeps.subset⟩
  | .activate n :: rest =>
    obtain ⟨hdead, hrest⟩ := List.forall_mem_cons.mp h.todo
    have hl := (stirs_conActivate cfg t n).links
    refine ⟨hsound, h.layered.links hl, fun hs => (h.stacked hs).links hl, ?_, fun a ha =>
      (hrest a ha).mono fun _ _ hx => hl.mem_children.mp hx⟩
    -- the focus moves only where it was on a closed container
    have hfocus : ¬ ∀ f ∈ t₀.focused, ¬ D f := fun hnot => by
      obtain ⟨f, hf, hD⟩ := hdead
      exact hnot f hf hD
    exact ⟨fun p x hx => h.keeps.subset p (hl.mem_children.mp hx),
      fun p x hx hD => hl.mem_children.mpr (h.keeps.kept p x hx hD),
      fun hnot => absurd hnot hfocus, fun hnot => absurd hnot hfocus⟩
  | .removeChild c :: rest => exact dooming_removeChild hasked hup hstep h
  | .returnTrue :: rest =>
    exact h.of_links hsound (.refl t) (.refl t) (List.forall_mem_cons.mp h.todo).2

theorem Dooming.run {s : Closing} (h : Dooming D Up t₀ s) (n : ℕ) :
    Dooming D Up t₀ (s.run cfg n) := by
  induction n generalizing s with
  | zero => exact h
  | succ n ih => exact ih (h.step hasked hup hstep)

end Step

/-! ### Calls that come to their end -/

theorem run_add (n k : ℕ) (s : Closing) : s.run cfg (n + k) = (s.run cfg n).run cfg k := by
  induction n generalizing s with
  | zero => rw [Nat.zero_add, run]
  | succ n ih => rw [Nat.succ_add, run, run, ih]

theorem run_nil (n : ℕ) (t : Tree) (killed : Bool) : run cfg n ⟨t, [], killed⟩ = ⟨t, [], killed⟩ := by
  induction n with
  | zero => rfl
  | succ n ih => exact ih

end Closing

namespace Tree

variable (cfg : Config) (t : Tree) (c : ConId)

/-- The urgency flag is cleared when the closing begins. -/
def calmDown : Tree := if (t.con c).urgent then t.clearUrgency c else t

/-- The container is detached and freed. -/
def closeOff : Tree := ((t.setWindow c none).closeDetach cfg c true).conFree c

/-- The container to be focused next, where the focus is on the one that is closed. -/
def focusAfter : Option ConId :=
  if t.focused = some c then (t.setWindow c none).nextFocused c else none

/-- `tree_close_internal` from the end of its loop over the children. -/
def closeAlone : Tree :=
  match t.focusAfter c with
  | none => t.closeOff cfg c
  | some n => (t.closeOff cfg c).conActivate cfg n

variable {t c} in
theorem focusAfter_eq_some {n : ConId} :
    t.focusAfter c = some n ↔ t.focused = some c ∧ (t.setWindow c none).nextFocused c = some n := by
  unfold focusAfter
  split
  · next hfocused => exact (and_iff_right hfocused).symm
  · next hfocused => exact ⟨nofun, fun h => absurd h.1 hfocused⟩

end Tree

namespace Closing

variable {cfg : Config}

/-- The call for a container whose children are closed ends within four steps. -/
theorem run_closeAlone (t : Tree) (c : ConId) (rest : List CloseAction) (killed : Bool) :
    ∃ k ≤ 4, run cfg k ⟨t, .child c .dontKillWindow true none false :: rest, killed⟩
      = ⟨t.closeAlone cfg c, rest, true⟩ := by
  have hstep : step cfg ⟨t, .child c .dontKillWindow true none false :: rest, killed⟩
      = finish cfg t c true rest killed := by
    rw [step]
    exact if_neg (by simp)
  have hnext : (if (t.setWindow c none).focused = some c
      then (t.setWindow c none).nextFocused c else none) = t.focusAfter c := rfl
  -- the focus moves on if it was on the container
  cases hn : t.focusAfter c with
  | none =>
    refine ⟨3, by omega, ?_⟩
    rw [run, hstep, finish, hnext, Tree.closeAlone, hn]
    rfl
  | some n =>
    refine ⟨4, le_rfl, ?_⟩
    rw [run, hstep, finish, hnext, Tree.closeAlone, hn]
    rfl

end Closing

namespace Tree

variable {cfg : Config} {t : Tree} {c d m : ConId}

/-- **Closing a container alone** closes only what is below it. -/
theorem keeps_treeCloseInternal (ht : Healthy t) (hc : t.Sits c) (kill : KillWindow) :
    Keeps (Descent.Within t.children c) t (t.treeCloseInternal cfg c kill true)
      ∧ (Stacked t → Stacked (t.treeCloseInternal cfg c kill true))
      ∧ Calm t (t.treeCloseInternal cfg c kill true) := by
  have hstart : Closing.Dooming (Descent.Within t.children c) (fun _ => False) t
      ⟨t, [.close c kill true], true⟩ :=
    ⟨⟨ht.rooted, hc, trivial⟩, ht.layered, id, .refl t,
      List.forall_mem_singleton.mpr ⟨fun _ hx => hx, nofun⟩⟩
  have hrun : Closing.Dooming (Descent.Within t.children c) (fun _ => False) t
      (Closing.run cfg t.closeSteps ⟨t, [.close c kill true], true⟩) :=
    hstart.run (fun _ h => h.elim) (fun _ h => h.elim) (fun _ _ h => h.elim) t.closeSteps
  exact ⟨hrun.keeps, hrun.stacked, calm_treeCloseInternal ht hc.2 kill true⟩

theorem stirs_calmDown (t : Tree) (c : ConId) : Stirs t (t.calmDown c) := by
  rw [calmDown]
  split
  · exact stirs_clearUrgency t c
  · exact .refl t

theorem sameFocus_calmDown (t : Tree) (c : ConId) : SameFocus t (t.calmDown c) := by
  rw [calmDown]
  split
  · exact sameFocus_clearUrgency t c
  · exact .refl t

/-- **Closing a container around an empty one** closes the inner one and then the outer one. -/
theorem treeCloseInternal_pair (hpos : 0 < t.nextCon) (hnodes : (t.con c).nodesHead = [d])
    (hd : (t.con d).nodesHead = []) :
    t.treeCloseInternal cfg c .dontKillWindow true
      = (((t.calmDown c).calmDown d).closeAlone cfg d).closeAlone cfg c := by
  have hs₁ := stirs_calmDown t c
  have hs₂ := hs₁.trans (stirs_calmDown (t.calmDown c) d)
  have hopen : Closing.run cfg 3 ⟨t, [.close c .dontKillWindow true], true⟩
      = ⟨(t.calmDown c).calmDown d, [.child d .dontKillWindow true none false,
          .childClosed c .dontKillWindow true none false], true⟩ := by
    have hnodes₁ : ((t.calmDown c).con c).nodesHead = [d] := (hs₁.nodesHead c).trans hnodes
    have hd₂ : (((t.calmDown c).calmDown d).con d).nodesHead = [] := (hs₂.nodesHead d).trans hd
    have hfirst : (if (t.con c).urgent then t.clearUrgency c else t) = t.calmDown c := rfl
    have hsecond : (if ((t.calmDown c).con d).urgent then (t.calmDown c).clearUrgency d
        else t.calmDown c) = (t.calmDown c).calmDown d := rfl
    simp only [Closing.run, Closing.step, hfirst, hnodes₁, List.head?_cons, Queue.next, if_true,
      hsecond, hd₂, List.head?_nil]
  obtain ⟨k, hk, hrun⟩ := @Closing.run_closeAlone cfg ((t.calmDown c).calmDown d) d
    [.childClosed c .dontKillWindow true none false] true
  obtain ⟨k', hk', hrun'⟩ := @Closing.run_closeAlone cfg
    (((t.calmDown c).calmDown d).closeAlone cfg d) c [] true
  have hsteps : 16 ≤ t.closeSteps := Nat.add_le_add_right (Nat.mul_le_mul_left 8 hpos) 8
  obtain ⟨n, hn⟩ : ∃ n, t.closeSteps = 3 + (k + (1 + (k' + n))) :=
    ⟨t.closeSteps - (4 + k + k'), by omega⟩
  rw [treeCloseInternal, hn, Closing.run_add, hopen, Closing.run_add, hrun, Closing.run_add]
  change (Closing.run cfg (k' + n) ⟨_, [.child c .dontKillWindow true none false], true⟩).tree = _
  rw [Closing.run_add, hrun', Closing.run_nil]

theorem calm_closeOff (ht : Healthy t) (hc : c ≠ t.croot) : Calm t (t.closeOff cfg c) := by
  have hwindow := Calm.of_links ht (links_setWindow t c none)
  have hdetach : Calm t ((t.setWindow c none).closeDetach cfg c true) :=
    (hwindow.trans (calm_conDetach hwindow.healthy c)).trans_links (links_closeDetach c true)
  refine hdetach.trans (calm_conFree hdetach.healthy (fun p hp => ?_) (by rw [hdetach.croot]; exact hc))
  exact hwindow.healthy.rooted.notMem_children_conDetach c p ((links_closeDetach c true).mem_children.mp hp)

theorem notMem_children_closeOff (ht : Healthy t) (p : ConId) : c ∉ (t.closeOff cfg c).children p := by
  rw [closeOff, conFree_children]
  intro hp
  exact (ht.rooted.links (links_setWindow t c none)).notMem_children_conDetach c p
    ((links_closeDetach c true).mem_children.mp hp)

/-- **Closing one container is calm**, and it is in no list afterwards. -/
theorem calm_closeAlone (ht : Healthy t) (hc : c ≠ t.croot) :
    Calm t (t.closeAlone cfg c) ∧ ∀ p, c ∉ (t.closeAlone cfg c).children p := by
  have hoff := @calm_closeOff cfg t c ht hc
  rw [closeAlone]
  split
  · exact ⟨hoff, notMem_children_closeOff ht⟩
  · next n _ =>
    have hl := (stirs_conActivate cfg (t.closeOff cfg c) n).links
    exact ⟨hoff.trans_links hl, fun p hp => notMem_children_closeOff ht p (hl.mem_children.mp hp)⟩

theorem not_reach_of_notMem (hc : c ≠ t.croot) (hnot : ∀ p, c ∉ t.children p) : ¬ t.Reach c := by
  intro hreach
  obtain ⟨p, -, hp⟩ := Descent.below_iff_exists.mp ((Descent.within_iff.mp hreach).resolve_left hc)
  exact hnot p hp

/-- **Closing a container around an empty one** closes both. -/
theorem not_reach_treeCloseInternal (ht : Healthy t) {d : ConId} (hc : t.Sits c)
    (hnodes : (t.con c).nodesHead = [d]) (hd : (t.con d).nodesHead = []) :
    ¬ (t.treeCloseInternal cfg c .dontKillWindow true).Reach c
      ∧ ¬ (t.treeCloseInternal cfg c .dontKillWindow true).Reach d := by
  have hmem : d ∈ t.children c := List.mem_append_left _ (by simp [hnodes])
  have hdsits := ht.rooted.sits_of_mem hc.1 hmem
  have hl := ((stirs_calmDown t c).trans (stirs_calmDown (t.calmDown c) d)).links
  rw [treeCloseInternal_pair (Nat.zero_lt_of_lt ht.rooted.boundedRoot) hnodes hd]
  generalize (t.calmDown c).calmDown d = s at hl ⊢
  obtain ⟨hcalm, hgone⟩ := @calm_closeAlone cfg s d (ht.links hl) (by rw [hl.croot]; exact hdsits.2)
  have hcroot := hcalm.croot.trans hl.croot
  obtain ⟨hcalm', hgone'⟩ := @calm_closeAlone cfg _ c hcalm.healthy (by rw [hcroot]; exact hc.2)
  refine ⟨not_reach_of_notMem (by rw [hcalm'.croot, hcroot]; exact hc.2) hgone', fun hreach => ?_⟩
  -- a container in no list comes back to no list
  have hlt : d < (s.closeAlone cfg d).nextCon :=
    (ht.rooted.lt_nextCon hdsits.1).trans_le (hl.nextCon.ge.trans hcalm.nextCon)
  exact not_reach_of_notMem (by rw [hcroot]; exact hdsits.2) hgone
    (hcalm'.reach hcalm.healthy.rooted hlt hreach)

/-- The container is above `c` but not above `m`. -/
def AboveOnly (t : Tree) (c m d : ConId) : Prop :=
  Descent.Within t.children d c ∧ ¬ Descent.Within t.children d m

/-- **Asking a container whether it is empty** closes only containers above it, and none that is
above a container elsewhere. -/
theorem keeps_onRemoveChild (ht : Healthy t) (hs : Stacked t) (hc : t.Reach c)
    (hm : ¬ Descent.Within t.children m c) :
    Keeps (t.AboveOnly c m) t (t.onRemoveChild cfg c) ∧ Stacked (t.onRemoveChild cfg c)
      ∧ Healthy (t.onRemoveChild cfg c) := by
  have hstart : Closing.Dooming (t.AboveOnly c m) (fun p => Descent.Within t.children p c) t
      ⟨t, [.removeChild c], true⟩ :=
    ⟨⟨ht.rooted, hc, by simp⟩, ht.layered, id, .refl t, List.forall_mem_singleton.mpr (.refl c)⟩
  have hrun : Closing.Dooming (t.AboveOnly c m) (fun p => Descent.Within t.children p c) t
      (Closing.run cfg t.closeSteps ⟨t, [.removeChild c], true⟩) :=
    hstart.run (fun _ _ => hs) ?_ ?_ t.closeSteps
  · exact ⟨hrun.keeps, hrun.stacked hs, (calm_onRemoveChild ht c).healthy⟩
  · -- a container above `m` has a child that is above `m`, or is `m`
    intro p hp hall
    refine ⟨hp, fun hpm => ?_⟩
    rcases Descent.within_iff.mp hpm with rfl | hbelow
    · exact hm hp
    · obtain ⟨x, hx, hxm⟩ := Descent.below_iff_head.mp hbelow
      exact (hall x hx).2 hxm
  · exact fun p q hp hq => ((Descent.Below.single hq).trans_within hp).within

end Tree

end I3
