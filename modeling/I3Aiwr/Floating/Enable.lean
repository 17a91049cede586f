import I3Aiwr.Tree.Flattened
import I3Aiwr.Tree.Tidy

/-!
# Making a container float

`floating_enable` of `src/floating.c` puts a container into a new floating container on its workspace.
Where the container is not focused, the new one takes over its place in the focus order of the
workspace, next to the ancestor that is a child of the workspace. The ancestors that become empty are
closed, so that the place is remembered by a neighbour of that ancestor.

## Main definitions

* `Tree.focusPlace c`: where the new floating container goes in the focus order
* `Tree.floatingEnable`
* `Tree.Floatable ws c`: a container on the workspace that may float and is not focused
* `Tree.Emptied ws c x`: with `c` gone, nothing is left in `x`
* `Tree.KeepsFocusOrder t t' ws c nc`: the focus order is the same but for the new container `nc`

## Main results

* `Tree.keeps_closeEmpty`: what is closed with an empty container
* `Tree.newFloating_healthy`: a new floating container keeps the tree healthy
* `Tree.Rooted.topAncestorN_spec`: the loop finds the ancestor and whether the container is first below it
* `Tree.keepsFocusOrder_floatingEnable`: the leaf, the order and the place after `floating_enable`
-/

namespace I3

/-- What `floating_enable` takes from the configuration; `place t c` is the rectangle that the new
floating container around `c` gets. -/
structure FloatingConfig where
  defaultFloatingBorder : BorderStyle := .normal
  place : Tree → ConId → Rect := fun _ _ => {}

namespace Tree

variable (cfg : Config) (fc : FloatingConfig) (t : Tree)

/-- `con_is_docked`. -/
def isDocked (c : ConId) : Bool := (t.con c).parent.any fun p => (t.con p).type = .dockarea

/-- The loop up to the ancestor that is a child of the workspace. `before` says whether the container is
first in the focus order on every level passed. -/
def topAncestorN : ℕ → ConId → Bool → ConId × Bool
  | 0, ancestor, before => (ancestor, before)
  | n + 1, ancestor, before => match (t.con ancestor).parent with
    | none => (ancestor, before)
    | some p =>
      if (t.con p).type = .workspace then (ancestor, before)
      else topAncestorN n p (before && (t.con p).focusHead.head? = some ancestor)

/-- `focus_before_parent` and `focus_head_placeholder`. -/
def focusPlace (c : ConId) : Bool × Option ConId :=
  if t.focused = some c then (true, none)
  else
    let (ancestor, before) := t.topAncestorN t.nextCon c true
    let siblings := match (t.con ancestor).parent with
      | none => []
      | some ws => (t.con ws).focusHead
    (before, if before then Queue.prev ancestor siblings else Queue.next ancestor siblings)

/-- The focus order of the workspace with `nc` at its place. -/
def insertFocus (nc : ConId) : Bool × Option ConId → List ConId → List ConId
  | (true, some placeholder), l => Queue.insertAfter placeholder nc l
  | (true, none), l => nc :: l
  | (false, some placeholder), l => Queue.insertBefore placeholder nc l
  | (false, none), l => l ++ [nc]

def setType (c : ConId) (type : ConType) : Tree := t.modify c fun d => { d with type }

/-- A new floating container on the workspace. -/
def newFloating (ws : ConId) (place : Bool × Option ConId) : Tree × ConId :=
  let (t, nc) := t.conNew cfg none
  let t := ((t.setParent nc ws).setLayout nc .splith).setType nc .floatingCon
  ((t.editFloating ws (nc :: ·)).editFocus ws (insertFocus nc place), nc)

/-- The old parent is closed, if it is empty. The parent pointer of the container is cleared before. -/
def closeParent (c parent : ConId) : Tree :=
  if ((t.con parent).type = .con ∨ (t.con parent).type = .floatingCon) ∧ t.numChildren parent = 0 then
    (t.modify c fun d => { d with parent := none }).treeCloseInternal cfg parent .dontKillWindow false
  else t

/-- The container goes into the floating one. -/
def putInto (c nc : ConId) (automatic : Bool) : Tree :=
  let t := t.modify nc fun d => { d with rect := fc.place t c }
  let t := (t.editNodes nc (· ++ [c])).editFocus nc (· ++ [c])
  let t := t.modify c fun d => { d with parent := some nc, percent := 1, floating := .userOn }
  if automatic then t.modify c fun d => { d with borderStyle := fc.defaultFloatingBorder } else t

/-- `floating_enable`. -/
def floatingEnable (c : ConId) (automatic : Bool) : Tree × Bool :=
  if t.isDocked c ∨ t.isFloating c ∨ (t.con c).type = .workspace then (t, false)
  else match (t.con c).parent with
    | none => (t, false)
    | some parent =>
      let place := t.focusPlace c
      let s := (t.conDetach c).conFixPercent parent
      match s.getWorkspace c with
      | none => (t, false)
      | some ws =>
        let (s, nc) := s.newFloating cfg ws place
        let s := (s.closeParent cfg c parent).putInto fc c nc automatic
        (if t.focused = some c then s.conActivate cfg c else s, true)

/-! ### A container in no list -/

section Unlisted

variable {cfg fc t} {t' : Tree} {c d p q w x y : ConId} {f : Con → Con}

/-- A change of one container but for its lists. -/
theorem modify_children (t : Tree) (hnodes : (f (t.con c)).nodesHead = (t.con c).nodesHead)
    (hfloating : (f (t.con c)).floatingHead = (t.con c).floatingHead) : (t.modify c f).children = t.children := by
  funext q
  by_cases hq : q = c
  · subst hq
    simp [children, hnodes, hfloating]
  · simp [children, hq]

/-- What a container in no list is like does not matter for the tree. -/
theorem Rooted.modify_unlisted (ht : Rooted t) (hc : ∀ q, c ∉ t.children q) (hroot : c ≠ t.croot)
    (hnodes : (f (t.con c)).nodesHead = (t.con c).nodesHead)
    (hfloating : (f (t.con c)).floatingHead = (t.con c).floatingHead)
    (hfocus : (f (t.con c)).focusHead = (t.con c).focusHead) : Rooted (t.modify c f) := by
  have hchildren := modify_children (f := f) (c := c) t hnodes hfloating
  have hlisted : ∀ {q x}, x ∈ t.children q → (t.modify c f).con x = t.con x := by
    intro q x hx
    apply modify_con_of_ne
    rintro rfl
    exact hc q hx
  have hsame : ∀ (l : Con → List ConId), l (f (t.con c)) = l (t.con c) →
      ∀ q, l ((t.modify c f).con q) = l (t.con q) := by
    intro l hl q
    by_cases hq : q = c
    · rw [hq, modify_con_self, hl]
    · rw [modify_con_of_ne _ _ hq]
  have hrootcon : (t.modify c f).con t.croot = t.con t.croot := modify_con_of_ne _ _ hroot.symm
  have hnodes := hsame Con.nodesHead hnodes
  have hfloating := hsame Con.floatingHead hfloating
  have hfocus := hsame Con.focusHead hfocus
  exact {
    typeRoot := by rw [modify_croot, hrootcon, ht.typeRoot]
    parentRoot := by rw [modify_croot, hrootcon, ht.parentRoot]
    parent := by
      intro q x hx
      rw [hchildren] at hx
      rw [hlisted hx, ht.parent q x hx]
    acyclic := by
      rw [hchildren]
      exact ht.acyclic
    nodupNodes := by
      intro q
      rw [hnodes]
      exact ht.nodupNodes q
    nodupFloating := by
      intro q
      rw [hfloating]
      exact ht.nodupFloating q
    nodupFocus := by
      intro q
      rw [hfocus]
      exact ht.nodupFocus q
    typeNodes := by
      intro q x hx
      rw [hnodes] at hx
      rw [hlisted (List.mem_append_left _ hx)]
      exact ht.typeNodes q x hx
    typeFloating := by
      intro q x hx
      rw [hfloating] at hx
      rw [hlisted (List.mem_append_right _ hx)]
      exact ht.typeFloating q x hx
    focus := by
      intro q x hx
      rw [hfocus] at hx
      rw [hchildren]
      exact ht.focus q x hx
    bounded := by
      intro q x hx
      rw [hchildren] at hx
      exact ht.bounded q x hx
    boundedRoot := ht.boundedRoot
    alive := by
      intro x hx
      rw [Reach, hchildren] at hx
      exact ht.alive x hx }

theorem Layered.modify (hl : Layered t) (hnodes : (f (t.con c)).nodesHead = (t.con c).nodesHead)
    (hfloating : (f (t.con c)).floatingHead = (t.con c).floatingHead)
    (htype : (f (t.con c)).type = .workspace ↔ (t.con c).type = .workspace) : Layered (t.modify c f) := by
  have hsame : ∀ q, ((t.modify c f).con q).type = .workspace ↔ (t.con q).type = .workspace := by
    intro q
    by_cases hq : q = c
    · rw [hq, modify_con_self, htype]
    · rw [modify_con_of_ne _ _ hq]
  refine ⟨fun w hw x hx => ?_, fun q x hx => ?_⟩
  · rw [hsame] at hw
    rw [modify_children t hnodes hfloating] at hx
    exact fun h => hl.workspace w hw x hx ((hsame x).mp h)
  · rw [hsame]
    refine hl.floating q x ?_
    by_cases hq : q = c
    · subst hq
      rwa [modify_con_self, hfloating] at hx
    · rwa [modify_con_of_ne _ _ hq] at hx

theorem Stacked.modify (hs : Stacked t) (hnodes : (f (t.con c)).nodesHead = (t.con c).nodesHead)
    (hfloating : (f (t.con c)).floatingHead = (t.con c).floatingHead)
    (hfocus : (f (t.con c)).focusHead = (t.con c).focusHead) : Stacked (t.modify c f) := by
  intro q x hx
  rw [modify_children t hnodes hfloating] at hx
  by_cases hq : q = c
  · subst hq
    rw [modify_con_self, hfocus]
    exact hs q hx
  · rw [modify_con_of_ne _ _ hq]
    exact hs q hx

/-- **Clearing the parent pointer** of a container in no list. -/
theorem Rooted.clearParent (ht : Rooted t) (hl : Layered t) (hs : Stacked t) (hc : ∀ q, c ∉ t.children q)
    (hroot : c ≠ t.croot) (hv : t' = t.modify c fun d => { d with parent := none }) :
    Rooted t' ∧ Layered t' ∧ Stacked t' ∧ t'.children = t.children
      ∧ ∀ q, (t'.con q).focusHead = (t.con q).focusHead := by
  subst hv
  refine ⟨ht.modify_unlisted hc hroot rfl rfl rfl, hl.modify rfl rfl Iff.rfl, hs.modify rfl rfl rfl,
    modify_children t rfl rfl, fun q => ?_⟩
  by_cases hq : q = c
  · rw [hq, modify_con_self]
  · rw [modify_con_of_ne _ _ hq]

end Unlisted

end Tree

/-! ### Closing without moving the focus -/

namespace Closing

open I3.Tree

variable {cfg : Config} {D Up : ConId → Prop} {t₀ : Tree} {q : ConId}

/-- Where the focus does not move, a step only takes entries out of the focus stacks. -/
theorem sublist_step {s : Closing} (hquiet : ∀ n, .activate n ∉ s.todo) :
    ((s.step cfg).tree.con q).focusHead.Sublist (s.tree.con q).focusHead := by
  obtain ⟨t, todo, killed⟩ := s
  have hsame : ∀ {t' : Tree}, SameFocus t t' → (t'.con q).focusHead.Sublist (t.con q).focusHead := by
    intro t' h
    rw [h.focusHead]
  match todo with
  | [] => exact .refl _
  | .close c kill dontKillParent :: rest => exact hsame (sameFocus_calmDown t c)
  | .child c kill dontKillParent (some d) abortKill :: rest => exact .refl _
  | .childClosed c kill dontKillParent next abortKill :: rest => exact .refl _
  | .child c kill dontKillParent none abortKill :: rest =>
    rw [step]
    dsimp only
    split
    · exact .refl _
    · have hdetach := conDetach_focusHead_sublist (t := t.setWindow c none) c q
      rw [(sameFocus_setWindow t c none).focusHead] at hdetach
      rw [finish]
      dsimp only
      rw [(sameFocus_closeDetach _ c dontKillParent).focusHead]
      exact hdetach
  | .free c :: rest => exact hsame (sameFocus_conFree t c)
  | .activate n :: rest => exact absurd List.mem_cons_self (hquiet n)
  | .removeChild c :: rest =>
    have hurgent : SameFocus t ((t.setUrgent c (t.hasUrgentChild c)).updateParentsUrgency c) :=
      SameFocus.trans (.of_modify t c _ rfl) (sameFocus_updateParentsUrgency _ c)
    change ((removeChild t c rest killed).tree.con q).focusHead.Sublist _
    unfold removeChild
    split
    · exact .refl _
    · split
      · split
        · exact .refl _
        · exact .refl _
      · dsimp only
        split
        · exact hsame hurgent
        · exact hsame hurgent
  | .returnTrue :: rest => exact .refl _

/-- A run that closes no focused container only takes entries out of the focus stacks. -/
theorem Dooming.sublist_run {s : Closing} (h : Dooming D Up t₀ s) (hasked : ∀ p, Up p → Stacked t₀)
    (hup : ∀ p, Up p → (∀ x ∈ t₀.children p, D x) → D p) (hstep : ∀ p q, Up p → p ∈ t₀.children q → Up q)
    (hfocus : ∀ f ∈ t₀.focused, ¬ D f) (n : ℕ) :
    ((s.run cfg n).tree.con q).focusHead.Sublist (s.tree.con q).focusHead := by
  induction n generalizing s with
  | zero => exact .refl _
  | succ n ih =>
    refine (ih (h.step hasked hup hstep)).trans (sublist_step fun n hn => ?_)
    obtain ⟨f, hf, hD⟩ := h.todo _ hn
    exact hfocus f hf hD

end Closing

namespace Tree

variable {cfg : Config} {fc : FloatingConfig} {t : Tree} {a c m p q w ws x y : ConId} {place : Bool × Option ConId}

/-- The way down to `p` and nothing else is below the container. -/
def LeadsOnly (t : Tree) (p x : ConId) : Prop :=
  Descent.Within t.children x p ∧ ∀ y, Descent.Below t.children x y → Descent.Within t.children y p

/-- **Closing an empty container** closes those above it that lead to it only. Where none of them is
focused, the order of the focus stacks stays. -/
theorem keeps_closeEmpty (cfg : Config) (ht : Rooted t) (hl : Layered t) (hs : Stacked t) (hp : t.Sits p)
    (hempty : t.children p = []) :
    Keeps (t.LeadsOnly p) t (t.treeCloseInternal cfg p .dontKillWindow false)
      ∧ Stacked (t.treeCloseInternal cfg p .dontKillWindow false)
      ∧ Rooted (t.treeCloseInternal cfg p .dontKillWindow false)
      ∧ ((∀ f ∈ t.focused, ¬ t.LeadsOnly p f) → ∀ q,
        ((t.treeCloseInternal cfg p .dontKillWindow false).con q).focusHead.Sublist (t.con q).focusHead) := by
  have hnone : ∀ x, ¬ Descent.Below t.children p x := by
    intro x hx
    obtain ⟨y, hy, -⟩ := Descent.below_iff_head.mp hx
    simp [hempty] at hy
  have hself : ∀ x, Descent.Within t.children p x → t.LeadsOnly p x := by
    intro x hx
    rcases Descent.within_iff.mp hx with rfl | hx
    · exact ⟨.refl _, fun y hy => absurd hy (hnone y)⟩
    · exact absurd hx (hnone x)
  have hstart : Closing.Dooming (t.LeadsOnly p) (fun q => Descent.Within t.children q p) t
      ⟨t, [.close p .dontKillWindow false], true⟩ :=
    ⟨⟨ht, hp, under_false.mpr nofun⟩, hl, id, .refl t, List.forall_mem_singleton.mpr
      ⟨hself, fun _ q hq => (Descent.Below.single hq).within⟩⟩
  have hasked : ∀ q, Descent.Within t.children q p → Stacked t := fun _ _ => hs
  -- a container all of whose children lead to `p` only does so as well
  have hup : ∀ q, Descent.Within t.children q p → (∀ x ∈ t.children q, t.LeadsOnly p x) → t.LeadsOnly p q := by
    intro q hq hall
    refine ⟨hq, fun y hy => ?_⟩
    obtain ⟨x, hx, hxy⟩ := Descent.below_iff_head.mp hy
    rcases Descent.within_iff.mp hxy with rfl | hxy
    · exact (hall y hx).1
    · exact (hall x hx).2 y hxy
  have hstep : ∀ q r, Descent.Within t.children q p → q ∈ t.children r → Descent.Within t.children r p :=
    fun q r hq hqr => ((Descent.Below.single hqr).trans_within hq).within
  have hrun : Closing.Dooming (t.LeadsOnly p) (fun q => Descent.Within t.children q p) t
      (Closing.run cfg t.closeSteps ⟨t, [.close p .dontKillWindow false], true⟩) :=
    hstart.run hasked hup hstep t.closeSteps
  exact ⟨hrun.keeps, hrun.stacked hs, hrun.sound.rooted, fun hfocus q =>
    hstart.sublist_run hasked hup hstep hfocus t.closeSteps⟩

/-! ### The new floating container -/

section NewFloating

/-- The new container goes into the floating windows and the focus order of the workspace. -/
theorem newFloating_snd (t : Tree) : (t.newFloating cfg ws place).2 = t.nextCon := rfl

theorem newFloating_focused (t : Tree) : (t.newFloating cfg ws place).1.focused = t.focused := rfl

theorem newFloating_croot (t : Tree) : (t.newFloating cfg ws place).1.croot = t.croot := rfl

theorem newFloating_focusHead (hws : ws ≠ t.nextCon) (q : ConId) :
    ((t.newFloating cfg ws place).1.con q).focusHead
      = if q = ws then insertFocus t.nextCon place (t.con ws).focusHead
        else if q = t.nextCon then [] else (t.con q).focusHead := by
  by_cases hq : q = ws
  · subst hq
    simp [newFloating, conNew, setType, setLayout, setParent, editFloating, editFocus, hws]
  · by_cases hnew : q = t.nextCon
    · subst hnew
      simp [newFloating, conNew, setType, setLayout, setParent, editFloating, editFocus, hq]
    · simp [newFloating, conNew, setType, setLayout, setParent, editFloating, editFocus, hq, hnew]

/-- The tree with the new container in no list yet. -/
def withFloating (cfg : Config) (t : Tree) (ws : ConId) : Tree :=
  (((t.conNew cfg none).1.setParent t.nextCon ws).setLayout t.nextCon .splith).setType t.nextCon .floatingCon

theorem withFloating_con (t : Tree) (hq : q ≠ t.nextCon) : (t.withFloating cfg ws).con q = t.con q := by
  simp [withFloating, setType, setLayout, setParent, conNew, hq]

theorem withFloating_children (t : Tree) (q : ConId) :
    (t.withFloating cfg ws).children q = if q = t.nextCon then [] else t.children q := by
  by_cases hq : q = t.nextCon
  · subst hq
    simp [children, withFloating, setType, setLayout, setParent, conNew]
  · rw [if_neg hq, children, withFloating_con t hq, children]

variable (ht : Rooted t)
include ht

theorem withFloating_unlisted (q : ConId) : t.nextCon ∉ (t.withFloating cfg ws).children q := by
  rw [withFloating_children]
  split
  · exact List.not_mem_nil
  · exact ht.notMem_children_nextCon q

theorem rooted_withFloating : Rooted (t.withFloating cfg ws) := by
  have hcreates : Creates t (((t.conNew cfg none).1.setParent t.nextCon ws).setLayout t.nextCon .splith) t.nextCon :=
    creates_conNew t none ws .splith
  have hroot := ht.creates hcreates ht.notMem_children_nextCon ht.boundedRoot.ne'
  refine hroot.modify_unlisted (c := t.nextCon) (f := fun d => { d with type := .floatingCon })
    (fun q hq => ?_) ?_ rfl rfl rfl
  · exact ht.notMem_children_nextCon q (hcreates.children_subset q hq)
  · rw [hcreates.croot]
    exact ht.boundedRoot.ne'

theorem layered_withFloating (hl : Layered t) : Layered (t.withFloating cfg ws) := by
  have hcreates : Creates t (((t.conNew cfg none).1.setParent t.nextCon ws).setLayout t.nextCon .splith) t.nextCon :=
    creates_conNew t none ws .splith
  refine (hl.creates ht hcreates).modify (c := t.nextCon) (f := fun d => { d with type := .floatingCon })
    rfl rfl ⟨nofun, fun h => ?_⟩
  rw [hcreates.new.1] at h
  cases h

omit ht in
theorem stacked_withFloating (hs : Stacked t) : Stacked (t.withFloating cfg ws) := by
  have hcreates : Creates t (((t.conNew cfg none).1.setParent t.nextCon ws).setLayout t.nextCon .splith) t.nextCon :=
    creates_conNew t none ws .splith
  exact (hs.creates hcreates).modify (c := t.nextCon) (f := fun d => { d with type := .floatingCon }) rfl rfl rfl

section Attach

variable (hws : (t.con ws).type = .workspace) (hreach : t.Reach ws)
  (hplace : (insertFocus t.nextCon place (t.con ws).focusHead).Perm (t.nextCon :: (t.con ws).focusHead))
include hreach hplace

theorem attaches_newFloating :
    Attaches (t.withFloating cfg ws) (t.newFloating cfg ws place).1 t.nextCon ws := by
  have hne : ws ≠ t.nextCon := (ht.lt_nextCon hreach).ne
  have htype : ((t.withFloating cfg ws).con t.nextCon).type = .floatingCon := by simp [withFloating, setType]
  have heq : (t.newFloating cfg ws place).1
      = ((t.withFloating cfg ws).editFloating ws (t.nextCon :: ·)).editFocus ws (insertFocus t.nextCon place) := rfl
  rw [heq]
  refine ⟨rfl, rfl, rfl, fun d => by simp, fun d => by simp, fun d => by simp, fun d => ?_, fun q => ?_,
    fun q => ?_, fun q => ?_⟩
  · by_cases hd : d = t.nextCon
    · subst hd
      simp [withFloating, setType, setLayout, setParent]
    · simp [hd]
  · simp [htype]
  · by_cases hq : q = ws
    · subst hq
      simp [htype]
    · simp [hq]
  · by_cases hq : q = ws
    · subst hq
      simpa [withFloating_con t hne] using hplace
    · simp [hq]

include hws

/-- **The tree with a new floating container** is healthy. -/
theorem newFloating_healthy (hl : Layered t) (hs : Stacked t) :
    Rooted (t.newFloating cfg ws place).1 ∧ Layered (t.newFloating cfg ws place).1
      ∧ Stacked (t.newFloating cfg ws place).1 := by
  have hne : ws ≠ t.nextCon := (ht.lt_nextCon hreach).ne
  have hattaches : Attaches (t.withFloating cfg ws) (t.newFloating cfg ws place).1 t.nextCon ws :=
    attaches_newFloating ht hreach hplace
  have hunlisted : ∀ q, t.nextCon ∉ (t.withFloating cfg ws).children q := withFloating_unlisted ht
  -- nothing is below the new container
  have hself : ∀ x, Descent.Within (t.withFloating cfg ws).children t.nextCon x → x = t.nextCon := by
    intro x hx
    rcases Descent.within_iff.mp hx with rfl | hx
    · rfl
    · obtain ⟨y, hy, -⟩ := Descent.below_iff_head.mp hx
      rw [withFloating_children, if_pos rfl] at hy
      cases hy
  have hnot : ¬ Descent.Within (t.withFloating cfg ws).children t.nextCon ws := fun h => hne (hself ws h)
  refine ⟨?_, ?_, (stacked_withFloating hs).attaches hattaches⟩
  · refine (rooted_withFloating ht).attaches hattaches hunlisted hnot (fun x hx => ?_) ?_ ht.boundedRoot.ne'
    · obtain rfl := hself x hx
      exact List.mem_append_right _ List.mem_cons_self
    · exact Nat.lt_succ_self t.nextCon
  · refine (layered_withFloating ht hl).attaches hattaches hnot (fun w _ _ x hx => ?_) fun _ => ?_
    · obtain rfl := hself x hx
      simp [withFloating, setType]
    · rw [withFloating_con t hne]
      exact hws

omit hws in
theorem mem_children_newFloating (hq : q ≠ t.nextCon) :
    x ∈ (t.newFloating cfg ws place).1.children q ↔ x ∈ t.children q ∨ q = ws ∧ x = t.nextCon := by
  have hattaches : Attaches (t.withFloating cfg ws) (t.newFloating cfg ws place).1 t.nextCon ws :=
    attaches_newFloating ht hreach hplace
  rw [hattaches.mem_children, withFloating_children, if_neg hq]

end Attach

end NewFloating

/-! ### The place in the focus order -/

section Place

variable {l r s : List ConId} {nc : ConId}

/-- Before the ancestor: right behind the one that was ahead of it, whether the ancestor is still there
or not. -/
theorem insertFocus_before (hnodup : (l ++ a :: r).Nodup) :
    insertFocus nc (true, Queue.prev a (l ++ a :: r)) (l ++ s) = l ++ nc :: s := by
  have ha : a ∉ r := (List.nodup_cons.mp (List.nodup_append.mp hnodup).2.1).1
  rw [Queue.prev_append_self ha]
  rcases List.eq_nil_or_concat' l with rfl | ⟨l', y, rfl⟩
  · rfl
  · have hy : y ∉ l' := by
      have hl' := (List.nodup_append.mp hnodup).1
      rw [List.nodup_append] at hl'
      exact fun h => hl'.2.2 y h y List.mem_cons_self rfl
    rw [List.getLast?_concat, insertFocus, List.append_assoc, List.singleton_append,
      Queue.insertAfter_append_self hy]
    simp

/-- After the ancestor, which is still there. -/
theorem insertFocus_after (hnodup : (l ++ a :: r).Nodup) :
    insertFocus nc (false, Queue.next a (l ++ a :: r)) (l ++ a :: r) = l ++ a :: nc :: r := by
  obtain ⟨-, har, hdisj⟩ := List.nodup_append.mp hnodup
  have ha : a ∉ l := fun h => hdisj a h a List.mem_cons_self rfl
  rw [Queue.next_append_self ha]
  cases r with
  | nil => simp [insertFocus]
  | cons z r =>
    have hz : z ∉ l ++ [a] := by
      intro h
      rcases List.mem_append.mp h with h | h
      · exact hdisj z h z (by simp) rfl
      · obtain rfl := List.mem_singleton.mp h
        exact (List.nodup_cons.mp har).1 List.mem_cons_self
    have hsplit : l ++ a :: z :: r = (l ++ [a]) ++ z :: r := by simp
    rw [List.head?_cons, insertFocus, hsplit, Queue.insertBefore_append_self hz]
    simp

/-- A part of a list that has all elements but one. -/
theorem eq_of_sublist (h : s.Sublist l) (hnodup : l.Nodup) (hall : ∀ x ∈ l, x ≠ a → x ∈ s) :
    s = if a ∈ s then l else l.erase a := by
  split
  · next ha =>
    have hsub : l ⊆ s := by
      intro x hx
      by_cases hxa : x = a
      · rwa [hxa]
      · exact hall x hx hxa
    exact h.eq_of_length_le (List.subperm_of_subset hnodup hsub).length_le
  · next ha =>
    have herase : s.Sublist (l.erase a) := by
      rw [← List.erase_of_not_mem ha]
      exact h.erase a
    have hsub : l.erase a ⊆ s := by
      intro x hx
      obtain ⟨hxa, hx⟩ := hnodup.mem_erase_iff.mp hx
      exact hall x hx hxa
    exact herase.eq_of_length_le (List.subperm_of_subset (hnodup.erase a) hsub).length_le

/-- The first entry stays the first, if it stays at all. -/
theorem mem_heads_of_sublist {t' : Tree} {q x : ConId} (h : ((t'.con q).focusHead).Sublist (t.con q).focusHead)
    (hnodup : (t.con q).focusHead.Nodup) (hx : x ∈ t.heads q) (hmem : x ∈ (t'.con q).focusHead) : x ∈ t'.heads q := by
  obtain ⟨l, hl⟩ := List.head?_eq_some_iff.mp (mem_heads.mp hx)
  rw [hl] at h hnodup
  rw [mem_heads]
  generalize (t'.con q).focusHead = l' at h hmem
  cases h with
  | cons _ h => exact absurd (h.subset hmem) (List.nodup_cons.mp hnodup).1
  | cons_cons _ h => exact List.head?_cons

end Place

section Loop

variable (ht : Rooted t)
include ht

/-- **The loop up to the workspace** finds the ancestor, and whether the container is first below it. -/
theorem Rooted.topAncestorN_spec (hl : Layered t) (hws : (t.con ws).type = .workspace) (n : ℕ) {before : Bool}
    (hx : Descent.Below t.children ws x) (hn : ws ∈ t.chainN n x) :
    ∃ a, a ∈ t.children ws ∧ Descent.Within t.children a x ∧ (t.topAncestorN n x before).1 = a
      ∧ ((t.topAncestorN n x before).2 = true ↔ before = true ∧ t.Foremost a x) := by
  induction n generalizing x before with
  | zero => cases hn
  | succ n ih =>
    obtain ⟨p, hp, hmem⟩ := Descent.below_iff_exists.mp hx
    have hparent := ht.parent p x hmem
    rw [chainN, hparent] at hn
    rw [topAncestorN, hparent]
    dsimp only
    split
    · next htype =>
      -- the parent is the workspace
      obtain rfl : ws = p := by
        rcases Descent.within_iff.mp hp with rfl | hbelow
        · rfl
        · exact absurd htype (hl.workspace ws hws p hbelow)
      exact ⟨x, hmem, .refl x, rfl, (and_iff_left (.refl x)).symm⟩
    · next htype =>
      have hbelow : Descent.Below t.children ws p := by
        refine (Descent.within_iff.mp hp).resolve_left ?_
        rintro rfl
        exact htype hws
      have hn' : ws ∈ t.chainN n p := (List.mem_cons.mp hn).resolve_left (ht.acyclic.ne hx).symm
      obtain ⟨a, ha, hap, heq, hbefore⟩ := @ih p (before && decide ((t.con p).focusHead.head? = some x)) hbelow hn'
      refine ⟨a, ha, (hap.tail hmem).within, heq, ?_⟩
      rw [hbefore, Bool.and_eq_true, decide_eq_true_iff, and_assoc]
      refine and_congr_right fun _ => ?_
      constructor
      · rintro ⟨hhead, hfore⟩
        exact (Descent.Within.tail hfore (mem_heads.mpr hhead)).within
      · intro hfore
        -- the way down through the first entries leads through the parent
        rcases Relation.ReflTransGen.cases_tail hfore with heq | ⟨q, hq, hqx⟩
        · exact absurd (heq ▸ hap) (ht.acyclic.not_within (.single hmem))
        · have hqp := (ht.parent q x (ht.heads_subset q hqx)).symm.trans hparent
          obtain rfl := Option.some_inj.mp hqp
          exact ⟨mem_heads.mp hqx, hq⟩

/-- Nothing of the tree is below a container that is not made yet. -/
theorem Rooted.not_within_nextCon (hx : t.Reach x) : ¬ Descent.Within t.children t.nextCon x := by
  intro h
  have hreach : t.Reach t.nextCon := ht.reach_of_within hx h
  exact lt_irrefl _ (ht.lt_nextCon hreach)

end Loop

/-- A container on the workspace that is to float and not focused. -/
structure Floatable (t : Tree) (ws c : ConId) : Prop where
  rooted : Rooted t
  layered : Layered t
  stacked : Stacked t
  housed : Housed t
  reach : t.Reach ws
  workspace : (t.con ws).type = .workspace
  below : Descent.Below t.children ws c
  type : (t.con c).type ≠ .floatingCon
  floating : t.isFloating c = false
  focused : t.focused ≠ some c

/-- Below the workspace, with `c` gone, there is nothing left in the container. -/
def Emptied (t : Tree) (ws c x : ConId) : Prop :=
  Descent.Below t.children ws x ∧ Descent.Below t.children x c
    ∧ ∀ y, Descent.Below t.children x y → Descent.Within t.children y c ∨ Descent.Within t.children c y

/-- The tree without the container. -/
def takenOut (t : Tree) (c p : ConId) : Tree := (t.conDetach c).conFixPercent p

theorem takenOut_nextCon : (t.takenOut c p).nextCon = t.nextCon := by
  rw [takenOut, (links_conFixPercent _ p).nextCon, conDetach_nextCon]

theorem takenOut_type (x : ConId) : ((t.takenOut c p).con x).type = (t.con x).type := by
  rw [takenOut, (links_conFixPercent _ p).type, conDetach_type]

theorem takenOut_croot : (t.takenOut c p).croot = t.croot := by
  rw [takenOut, (links_conFixPercent _ p).croot, conDetach_croot]

theorem takenOut_focused : (t.takenOut c p).focused = t.focused := by
  rw [takenOut, (sameFocus_conFixPercent _ p).focused, conDetach_focused]

namespace Floatable

variable (h : Floatable t ws c)
include h

theorem reach_con : t.Reach c := h.reach.trans h.below.within

theorem inWorkspace : t.InWorkspace c := ⟨ws, h.reach, h.workspace, h.below⟩

theorem ne_croot : c ≠ t.croot := by
  obtain ⟨q, -, hq⟩ := Descent.below_iff_exists.mp h.below
  exact h.rooted.ne_croot_of_mem hq

theorem within_parent (hp : c ∈ t.children p) : Descent.Within t.children ws p :=
  Descent.within_parent h.rooted.parent h.below (h.rooted.parent p c hp)

theorem reach_parent (hp : c ∈ t.children p) : t.Reach p := h.reach.trans (h.within_parent hp)

theorem mem_children_takenOut : x ∈ (t.takenOut c p).children q ↔ x ∈ t.children q ∧ x ≠ c := by
  rw [takenOut, (links_conFixPercent _ p).mem_children, h.rooted.mem_children_conDetach]

theorem takenOut_focusHead (q : ConId) : ((t.takenOut c p).con q).focusHead = (t.con q).focusHead.erase c := by
  rw [takenOut, (sameFocus_conFixPercent _ p).focusHead, conDetach_con]
  split
  · rfl
  · next hparent =>
    refine (List.erase_of_not_mem fun hmem => hparent ?_).symm
    exact h.rooted.parent q c (h.rooted.focus q c hmem)

theorem rooted_takenOut : Rooted (t.takenOut c p) := (h.rooted.conDetach c).links (links_conFixPercent _ p)

theorem layered_takenOut : Layered (t.takenOut c p) := (h.layered.conDetach c).links (links_conFixPercent _ p)

theorem stacked_takenOut : Stacked (t.takenOut c p) :=
  (h.stacked.conDetach h.rooted c).links (links_conFixPercent _ p)

theorem reach_takenOut (hx : t.Reach x) (hnot : ¬ Descent.Within t.children c x) : (t.takenOut c p).Reach x :=
  (links_conFixPercent _ p).reach.mpr (h.rooted.reach_conDetach c hx hnot)

/-- The parent pointers still lead from the container to its workspace. -/
theorem getWorkspace_takenOut : (t.takenOut c p).getWorkspace c = some ws := by
  have hchain : ∀ n x, (t.takenOut c p).chainN n x = t.chainN n x := by
    intro n
    induction n with
    | zero => exact fun _ => rfl
    | succ n ih =>
      intro x
      have hparent : ((t.takenOut c p).con x).parent = (t.con x).parent := by
        rw [takenOut, (links_conFixPercent _ p).parent, conDetach_parent]
      rw [chainN, chainN, hparent]
      simp only [ih]
  have heq : (t.takenOut c p).getWorkspace c = t.getWorkspace c := by
    rw [getWorkspace, getWorkspace, chain, chain, takenOut_nextCon, hchain]
    simp only [takenOut_type]
  rw [heq, h.rooted.getWorkspace_eq h.layered h.reach_con h.workspace h.below.within]

/-- Only the ancestor that is a child of the workspace can be `c` itself. -/
theorem notMem_focusHead (ha : a ∈ t.children ws) (hac : Descent.Within t.children a c) (hne : a ≠ c) :
    c ∉ (t.con ws).focusHead := by
  intro hc
  have hmem : c ∈ t.children ws := h.rooted.focus ws c hc
  exact hne (h.rooted.acyclic.eq_of_within h.rooted.parent ha hmem hac (.refl c))

/-- Taking `c` out leaves what is ahead of the ancestor as it is. -/
theorem erase_focusHead (ha : a ∈ t.children ws) (hac : Descent.Within t.children a c) {l r : List ConId}
    (hsplit : (t.con ws).focusHead = l ++ a :: r) : (t.con ws).focusHead.erase c = l ++ (a :: r).erase c := by
  rw [hsplit]
  refine List.erase_append_right _ fun hc => ?_
  have hnodup : (l ++ a :: r).Nodup := hsplit ▸ h.rooted.nodupFocus ws
  have hne : c ≠ a := (List.nodup_append.mp hnodup).2.2 c hc a List.mem_cons_self
  exact h.notMem_focusHead ha hac hne.symm (hsplit ▸ List.mem_append_left _ hc)

/-- **The place of the new container** in the focus order of the workspace. -/
theorem exists_place : ∃ a l r, a ∈ t.children ws ∧ Descent.Within t.children a c
    ∧ (t.con ws).focusHead = l ++ a :: r
    ∧ (t.Foremost a c → insertFocus t.nextCon (t.focusPlace c) ((t.con ws).focusHead.erase c)
        = l ++ t.nextCon :: (a :: r).erase c)
    ∧ (¬ t.Foremost a c → insertFocus t.nextCon (t.focusPlace c) ((t.con ws).focusHead.erase c)
        = l ++ a :: t.nextCon :: r) := by
  have ht := h.rooted
  have hchain : ws ∈ t.chainN t.nextCon c := (ht.mem_chain h.reach_con).mpr h.below.within
  obtain ⟨a, ha, hac, heq, hbefore⟩ := @Rooted.topAncestorN_spec t ws c ht h.layered h.workspace _ true h.below hchain
  obtain ⟨l, r, hsplit⟩ := List.append_of_mem (h.stacked ws ha)
  have hnodup : (l ++ a :: r).Nodup := hsplit ▸ ht.nodupFocus ws
  have hplace : t.focusPlace c = ((t.topAncestorN t.nextCon c true).2,
      if (t.topAncestorN t.nextCon c true).2 then Queue.prev a (l ++ a :: r) else Queue.next a (l ++ a :: r)) := by
    rw [focusPlace, if_neg h.focused]
    dsimp only
    rw [heq, ht.parent ws a ha]
    dsimp only
    rw [hsplit]
  refine ⟨a, l, r, ha, hac, hsplit, fun hfore => ?_, fun hfore => ?_⟩
  · have hb : (t.topAncestorN t.nextCon c true).2 = true := hbefore.mpr ⟨rfl, hfore⟩
    rw [hplace, hb, if_pos rfl, h.erase_focusHead ha hac hsplit]
    exact insertFocus_before hnodup
  · have hb : (t.topAncestorN t.nextCon c true).2 = false := by
      by_contra hne
      exact hfore (hbefore.mp (by simpa using hne)).2
    have hne : a ≠ c := by
      rintro rfl
      exact hfore (.refl a)
    rw [hplace, hb, if_neg Bool.false_ne_true, List.erase_of_not_mem (h.notMem_focusHead ha hac hne), hsplit]
    exact insertFocus_after hnodup

/-- The place is one in the focus order. -/
theorem insertFocus_perm : (insertFocus t.nextCon (t.focusPlace c) ((t.con ws).focusHead.erase c)).Perm
    (t.nextCon :: (t.con ws).focusHead.erase c) := by
  obtain ⟨a, l, r, ha, hac, hsplit, hbefore, hafter⟩ := h.exists_place
  have hnodup : (l ++ a :: r).Nodup := hsplit ▸ h.rooted.nodupFocus ws
  by_cases hfore : t.Foremost a c
  · rw [hbefore hfore, h.erase_focusHead ha hac hsplit]
    exact List.perm_middle
  · have hne : a ≠ c := by
      rintro rfl
      exact hfore (.refl a)
    rw [hafter hfore, List.erase_of_not_mem (h.notMem_focusHead ha hac hne), hsplit]
    have hsides : l ++ a :: t.nextCon :: r = (l ++ [a]) ++ t.nextCon :: r := by simp
    have hback : l ++ a :: r = (l ++ [a]) ++ r := by simp
    rw [hsides, hback]
    exact List.perm_middle

end Floatable

/-- The tree with the container taken out and the new floating container in it. -/
def floated (cfg : Config) (t : Tree) (ws c p : ConId) : Tree :=
  ((t.takenOut c p).newFloating cfg ws (t.focusPlace c)).1

theorem floated_croot : (t.floated cfg ws c p).croot = t.croot := by
  rw [floated, newFloating_croot, takenOut_croot]

theorem floated_focused : (t.floated cfg ws c p).focused = t.focused := by
  rw [floated, newFloating_focused, takenOut_focused]

namespace Floatable

variable (h : Floatable t ws c)
include h

theorem not_within_ws : ¬ Descent.Within t.children c ws := h.rooted.acyclic.not_within h.below

theorem reach_ws_takenOut : (t.takenOut c p).Reach ws := h.reach_takenOut h.reach h.not_within_ws

theorem ws_ne : ws ≠ t.nextCon := (h.rooted.lt_nextCon h.reach).ne

theorem insertFocus_takenOut : (insertFocus (t.takenOut c p).nextCon (t.focusPlace c)
      ((t.takenOut c p).con ws).focusHead).Perm
    ((t.takenOut c p).nextCon :: ((t.takenOut c p).con ws).focusHead) := by
  rw [takenOut_nextCon, h.takenOut_focusHead]
  exact h.insertFocus_perm

theorem healthy_floated (cfg : Config) (p : ConId) :
    Rooted (t.floated cfg ws c p) ∧ Layered (t.floated cfg ws c p) ∧ Stacked (t.floated cfg ws c p) :=
  newFloating_healthy h.rooted_takenOut ((takenOut_type ws).trans h.workspace) h.reach_ws_takenOut
    h.insertFocus_takenOut h.layered_takenOut h.stacked_takenOut

theorem mem_children_floated (hq : q ≠ t.nextCon) :
    x ∈ (t.floated cfg ws c p).children q ↔ x ∈ t.children q ∧ x ≠ c ∨ q = ws ∧ x = t.nextCon := by
  rw [floated, mem_children_newFloating h.rooted_takenOut h.reach_ws_takenOut h.insertFocus_takenOut
    (takenOut_nextCon.symm ▸ hq), h.mem_children_takenOut, takenOut_nextCon]

/-- The new container is empty. -/
theorem children_floated_nextCon : (t.floated cfg ws c p).children t.nextCon = [] := by
  have hattaches : Attaches ((t.takenOut c p).withFloating cfg ws) (t.floated cfg ws c p)
      (t.takenOut c p).nextCon ws :=
    attaches_newFloating h.rooted_takenOut h.reach_ws_takenOut h.insertFocus_takenOut
  refine List.eq_nil_iff_forall_not_mem.mpr fun x hx => ?_
  rcases hattaches.mem_children.mp hx with hx | ⟨heq, -⟩
  · rw [withFloating_children, takenOut_nextCon, if_pos rfl] at hx
    cases hx
  · exact h.ws_ne heq.symm

theorem floated_focusHead (q : ConId) : ((t.floated cfg ws c p).con q).focusHead
      = if q = ws then insertFocus t.nextCon (t.focusPlace c) ((t.con ws).focusHead.erase c)
        else if q = t.nextCon then [] else (t.con q).focusHead.erase c := by
  have hne : ws ≠ (t.takenOut c p).nextCon := takenOut_nextCon.symm ▸ h.ws_ne
  rw [floated, newFloating_focusHead hne, takenOut_nextCon, h.takenOut_focusHead, h.takenOut_focusHead]

/-- What is not below the container is reached without it. -/
theorem within_floated (hq : t.Reach q) (hx : Descent.Within t.children q x)
    (hnot : ¬ Descent.Within t.children c x) : Descent.Within (t.floated cfg ws c p).children q x := by
  refine hx.transfer fun y z hy hz hzx => ?_
  have hne : y ≠ t.nextCon := (h.rooted.lt_nextCon (hq.trans hy)).ne
  refine (h.mem_children_floated hne).mpr (.inl ⟨hz, ?_⟩)
  rintro rfl
  exact hnot hzx

/-- What is below what then: nothing new but the new container. -/
theorem within_of_floated (hx : t.Reach x) (hqx : Descent.Within (t.floated cfg ws c p).children q x) :
    Descent.Within t.children q x := by
  have hinserts : Descent.Inserts t.children (t.floated cfg ws c p).children ws t.nextCon := by
    intro y z hz
    by_cases hy : y = t.nextCon
    · rw [hy, h.children_floated_nextCon] at hz
      cases hz
    · exact ((h.mem_children_floated hy).mp hz).imp_left And.left
  have hnot : ¬ Descent.Within t.children t.nextCon ws := h.rooted.not_within_nextCon h.reach
  rcases Descent.within_of_insert hinserts hnot hqx with hqx | ⟨-, hnew⟩
  · exact hqx
  · exact absurd hnew (h.rooted.not_within_nextCon hx)

/-- **What leads to the old parent only** then had nothing but the container below it. -/
theorem emptied_of_leadsOnly (hp : c ∈ t.children p) (hx : (t.floated cfg ws c p).LeadsOnly p x) :
    t.Emptied ws c x := by
  have ht := h.rooted
  obtain ⟨hxp, hall⟩ := hx
  have hreach : t.Reach p := h.reach_parent hp
  have hxp : Descent.Within t.children x p := h.within_of_floated hreach hxp
  have hxc : Descent.Below t.children x c := hxp.tail hp
  have hx : t.Reach x := ht.reach_of_within hreach hxp
  -- the workspace still leads to the new container
  have hnot : ¬ Descent.Within t.children x ws := by
    intro hxws
    have hnew : t.nextCon ∈ (t.floated cfg ws c p).children ws := (h.mem_children_floated h.ws_ne).mpr (.inr ⟨rfl, rfl⟩)
    have hup := hall t.nextCon ((h.within_floated hx hxws h.not_within_ws).tail hnew)
    exact ht.not_within_nextCon hreach (h.within_of_floated hreach hup)
  refine ⟨?_, hxc, fun y hy => ?_⟩
  · rcases Descent.within_total ht.parent (h.within_parent hp) hxp with hwsx | hxws
    · refine (Descent.within_iff.mp hwsx).resolve_left ?_
      rintro rfl
      exact hnot (.refl _)
    · exact absurd hxws hnot
  · by_cases hcy : Descent.Within t.children c y
    · exact .inr hcy
    · left
      have hbelow : Descent.Below (t.floated cfg ws c p).children x y :=
        (Descent.within_iff.mp (h.within_floated hx hy.within hcy)).resolve_left (ht.acyclic.ne hy)
      exact ((h.within_of_floated hreach (hall y hbelow)).tail hp).within

/-- The container is not listed while it is out of the tree. -/
theorem notMem_children_floated (q : ConId) : c ∉ (t.floated cfg ws c p).children q := by
  intro hc
  by_cases hq : q = t.nextCon
  · rw [hq, h.children_floated_nextCon] at hc
    cases hc
  · rcases (h.mem_children_floated hq).mp hc with ⟨-, hne⟩ | ⟨-, heq⟩
    · exact hne rfl
    · exact (h.rooted.lt_nextCon h.reach_con).ne heq

/-- **Closing the empty parent** takes the emptied containers out of the focus stacks and nothing else. -/
theorem closeParent_focusHead (cfg : Config) (hp : c ∈ t.children p)
    (hkeep : ∀ f ∈ t.focused, ¬ t.Emptied ws c f) (q : ConId) :
    ((((t.floated cfg ws c p).closeParent cfg c p).con q).focusHead.Sublist
        ((t.floated cfg ws c p).con q).focusHead)
      ∧ ∀ x ∈ ((t.floated cfg ws c p).con q).focusHead, ¬ t.Emptied ws c x →
        x ∈ (((t.floated cfg ws c p).closeParent cfg c p).con q).focusHead := by
  obtain ⟨ht, hl, hs⟩ := h.healthy_floated cfg p
  rw [closeParent]
  split
  swap
  · exact ⟨.refl _, fun x hx _ => hx⟩
  next hclose =>
  obtain ⟨htype, hnum⟩ := hclose
  -- the parent pointer of the container is cleared, which is no change of the tree
  obtain ⟨v, hv⟩ : ∃ v, v = (t.floated cfg ws c p).modify c fun d => { d with parent := none } := ⟨_, rfl⟩
  obtain ⟨htv, hlv, hsv, hchildren, hfocus⟩ := ht.clearParent hl hs h.notMem_children_floated
    (floated_croot.symm ▸ h.ne_croot) hv
  have hfocused : v.focused = t.focused := by
    rw [hv, modify_focused, floated_focused]
  have hcroot : v.croot = (t.floated cfg ws c p).croot := hv ▸ rfl
  have hsits : v.Sits p := by
    refine ⟨?_, fun heq => ?_⟩
    · have hnot : ¬ Descent.Within t.children c p := h.rooted.acyclic.not_within (.single hp)
      rw [Reach, hchildren, hcroot, floated_croot]
      exact h.within_floated (.refl _) (h.reach_parent hp) hnot
    · have hroot := ht.typeRoot
      rw [← hcroot, ← heq] at hroot
      rw [hroot] at htype
      rcases htype with htype | htype <;> cases htype
  have hempty : v.children p = [] := by
    have hnodes : ((t.floated cfg ws c p).con p).nodesHead = [] := List.length_eq_zero_iff.mp hnum
    have hws : ((t.floated cfg ws c p).con p).type ≠ .workspace := by
      rcases htype with htype | htype
      · simp [htype]
      · simp [htype]
    rw [hchildren, hl.children_eq hws, hnodes]
  have honly : ∀ x, v.LeadsOnly p x → t.Emptied ws c x := by
    intro x hx
    rw [LeadsOnly, hchildren] at hx
    exact h.emptied_of_leadsOnly hp hx
  obtain ⟨hkeeps, hstacked, -, hsub⟩ := keeps_closeEmpty cfg htv hlv hsv hsits hempty
  rw [← hv]
  refine ⟨?_, fun x hx hnot => ?_⟩
  · rw [← hfocus]
    exact hsub (fun f hf hfp => hkeep f (hfocused ▸ hf) (honly f hfp)) q
  · refine hstacked q (hkeeps.kept q x ?_ fun hx => hnot (honly x hx))
    rw [hchildren]
    exact ht.focus q x hx

/-- Nothing but the way down to the container is below an emptied one, so it is first on every level. -/
theorem foremost_of_emptied (hx : t.Emptied ws c x) : t.Foremost x c := by
  have ht := h.rooted
  obtain ⟨-, hxc, hall⟩ := hx
  revert hall
  refine Relation.ReflTransGen.head_induction_on hxc.within (fun _ => .refl c) fun {x y} hy hyc ih hall => ?_
  -- all children are above or below the container, and those below it have another parent
  have honly : ∀ z ∈ t.children x, z = y := by
    intro z hz
    rcases hall z (.single hz) with hzc | hcz
    · exact ht.acyclic.eq_of_within ht.parent hz hy hzc hyc
    · rcases Descent.within_iff.mp hcz with rfl | hcz
      · exact ht.acyclic.eq_of_within ht.parent hz hy (.refl z) hyc
      · have hcx : Descent.Within t.children c x := Descent.within_parent ht.parent hcz (ht.parent x z hz)
        have hxc : Descent.Below t.children x c := (Descent.Below.single hy).trans_within hyc
        exact absurd hcx (ht.acyclic.not_within hxc)
  obtain ⟨z, hz⟩ := h.stacked.exists_mem_heads hy
  have hzy : z = y := honly z (ht.heads_subset x hz)
  exact .head (hzy ▸ hz) (ih fun z hz => hall z ((Descent.Below.single hy).trans hz))

end Floatable

section PutInto

variable {nc : ConId} {automatic : Bool}

theorem putInto_focusHead (t : Tree) (q : ConId) : ((t.putInto fc c nc automatic).con q).focusHead
      = if q = nc then (t.con nc).focusHead ++ [c] else (t.con q).focusHead := by
  by_cases hq : q = nc
  · subst hq
    by_cases hqc : q = c
    · subst hqc
      cases automatic <;> simp [putInto, editNodes, editFocus]
    · cases automatic <;> simp [putInto, editNodes, editFocus, hqc]
  · by_cases hqc : q = c
    · subst hqc
      cases automatic <;> simp [putInto, editNodes, editFocus, hq]
    · cases automatic <;> simp [putInto, editNodes, editFocus, hq, hqc]

end PutInto

namespace Floatable

variable (h : Floatable t ws c)
include h

/-- **`floating_enable`** is not refused and puts the container into the new one. -/
theorem floatingEnable_eq (hp : c ∈ t.children p) (automatic : Bool) : t.floatingEnable cfg fc c automatic
      = (((t.floated cfg ws c p).closeParent cfg c p).putInto fc c t.nextCon automatic, true) := by
  have hparent : (t.con c).parent = some p := h.rooted.parent p c hp
  have hdocked : t.isDocked c = false := by
    have htype := (h.housed.type_of_on (h.inWorkspace.parent h.rooted hp)).2.2
    rw [isDocked, hparent]
    simpa using htype
  have hrefused : ¬ (t.isDocked c ∨ t.isFloating c ∨ (t.con c).type = .workspace) := by
    simp [hdocked, h.floating, h.inWorkspace.type_ne h.layered]
  rw [floatingEnable, if_neg hrefused, hparent]
  dsimp only
  rw [← takenOut, h.getWorkspace_takenOut]
  dsimp only
  rw [if_neg h.focused, newFloating_snd, takenOut_nextCon, ← floated]

/-- The container is alone in the focus order of the new one. -/
theorem floatingEnable_inside (hkeep : ∀ f ∈ t.focused, ¬ t.Emptied ws c f) (automatic : Bool) :
    (((t.floatingEnable cfg fc c automatic).1).con t.nextCon).focusHead = [c] := by
  obtain ⟨p, -, hp⟩ := Descent.below_iff_exists.mp h.below
  have hsub := (h.closeParent_focusHead cfg hp hkeep t.nextCon).1
  rw [h.floated_focusHead, if_neg h.ws_ne.symm, if_pos rfl] at hsub
  rw [h.floatingEnable_eq hp, putInto_focusHead, if_pos rfl, List.sublist_nil.mp hsub, List.nil_append]

/-- What the focus order of the workspace is made of. -/
theorem floatingEnable_workspace (cfg : Config) (fc : FloatingConfig)
    (hkeep : ∀ f ∈ t.focused, ¬ t.Emptied ws c f) (automatic : Bool) :
    ((((t.floatingEnable cfg fc c automatic).1).con ws).focusHead.Sublist
        (insertFocus t.nextCon (t.focusPlace c) ((t.con ws).focusHead.erase c)))
      ∧ ∀ x ∈ insertFocus t.nextCon (t.focusPlace c) ((t.con ws).focusHead.erase c), ¬ t.Emptied ws c x →
        x ∈ (((t.floatingEnable cfg fc c automatic).1).con ws).focusHead := by
  obtain ⟨p, -, hp⟩ := Descent.below_iff_exists.mp h.below
  have hclose := h.closeParent_focusHead cfg hp hkeep ws
  rw [h.floated_focusHead, if_pos rfl] at hclose
  rw [h.floatingEnable_eq hp, putInto_focusHead, if_neg h.ws_ne]
  exact hclose

/-- The other focus orders lose the container and the emptied ones and nothing else. -/
theorem floatingEnable_elsewhere (cfg : Config) (fc : FloatingConfig)
    (hkeep : ∀ f ∈ t.focused, ¬ t.Emptied ws c f) (automatic : Bool)
    (hnew : q ≠ t.nextCon) (hq : q ≠ ws) :
    ((((t.floatingEnable cfg fc c automatic).1).con q).focusHead.Sublist (t.con q).focusHead)
      ∧ ∀ x ∈ (t.con q).focusHead, x ≠ c → ¬ t.Emptied ws c x →
        x ∈ (((t.floatingEnable cfg fc c automatic).1).con q).focusHead := by
  obtain ⟨p, -, hp⟩ := Descent.below_iff_exists.mp h.below
  obtain ⟨hsub, hmem⟩ := h.closeParent_focusHead cfg hp hkeep q
  rw [h.floated_focusHead, if_neg hq, if_neg hnew] at hsub hmem
  rw [h.floatingEnable_eq hp, putInto_focusHead, if_neg hnew]
  exact ⟨hsub.trans List.erase_sublist, fun x hx hne hnot => hmem x ((List.mem_erase_of_ne hne).mpr hx) hnot⟩

end Floatable

/-- The new container `nc` with `c` in it is at its place on the workspace, and neither the leaf that the
focus leads to nor the order of the others has changed. -/
structure KeepsFocusOrder (t t' : Tree) (ws c nc : ConId) : Prop where
  leaf : ∃ m, t.LeadsTo ws m ∧ t'.LeadsTo ws m
  order : ∀ q ≠ nc, ((t'.con q).focusHead.erase nc).Sublist (t.con q).focusHead
  stays : ∀ q ≠ nc, ∀ x ∈ (t.con q).focusHead, x ≠ c → ¬ t.Emptied ws c x → x ∈ (t'.con q).focusHead
  inside : (t'.con nc).focusHead = [c]
  place : ∃ a l r, a ∈ t.children ws ∧ Descent.Within t.children a c ∧ (t.con ws).focusHead = l ++ a :: r
    ∧ (t.Foremost a c → (t'.con ws).focusHead
        = if a ∈ (t'.con ws).focusHead then l ++ nc :: a :: r else l ++ nc :: r)
    ∧ (¬ t.Foremost a c → (t'.con ws).focusHead = l ++ a :: nc :: r)

namespace Floatable

variable (h : Floatable t ws c)
include h

/-- **The place of the new container**, with the emptied containers closed. -/
theorem floatingEnable_place (cfg : Config) (fc : FloatingConfig)
    (hkeep : ∀ f ∈ t.focused, ¬ t.Emptied ws c f) (automatic : Bool) :
    ∃ a l r, a ∈ t.children ws ∧ Descent.Within t.children a c ∧ (t.con ws).focusHead = l ++ a :: r
      ∧ (t.Foremost a c → (((t.floatingEnable cfg fc c automatic).1).con ws).focusHead
          = if a ∈ (((t.floatingEnable cfg fc c automatic).1).con ws).focusHead then l ++ t.nextCon :: a :: r
            else l ++ t.nextCon :: r)
      ∧ (¬ t.Foremost a c → (((t.floatingEnable cfg fc c automatic).1).con ws).focusHead = l ++ a :: t.nextCon :: r) := by
  have ht := h.rooted
  obtain ⟨a, l, r, ha, hac, hsplit, hbefore, hafter⟩ := h.exists_place
  obtain ⟨hsub, hmem⟩ := h.floatingEnable_workspace cfg fc hkeep automatic
  have hperm := h.insertFocus_perm
  generalize insertFocus t.nextCon (t.focusPlace c) ((t.con ws).focusHead.erase c) = s at *
  generalize (((t.floatingEnable cfg fc c automatic).1).con ws).focusHead = s' at *
  have hnew : t.nextCon ∉ (t.con ws).focusHead := fun hmem =>
    ht.notMem_children_nextCon ws (ht.focus ws _ hmem)
  have hnodup : s.Nodup := hperm.nodup_iff.mpr
    (List.nodup_cons.mpr ⟨fun hmem => hnew (List.mem_of_mem_erase hmem), (ht.nodupFocus ws).erase c⟩)
  -- of the children of the workspace, only the ancestor can be closed
  have hall : ∀ x ∈ s, x ≠ a → x ∈ s' := by
    intro x hx hne
    refine hmem x hx fun hempty => ?_
    have hxc := hempty.2.1
    rcases List.mem_cons.mp (hperm.mem_iff.mp hx) with rfl | hx
    · exact ht.not_within_nextCon h.reach_con hxc.within
    · have hx : x ∈ t.children ws := ht.focus ws x (List.mem_of_mem_erase hx)
      exact hne (ht.acyclic.eq_of_within ht.parent hx ha hxc.within hac)
  have heq := eq_of_sublist hsub hnodup hall
  have hl : a ∉ l := by
    intro hal
    have hsides : (l ++ a :: r).Nodup := hsplit ▸ ht.nodupFocus ws
    exact (List.nodup_append.mp hsides).2.2 a hal a List.mem_cons_self rfl
  have ha' : a ≠ t.nextCon := by
    rintro rfl
    exact ht.notMem_children_nextCon ws ha
  refine ⟨a, l, r, ha, hac, hsplit, fun hfore => ?_, fun hfore => ?_⟩
  · have hs := hbefore hfore
    by_cases hne : a = c
    · -- the container itself is a child of the workspace
      rw [← hne, List.erase_cons_head] at hs
      have hr : a ∉ r := by
        have hsides : (l ++ a :: r).Nodup := hsplit ▸ ht.nodupFocus ws
        exact (List.nodup_cons.mp (List.nodup_append.mp hsides).2.1).1
      have hnot : a ∉ s := by
        rw [hs]
        simp [hl, ha', hr]
      have hnot' : a ∉ s' := fun hmem => hnot (hsub.subset hmem)
      rw [if_neg hnot', List.erase_of_not_mem hnot] at heq
      rw [if_neg hnot', heq, hs]
    · have hc : c ∉ a :: r := fun hmem =>
        h.notMem_focusHead ha hac hne (hsplit ▸ List.mem_append_right l hmem)
      rw [List.erase_of_not_mem hc] at hs
      have herase : s.erase a = l ++ t.nextCon :: r := by
        rw [hs, List.erase_append_right _ hl, List.erase_cons_tail (by simpa using ha'.symm), List.erase_cons_head]
      rw [herase, hs] at heq
      exact heq
  · have hmem' : a ∈ s' := by
      refine hmem a ?_ fun hempty => hfore (h.foremost_of_emptied hempty)
      rw [hafter hfore]
      simp
    rw [if_pos hmem'] at heq
    rw [heq, hafter hfore]

/-- The first entries below the workspace stay, if the container and the emptied ones are not among them. -/
theorem floatingEnable_head (hkeep : ∀ f ∈ t.focused, ¬ t.Emptied ws c f) (automatic : Bool)
    (hreach : t.Reach q) (hq : q ≠ ws) (hheads : ∀ x ∈ t.heads q, x ≠ c ∧ ¬ t.Emptied ws c x) :
    (((t.floatingEnable cfg fc c automatic).1).con q).focusHead.head? = (t.con q).focusHead.head? := by
  have hnew : q ≠ t.nextCon := (h.rooted.lt_nextCon hreach).ne
  obtain ⟨hsub, hmem⟩ := h.floatingEnable_elsewhere cfg fc hkeep automatic hnew hq
  cases hhead : (t.con q).focusHead.head? with
  | none =>
    rw [List.head?_eq_none_iff.mp hhead] at hsub
    rw [List.sublist_nil.mp hsub, List.head?_nil]
  | some x =>
    have hx : x ∈ t.heads q := mem_heads.mpr hhead
    obtain ⟨hne, hnot⟩ := hheads x hx
    have hstays := hmem x (List.mem_of_mem_head? hhead) hne hnot
    exact mem_heads.mp (mem_heads_of_sublist hsub (h.rooted.nodupFocus q) hx hstays)

/-- **The leaf** that the focus leads to stays. -/
theorem floatingEnable_leaf (hkeep : ∀ f ∈ t.focused, ¬ t.Emptied ws c f) (automatic : Bool) :
    ∃ m, t.LeadsTo ws m ∧ ((t.floatingEnable cfg fc c automatic).1).LeadsTo ws m := by
  have ht := h.rooted
  obtain ⟨a, l, r, ha, hac, hsplit, hbefore, hafter⟩ := h.floatingEnable_place cfg fc hkeep automatic
  by_cases hfore : t.Foremost ws c
  · -- the focus leads through the container, and now through the new one
    obtain ⟨m, hm⟩ := ht.exists_leadsTo (ht.lt_nextCon h.reach_con)
    refine ⟨m, ⟨hfore.trans hm.1, hm.2⟩, ?_⟩
    have hbelow : ((t.floatingEnable cfg fc c automatic).1).LeadsTo c m := by
      refine hm.of_heads fun q hq => ?_
      have hcq : Descent.Within t.children c q := ht.within_of_foremost hq
      refine h.floatingEnable_head hkeep automatic (h.reach_con.trans hcq) ?_ fun x hx => ?_
      · rintro rfl
        exact h.not_within_ws hcq
      · have hcx : Descent.Below t.children c x := hcq.tail (ht.heads_subset q hx)
        exact ⟨ht.acyclic.ne hcx, fun hempty => ht.acyclic.not_within hcx hempty.2.1.within⟩
    -- the ancestor is the first on the workspace, so that the new container is so now
    obtain ⟨hfirst, hl⟩ : t.Foremost a c ∧ l = [] := by
      rcases Relation.ReflTransGen.cases_head hfore with heq | ⟨y, hy, hyc⟩
      · exact absurd heq.symm (ht.acyclic.ne h.below)
      · have hya : y = a :=
          ht.acyclic.eq_of_within ht.parent (ht.heads_subset ws hy) ha (ht.within_of_foremost hyc) hac
        refine ⟨hya ▸ hyc, ?_⟩
        have hhead := mem_heads.mp (hya ▸ hy)
        have hnodup : (l ++ a :: r).Nodup := hsplit ▸ ht.nodupFocus ws
        rw [hsplit] at hhead
        cases l with
        | nil => rfl
        | cons z l =>
          obtain rfl : z = a := by simpa using hhead
          simp at hnodup
    have hnew : t.nextCon ∈ ((t.floatingEnable cfg fc c automatic).1).heads ws := by
      rw [mem_heads, hbefore hfirst, hl]
      split
      · rfl
      · rfl
    have hinside : c ∈ ((t.floatingEnable cfg fc c automatic).1).heads t.nextCon := by
      rw [mem_heads, h.floatingEnable_inside hkeep, List.head?_cons]
    exact ⟨.head hnew (.head hinside hbelow.1), hbelow.2⟩
  · obtain ⟨m, hm⟩ := ht.exists_leadsTo (ht.lt_nextCon h.reach)
    refine ⟨m, hm, hm.of_heads fun q hq => ?_⟩
    by_cases hqws : q = ws
    · -- ahead of the ancestor nothing changes, and the ancestor is not overtaken
      rw [hqws, hsplit]
      by_cases hfirst : t.Foremost a c
      · cases l with
        | nil => exact absurd (.head (mem_heads.mpr (by rw [hsplit]; rfl)) hfirst) hfore
        | cons z l =>
          rw [hbefore hfirst]
          split
          · rfl
          · rfl
      · rw [hafter hfirst]
        cases l with
        | nil => rfl
        | cons z l => rfl
    · refine h.floatingEnable_head hkeep automatic (h.reach.trans (ht.within_of_foremost hq)) hqws fun x hx => ?_
      have hx : t.Foremost ws x := (hq.tail hx).within
      refine ⟨?_, fun hempty => hfore (hx.trans (h.foremost_of_emptied hempty))⟩
      rintro rfl
      exact hfore hx

/-- The others keep their order on the workspace. -/
theorem insertFocus_erase : (insertFocus t.nextCon (t.focusPlace c) ((t.con ws).focusHead.erase c)).erase t.nextCon
    = (t.con ws).focusHead.erase c := by
  obtain ⟨a, l, r, ha, hac, hsplit, hbefore, hafter⟩ := h.exists_place
  have hnew : t.nextCon ∉ l ++ a :: r := fun hmem =>
    h.rooted.notMem_children_nextCon ws (h.rooted.focus ws _ (hsplit ▸ hmem))
  have hl : t.nextCon ∉ l := fun hmem => hnew (List.mem_append_left _ hmem)
  by_cases hfore : t.Foremost a c
  · rw [hbefore hfore, List.erase_append_right _ hl, List.erase_cons_head, h.erase_focusHead ha hac hsplit]
  · have hne : a ≠ c := by
      rintro rfl
      exact hfore (.refl a)
    have ha' : a ≠ t.nextCon := by
      rintro rfl
      exact h.rooted.notMem_children_nextCon ws ha
    rw [hafter hfore, List.erase_append_right _ hl, List.erase_cons_tail (by simpa using ha'), List.erase_cons_head,
      List.erase_of_not_mem (h.notMem_focusHead ha hac hne), hsplit]

end Floatable

/-- **Making a container float** that is not focused, where the focused container is not closed with it. -/
theorem keepsFocusOrder_floatingEnable (cfg : Config) (fc : FloatingConfig) (t : Tree) (ws c : ConId)
    (automatic : Bool) (h : Floatable t ws c) (hkeep : ∀ f ∈ t.focused, ¬ t.Emptied ws c f) :
    KeepsFocusOrder t (t.floatingEnable cfg fc c automatic).1 ws c t.nextCon
      ∧ (t.floatingEnable cfg fc c automatic).2 = true := by
  obtain ⟨p, -, hp⟩ := Descent.below_iff_exists.mp h.below
  obtain ⟨hsub, hmem⟩ := h.floatingEnable_workspace cfg fc hkeep automatic
  refine ⟨⟨h.floatingEnable_leaf hkeep automatic, fun q hq => ?_, fun q hq x hx hne hnot => ?_,
    h.floatingEnable_inside hkeep automatic, h.floatingEnable_place cfg fc hkeep automatic⟩, ?_⟩
  · by_cases hqws : q = ws
    · rw [hqws]
      have herase := hsub.erase t.nextCon
      rw [h.insertFocus_erase] at herase
      exact herase.trans List.erase_sublist
    · exact List.erase_sublist.trans (h.floatingEnable_elsewhere cfg fc hkeep automatic hq hqws).1
  · by_cases hqws : q = ws
    · subst hqws
      have hx : x ∈ (t.con q).focusHead.erase c := (List.mem_erase_of_ne hne).mpr hx
      exact hmem x (h.insertFocus_perm.mem_iff.mpr (List.mem_cons_of_mem _ hx)) hnot
    · exact (h.floatingEnable_elsewhere cfg fc hkeep automatic hq hqws).2 x hx hne hnot
  · rw [h.floatingEnable_eq hp]

/-! ### A window in two split containers -/

/-- A workspace with a window and a split container, where a window stands beside another one that is alone
in a split container of its own. -/
def nestedSplit (focused : ConId) : Tree := ofList [
  { type := .root, nodesHead := [1], focusHead := [1] },
  { type := .output, layout := .output, parent := some 0, nodesHead := [2], focusHead := [2] },
  { layout := .splith, parent := some 1, nodesHead := [3], focusHead := [3] },
  { type := .workspace, layout := .splith, name := "1", fullscreenMode := .output, parent := some 2,
    nodesHead := [4, 8], focusHead := [4, 8] },
  { layout := .splitv, parent := some 3, percent := 1 / 2, nodesHead := [5, 7], focusHead := [5, 7] },
  { layout := .splith, parent := some 4, percent := 1 / 2, nodesHead := [6], focusHead := [6] },
  { layout := .splith, parent := some 5, percent := 1, window := some { id := 6 } },
  { layout := .splith, parent := some 4, percent := 1 / 2, window := some { id := 7 } },
  { layout := .splith, parent := some 3, percent := 1 / 2, window := some { id := 8 } }] (some focused)

theorem healthy_nestedSplit (f : ConId) (hf : f ∈ [5, 8]) : Healthy (nestedSplit f) ∧ Stacked (nestedSplit f) := by
  have hroot : Rooted (nestedSplit f) := by
    apply rooted_ofList
    · decide +kernel
    · revert f
      decide +kernel
  refine ⟨healthy_ofList (3 < ·) hroot ?_, stacked_ofList ?_⟩
  · clear hroot
    revert f
    decide +kernel
  · clear hroot
    revert f
    decide +kernel

theorem floatable_nestedSplit (f : ConId) (hf : f ∈ [5, 8]) : Floatable (nestedSplit f) 3 6 := by
  obtain ⟨hhealthy, hstacked⟩ := healthy_nestedSplit f hf
  have hchain : List.IsChain (fun q c => c ∈ (nestedSplit f).children q) [0, 1, 2, 3] := by
    clear hhealthy hstacked
    revert f
    decide +kernel
  have h₄ : 4 ∈ (nestedSplit f).children 3 := List.mem_cons_self
  have h₅ : 5 ∈ (nestedSplit f).children 4 := List.mem_cons_self
  have h₆ : 6 ∈ (nestedSplit f).children 5 := List.mem_cons_self
  refine ⟨hhealthy.rooted, hhealthy.layered, hstacked, ?_, reach_of_isChain reach_croot hchain (by simp), rfl,
    ((Descent.Below.single h₄).trans (.single h₅)).trans (.single h₆), nofun, rfl, ?_⟩
  · exact housed_ofList hhealthy.rooted hhealthy.layered (by decide +kernel) (by decide +kernel)
      ⟨List.mem_cons_self, List.mem_cons_self⟩
  · rintro ⟨⟩
    cases hf
    all_goals contradiction

/-- The window alone in the split container becomes floating, and the focus is elsewhere. -/
theorem keepsFocusOrder_nestedSplit :
    KeepsFocusOrder (nestedSplit 8) ((nestedSplit 8).floatingEnable {} {} 6 false).1 3 6 9
      ∧ ((nestedSplit 8).floatingEnable {} {} 6 false).2 = true := by
  refine keepsFocusOrder_floatingEnable {} {} (nestedSplit 8) 3 6 false (floatable_nestedSplit 8 (by simp)) ?_
  -- nothing is below the focused window
  rintro _ ⟨⟩ ⟨-, hbelow, -⟩
  obtain ⟨x, hx, -⟩ := Descent.below_iff_head.mp hbelow
  cases hx

/-- With the focus on the split container, the focus goes to the window beside it. -/
theorem not_keeps_nestedSplit : ¬ ∀ (cfg : Config) (fc : FloatingConfig) (t : Tree) (ws c : ConId)
    (automatic : Bool), Floatable t ws c →
      KeepsFocusOrder t (t.floatingEnable cfg fc c automatic).1 ws c t.nextCon := by
  intro h
  obtain ⟨m, hm, hm'⟩ := (h {} {} (nestedSplit 5) 3 6 false (floatable_nestedSplit 5 (by simp))).leaf
  have hbefore : (nestedSplit 5).LeadsTo 3 6 := by
    have h₄ : 4 ∈ (nestedSplit 5).heads 3 := List.mem_cons_self
    have h₅ : 5 ∈ (nestedSplit 5).heads 4 := List.mem_cons_self
    have h₆ : 6 ∈ (nestedSplit 5).heads 5 := List.mem_cons_self
    exact ⟨.head h₄ (.head h₅ (.head h₆ .refl)), rfl⟩
  have hafter : ((nestedSplit 5).floatingEnable {} {} 6 false).1.LeadsTo 3 7 := by
    have h₄ : 4 ∈ ((nestedSplit 5).floatingEnable {} {} 6 false).1.heads 3 := by decide +kernel
    have h₇ : 7 ∈ ((nestedSplit 5).floatingEnable {} {} 6 false).1.heads 4 := by decide +kernel
    exact ⟨.head h₄ (.head h₇ .refl), by decide +kernel⟩
  cases (hbefore.unique hm).trans (hm'.unique hafter)

end Tree

end I3
