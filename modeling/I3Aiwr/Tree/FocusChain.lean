import I3Aiwr.Tree.Encapsulate
import I3Aiwr.Tree.IntactMoves

/-!
# Moving keeps the focus chain

A tiling container that is the first entry of the focus stack on every level below its workspace should
be that again after `tree_move`. There are two ways to lose it: `insert_con_into` raises the branch of
the target, but nothing between the branch and the place in it, and `ws_force_orientation` puts the new
split container behind the floating windows of the workspace.

## Main definitions

* `Tree.forces`: an orientation is forced on the workspace
* `Tree.leads`: the place next to a target has the focus of its branch
* `Tree.Lodged`, `Tree.Chained`: a workspace, and the container that comes first on it
* `Tree.StaysAhead`: neither of the two happens

## Main results

* `Tree.parentWithOrientationN_spec`: what `con_parent_with_orientation` finds
* `Tree.Chained.places_moveWithin`: where a container is moved to
* `Tree.Chained.foremost_treeMove`: what keeps the focus chain
-/

namespace I3

namespace Tree

section Definitions

variable (cfg : Config) (t : Tree)

/-- `tree_move` finds no place among the containers of the workspace, and forces an orientation on it. -/
def forces (con : ConId) (direction : Direction) : Bool :=
  decide ((t.con con).type ≠ .workspace ∧ (t.con con).fullscreenMode ≠ .global) && !t.movesAway con &&
    (t.parentWithOrientation con direction.orientation).all fun same =>
      decide (t.moveWithin con same direction = none)

/-- The place next to `target` has the focus of the branch that `insert_con_into` raises. -/
def leads (con target : ConId) : Bool :=
  match (t.con target).parent with
  | none => true
  | some parent => match t.lowestCommonAncestor con parent with
    | none => true
    | some lca => match t.childContaining lca target with
      | none => true
      | some targetAncestor => targetAncestor = target || t.isFocusedDescendant parent targetAncestor

/-- The workspace is in the content container of an output, and nothing but normal and floating
containers are below it. -/
structure Lodged (ws : ConId) : Prop where
  healthy : Healthy t
  stacked : Stacked t
  workspace : (t.con ws).type = .workspace
  reach : t.Reach ws
  content : ∃ p o, ws ∈ t.children p ∧ (t.con p).type = .con ∧ p ∈ t.children o ∧ (t.con o).type = .output
  inside : ∀ x, Descent.Below t.children ws x → (t.con x).type = .con ∨ (t.con x).type = .floatingCon

/-- The tiling container `con` has the focus, and is the first one in the focus stack on every level
below the workspace. -/
structure Chained (ws con : ConId) : Prop extends t.Lodged ws where
  floating : ∀ x, Descent.Within t.children ws x → t.isFloating x →
    ∃ p, (t.con x).parent = some p ∧ (t.con p).type = .floatingCon
  tiling : t.insideFloating con = none
  focused : t.focused = some con
  foremost : t.Foremost ws con

end Definitions

variable {cfg : Config} {t t' : Tree} {a b c p q s x y z con above next target ws : ConId}
  {o : Orientation} {direction : Direction} {n : ℕ}

theorem Lodged.ne_nextCon (h : t.Lodged ws) : ws ≠ t.nextCon := (h.healthy.rooted.lt_nextCon h.reach).ne

/-! ### Climbing -/

theorem Rooted.eq_of_within_within (ht : Rooted t) (h : Descent.Within t.children p x)
    (h' : Descent.Within t.children x p) : x = p := by
  rcases Descent.within_iff.mp h with heq | hbelow
  · exact heq
  · exact absurd h' (ht.acyclic.not_within hbelow)

/-- **What `con_parent_with_orientation` finds** on the way up to the workspace: the lowest container with
the orientation. -/
theorem parentWithOrientationN_spec (h : t.Lodged ws) (hwsp : Descent.Within t.children ws p)
    (hmem : ws ∈ t.chainN n p)
    (htiling : ∀ x, Descent.Below t.children ws x → Descent.Within t.children x p →
      (t.con x).type ≠ .floatingCon) :
    match t.parentWithOrientationN o n p with
    | none => ∀ x, Descent.Within t.children ws x → Descent.Within t.children x p → t.orientation x ≠ some o
    | some s => Descent.Within t.children ws s ∧ Descent.Within t.children s p ∧ t.orientation s = some o
      ∧ ∀ x, Descent.Below t.children s x → Descent.Within t.children x p → t.orientation x ≠ some o := by
  have hr := h.healthy.rooted
  induction n generalizing p with
  | zero => cases hmem
  | succ n ih =>
    rw [parentWithOrientationN]
    by_cases hp : t.orientation p = some o
    · rw [if_pos hp]
      exact ⟨hwsp, .refl _, hp, fun x hx hxp => absurd hxp (hr.acyclic.not_within hx)⟩
    rw [if_neg hp]
    rcases Descent.within_iff.mp hwsp with rfl | hbelow
    · -- above the workspace is the content container of an output
      obtain ⟨K, O, hK, hKtype, hO, hOtype⟩ := h.content
      rw [hr.parent K p hK]
      dsimp only
      rw [if_pos (.inr (.inr (by rw [hr.parent O K hO]; simp [hOtype])))]
      intro x hx hxp
      rwa [hr.eq_of_within_within hx hxp]
    · obtain ⟨q, hwsq, hpq⟩ := Descent.below_iff_exists.mp hbelow
      have hparent := hr.parent q p hpq
      have hne : ws ≠ p := (hr.acyclic.ne hbelow).symm
      rw [chainN, hparent] at hmem
      have hgo : ¬ ((t.con q).type = .floatingCon ∨ (t.con q).type = .output
          ∨ (t.con q).parent.any fun r => (t.con r).type = .output) := by
        rcases Descent.within_iff.mp hwsq with rfl | hq
        · obtain ⟨K, O, hK, hKtype, -⟩ := h.content
          rw [hr.parent K q hK]
          simp [h.workspace, hKtype]
        · obtain ⟨r, hwsr, hqr⟩ := Descent.below_iff_exists.mp hq
          have hrtype : (t.con r).type ≠ .output := by
            rcases Descent.within_iff.mp hwsr with rfl | hr'
            · simp [h.workspace]
            · rcases h.inside r hr' with hr' | hr' <;> simp [hr']
          have hqtype := (h.inside q hq).resolve_right (htiling q hq (Descent.Below.single hpq).within)
          rw [hr.parent r q hqr]
          simp [hqtype, hrtype]
      rw [hparent]
      dsimp only
      rw [if_neg hgo]
      have hih := ih hwsq ((List.mem_cons.mp hmem).resolve_left hne) fun x hx hxq =>
        htiling x hx (hxq.trans (Descent.Below.single hpq).within)
      -- a container above `p` is `p` itself, or above its parent
      have hcases : ∀ x, Descent.Within t.children x p → x = p ∨ Descent.Within t.children x q := fun x hx =>
        (Descent.within_iff.mp hx).imp Eq.symm fun hx => Descent.within_parent hr.parent hx hparent
      cases hfind : t.parentWithOrientationN o n q with
      | none =>
        rw [hfind] at hih
        intro x hx hxp
        rcases hcases x hxp with rfl | hxq
        · exact hp
        · exact hih x hx hxq
      | some s =>
        rw [hfind] at hih
        obtain ⟨hwss, hsq, hso, hbetween⟩ := hih
        refine ⟨hwss, hsq.trans (Descent.Below.single hpq).within, hso, fun x hx hxp => ?_⟩
        rcases hcases x hxp with rfl | hxq
        · exact hp
        · exact hbetween x hx hxq

theorem Lodged.parentWithOrientation_eq (h : t.Lodged ws) (hp : (t.con y).parent = some p)
    (hy : Descent.Below t.children ws y)
    (htiling : ∀ x, Descent.Below t.children ws x → Descent.Within t.children x y →
      (t.con x).type ≠ .floatingCon) :
    t.parentWithOrientation y o = t.parentWithOrientationN o t.nextCon p := by
  have hr := h.healthy.rooted
  have hwsp : Descent.Within t.children ws p := Descent.within_parent hr.parent hy hp
  have hmem := hr.mem_children_of_parent (h.reach.trans hy.within) hp
  have hptype : (t.con p).type ≠ .floatingCon := by
    rcases Descent.within_iff.mp hwsp with rfl | hbelow
    · simp [h.workspace]
    · exact htiling p hbelow (Descent.Below.single hmem).within
  rw [parentWithOrientation, hp]
  exact if_neg hptype

/-- Where `con_parent_with_orientation` finds nothing, nothing up to the workspace has the orientation. -/
theorem Lodged.parentWithOrientation_none (h : t.Lodged ws) (hy : Descent.Below t.children ws y)
    (htiling : ∀ x, Descent.Below t.children ws x → Descent.Within t.children x y →
      (t.con x).type ≠ .floatingCon)
    (hnone : t.parentWithOrientation y o = none) (hx : Descent.Within t.children ws x)
    (hxy : Descent.Below t.children x y) : t.orientation x ≠ some o := by
  have hr := h.healthy.rooted
  obtain ⟨p, hwsp, hmem⟩ := Descent.below_iff_exists.mp hy
  have hp := hr.parent p y hmem
  rw [h.parentWithOrientation_eq hp hy htiling] at hnone
  have hspec := parentWithOrientationN_spec (o := o) h hwsp
    ((hr.mem_chain (h.reach.trans hwsp)).mpr hwsp) fun x hx hxp =>
      htiling x hx (hxp.trans (Descent.Below.single hmem).within)
  rw [hnone] at hspec
  exact hspec x hx (Descent.within_parent hr.parent hxy hp)

/-- What it finds is the lowest container with the orientation. -/
theorem Lodged.parentWithOrientation_some (h : t.Lodged ws) (hy : Descent.Below t.children ws y)
    (htiling : ∀ x, Descent.Below t.children ws x → Descent.Within t.children x y →
      (t.con x).type ≠ .floatingCon)
    (hsome : t.parentWithOrientation y o = some s) :
    Descent.Within t.children ws s ∧ Descent.Below t.children s y ∧ t.orientation s = some o
      ∧ ∀ x, Descent.Below t.children s x → Descent.Below t.children x y → t.orientation x ≠ some o := by
  have hr := h.healthy.rooted
  obtain ⟨p, hwsp, hmem⟩ := Descent.below_iff_exists.mp hy
  have hp := hr.parent p y hmem
  rw [h.parentWithOrientation_eq hp hy htiling] at hsome
  have hspec := parentWithOrientationN_spec (o := o) h hwsp
    ((hr.mem_chain (h.reach.trans hwsp)).mpr hwsp) fun x hx hxp =>
      htiling x hx (hxp.trans (Descent.Below.single hmem).within)
  rw [hsome] at hspec
  obtain ⟨hwss, hsp, hso, hbetween⟩ := hspec
  exact ⟨hwss, hsp.tail hmem, hso, fun x hx hxy => hbetween x hx (Descent.within_parent hr.parent hxy hp)⟩

/-- Nothing on the way up from a container that is inside no floating one floats. -/
theorem Lodged.tiling_of_chainN (h : t.Lodged ws) (hc : Descent.Below t.children ws c)
    (hnone : t.insideFloatingN n c = none) (hmem : x ∈ t.chainN n c) (hx : Descent.Below t.children ws x) :
    (t.con x).type ≠ .floatingCon ∧ t.isFloating x = false := by
  have hr := h.healthy.rooted
  induction n generalizing c with
  | zero => cases hmem
  | succ n ih =>
    obtain ⟨q, hwsq, hcq⟩ := Descent.below_iff_exists.mp hc
    have hparent := hr.parent q c hcq
    rw [insideFloatingN, hparent] at hnone
    rw [chainN, hparent] at hmem
    by_cases htype : (t.con c).type = .floatingCon
    · rw [if_pos htype] at hnone
      cases hnone
    by_cases hfloating : t.isFloating c
    · rw [if_neg htype, if_pos hfloating] at hnone
      cases hnone
    have hcon := (h.inside c hc).resolve_right htype
    rw [if_neg htype, if_neg hfloating, if_neg (by simp [hcon])] at hnone
    rcases List.mem_cons.mp hmem with rfl | hmem
    · exact ⟨htype, by simpa using hfloating⟩
    · have hxq := hr.within_of_mem_chainN (h.reach.trans hwsq) hmem
      exact ih (hx.trans_within hxq) hnone hmem

/-! ### Descending in a direction -/

/-- **`con_descend_direction` ends on a tiling child** of something in the branch. -/
theorem Rooted.descendDirectionN_spec (ht : Rooted t) (n : ℕ) (hc : c ∈ (t.con p).nodesHead) :
    ∃ q, t.descendDirectionN direction n c ∈ (t.con q).nodesHead
      ∧ Descent.Within t.children c (t.descendDirectionN direction n c) := by
  induction n generalizing c p with
  | zero => exact ⟨p, hc, .refl _⟩
  | succ n ih =>
    rw [descendDirectionN]
    generalize (if direction = .left ∨ direction = .right then some Orientation.horiz
      else some Orientation.vert) = along
    split
    · exact ⟨p, hc, .refl _⟩
    · next d hd =>
      have hmem : d ∈ (t.con c).nodesHead := by
        split at hd
        · cases hd
        · split at hd
          · split at hd
            · exact List.mem_of_mem_head? hd
            · exact List.mem_of_getLast? hd
          · have htype := List.find?_some hd
            refine (List.mem_append.mp (ht.focus c d (List.mem_of_find?_eq_some hd))).resolve_right ?_
            exact fun hfloating => by simp [ht.typeFloating c d hfloating] at htype
      obtain ⟨q, hq, hwithin⟩ := ih hmem
      refine ⟨q, hq, (Descent.Below.single (List.mem_append_left _ hmem)).within.trans hwithin⟩

/-! ### Where the container goes -/

/-- The target is a container above `con`, or in a branch beside one. -/
def Destined (t : Tree) (ws con target : ConId) : Prop :=
  ∃ z a b p, Descent.Within t.children ws z ∧ a ∈ t.children z ∧ Descent.Within t.children a con
    ∧ b ∈ t.children z ∧ Descent.Within t.children b target ∧ target ∈ (t.con p).nodesHead
    ∧ (b ≠ a ∨ target = a ∧ b = a ∧ Descent.Below t.children a con)

/-- What `tree_move` does with a tiling container without forcing an orientation. -/
def Places (t : Tree) (ws con : ConId) : Move → Prop
  | .insert target _ => t.Destined ws con target
  | .toWorkspace | .floatingDisable => False
  | .stay | .swap _ | .toOutput => True

namespace Chained

variable (h : t.Chained ws con)
include h

theorem reach_con : t.Reach con := h.reach.trans (h.healthy.rooted.within_of_foremost h.foremost)

theorem within : Descent.Within t.children ws con := h.healthy.rooted.within_of_foremost h.foremost

variable (hne : (t.con con).type ≠ .workspace)
include hne

theorem below : Descent.Below t.children ws con := by
  refine (Descent.within_iff.mp h.within).resolve_left ?_
  rintro rfl
  exact hne h.workspace

theorem not_floating (hx : Descent.Below t.children ws x) (hxc : Descent.Within t.children x con) :
    (t.con x).type ≠ .floatingCon ∧ t.isFloating x = false :=
  h.tiling_of_chainN (h.below hne) h.tiling ((h.healthy.rooted.mem_chain h.reach_con).mpr hxc) hx

/-- What leads to the container is a tiling child. -/
theorem mem_nodesHead (hq : Descent.Within t.children ws q) (ha : a ∈ t.children q)
    (hac : Descent.Within t.children a con) : a ∈ (t.con q).nodesHead := by
  refine (List.mem_append.mp ha).resolve_right fun hfloating => ?_
  exact (h.not_floating hne (hq.tail ha) hac).1 (h.healthy.rooted.typeFloating q a hfloating)

omit hne in
/-- Into a branch beside the one that leads to the container. -/
theorem destined_moveInto (hz : Descent.Within t.children ws z) (ha : a ∈ t.children z)
    (hac : Descent.Within t.children a con) (hb : b ∈ (t.con z).nodesHead) (hba : b ≠ a) :
    t.Places ws con (t.moveInto b direction) := by
  obtain ⟨p, hp, hbt⟩ : ∃ p, t.descendDirectionN direction t.nextCon b ∈ (t.con p).nodesHead
      ∧ Descent.Within t.children b (t.descendDirectionN direction t.nextCon b) :=
    h.healthy.rooted.descendDirectionN_spec t.nextCon hb
  exact ⟨z, a, b, p, hz, ha, hac, List.mem_append_left _ hb, hbt, hp, .inl hba⟩

/-- Out of the branch that leads to the container. -/
theorem places_moveOut (hz : Descent.Within t.children ws z) (ha : a ∈ t.children z)
    (hac : Descent.Below t.children a con) : t.Places ws con (t.moveOut con z direction) := by
  have hr := h.healthy.rooted
  have hnodes := h.mem_nodesHead hne hz ha hac.within
  have habove : t.Places ws con (.insert a direction.beside) :=
    ⟨z, a, a, z, hz, ha, hac.within, ha, .refl _, hnodes, .inr ⟨rfl, rfl, hac⟩⟩
  rw [moveOut, hr.childContaining_eq h.reach_con ha hac.within]
  dsimp only
  split
  · trivial
  · split
    · next next hnext =>
      split
      · refine h.destined_moveInto hz ha hac.within (mem_siblingTowards hnext) ?_
        exact siblingTowards_ne (hr.nodupNodes z) hnext
      · exact habove
    · split
      · trivial
      · exact habove

/-- **Where `tree_move` finds a place**, with a container of the orientation. -/
theorem places_moveWithin {move : Move}
    (hsame : t.parentWithOrientation con direction.orientation = some s)
    (hmove : t.moveWithin con s direction = some move) : t.Places ws con move := by
  have hr := h.healthy.rooted
  have hbelow := h.below hne
  obtain ⟨p, hwsp, hcp⟩ := Descent.below_iff_exists.mp hbelow
  have hp := hr.parent p con hcp
  obtain ⟨hwss, hsc, -, -⟩ := h.parentWithOrientation_some hbelow
    (fun x hx hxc => (h.not_floating hne hx hxc).1) hsame
  rw [moveWithin, hp] at hmove
  dsimp only at hmove
  split at hmove
  · next hsp =>
    obtain rfl := Option.some_inj.mp hmove
    obtain ⟨a, ha, hac⟩ := Descent.below_iff_head.mp hsc
    refine h.places_moveOut hne hwss ha ((Descent.within_iff.mp hac).resolve_left fun heq => hsp ?_)
    exact Option.some_inj.mp ((hr.parent s a ha).symm.trans (heq ▸ hp))
  · split at hmove
    · next sibling hsibling =>
      obtain rfl := Option.some_inj.mp hmove
      split
      · refine h.destined_moveInto hwsp hcp (.refl _) (mem_siblingTowards hsibling) ?_
        exact siblingTowards_ne (hr.nodupNodes p) hsibling
      · trivial
    · split at hmove
      · obtain rfl := Option.some_inj.mp hmove
        trivial
      · next hgetWs =>
        obtain ⟨s', hs', rfl⟩ := Option.map_eq_some_iff.mp hmove
        -- the search goes on above the parent, which is not the workspace
        have hpws : Descent.Below t.children ws p := by
          refine (Descent.within_iff.mp hwsp).resolve_left ?_
          rintro rfl
          exact hgetWs (hr.getWorkspace_eq h.healthy.layered h.reach_con h.workspace h.within)
        obtain ⟨hwss', hs'p, -, -⟩ := h.parentWithOrientation_some hpws
          (fun x hx hxp => (h.not_floating hne hx (hxp.trans (Descent.Below.single hcp).within)).1) hs'
        obtain ⟨a, ha, hap⟩ := Descent.below_iff_head.mp hs'p
        exact h.places_moveOut hne hwss' ha (hap.tail hcp)

end Chained

/-! ### What is foremost after an insertion -/

/-- The branches of the container and of the target decide. -/
theorem leads_iff (ht : Rooted t) (hc : t.Reach c) (ha : a ∈ t.children z)
    (hac : Descent.Within t.children a c) (hb : b ∈ t.children z) (hba : b ≠ a)
    (hbt : Descent.Within t.children b target) (htarget : target ∈ t.children p) :
    t.leads c target = true ↔ target = b ∨ t.Foremost b p := by
  have hparent := ht.parent p target htarget
  have hplace : p = z ∨ Descent.Within t.children b p := by
    rcases Descent.within_iff.mp hbt with rfl | hbt
    · exact .inl (Option.some_inj.mp (hparent.symm.trans (ht.parent z target hb)))
    · exact .inr (Descent.within_parent ht.parent hbt hparent)
  have hreachz : t.Reach z := ht.reach_of_within hc ((Descent.Below.single ha).within.trans hac)
  have hreachp : t.Reach p := by
    rcases hplace with rfl | hbp
    · exact hreachz
    · exact (hreachz.trans (Descent.Below.single hb).within).trans hbp
  rw [leads, hparent]
  dsimp only
  rw [ht.lowestCommonAncestor_branches hc hreachp ha hac hb hba hplace]
  dsimp only
  rw [ht.childContaining_eq (hreachp.trans (Descent.Below.single htarget).within) hb hbt]
  simp only [Bool.or_eq_true, decide_eq_true_eq, ht.isFocusedDescendant_iff hreachp]
  exact or_congr_left eq_comm

/-- Beside a container above, there is nothing in between. -/
theorem leads_above (ht : Rooted t) (hc : t.Reach c) (ha : a ∈ t.children z)
    (hac : Descent.Within t.children a c) : t.leads c a = true := by
  have hreachz : t.Reach z := ht.reach_of_within hc ((Descent.Below.single ha).within.trans hac)
  have hza : Descent.Within t.children z c := (Descent.Below.single ha).within.trans hac
  rw [leads, ht.parent z a ha]
  dsimp only
  rw [ht.lowestCommonAncestor_eq hc hreachz hza (.refl _) fun y hy _ => ht.acyclic.not_within hy]
  dsimp only
  rw [ht.childContaining_eq (hreachz.trans (Descent.Below.single ha).within) ha (.refl _)]
  simp

/-- **After an insertion** the container is foremost exactly if its place had the focus of its branch. -/
theorem Chained.foremost_insert (h : t.Chained ws con) (hne : (t.con con).type ≠ .workspace)
    (hdest : t.Destined ws con target) (position : Position)
    (hwsr : ((t.insertConInto cfg con target position).treeFlatten cfg t.croot).Reach ws)
    (hcr : ((t.insertConInto cfg con target position).treeFlatten cfg t.croot).Reach con) :
    ((t.insertConInto cfg con target position).treeFlatten cfg t.croot).Foremost ws con
      ↔ t.leads con target = true := by
  have hr := h.healthy.rooted
  have htype := (h.not_floating hne (h.below hne) (.refl _)).1
  obtain ⟨z, a, b, p, hz, ha, hac, hb, hbt, hp, hba | ⟨rfl, rfl, habove⟩⟩ := hdest
  · rw [leads_iff hr h.reach_con ha hac hb hba hbt (List.mem_append_left _ hp)]
    exact foremost_insertInto h.healthy h.stacked h.reach_con h.focused htype h.workspace hz h.foremost ha
      hac hb hba hbt hp position hwsr hcr
  · have hzp := (hr.parent z b ha).symm.trans (hr.parent p b (List.mem_append_left _ hp))
    obtain rfl := Option.some_inj.mp hzp
    obtain ⟨hfa, hfac⟩ := hr.acyclic.between hr.parent hr.heads_subset h.foremost (hz.tail ha).within hac
    rw [foremost_insertAbove h.healthy h.stacked h.reach_con h.focused htype h.workspace hz hp habove hfac
      position hwsr hcr, leads_above hr h.reach_con ha hac]
    exact iff_of_true hfa rfl

/-! ### A forced orientation -/

/-- The tiling children of `ws` are in a new split container, behind the floating ones, and the workspace
has the orientation. -/
structure Forced (t t' : Tree) (ws : ConId) (o : Orientation) : Prop where
  healthy : Healthy t'
  reach : t'.Reach ws
  croot : t'.croot = t.croot
  focused : t'.focused = t.focused
  type : ∀ x ≠ t.nextCon, (t'.con x).type = (t.con x).type
  typeNew : (t'.con t.nextCon).type = .con
  nodesWs : (t'.con ws).nodesHead = [t.nextCon]
  nodesNew : (t'.con t.nextCon).nodesHead = (t.con ws).nodesHead
  nodesHead : ∀ x ≠ t.nextCon, x ≠ ws → (t'.con x).nodesHead = (t.con x).nodesHead
  floatingHead : ∀ x ≠ t.nextCon, (t'.con x).floatingHead.Perm (t.con x).floatingHead
  focusWs : (t'.con ws).focusHead = (t.con ws).focusHead.filter (· ∉ (t.con ws).nodesHead) ++ [t.nextCon]
  focusNew : (t'.con t.nextCon).focusHead = (t.con ws).focusHead.filter (· ∈ (t.con ws).nodesHead)
  focusHead : ∀ x ≠ t.nextCon, x ≠ ws → (t'.con x).focusHead = (t.con x).focusHead
  orientation : ∀ x ≠ t.nextCon, x ≠ ws → t'.orientation x = t.orientation x
  orientationNew : t'.orientation t.nextCon = t.orientation ws
  orientationWs : t'.orientation ws = some o

/-- The layout of the workspace may change before the new container is attached. -/
theorem setLayout_attached (t : Tree) (layout : Layout) (hne : x ≠ ws) :
    (((t.setLayout ws layout).setParent x ws).editNodes ws (· ++ [x])).editFocus ws (· ++ [x])
      = (((t.setParent x ws).editNodes ws (· ++ [x])).editFocus ws (· ++ [x])).setLayout ws layout := by
  simp only [setLayout, setParent, editNodes, editFocus, modify]
  congr 1
  ext1 d
  by_cases hd : d = ws
  · subst hd
    simp [hne.symm]
  · by_cases hdx : d = x <;> simp [hd, hdx, hne]

/-- **`ws_force_orientation`** wraps the tiling children of the workspace. -/
theorem Wrappable.forced (h : Wrappable t ws) (cfg : Config) (ho : o ≠ .none) :
    Forced t (t.wsForceOrientation cfg ws o) ws o := by
  have hb : Begins t (t.newLike cfg ws) ws := begins_newLike cfg t ws
  obtain ⟨hw, hfocusWs⟩ := h.wraps cfg hb rfl
  obtain ⟨hm, hempty, hmovable, hmove⟩ := h.moveChildren cfg hb
  obtain ⟨layout, hlayout⟩ : ∃ layout, (if o = .horiz then Layout.splith else .splitv) = layout := ⟨_, rfl⟩
  -- attaching the new container and setting the layout of the workspace commute
  have hattached : ∀ u : Tree, (∀ x, (u.con x).type = ((t.newLike cfg ws).movedChildren cfg ws t.nextCon |>.con x).type) →
      (u.con t.nextCon).window = none →
      (u.con ws).focusHead = ((t.newLike cfg ws).movedChildren cfg ws t.nextCon |>.con ws).focusHead →
      u.conAttach cfg t.nextCon ws false
        = ((u.setParent t.nextCon ws).editNodes ws (· ++ [t.nextCon])).editFocus ws (· ++ [t.nextCon]) := by
    intro u htype hwindow hfocus
    apply conAttach_workspace
    · rw [htype, hmovable.type]
    · rw [htype, hmovable.typeNew]
    · exact hwindow
    · exact h.focusedTiling hb hm hfocus htype
  obtain ⟨u, hu⟩ : ∃ u, (t.newLike cfg ws).moveChildren cfg ws t.nextCon = u := ⟨_, rfl⟩
  have hwindow : (u.con t.nextCon).window = none := by
    rw [← hu, hmove, editFocus, modify_window _ _ _ rfl, hm.window, hb.window]
  have hu' : u.conAttach cfg t.nextCon ws false
      = ((u.setParent t.nextCon ws).editNodes ws (· ++ [t.nextCon])).editFocus ws (· ++ [t.nextCon]) := by
    refine hattached u (fun x => ?_) hwindow ?_
    · rw [← hu, hmove, editFocus_type]
    · rw [← hu, hmove, editFocus_focusHead, if_neg h.ne]
  have hul : (u.setLayout ws layout).conAttach cfg t.nextCon ws false
      = (u.conAttach cfg t.nextCon ws false).setLayout ws layout := by
    have hset : SameFocus u (u.setLayout ws layout) := .of_modify u ws _ rfl
    rw [hu', ← setLayout_attached u layout h.ne.symm]
    refine hattached _ (fun x => ?_) ?_ ?_
    · rw [(links_setLayout u ws layout).type, ← hu, hmove, editFocus_type]
    · rw [setLayout, modify_window _ _ _ rfl, hwindow]
    · rw [hset.focusHead, ← hu, hmove, editFocus_focusHead, if_neg h.ne]
  have heq : t.wsForceOrientation cfg ws o
      = ((u.conAttach cfg t.nextCon ws false).setLayout ws layout).conFixPercent ws := by
    rw [← hul, ← hu, ← hlayout]
    rfl
  rw [hu] at hw hfocusWs
  rw [heq]
  generalize u.conAttach cfg t.nextCon ws false = v at hw hfocusWs ⊢
  have hl : Links v ((v.setLayout ws layout).conFixPercent ws) :=
    (links_setLayout v ws layout).trans (links_conFixPercent _ ws)
  have hs : SameFocus v ((v.setLayout ws layout).conFixPercent ws) :=
    SameFocus.trans (.of_modify v ws _ rfl) (sameFocus_conFixPercent _ ws)
  have hlayouts : ∀ x, (((v.setLayout ws layout).conFixPercent ws).con x).layout
      = if x = ws then layout else (v.con x).layout := by
    intro x
    have halters : Alters (fun _ => False) (fun _ => False) (fun _ => True) (v.setLayout ws layout)
        ((v.setLayout ws layout).conFixPercent ws) := .conFixPercent (.inr fun _ _ => trivial)
    rw [halters.layout, setLayout_layout]
  exact
    { healthy := hw.healthy.links hl
      reach := hl.reach.mpr hw.reach
      croot := hl.croot.trans hw.croot
      focused := hs.focused.trans hw.focused
      type := fun x hx => (hl.type x).trans (hw.type x hx)
      typeNew := (hl.type _).trans hw.typeNew
      nodesWs := (hl.nodesHead ws).trans hw.nodesWs
      nodesNew := (hl.nodesHead _).trans hw.nodesNew
      nodesHead := fun x hx hxws => (hl.nodesHead x).trans (hw.nodesHead x hx hxws)
      floatingHead := fun x hx => hw.floatingHead x hx ▸ hl.floatingHead x
      focusWs := (hs.focusHead ws).trans hfocusWs
      focusNew := (hs.focusHead _).trans hw.focusNew
      focusHead := fun x hx hxws => (hs.focusHead x).trans (hw.focusHead x hx hxws)
      orientation := fun x hx hxws => by
        rw [Tree.orientation, hlayouts, if_neg hxws, hw.layout x hx, Tree.orientation]
      orientationNew := by
        have hnew : ((t.newLike cfg ws).con t.nextCon).layout = (t.con ws).layout := by
          simp [newLike, conNew, setLayout, setParent, h.ne]
        rw [Tree.orientation, hlayouts, if_neg h.ne.symm, hw.layoutNew, hnew, Tree.orientation]
      orientationWs := by
        rw [Tree.orientation, hlayouts, if_pos rfl, ← hlayout]
        cases o with
        | none => exact absurd rfl ho
        | horiz => rfl
        | vert => rfl }

theorem Chained.wrappable (h : t.Chained ws con) : Wrappable t ws := by
  have hr := h.healthy.rooted
  refine ⟨h.healthy, h.stacked, h.reach, h.workspace, ?_, fun d hd => ?_⟩
  · -- a container that floats is in a floating container, and the workspace is not
    by_contra hfloating
    obtain ⟨p, hp, hptype⟩ := h.floating ws (.refl _) (by simpa using hfloating)
    obtain ⟨K, O, hK, hKtype, -⟩ := h.content
    obtain rfl := Option.some_inj.mp ((hr.parent K ws hK).symm.trans hp)
    exact absurd (hKtype.symm.trans hptype) nofun
  · have hmem : d ∈ t.children ws := List.mem_append_left _ hd
    refine ⟨(h.inside d (.single hmem)).resolve_right (hr.typeNodes ws d hd), ?_⟩
    by_contra hfloating
    obtain ⟨p, hp, hptype⟩ := h.floating d (Descent.Below.single hmem).within (by simpa using hfloating)
    obtain rfl := Option.some_inj.mp ((hr.parent ws d hmem).symm.trans hp)
    exact absurd (h.workspace.symm.trans hptype) nofun

namespace Forced

variable (hf : Forced t t' ws o) (h : t.Lodged ws)
include hf h

omit h in
theorem mem_children (hx : x ≠ t.nextCon) (hxws : x ≠ ws) : y ∈ t'.children x ↔ y ∈ t.children x := by
  rw [children, children, List.mem_append, List.mem_append, hf.nodesHead x hx hxws,
    (hf.floatingHead x hx).mem_iff]

theorem mem_children_ws : y ∈ t'.children ws ↔ y = t.nextCon ∨ y ∈ (t.con ws).floatingHead := by
  rw [children, List.mem_append, hf.nodesWs, (hf.floatingHead ws h.ne_nextCon).mem_iff, List.mem_singleton]

omit h in
theorem mem_children_new : y ∈ t'.children t.nextCon ↔ y ∈ (t.con ws).nodesHead := by
  rw [children, List.mem_append, hf.nodesNew, or_iff_left]
  intro hy
  -- only a workspace has floating containers
  exact absurd (hf.typeNew.symm.trans (hf.healthy.layered.floating _ y hy)) (by rintro ⟨⟩)

/-- What is below the workspace is the new container, or was below it before. -/
theorem below_cases (hx : Descent.Below t'.children ws x) : x = t.nextCon ∨ Descent.Below t.children ws x := by
  have hr := h.healthy.rooted
  induction hx with
  | single hx =>
    refine ((hf.mem_children_ws h).mp hx).imp_right fun hx => ?_
    exact .single (List.mem_append_right _ hx)
  | tail _ hx ih =>
    rcases ih with rfl | ih
    · exact .inr (.single (List.mem_append_left _ (hf.mem_children_new.mp hx)))
    · have hlt := hr.lt_nextCon (h.reach.trans ih.within)
      exact .inr (ih.trans (.single ((hf.mem_children hlt.ne (hr.acyclic.ne ih)).mp hx)))

/-- What is below a container on the workspace still is. -/
theorem within_of_within (hx : Descent.Below t.children ws x) (hxy : Descent.Within t.children x y) :
    Descent.Within t'.children x y := by
  have hr := h.healthy.rooted
  refine hxy.transfer fun q z hq hz _ => ?_
  have hwsq := hx.trans_within hq
  have hlt := hr.lt_nextCon (h.reach.trans hwsq.within)
  exact (hf.mem_children hlt.ne (hr.acyclic.ne hwsq)).mpr hz

/-- A tiling container is below the new one. -/
theorem new_below (ha : a ∈ (t.con ws).nodesHead) (hac : Descent.Within t.children a c) :
    Descent.Below t'.children t.nextCon c :=
  (Descent.Below.single (hf.mem_children_new.mpr ha)).trans_within
    (hf.within_of_within h (.single (List.mem_append_left _ ha)) hac)

theorem mem_ws : t.nextCon ∈ t'.children ws := (hf.mem_children_ws h).mpr (.inl rfl)

theorem below_of_below (hx : Descent.Below t.children ws x) : Descent.Below t'.children ws x := by
  obtain ⟨a, ha, hax⟩ := Descent.below_iff_head.mp hx
  rcases List.mem_append.mp ha with hnodes | hfloating
  · exact (Descent.Below.single (hf.mem_ws h)).trans (hf.new_below h hnodes hax)
  · exact (Descent.Below.single ((hf.mem_children_ws h).mpr (.inr hfloating))).trans_within
      (hf.within_of_within h (.single ha) hax)

/-- And what is below it now was so before. -/
theorem within_back (hx : Descent.Below t.children ws x) (hxy : Descent.Within t'.children x y) :
    Descent.Within t.children x y := by
  have hr' := hf.healthy.rooted
  have hwsx := hf.below_of_below h hx
  refine hxy.transfer fun q z hq hz _ => ?_
  refine (hf.mem_children ?_ (hr'.acyclic.ne (hwsx.trans_within hq))).mp hz
  -- the new container has the workspace for its parent, and is not below what it contains
  rintro rfl
  rcases Descent.within_iff.mp hq with heq | hxnew
  · exact (h.healthy.rooted.lt_nextCon (h.reach.trans hx.within)).ne heq.symm
  · exact hr'.acyclic.not_within hwsx
      (Descent.within_parent hr'.parent hxnew (hr'.parent ws _ (hf.mem_ws h)))

/-- The workspace is as before. -/
theorem lodged : t'.Lodged ws := by
  have hr := h.healthy.rooted
  have hr' := hf.healthy.rooted
  refine ⟨hf.healthy, fun p y hy => ?_, (hf.type ws h.ne_nextCon).trans h.workspace, hf.reach, ?_, fun x hx => ?_⟩
  · by_cases hp : p = t.nextCon
    · subst hp
      have hmem := hf.mem_children_new.mp hy
      rw [hf.focusNew, List.mem_filter]
      exact ⟨h.stacked ws (List.mem_append_left _ hmem), by simpa using hmem⟩
    by_cases hpws : p = ws
    · subst hpws
      rw [hf.focusWs, List.mem_append, List.mem_filter, List.mem_singleton]
      refine ((hf.mem_children_ws h).mp hy).elim .inr fun hfloating => .inl ?_
      refine ⟨h.stacked p (List.mem_append_right _ hfloating), ?_⟩
      simpa using fun hnodes => hr.typeNodes p y hnodes (hr.typeFloating p y hfloating)
    · rw [hf.focusHead p hp hpws]
      exact h.stacked p ((hf.mem_children hp hpws).mp hy)
  · obtain ⟨K, O, hK, hKtype, hO, hOtype⟩ := h.content
    have hreachO : t.Reach O := by
      refine hr.reach_of_within h.reach ?_
      exact ((Descent.Below.single hO).trans (.single hK)).within
    have hltO := hr.lt_nextCon hreachO
    have hltK := hr.bounded O K hO
    have hKws : K ≠ ws := (hr.acyclic.ne (.single hK)).symm
    have hOws : O ≠ ws := (hr.acyclic.ne ((Descent.Below.single hO).trans (.single hK))).symm
    exact ⟨K, O, (hf.mem_children hltK.ne hKws).mpr hK, (hf.type K hltK.ne).trans hKtype,
      (hf.mem_children hltO.ne hOws).mpr hO, (hf.type O hltO.ne).trans hOtype⟩
  · rcases hf.below_cases h hx with rfl | hx
    · exact .inl hf.typeNew
    · rw [hf.type x (hr.lt_nextCon (h.reach.trans hx.within)).ne]
      exact h.inside x hx

/-- Nothing above a container that was not inside a floating one is floating. -/
theorem tiling (htiling : ∀ x, Descent.Below t.children ws x → Descent.Within t.children x y →
    (t.con x).type ≠ .floatingCon) (hx : Descent.Below t'.children ws x)
    (hxy : Descent.Within t'.children x y) : (t'.con x).type ≠ .floatingCon := by
  rcases hf.below_cases h hx with rfl | hx
  · rw [hf.typeNew]
    nofun
  · rw [hf.type x (h.healthy.rooted.lt_nextCon (h.reach.trans hx.within)).ne]
    exact htiling x hx (hf.within_back h hx hxy)

/-- **After an orientation was forced**, a container without one above it has the workspace. -/
theorem parentWithOrientation_eq (hy : Descent.Below t.children ws y)
    (htiling : ∀ x, Descent.Below t.children ws x → Descent.Within t.children x y →
      (t.con x).type ≠ .floatingCon)
    (hnone : t.parentWithOrientation y o = none) : t'.parentWithOrientation y o = some ws := by
  have hr := h.healthy.rooted
  have hl := hf.lodged h
  have hy' := hf.below_of_below h hy
  have htiling' : ∀ x, Descent.Below t'.children ws x → Descent.Within t'.children x y →
      (t'.con x).type ≠ .floatingCon := fun x => hf.tiling h htiling
  have hbefore : ∀ x, Descent.Within t.children ws x → Descent.Below t.children x y →
      t.orientation x ≠ some o := fun x => h.parentWithOrientation_none hy htiling hnone
  cases hfind : t'.parentWithOrientation y o with
  | none => exact absurd hf.orientationWs (hl.parentWithOrientation_none hy' htiling' hfind (.refl _) hy')
  | some s =>
    obtain ⟨hwss, hsy, hso, -⟩ := hl.parentWithOrientation_some hy' htiling' hfind
    rcases Descent.within_iff.mp hwss with rfl | hwss
    · rfl
    rcases hf.below_cases h hwss with rfl | hws
    · rw [hf.orientationNew] at hso
      exact absurd hso (hbefore ws (.refl _) hy)
    · rw [hf.orientation s (hr.lt_nextCon (h.reach.trans hws.within)).ne (hr.acyclic.ne hws)] at hso
      refine absurd hso (hbefore s hws.within ?_)
      exact (Descent.within_iff.mp (hf.within_back h hws hsy.within)).resolve_left
        (hf.healthy.rooted.acyclic.ne hsy)

end Forced

section Decision

variable (hf : Forced t t' ws direction.orientation) (h : t.Chained ws con)
  (hne : (t.con con).type ≠ .workspace)
include hf h hne

theorem Forced.reach_con : t'.Reach con :=
  hf.reach.trans (hf.below_of_below h.toLodged (h.below hne)).within

/-- The container is still first below the new one. -/
theorem Forced.foremost_new : t'.Foremost t.nextCon con := by
  have hr := h.healthy.rooted
  obtain ⟨a, ha, hac⟩ := Descent.below_iff_head.mp
    ((Descent.within_iff.mp h.foremost).resolve_left (hr.acyclic.ne (h.below hne)))
  have hmem := hr.heads_subset ws ha
  have hnodes := h.mem_nodesHead hne (.refl _) hmem (hr.within_of_foremost hac)
  refine Relation.ReflTransGen.head (?_ : a ∈ t'.heads t.nextCon) ?_
  · obtain ⟨l, hl⟩ := List.head?_eq_some_iff.mp (mem_heads.mp ha)
    rw [mem_heads, hf.focusNew, hl, List.filter_cons_of_pos (by simpa using hnodes), List.head?_cons]
  · refine Descent.Within.transfer hac fun q y hq hy _ => ?_
    have hwsq : Descent.Below t.children ws q :=
      (Descent.Below.single hmem).trans_within (hr.within_of_foremost hq)
    rw [mem_heads, hf.focusHead q (hr.lt_nextCon (h.reach.trans hwsq.within)).ne (hr.acyclic.ne hwsq)]
    exact mem_heads.mp hy

omit hne in
/-- **The new container is first** on the workspace exactly if there are no floating ones. -/
theorem Forced.foremost_ws_iff : t'.Foremost ws t.nextCon ↔ (t.con ws).floatingHead = [] := by
  have hr := h.healthy.rooted
  have hr' := hf.healthy.rooted
  rw [hr'.foremost_iff_of_mem (.refl _) (hf.mem_ws h.toLodged), mem_heads, hf.focusWs]
  have hfilter : (t.con ws).focusHead.filter (· ∉ (t.con ws).nodesHead) = [] ↔ (t.con ws).floatingHead = [] := by
    rw [List.filter_eq_nil_iff, List.eq_nil_iff_forall_not_mem]
    refine forall_congr' fun d => ⟨fun hd hfloating => ?_, fun hd hfocus => ?_⟩
    · have hnot : d ∉ (t.con ws).nodesHead := fun hnodes =>
        hr.typeNodes ws d hnodes (hr.typeFloating ws d hfloating)
      exact absurd (hd (h.stacked ws (List.mem_append_right _ hfloating))) (by simpa using hnot)
    · simpa using (List.mem_append.mp (hr.focus ws d hfocus)).resolve_right hd
  rw [← hfilter]
  constructor
  · rintro ⟨-, hhead⟩
    cases hlist : (t.con ws).focusHead.filter (· ∉ (t.con ws).nodesHead) with
    | nil => rfl
    | cons d l =>
      rw [hlist, List.cons_append, List.head?_cons, Option.some_inj] at hhead
      have hd : d ∈ (t.con ws).focusHead := (List.mem_filter.mp (hlist ▸ List.mem_cons_self)).1
      exact absurd hhead (hr.bounded ws d (hr.focus ws d hd)).ne
  · intro hnil
    rw [hnil]
    exact ⟨.refl _, rfl⟩

/-- The container is foremost where the new one is. -/
theorem Forced.foremost_iff : t'.Foremost ws con ↔ (t.con ws).floatingHead = [] := by
  have hr' := hf.healthy.rooted
  rw [← hf.foremost_ws_iff h]
  refine ⟨fun hws => ?_, fun hws => hws.trans (hf.foremost_new h hne)⟩
  exact (hr'.acyclic.between hr'.parent hr'.heads_subset hws (Descent.Below.single (hf.mem_ws h.toLodged)).within
    (hr'.within_of_foremost (hf.foremost_new h hne))).1

/-- Out of the new container there is nothing beside it. -/
theorem Forced.moveOut_eq (haway : t.movesAway con = false) : t'.moveOut con ws direction = .stay ∨
    t'.moveOut con ws direction = .insert t.nextCon direction.beside := by
  have hr := h.healthy.rooted
  have hr' := hf.healthy.rooted
  have hl := hf.lodged h.toLodged
  have hnew := hr'.within_of_foremost (hf.foremost_new h hne)
  rw [moveOut, hr'.childContaining_eq (hf.reach_con h hne) (hf.mem_ws h.toLodged) hnew]
  dsimp only
  have hsibling : t'.siblingTowards ws t.nextCon direction = none := by
    cases direction <;> simp [siblingTowards, hf.nodesWs, Queue.next, Queue.prev]
  rw [hsibling]
  have hlone : t'.loneAtEdge con = false := by
    rw [loneAtEdge]
    obtain ⟨p, hwsp, hcp⟩ := Descent.below_iff_exists.mp (hf.below_of_below h.toLodged (h.below hne))
    rw [hr'.parent p con hcp]
    dsimp only
    have hp : Descent.Below t'.children ws p := by
      refine (Descent.within_iff.mp hwsp).resolve_left ?_
      rintro rfl
      rcases (hf.mem_children_ws h.toLodged).mp hcp with heq | hfloating
      · exact (hr.lt_nextCon h.reach_con).ne heq
      · exact (h.not_floating hne (h.below hne) (.refl _)).1 (hr.typeFloating p con hfloating)
    obtain ⟨g, hwsg, hpg⟩ := Descent.below_iff_exists.mp hp
    rw [hr'.parent g p hpg]
    dsimp only
    rcases Descent.within_iff.mp hwsg with rfl | hg
    · -- the parent is the new container, with as many children as the workspace had
      have hpnew : p = t.nextCon := by
        rcases (hf.mem_children_ws h.toLodged).mp hpg with heq | hfloating
        · exact heq
        · have hp' := (hf.below_cases h.toLodged hp).resolve_left
            (hr.bounded g p (List.mem_append_right _ hfloating)).ne
          have hpc := hf.within_back h.toLodged hp' (Descent.Below.single hcp).within
          exact absurd (hr.typeFloating g p hfloating) (h.not_floating hne hp' hpc).1
      subst hpnew
      have hcws := hf.mem_children_new.mp hcp
      have hparent := hr.parent g con (List.mem_append_left _ hcws)
      rw [movesAway, hparent] at haway
      have hmany : t.numChildren g ≠ 1 := by
        intro hone
        simp [h.workspace, hone] at haway
      have hsame : t'.numChildren t.nextCon = t.numChildren g := by
        rw [numChildren, numChildren, hf.nodesNew]
      simp [hsame, hmany]
    · have htype : (t'.con g).type ≠ .workspace := by
        rcases hl.inside g hg with hg | hg <;> simp [hg]
      simp [htype]
  rw [hlone]
  split
  · exact .inl rfl
  · exact .inr rfl

/-- **The search after an orientation was forced** leads out of the new container. -/
theorem Forced.exists_moveWithin
    (hnone : ∀ s ∈ t.parentWithOrientation con direction.orientation, t.moveWithin con s direction = none) :
    ∃ s, t'.parentWithOrientation con direction.orientation = some s
      ∧ t'.moveWithin con s direction = some (t'.moveOut con ws direction) := by
  have hr := h.healthy.rooted
  have hr' := hf.healthy.rooted
  have hl := hf.lodged h.toLodged
  have hbelow := h.below hne
  have hbelow' := hf.below_of_below h.toLodged hbelow
  have htiling : ∀ x, Descent.Below t.children ws x → Descent.Within t.children x con →
      (t.con x).type ≠ .floatingCon := fun x hx hxc => (h.not_floating hne hx hxc).1
  obtain ⟨p, hwsp, hcp⟩ := Descent.below_iff_exists.mp hbelow
  have hp := hr.parent p con hcp
  cases hfind : t.parentWithOrientation con direction.orientation with
  | none =>
    refine ⟨ws, hf.parentWithOrientation_eq h.toLodged hbelow htiling hfind, ?_⟩
    obtain ⟨p', -, hcp'⟩ := Descent.below_iff_exists.mp hbelow'
    rw [moveWithin, hr'.parent p' con hcp']
    dsimp only
    rw [if_pos]
    rintro rfl
    rcases (hf.mem_children_ws h.toLodged).mp hcp' with heq | hfloating
    · exact (hr.lt_nextCon h.reach_con).ne heq
    · exact htiling con hbelow (.refl _) (hr.typeFloating ws con hfloating)
  | some s =>
    -- the parent has the orientation, and nothing above it has
    have hwithin := hnone s hfind
    rw [moveWithin, hp] at hwithin
    dsimp only at hwithin
    split at hwithin
    · cases hwithin
    next hsp =>
    obtain rfl := not_not.mp hsp
    split at hwithin
    · cases hwithin
    next hsibling =>
    split at hwithin
    · cases hwithin
    next hgetWs =>
    have habove : t.parentWithOrientation s direction.orientation = none := Option.map_eq_none_iff.mp hwithin
    have hsws : s ≠ ws := by
      rintro rfl
      exact hgetWs (hr.getWorkspace_eq h.healthy.layered h.reach_con h.workspace h.within)
    have hwss : Descent.Below t.children ws s := (Descent.within_iff.mp hwsp).resolve_left hsws
    have hsnew : s ≠ t.nextCon := (hr.lt_nextCon (h.reach.trans hwsp)).ne
    have hcs' : con ∈ t'.children s := (hf.mem_children hsnew hsws).mpr hcp
    have hso := (h.parentWithOrientation_some hbelow htiling hfind).2.2.1
    rw [← hf.orientation s hsnew hsws] at hso
    refine ⟨s, ?_, ?_⟩
    · have htiling' : ∀ x, Descent.Below t'.children ws x → Descent.Within t'.children x con →
          (t'.con x).type ≠ .floatingCon := fun x => hf.tiling h.toLodged htiling
      cases hfind' : t'.parentWithOrientation con direction.orientation with
      | none =>
        exact absurd hso (hl.parentWithOrientation_none hbelow' htiling' hfind'
          (hf.below_of_below h.toLodged hwss).within (.single hcs'))
      | some s' =>
        obtain ⟨-, hs'c, -, hlowest⟩ := hl.parentWithOrientation_some hbelow' htiling' hfind'
        have hs's := Descent.within_parent hr'.parent hs'c (hr'.parent s con hcs')
        rcases Descent.within_iff.mp hs's with rfl | hs's
        · rfl
        · exact absurd hso (hlowest s hs's (.single hcs'))
    · rw [moveWithin, hr'.parent s con hcs']
      dsimp only
      have hsibling' : t'.siblingTowards s con direction = none := by
        rw [← hsibling]
        unfold siblingTowards
        rw [hf.nodesHead s hsnew hsws]
      have hgetWs' : t'.getWorkspace con = some ws :=
        hr'.getWorkspace_eq hf.healthy.layered (hf.reach_con h hne) hl.workspace hbelow'.within
      have habove' : t'.parentWithOrientation s direction.orientation = some ws := by
        refine hf.parentWithOrientation_eq h.toLodged hwss (fun x hx hxs => ?_) habove
        exact htiling x hx (hxs.trans (Descent.Below.single hcp).within)
      rw [if_neg (not_not.mpr rfl), hsibling', hgetWs', if_neg fun heq => hsws (Option.some_inj.mp heq).symm,
        habove']
      rfl

end Decision

/-! ### The decision -/

theorem Direction.orientation_ne (direction : Direction) : direction.orientation ≠ .none := by
  cases direction <;> nofun

namespace Chained

variable (h : t.Chained ws con) (hne : (t.con con).type ≠ .workspace)
include h hne

/-- **Without a place among the containers** an orientation is forced, and the container goes out of the
new one. -/
theorem moveSearchN_none (cfg : Config)
    (hnone : ∀ s ∈ t.parentWithOrientation con direction.orientation, t.moveWithin con s direction = none) :
    moveSearchN cfg con direction (n + 1) t none
      = (t.wsForceOrientation cfg ws direction.orientation,
        (t.wsForceOrientation cfg ws direction.orientation).moveOut con ws direction) := by
  have hf := h.wrappable.forced cfg (Direction.orientation_ne direction)
  have hgetWs : t.getWorkspace con = some ws :=
    h.healthy.rooted.getWorkspace_eq h.healthy.layered h.reach_con h.workspace h.within
  have hfloating : t.isFloating con = false := (h.not_floating hne (h.below hne) (.refl _)).2
  obtain ⟨s, hs, hwithin⟩ := hf.exists_moveWithin h hne hnone
  simp [moveSearchN, hfloating, h.tiling, hgetWs, hs, hwithin]

/-- **What `tree_move` decides**: a place in the tree as it is, or out of a new container around the tiling
children. -/
theorem moveDecision_cases (cfg : Config) (direction : Direction) :
    t.forces con direction = false ∧ (t.moveDecision cfg con direction).1 = t
        ∧ t.Places ws con (t.moveDecision cfg con direction).2
      ∨ t.forces con direction = true
        ∧ (t.moveDecision cfg con direction).1 = t.wsForceOrientation cfg ws direction.orientation
        ∧ ((t.moveDecision cfg con direction).2 = .stay
          ∨ (t.moveDecision cfg con direction).2 = .insert t.nextCon direction.beside) := by
  have hf := h.wrappable.forced cfg (Direction.orientation_ne direction)
  rw [moveDecision, forces]
  by_cases hglobal : (t.con con).fullscreenMode = .global
  · rw [if_pos (.inr hglobal)]
    exact .inl ⟨by simp [hglobal], rfl, trivial⟩
  rw [if_neg (not_or.mpr ⟨hne, hglobal⟩)]
  cases haway : t.movesAway con with
  | true =>
    rw [if_pos rfl]
    exact .inl ⟨by simp, rfl, trivial⟩
  | false =>
    rw [if_neg Bool.false_ne_true]
    have hforced : (∀ s ∈ t.parentWithOrientation con direction.orientation,
          t.moveWithin con s direction = none) →
        moveSearchN cfg con direction 2 t (t.parentWithOrientation con direction.orientation)
          = (t.wsForceOrientation cfg ws direction.orientation,
            (t.wsForceOrientation cfg ws direction.orientation).moveOut con ws direction) := by
      intro hnone
      cases hfind : t.parentWithOrientation con direction.orientation with
      | none => exact h.moveSearchN_none hne cfg hnone
      | some s =>
        rw [moveSearchN, hnone s hfind]
        exact h.moveSearchN_none hne cfg hnone
    cases hfind : t.parentWithOrientation con direction.orientation with
    | none =>
      rw [hfind] at hforced
      rw [hforced nofun]
      exact .inr ⟨by simp [hne, hglobal], rfl, hf.moveOut_eq h hne haway⟩
    | some s =>
      cases hwithin : t.moveWithin con s direction with
      | none =>
        rw [hfind] at hforced
        rw [hforced fun s' hs' => Option.some_inj.mp hs' ▸ hwithin]
        exact .inr ⟨by simp [hne, hglobal, hwithin], rfl, hf.moveOut_eq h hne haway⟩
      | some move =>
        rw [moveSearchN, hwithin]
        exact .inl ⟨by simp [hwithin], rfl, h.places_moveWithin hne hfind hwithin⟩

end Chained

/-! ### After the move -/

/-- Nothing floats in front of a new split container, and the place next to a target has the focus of its
branch. -/
def StaysAhead (cfg : Config) (t : Tree) (ws con : ConId) (direction : Direction) : Prop :=
  (t.forces con direction = true → (t.con ws).floatingHead = []) ∧
    ∀ target position, (t.moveDecision cfg con direction).2 = .insert target position →
      (t.moveDecision cfg con direction).1.leads con target = true

section Moved

variable {outputs : List Output} (h : t.Chained ws con) (hne : (t.con con).type ≠ .workspace)
include h hne

theorem Chained.sits : t.Sits con := by
  obtain ⟨p, -, hp⟩ := Descent.below_iff_exists.mp (h.below hne)
  exact ⟨h.reach_con, h.healthy.rooted.ne_croot_of_mem hp⟩

theorem Chained.inner (hx : Descent.Within t.children con x) : (t.con x).type ≠ .workspace :=
  h.healthy.layered.workspace ws h.workspace x ((h.below hne).trans_within hx)

/-- **On another output** the container has the focus, and comes first. -/
theorem Chained.foremost_moveToOutputDirected (houtputs : t.Connected outputs)
    (hreach : (t.moveToOutputDirected cfg outputs con direction).Reach con)
    (hw : (t.moveToOutputDirected cfg outputs con direction).getWorkspace con = some w) :
    (t.moveToOutputDirected cfg outputs con direction).Foremost w con := by
  have hr := h.healthy.rooted
  have ht : Intact t := ⟨h.healthy, h.stacked⟩
  have htype := (h.not_floating hne (h.below hne) (.refl _)).1
  rcases moveToOutputDirected_cases ht houtputs (h.sits hne) htype (fun y hy => h.inner hne hy) cfg
    direction with ⟨-, heq⟩ | ⟨s, ws', hs, heq⟩
  · rw [heq] at hw ⊢
    rw [hr.getWorkspace_eq h.healthy.layered h.reach_con h.workspace h.within] at hw
    exact Option.some_inj.mp hw ▸ h.foremost
  rw [if_pos h.focused] at heq
  rw [heq] at hreach hw ⊢
  -- the container is focused, the workspace is shown, and the container is focused again
  have hl : Links s ((s.conFocus cfg con).setFocused (t.getWorkspace con)) :=
    ((stirs_conFocus cfg s con).trans (stirs_setFocused _ _)).links
  have hshown := hs.intact.links hl
  have hedits : Edits False _ (workspaceShow cfg _ ws') := edits_workspaceShow hshown.healthy ws'
  have hv : Intact (workspaceShow cfg _ ws') := intact_workspaceShow hshown ws'
  obtain ⟨v, hv'⟩ : ∃ v, ((s.conFocus cfg con).setFocused (t.getWorkspace con)).workspaceShow cfg ws' = v := ⟨_, rfl⟩
  rw [hv'] at hedits hv hreach hw ⊢
  have hcroot : v.croot = t.croot := hedits.croot.trans (hl.croot.trans hs.croot)
  have hlt : con < v.nextCon :=
    (hr.lt_nextCon h.reach_con).trans_le (hs.nextCon.trans (hl.nextCon.ge.trans hedits.nextCon))
  have hlu := (stirs_conFocus cfg v con).links
  have hu := hv.links hlu
  have hltu : con < (v.conFocus cfg con).nextCon := hlu.nextCon ▸ hlt
  have hflat : Flattens _ (treeFlatten cfg _ _) _ := flattens_treeFlatten hu.healthy (.refl _)
  have hreachu := hflat.calm.reach hu.healthy.rooted hltu hreach
  have hsitsv : v.Sits con := ⟨hlu.reach.mp hreachu, hcroot ▸ (h.sits hne).2⟩
  obtain ⟨p, hp, -⟩ := hv.healthy.rooted.exists_parent hsitsv
  -- flattening makes no workspaces
  obtain ⟨hwtype, hwcon⟩ := hflat.calm.healthy.rooted.getWorkspace_spec hreach hw
  have hwreach := hflat.calm.healthy.rooted.reach_of_within hreach hwcon
  have hltw : w < (v.conFocus cfg con).nextCon := by
    by_contra hnot
    have hnew := hflat.calm.new w (not_lt.mp hnot) (hflat.calm.healthy.rooted.lt_nextCon hwreach)
    exact absurd (hwtype.symm.trans hnew.1) nofun
  have hwu := hflat.calm.within hltw hltu hwcon
  have hfocused : (v.conFocus cfg con).focused = some con :=
    conFocus_focused hp (Nat.zero_lt_of_lt hlt)
  refine (hflat.foremost hu.stacked w hltw con hltu ((hflat.calm.type w hltw).symm.trans hwtype) hwreach hreach
    hfocused).mpr ?_
  exact foremost_conFocus hv hsitsv.1 (hlu.within.mp hwu)

end Moved

/-- The workspace stays the one of a container that is put next to another one on it. -/
theorem Lodged.workspace_insertConInto (h : t.Lodged ws) (hc : Descent.Below t.children ws con)
    (htype : (t.con con).type ≠ .floatingCon) (hp : Descent.Within t.children ws p)
    (htarget : target ∈ (t.con p).nodesHead) (hne : target ≠ con) (position : Position)
    (hreach : ((t.insertConInto cfg con target position).treeFlatten cfg
      (t.insertConInto cfg con target position).croot).Reach con)
    (hw : ((t.insertConInto cfg con target position).treeFlatten cfg
      (t.insertConInto cfg con target position).croot).getWorkspace con = some w) :
    w = ws ∧ (t.insertConInto cfg con target position).croot = t.croot
      ∧ ((t.insertConInto cfg con target position).treeFlatten cfg
        (t.insertConInto cfg con target position).croot).Reach ws := by
  have hr := h.healthy.rooted
  have hreachc : t.Reach con := h.reach.trans hc.within
  obtain ⟨q, -, hq⟩ := Descent.below_iff_exists.mp hc
  have hbrought : Brought t (t.insertConInto cfg con target position) con p :=
    brought_insertConInto ⟨h.healthy, h.stacked⟩ ⟨hreachc, hr.ne_croot_of_mem hq⟩ htype
      (fun y hy => h.healthy.layered.workspace ws h.workspace y (hc.trans_within hy)) (h.reach.trans hp)
      h.workspace hp htarget hne position
  have hflat : Brought t (treeFlatten cfg _ _) con p := hbrought.treeFlatten
  obtain ⟨hwtype, hwcon⟩ := hflat.intact.healthy.rooted.getWorkspace_spec hreach hw
  obtain rfl := hflat.workspace_eq h.healthy hreachc hc.within h.workspace hp hreach hwtype hwcon
  exact ⟨rfl, hbrought.croot, hflat.intact.healthy.rooted.reach_of_within hreach hwcon⟩

/-- **Out of a new split container**, the container is foremost where that one is. -/
theorem Forced.foremost_insert (hf : Forced t t' ws direction.orientation) (h : t.Chained ws con)
    (hne : (t.con con).type ≠ .workspace) (position : Position)
    (hreach : ((t'.insertConInto cfg con t.nextCon position).treeFlatten cfg
      (t'.insertConInto cfg con t.nextCon position).croot).Reach con)
    (hw : ((t'.insertConInto cfg con t.nextCon position).treeFlatten cfg
      (t'.insertConInto cfg con t.nextCon position).croot).getWorkspace con = some w) :
    ((t'.insertConInto cfg con t.nextCon position).treeFlatten cfg
        (t'.insertConInto cfg con t.nextCon position).croot).Foremost w con
      ↔ (t.con ws).floatingHead = [] := by
  have hl := hf.lodged h.toLodged
  have hbelow := hf.below_of_below h.toLodged (h.below hne)
  have hlt : con ≠ t.nextCon := (h.healthy.rooted.lt_nextCon h.reach_con).ne
  have htype : (t'.con con).type ≠ .floatingCon := by
    rw [hf.type con hlt]
    exact (h.not_floating hne (h.below hne) (.refl _)).1
  have hnodes : t.nextCon ∈ (t'.con ws).nodesHead := by rw [hf.nodesWs, List.mem_singleton]
  obtain ⟨rfl, hcroot, hwsr⟩ :=
    hl.workspace_insertConInto hbelow htype (.refl _) hnodes hlt.symm position hreach hw
  rw [hcroot] at hreach hwsr ⊢
  have hforemost := hf.foremost_new h hne
  have hnew := (Descent.within_iff.mp (hf.healthy.rooted.within_of_foremost hforemost)).resolve_left hlt
  rw [← hf.foremost_ws_iff h]
  exact foremost_insertAbove hl.healthy hl.stacked (hf.reach_con h hne) (hf.focused.trans h.focused) htype
    hl.workspace (.refl _) hnodes hnew hforemost position hwsr hreach

/-- The target is on the workspace, and is another container. -/
theorem Chained.destined_spec (h : t.Chained ws con) (hdest : t.Destined ws con target) :
    ∃ p, Descent.Within t.children ws p ∧ target ∈ (t.con p).nodesHead ∧ target ≠ con := by
  have hr := h.healthy.rooted
  obtain ⟨z, a, b, p, hz, ha, hac, hb, hbt, hp, hcases⟩ := hdest
  have hparent := hr.parent p target (List.mem_append_left _ hp)
  refine ⟨p, ?_, hp, ?_⟩
  · rcases Descent.within_iff.mp hbt with rfl | hbt
    · exact Option.some_inj.mp ((hr.parent z target hb).symm.trans hparent) ▸ hz
    · exact (hz.tail hb).within.trans (Descent.within_parent hr.parent hbt hparent)
  · rcases hcases with hba | ⟨rfl, -, hbelow⟩
    · rintro rfl
      exact hba (hr.acyclic.eq_of_within hr.parent hb ha hbt hac)
    · exact (hr.acyclic.ne hbelow).symm

/-- A swap of siblings leaves the focus stacks and the parents alone. -/
theorem foremost_editNodes (f : List ConId → List ConId) :
    (t.editNodes p f).Foremost ws c ↔ t.Foremost ws c := by
  have hheads : (t.editNodes p f).heads = t.heads := by
    ext1 q
    rw [heads, heads, editNodes_focusHead]
  rw [Foremost, hheads, Foremost]

theorem chainN_editNodes (f : List ConId → List ConId) : (t.editNodes p f).chainN n c = t.chainN n c := by
  induction n generalizing c with
  | zero => rfl
  | succ n ih =>
    rw [chainN, chainN, editNodes_parent]
    split
    · rfl
    · rw [ih]

theorem getWorkspace_editNodes (f : List ConId → List ConId) :
    (t.editNodes p f).getWorkspace c = t.getWorkspace c := by
  unfold getWorkspace chain
  rw [chainN_editNodes]
  simp only [editNodes_type]
  rfl

/-- **`tree_move` keeps the focus chain** exactly if nothing floats in front of a new split container, and the
place next to a target has the focus of its branch. -/
theorem Chained.foremost_treeMove {outputs : List Output} (h : t.Chained ws con)
    (houtputs : t.Connected outputs) (direction : Direction)
    (hreach : (t.treeMove cfg outputs con direction).Reach con)
    (hw : (t.treeMove cfg outputs con direction).getWorkspace con = some w) :
    (t.treeMove cfg outputs con direction).Foremost w con ↔ StaysAhead cfg t ws con direction := by
  have hr := h.healthy.rooted
  have hws : t.getWorkspace con = some ws :=
    hr.getWorkspace_eq h.healthy.layered h.reach_con h.workspace h.within
  by_cases hne : (t.con con).type = .workspace
  · -- a workspace is not moved
    have hdecision : t.moveDecision cfg con direction = (t, .stay) := if_pos (.inl hne)
    rw [treeMove, hdecision] at hw ⊢
    rw [hws] at hw
    simp [StaysAhead, hdecision, forces, hne, ← Option.some_inj.mp hw, h.foremost]
  rw [StaysAhead]
  have htype := (h.not_floating hne (h.below hne) (.refl _)).1
  rcases h.moveDecision_cases hne cfg direction with ⟨hforces, htree, hplaces⟩ | ⟨hforces, htree, hmove⟩
  · obtain ⟨move, hmove⟩ : ∃ move, (t.moveDecision cfg con direction).2 = move := ⟨_, rfl⟩
    have hdecision : t.moveDecision cfg con direction = (t, move) := Prod.ext htree hmove
    rw [hmove] at hplaces
    rw [hforces, hdecision]
    rw [treeMove, hdecision] at hreach hw ⊢
    simp only [Bool.false_eq_true, false_imp_iff, true_and]
    cases move with
    | stay =>
      rw [hws] at hw
      simp [← Option.some_inj.mp hw, h.foremost]
    | swap sibling =>
      obtain ⟨p, -, hp⟩ := Descent.below_iff_exists.mp (h.below hne)
      simp only [hr.parent p con hp] at hw ⊢
      rw [getWorkspace_editNodes, hws] at hw
      simp [foremost_editNodes, ← Option.some_inj.mp hw, h.foremost]
    | insert target position =>
      dsimp only at hreach hw ⊢
      obtain ⟨p, hp, htarget, hne'⟩ := h.destined_spec hplaces
      obtain ⟨rfl, hcroot, hwsr⟩ :=
        h.workspace_insertConInto (h.below hne) htype hp htarget hne' position hreach hw
      rw [hcroot] at hreach hwsr ⊢
      rw [h.foremost_insert hne hplaces position hwsr hreach]
      simp
    | toWorkspace => exact absurd hplaces nofun
    | toOutput =>
      refine iff_of_true ?_ nofun
      exact h.foremost_moveToOutputDirected hne houtputs hreach hw
    | floatingDisable => exact absurd hplaces nofun
  · have hf := h.wrappable.forced cfg (Direction.orientation_ne direction)
    generalize t.wsForceOrientation cfg ws direction.orientation = u at hf htree
    have hforemost := hf.foremost_new h hne
    have hleads : u.leads con t.nextCon = true :=
      leads_above hf.healthy.rooted (hf.reach_con h hne) (hf.mem_ws h.toLodged)
        (hf.healthy.rooted.within_of_foremost hforemost)
    rw [hforces, htree]
    simp only [true_imp_iff]
    rcases hmove with hmove | hmove
    · have hdecision : t.moveDecision cfg con direction = (u, .stay) := Prod.ext htree hmove
      rw [treeMove, hdecision] at hreach hw ⊢
      dsimp only at hreach hw ⊢
      have hws' := hf.healthy.rooted.getWorkspace_eq hf.healthy.layered (hf.reach_con h hne)
        (hf.lodged h.toLodged).workspace (hf.below_of_below h.toLodged (h.below hne)).within
      rw [hws'] at hw
      rw [← Option.some_inj.mp hw, hf.foremost_iff h hne]
      simp
    · have hdecision : t.moveDecision cfg con direction = (u, .insert t.nextCon direction.beside) :=
        Prod.ext htree hmove
      rw [treeMove, hdecision] at hreach hw ⊢
      dsimp only at hreach hw ⊢
      rw [hf.foremost_insert h hne _ hreach hw]
      simp [hleads]

/-! ### A branch with another focus -/

/-- A window beside a split container, whose first child is a split container and whose second one has its
focus. -/
def besideBranch : Tree := ofList [
  { type := .root, layout := .splith, nodesHead := [1], focusHead := [1] },
  { type := .output, parent := some 0, name := "eDP-1", layout := .output, nodesHead := [2], focusHead := [2] },
  { parent := some 1, layout := .splith, nodesHead := [3], focusHead := [3] },
  { type := .workspace, parent := some 2, name := "1", num := 1, layout := .splith, nodesHead := [4, 5],
    focusHead := [4, 5], fullscreenMode := .output },
  { parent := some 3, window := some { id := 1 } },
  { parent := some 3, layout := .splith, nodesHead := [6, 7], focusHead := [7, 6] },
  { parent := some 5, layout := .splitv, nodesHead := [8, 9], focusHead := [8, 9] },
  { parent := some 5, window := some { id := 2 } },
  { parent := some 6, window := some { id := 3 } },
  { parent := some 6, window := some { id := 4 } }] (some 4)

theorem chained_besideBranch : besideBranch.Chained 3 4 := by
  have hrooted : Rooted besideBranch := rooted_ofList (by decide +kernel) (by decide +kernel)
  have hlist : ∀ q < 10, ∀ c ∈ besideBranch.children q, q < c := by decide +kernel
  have hchildren : ∀ q, ∀ c ∈ besideBranch.children q, q < c := by
    intro q c hc
    by_cases hq : q < 10
    · exact hlist q hq c hc
    · rw [besideBranch, children, ofList_con hq] at hc
      cases hc
  have hreach : besideBranch.Reach 3 := reach_of_isChain (l := [1, 2, 3]) reach_croot (by decide +kernel) (by simp)
  have hlt : ∀ x, Descent.Within besideBranch.children 3 x → x < 10 := fun x hx =>
    hrooted.lt_nextCon (hreach.trans hx)
  have htypes : ∀ x < 10, 3 < x → (besideBranch.con x).type = .con := by decide +kernel
  have hfloating : ∀ x < 10, besideBranch.isFloating x = false := by decide +kernel
  exact {
    healthy := healthy_ofList (3 < ·) hrooted (by decide +kernel)
    stacked := stacked_ofList (by decide +kernel)
    workspace := rfl
    reach := hreach
    content := ⟨2, 1, by decide +kernel, rfl, by decide +kernel, rfl⟩
    inside := fun x hx => .inl (htypes x (hlt x hx.within) (Descent.lt_of_below hchildren hx))
    floating := fun x hx h => absurd h (by simp [hfloating x (hlt x hx)])
    tiling := by decide +kernel
    focused := rfl
    foremost := .single (by decide +kernel) }

/-- The window goes into the first child of the branch, behind the focus of the branch. -/
theorem foremost_treeMove_besideBranch :
    ¬ StaysAhead {} besideBranch 3 4 .right ∧ ((besideBranch.treeMove {} [] 4 .right).Foremost 3 4
      ↔ StaysAhead {} besideBranch 3 4 .right) := by
  refine ⟨fun h => ?_, chained_besideBranch.foremost_treeMove (by simp [Connected]) .right ?_
    (by decide +kernel)⟩
  · exact absurd (h.2 8 .after (by decide +kernel)) (by decide +kernel)
  · exact reach_of_isChain (l := [1, 2, 3, 5, 6, 4]) reach_croot (by decide +kernel) (by simp)

end Tree

end I3
