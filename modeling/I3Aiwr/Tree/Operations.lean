import I3Aiwr.Tree.SwapModes
import I3Aiwr.Tree.IntactMoves

/-!
# Sequences of container operations

The operations the commands and the event handlers work with: focusing, opening, closing, moving and
inserting containers, showing workspaces and fullscreen modes. Each keeps an intact tree intact, whatever
came before it.

## Main definitions

* `Tree.treeOpenCon`
* `Tree.Operates cfg t t'`: a single operation, with what its callers see to

## Main results

* `Tree.intact_treeOpenCon`, `Tree.intact_conMoveToWorkspace`, `Tree.intact_conEnableFullscreen`
* `Tree.intact_run`: any sequence of operations
-/

namespace I3

namespace Tree

section Definitions

variable (cfg : Config) (t : Tree)

/-- `tree_open_con` for a given parent. -/
def treeOpenCon (con : ConId) (window : Option Window) : Tree :=
  let (t, new) := t.conNew cfg window
  ((t.conAttach cfg new con false).setLayout new .splith).conFixPercent con

/-- A single operation on the tree. What the callers see to: a container that is opened, moved, inserted or
swapped has its place below a workspace, and the root stays where it is. -/
inductive Operates : Tree → Tree → Prop
  | activate (t : Tree) (c : ConId) : Operates t (t.conActivate cfg c)
  | urgency (t : Tree) (c : ConId) (urgent : Bool) : Operates t (t.conSetUrgency c urgent)
  | fixPercent (t : Tree) (c : ConId) : Operates t (t.conFixPercent c)
  | openCon (t : Tree) (con : ConId) (window : Option Window) (hcon : t.Reach con) :
    Operates t (t.treeOpenCon cfg con window)
  | close (t : Tree) (c : ConId) (kill : KillWindow) (dontKillParent : Bool) (hc : c ≠ t.croot) :
    Operates t (t.treeCloseInternal cfg c kill dontKillParent)
  | showWorkspace (t : Tree) (ws : ConId) : Operates t (t.workspaceShow cfg ws)
  | moveToWorkspace (t : Tree) (c ws : ConId) (fixCoordinates ignoreFocus : Bool) (hc : t.Reach c)
      (hplaced : t.Placed (t.movedCon c)) (hws : t.Reach ws) :
    Operates t (t.conMoveToWorkspace cfg c ws fixCoordinates ignoreFocus)
  | insert (t : Tree) (c target p : ConId) (position : Position) (hc : t.Reach c) (hplaced : t.Placed c)
      (htype : (t.con c).type ≠ .floatingCon) (hp : t.Reach p) (hpw : ∃ w, (t.con w).type = .workspace
        ∧ Descent.Within t.children w p) (htarget : target ∈ (t.con p).nodesHead) (hne : target ≠ c) :
    Operates t (t.insertConInto cfg c target position)
  | attach (t : Tree) (c ws : ConId) (direction : Direction) (hc : t.Reach c) (hplaced : t.Placed c)
      (htype : (t.con c).type ≠ .floatingCon) (hws : (t.con ws).type = .workspace) :
    Operates t (t.attachToWorkspace cfg c ws direction)
  | flatten (t : Tree) (c : ConId) (hc : t.Reach c) : Operates t (t.treeFlatten cfg c)
  | enableFullscreen (t : Tree) (c : ConId) (mode : FullscreenMode) (hc : t.Sits c) :
    Operates t (t.conEnableFullscreen cfg c mode)
  | disableFullscreen (t : Tree) (c : ConId) : Operates t (t.conDisableFullscreen c)
  | swap (t : Tree) (a b : ConId) (ha : t.Reach a) (hb : t.Reach b) (hpa : t.Placed a) (hpb : t.Placed b) :
    Operates t (t.conSwap cfg a b).1

end Definitions

variable {cfg : Config} {t t' : Tree} {c p w x ws target : ConId}

/-! ### Opening -/

theorem creates_conNew_fst (cfg : Config) (t : Tree) (window : Option Window) :
    Creates t (t.conNew cfg window).1 t.nextCon where
  allCons := rfl
  croot := rfl
  nextCon := rfl
  new := by simp [conNew]
  type d hd := by simp [conNew, hd]
  fullscreenMode d hd := by simp [conNew, hd]
  sticky d hd := by simp [conNew, hd]
  parent d hd _ := by simp [conNew, hd]
  nodesHead d hd := by simp [conNew, hd]
  floatingHead d hd := by simp [conNew, hd]
  focusHead d hd := by simp [conNew, hd]

theorem Healthy.creates (ht : Healthy t) (h : Creates t t' c) (hc : ∀ q, c ∉ t.children q)
    (hroot : c ≠ t.croot) : Healthy t' where
  rooted := ht.rooted.creates h hc hroot
  layered := ht.layered.creates ht.rooted h
  global w hlt hw := by
    by_cases hnew : w = t.nextCon
    · rw [hnew, h.new.2.1]
      nofun
    · rw [h.type w hnew, h.croot] at hw
      rw [h.fullscreenMode w hnew]
      rw [h.nextCon] at hlt
      exact ht.global w (lt_of_le_of_ne (Nat.lt_succ_iff.mp hlt) hnew) hw

/-- Attaching a container that is not listed keeps the tree healthy. -/
theorem Joins.healthy_of (ht : Healthy t) (h : Joins t t' c p) : Healthy t' where
  rooted := h.rooted
  layered := h.layered
  global w hlt hw := by
    by_cases hold : w < t.nextCon
    · rw [h.type w hold, h.croot] at hw
      rw [h.fullscreenMode w hold]
      exact ht.global w hold hw
    · rw [(h.new w (not_lt.mp hold) hlt).2.1]
      nofun

/-- **Opening a container** keeps the tree intact. -/
theorem intact_treeOpenCon (ht : Intact t) (hp : t.Reach p) (window : Option Window) :
    Intact (t.treeOpenCon cfg p window) := by
  have hr := ht.healthy.rooted
  have hplt := hr.lt_nextCon hp
  have hcreates := creates_conNew_fst cfg t window
  have hnone := hr.notMem_children_nextCon
  have hroot := hr.boundedRoot.ne'
  have hs : Intact (t.conNew cfg window).1 :=
    ⟨ht.healthy.creates hcreates hnone hroot, ht.stacked.creates hcreates⟩
  rw [treeOpenCon]
  dsimp only
  have hnew : (t.conNew cfg window).2 = t.nextCon := rfl
  rw [hnew]
  generalize (t.conNew cfg window).1 = s at hcreates hs ⊢
  have hunlisted : ∀ q, t.nextCon ∉ s.children q := fun q hq => hnone q (hcreates.children_subset q hq)
  have hbelow : ¬ Descent.Within s.children t.nextCon p := fun h => hplt.ne (hcreates.eq_of_within_new h)
  have htype : (s.con t.nextCon).type ≠ .floatingCon := by
    rw [hcreates.new.1]
    rintro ⟨⟩
  have hjoins : Joins s (s.conAttachAt cfg t.nextCon p none false) t.nextCon p := by
    apply joins_conAttachAt hs.healthy.rooted hs.healthy.layered hunlisted
    · rwa [hcreates.croot]
    · rw [hcreates.nextCon]
      exact Nat.lt_succ_self _
    · exact hbelow
    · intro x hx
      rw [hcreates.eq_of_within_new hx, Alive, hcreates.allCons]
      simp
    · intro _ _ _ x hx
      rw [hcreates.eq_of_within_new hx, hcreates.new.1]
      rintro ⟨⟩
    · exact fun h => absurd h htype
    · rw [hcreates.nextCon]
      exact hplt.trans (Nat.lt_succ_self _)
    · exact fun _ => htype
    · exact fun _ => hs.healthy.rooted.anchorOk p
  have hattached : Intact (s.conAttach cfg t.nextCon p false) := by
    refine ⟨hjoins.healthy_of hs.healthy, hs.stacked.conAttachAt hs.healthy.rooted hunlisted ?_ ?_ ?_ ?_⟩
    · rwa [hcreates.croot]
    · rw [hcreates.nextCon]
      exact Nat.lt_succ_self _
    · exact fun _ => htype
    · exact fun _ => hs.healthy.rooted.anchorOk p
  exact hattached.links ((links_setLayout _ t.nextCon .splith).trans (links_conFixPercent _ p))

/-! ### Moving to a workspace -/

theorem Rooted.movedCon_within (ht : Rooted t) (hc : t.Reach c) :
    Descent.Within t.children (t.movedCon c) c ∧ t.Reach (t.movedCon c) := by
  rw [movedCon]
  split
  · cases hp : (t.con c).parent with
    | none => exact ⟨.refl _, hc⟩
    | some q =>
      exact ⟨(Descent.Below.single (ht.mem_children_of_parent hc hp)).within, ht.reach_parent hc hp⟩
  · exact ⟨.refl _, hc⟩

/-- **Moving a container to a workspace** keeps the tree intact. -/
theorem intact_conMoveToWorkspace (ht : Intact t) (hc : t.Reach c) (hplaced : t.Placed (t.movedCon c))
    (hws : t.Reach ws) (fixCoordinates ignoreFocus : Bool) :
    Intact (t.conMoveToWorkspace cfg c ws fixCoordinates ignoreFocus) := by
  have hr := ht.healthy.rooted
  rw [conMoveToWorkspace]
  split
  · exact ht
  next hcheck =>
  obtain ⟨htype, hother⟩ := not_or.mp hcheck
  rw [not_not] at htype
  obtain ⟨hmc, hm⟩ := hr.movedCon_within hc
  have hmtype := ht.healthy.type_ne_workspace hplaced (.refl _)
  have htarget : Descent.Within t.children ws (t.descendFocused ws) := hr.descendFocusedN_within _ _
  rw [conMoveToCon, if_neg hmtype]
  apply intact_moveConWith (fun s w hs => intact_workspaceShow hs w) ht hm (fun _ => hplaced) (hws.trans htarget)
  · -- the container is not above the target, or the workspace would be in it or above it
    intro h
    rcases Descent.within_total hr.parent h htarget with hmw | hwm
    · exact ht.healthy.type_ne_workspace hplaced hmw htype
    · exact hother (hr.getWorkspace_eq ht.healthy.layered hc htype (hwm.trans hmc))
  · simp

/-! ### Fullscreen -/

theorem Stacked.disableConflicting (hs : Stacked t) (ws : ConId) : Stacked (t.disableConflicting ws) := by
  unfold Tree.disableConflicting
  split
  · exact hs
  · exact hs.conDisableFullscreen _

theorem intact_conDisableFullscreen (ht : Intact t) (c : ConId) : Intact (t.conDisableFullscreen c) :=
  ⟨(calm_conDisableFullscreen ht.healthy c).healthy, ht.stacked.conDisableFullscreen c⟩

theorem intact_enableFocus (ht : Intact t) (c ws : ConId) (mode : FullscreenMode) :
    Intact (t.enableFocus cfg c ws mode) := by
  have hactivate : ∀ {s : Tree} (d : ConId), Intact s → Intact (s.conActivate cfg d) := fun d hs =>
    hs.links (stirs_conActivate cfg _ d).links
  unfold enableFocus
  dsimp only
  have hshow : Intact (if mode = .global ∧ t.focused.bind t.getWorkspace ≠ some ws then t.workspaceShow cfg ws
      else t) := by
    split
    · exact intact_workspaceShow ht ws
    · exact ht
  split
  · split
    · exact hactivate c hshow
    · exact hactivate _ (hactivate c hshow)
  · exact hactivate c hshow

/-- **Enabling a fullscreen mode** keeps the tree intact. -/
theorem intact_conEnableFullscreen (ht : Intact t) (hlt : c < t.nextCon) (hroot : c ≠ t.croot)
    (mode : FullscreenMode) : Intact (t.conEnableFullscreen cfg c mode)
      ∧ (t.conEnableFullscreen cfg c mode).croot = t.croot
      ∧ t.nextCon ≤ (t.conEnableFullscreen cfg c mode).nextCon := by
  rw [conEnableFullscreen]
  split
  · exact ⟨ht, rfl, le_rfl⟩
  next htype =>
  split
  · exact ⟨ht, rfl, le_rfl⟩
  split
  · exact ⟨ht, rfl, le_rfl⟩
  next ws hws =>
  have hcalm := calm_disableConflicting ht.healthy ws
  have hdisabled : Intact (t.disableConflicting ws) := ⟨hcalm.healthy, ht.stacked.disableConflicting ws⟩
  have hedits : Edits False _ (enableFocus cfg _ c ws mode) := edits_enableFocus hdisabled.healthy c ws mode
  have hfocus : Intact (enableFocus cfg _ c ws mode) := intact_enableFocus hdisabled c ws mode
  refine ⟨⟨hfocus.healthy.setFullscreenMode fun h => ?_, hfocus.stacked.setFullscreenMode c mode⟩,
    hedits.croot.trans hcalm.croot, hcalm.nextCon.trans hedits.nextCon⟩
  rw [hedits.type (hlt.trans_le hcalm.nextCon), hcalm.type c hlt, hedits.croot, hcalm.croot] at h
  exact absurd h (not_or.mpr ⟨htype, hroot⟩)

/-! ### Swapping -/

theorem intact_passFullscreen (cfg : Config) (ht : Intact t) (hlt : c < t.nextCon) (hroot : c ≠ t.croot)
    (mode : FullscreenMode) : Intact (t.passFullscreen cfg c mode)
      ∧ (t.passFullscreen cfg c mode).croot = t.croot ∧ t.nextCon ≤ (t.passFullscreen cfg c mode).nextCon := by
  rw [passFullscreen]
  split
  · have hcalm := calm_conDisableFullscreen ht.healthy c
    exact ⟨intact_conDisableFullscreen ht c, hcalm.croot, hcalm.nextCon⟩
  · exact intact_conEnableFullscreen ht hlt hroot mode

theorem Swappable.stacked {a b q : ConId} (h : Swappable t a b p q) (ht : Rooted t) (hs : Stacked t) :
    Stacked (t.swapInTree a b p q) := by
  intro d x hx
  rw [h.focusHead ht, Queue.mem_exchange]
  exact hs d ((h.mem_children ht).mp hx)

/-- **Swapping two containers** keeps the tree intact. -/
theorem intact_conSwap {a b : ConId} (ht : Intact t) (ha : t.Reach a) (hb : t.Reach b)
    (hpa : t.Placed a) (hpb : t.Placed b) : Intact (t.conSwap cfg a b).1 := by
  have hr := ht.healthy.rooted
  obtain ⟨u, hu, hua⟩ := hpa
  obtain ⟨v, hv, hvb⟩ := hpb
  obtain ⟨p, -, hap⟩ := Descent.below_iff_exists.mp hua
  obtain ⟨q, -, hbq⟩ := Descent.below_iff_exists.mp hvb
  rw [conSwap, hr.parent p a hap, hr.parent q b hbq]
  split
  swap
  · exact ht
  next hswap =>
  obtain ⟨hatype, hbtype, hne, hab, hba⟩ := hswap
  have hswappable : Swappable t a b p q := by
    refine ⟨hatype, hbtype, hne, fun h => ?_, fun h => ?_, hap, hbq⟩
    · exact hba ((hr.hasParent_iff hb).mpr ((Descent.within_iff.mp h).resolve_left hne.symm))
    · exact hab ((hr.hasParent_iff ha).mpr ((Descent.within_iff.mp h).resolve_left hne))
  have hcross := crossed_swapInTree ht.healthy hswappable (hr.reach_parent ha (hr.parent p a hap))
    (hr.reach_parent hb (hr.parent q b hbq)) hu hv hua hvb
  -- the focus and the urgency flags leave the links alone
  obtain ⟨s, hs, hsl⟩ : ∃ s, t.swapPlaces cfg a b p q = s ∧ Links (t.swapInTree a b p q) s := by
    refine ⟨_, rfl, ?_⟩
    unfold swapPlaces
    dsimp only
    refine Links.trans ?_ ((stirs_conSetUrgency _ _ _).trans (stirs_conSetUrgency _ _ _)).links
    split
    · exact .refl _
    · exact (stirs_conFocus cfg _ _).links
  dsimp only
  rw [hs]
  have hintact : Intact s := ⟨hcross.healthy.links hsl, (hswappable.stacked hr ht.stacked).links hsl⟩
  have hcroot : s.croot = t.croot := hsl.croot.trans hcross.croot
  have hnext : s.nextCon = t.nextCon := hsl.nextCon.trans hcross.nextCon
  obtain ⟨h₁, hcroot₁, hnext₁⟩ := intact_passFullscreen cfg hintact (hnext ▸ hr.lt_nextCon hb)
    (hcroot ▸ hr.ne_croot_of_mem hbq) (s.con a).fullscreenMode
  obtain ⟨h₂, -, -⟩ := intact_passFullscreen cfg h₁ ((hnext ▸ hr.lt_nextCon ha).trans_le hnext₁)
    (hcroot₁ ▸ hcroot ▸ hr.ne_croot_of_mem hap) (s.con b).fullscreenMode
  have hfix : ∀ (r : Tree) (d : ConId), Links r (r.fixParent d) := by
    intro r d
    unfold fixParent
    split
    · exact .refl r
    · exact links_conFixPercent r _
  exact h₂.links ((hfix _ a).trans (hfix _ b))

/-! ### Any sequence -/

theorem Placed.sits (ht : Rooted t) (hc : t.Reach c) (hplaced : t.Placed c) : t.Sits c := by
  obtain ⟨u, -, hu⟩ := hplaced
  obtain ⟨q, -, hq⟩ := Descent.below_iff_exists.mp hu
  exact ⟨hc, ht.ne_croot_of_mem hq⟩

/-- **A single operation** keeps the tree intact. -/
theorem Operates.intact (h : Operates cfg t t') (ht : Intact t) : Intact t' := by
  have hr := ht.healthy.rooted
  cases h with
  | activate c => exact ht.links (stirs_conActivate cfg t c).links
  | urgency c urgent => exact ht.links (stirs_conSetUrgency t c urgent).links
  | fixPercent c => exact ht.links (links_conFixPercent t c)
  | openCon con window hcon => exact intact_treeOpenCon ht hcon window
  | close c kill dontKillParent hc => exact intact_treeCloseInternal ht hc kill dontKillParent
  | showWorkspace ws => exact intact_workspaceShow ht ws
  | moveToWorkspace c ws fixCoordinates ignoreFocus hc hplaced hws =>
    exact intact_conMoveToWorkspace ht hc hplaced hws fixCoordinates ignoreFocus
  | insert c target p position hc hplaced htype hp hpw htarget hne =>
    obtain ⟨w, hw, hwp⟩ := hpw
    have hinner := fun y hy => ht.healthy.type_ne_workspace (x := y) hplaced hy
    exact (brought_insertConInto ht (hplaced.sits hr hc) htype hinner hp hw hwp htarget hne position).intact
  | attach c ws direction hc hplaced htype hws =>
    have hinner := fun y hy => ht.healthy.type_ne_workspace (x := y) hplaced hy
    exact (brought_attachToWorkspace ht (hplaced.sits hr hc) htype hinner (fun h => hinner ws h hws)
      direction).intact
  | flatten c hc => exact intact_treeFlatten ht hc
  | enableFullscreen c mode hc => exact (intact_conEnableFullscreen ht (hr.lt_nextCon hc.1) hc.2 mode).1
  | disableFullscreen c => exact intact_conDisableFullscreen ht c
  | swap a b ha hb hpa hpb => exact intact_conSwap ht ha hb hpa hpb

/-- In an intact tree a focus stack holds each child once, and nothing else. -/
theorem Intact.focusHead_perm (ht : Intact t) (p : ConId) : (t.con p).focusHead.Perm (t.children p) := by
  have hr := ht.healthy.rooted
  have hnodup : (t.children p).Nodup := by
    refine List.nodup_append'.mpr ⟨hr.nodupNodes p, hr.nodupFloating p, fun x hnodes hfloating => ?_⟩
    exact hr.typeNodes p x hnodes (hr.typeFloating p x hfloating)
  refine (List.perm_ext_iff_of_nodup (hr.nodupFocus p) hnodup).mpr fun x => ?_
  exact ⟨hr.focus p x, fun hx => ht.stacked p hx⟩

/-- **After any sequence of operations** the tree is intact, and every focus stack holds the children. -/
theorem intact_run (ht : Intact t) (h : Relation.ReflTransGen (Operates cfg) t t') :
    Intact t' ∧ ∀ p, (t'.con p).focusHead.Perm (t'.children p) := by
  have hintact : Intact t' := by
    induction h with
    | refl => exact ht
    | tail _ hstep ih => exact hstep.intact ih
  exact ⟨hintact, hintact.focusHead_perm⟩

/-- A workspace with a window beside a split container of two windows. -/
def threePanes : Tree := ofList [
  { type := .root, layout := .splith, nodesHead := [1], focusHead := [1] },
  { type := .output, parent := some 0, name := "eDP-1", layout := .output, nodesHead := [2], focusHead := [2] },
  { parent := some 1, layout := .splith, nodesHead := [3], focusHead := [3] },
  { type := .workspace, parent := some 2, name := "1", num := 1, layout := .splith, nodesHead := [4, 5],
    focusHead := [5, 4], fullscreenMode := .output },
  { parent := some 3, window := some { id := 1 } },
  { parent := some 3, layout := .splitv, nodesHead := [6, 7], focusHead := [6, 7] },
  { parent := some 5, window := some { id := 2 } },
  { parent := some 5, window := some { id := 3 } }] (some 6)

/-- A window is focused and moved beside another one, and that is closed. -/
theorem intact_run_threePanes :
    Intact (((threePanes.conActivate {} 4).insertConInto {} 4 6 .after).treeCloseInternal {} 7 .dontKillWindow
        false) ∧ ∀ p, ((((threePanes.conActivate {} 4).insertConInto {} 4 6 .after).treeCloseInternal {} 7
          .dontKillWindow false).con p).focusHead.Perm
        ((((threePanes.conActivate {} 4).insertConInto {} 4 6 .after).treeCloseInternal {} 7 .dontKillWindow
          false).children p) := by
  have hreach : ∀ l, List.IsChain (fun p c => c ∈ (threePanes.conActivate {} 4).children p) (0 :: l) →
      ∀ x ∈ l, (threePanes.conActivate {} 4).Reach x := fun l hl x hx =>
    reach_of_isChain (l := l) reach_croot hl hx
  refine intact_run (t := threePanes) ⟨healthy_ofList (3 < ·) (rooted_ofList (by decide +kernel) (by decide +kernel))
    (by decide +kernel), stacked_ofList (by decide +kernel)⟩
    (.tail (.tail (.tail .refl (.activate _ 4)) (.insert _ 4 6 5 .after ?_ ?_ ?_ ?_ ?_ ?_ ?_)) (.close _ 7 _ _ ?_))
  · exact hreach [1, 2, 3, 4] (by decide +kernel) 4 (by simp)
  · exact ⟨3, by decide +kernel, .single (by decide +kernel)⟩
  · decide +kernel
  · exact hreach [1, 2, 3, 5] (by decide +kernel) 5 (by simp)
  · exact ⟨3, by decide +kernel, (Descent.Below.single (by decide +kernel)).within⟩
  · decide +kernel
  · decide
  · decide +kernel

end Tree

end I3
