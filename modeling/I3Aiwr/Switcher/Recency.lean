import I3Aiwr.Lib.Walk
import I3Aiwr.Tree.Stacks
import I3Aiwr.Switcher.Collect

/-!
# The order of the switcher's list

The list of the switcher is the beginning of a walk along the focus stacks that visits the floating
windows of a container twice. Each focus stack has the child first that was focused last, so the
list is in the order of the last focus where no container is left and entered again. It is full
before anything else shows exactly under the condition `Tree.Ordered`.

## Main definitions

* `Tree.MostRecent calls items`: what the list promises after the calls of `con_focus`
* `Tree.Ordered calls m`: when a list of `m` items keeps it

## Main results

* `Tree.swCollect_eq`: the list as a walk
* `Tree.mostRecent_iff`: the switcher keeps what it promises exactly where `Ordered` holds
-/

namespace I3

namespace Tree

open Descent

variable {cfg : SwitcherConfig} {t : Tree} {c p x : ConId}

/-! ### The list as a walk -/

section Collect

variable {frame : ConId → ℕ} {items : List SwItem}

/-- `l` after the items, as far as there is room. -/
def fill (cfg : SwitcherConfig) (frame : ConId → ℕ) (items : List SwItem) (l : List ConId) :
    List SwItem :=
  items ++ (l.take (cfg.maxItems - items.length).toNat).map fun c => ⟨c, frame c⟩

theorem fill_append (l l' : List ConId) :
    fill cfg frame items (l ++ l') = fill cfg frame (fill cfg frame items l) l' := by
  have hroom : (cfg.maxItems - items.length).toNat - l.length
      = (cfg.maxItems - (items.length + min (cfg.maxItems - items.length).toNat l.length : ℕ)).toNat := by
    omega
  rw [fill, fill, fill, List.take_append, List.map_append, List.append_assoc, List.length_append,
    List.length_map, List.length_take, hroom]

theorem foldl_fill {f : List SwItem → ConId → List SwItem} {g : ConId → List ConId} (l : List ConId)
    (h : ∀ c ∈ l, ∀ items, f items c = fill cfg frame items (g c)) (items : List SwItem) :
    l.foldl f items = fill cfg frame items (l.flatMap g) := by
  induction l generalizing items with
  | nil => simp [fill]
  | cons c l ih =>
    rw [List.foldl_cons, List.flatMap_cons, fill_append, h c List.mem_cons_self]
    exact ih (fun d hd => h d (List.mem_cons_of_mem c hd)) _

theorem swCollectN_eq (n : ℕ) (items : List SwItem) (c : ConId) :
    t.swCollectN cfg frame n items c
      = fill cfg frame items (Walk.visits t.swChildren t.swAgain t.swLists n c) := by
  induction n generalizing items c with
  | zero => simp [swCollectN, Walk.visits, fill]
  | succ n ih =>
    rw [swCollectN, Walk.visits]
    split
    · next hfull =>
      have hroom : (cfg.maxItems - items.length).toNat = 0 := by omega
      rw [fill, hroom]
      simp
    · next hroom =>
      -- there is room for one item at least
      obtain ⟨k, hk⟩ : ∃ k, (cfg.maxItems - items.length).toNat = k + 1 :=
        ⟨(cfg.maxItems - items.length).toNat - 1, by omega⟩
      by_cases hint : (t.con c).type = .workspace ∧ t.isInternal c
      · rw [if_pos hint]
        simp [swLists, swChildren, swAgain, swStops, hint, fill]
      · rw [if_neg hint]
        have hint' := not_and_or.mp hint
        by_cases hw : t.hasWindow c
        · have hlists : t.swLists c = true := by simpa [swLists, hw] using hint'
          rw [if_pos hw, if_pos hlists, fill, hk]
          simp
        · have hlists : t.swLists c = false := by simp [swLists, hw]
          have hstops : t.swStops c = false := by simpa [swStops, hw] using hint
          rw [if_neg hw, hlists, if_neg (by simp), fill_append, swChildren, swAgain, hstops]
          dsimp only
          rw [foldl_fill _ fun d _ items => ih items d, foldl_fill _ fun d _ items => ih items d]
          rfl

/-- **The list of the switcher** is the beginning of the walk. -/
theorem swCollect_eq (cfg : SwitcherConfig) (frame : ConId → ℕ) (t : Tree) :
    (t.swCollect cfg frame).map SwItem.con
      = (Walk.visits t.swChildren t.swAgain t.swLists t.nextCon t.croot).take cfg.maxItems.toNat := by
  rw [swCollect, swCollectN_eq, fill]
  simp [Function.comp_def]

end Collect

/-! ### What the walk visits -/

section Walk

variable (ht : Rooted t)
include ht

theorem swChildren_subset (p : ConId) : t.swChildren p ⊆ t.children p := by
  rw [swChildren]
  split
  · exact List.nil_subset _
  · exact ht.focus p

omit ht in
theorem swAgain_subset (hs : Stacked t) (p : ConId) : t.swAgain p ⊆ t.swChildren p := by
  rw [swAgain, swChildren]
  split
  · exact List.nil_subset _
  · exact fun c hc => hs p (List.mem_append_right _ hc)

theorem acyclic_swChildren : Acyclic t.swChildren := ht.acyclic.mono (swChildren_subset ht)

theorem lt_of_mem_swChildren (p : ConId) (hx : x ∈ t.swChildren p) : x < t.nextCon :=
  ht.bounded p x (swChildren_subset ht p hx)

theorem parent_of_mem_swChildren (p : ConId) (hx : x ∈ t.swChildren p) :
    (t.con x).parent = some p :=
  ht.parent p x (swChildren_subset ht p hx)

theorem nodup_swChildren (p : ConId) : (t.swChildren p).Nodup := by
  rw [swChildren]
  split
  · exact List.nodup_nil
  · exact ht.nodupFocus p

omit ht in
theorem swChildren_of_swLists (h : t.swLists c) : t.swChildren c = [] := by
  have hw : t.hasWindow c = true := by
    rw [swLists, Bool.and_eq_true] at h
    exact h.2
  rw [swChildren, swStops, hw, Bool.or_true, if_pos rfl]

end Walk

/-- The switcher lists the container, if there is room. -/
def Listable (t : Tree) (c : ConId) : Prop := t.swLists c ∧ Within t.swChildren t.croot c

/-- The containers that can be listed, in the order of the focus stacks. -/
def listables (t : Tree) : List ConId := Walk.leaves t.swChildren t.swLists t.nextCon t.croot

theorem mem_listables (ht : Rooted t) : c ∈ t.listables ↔ t.Listable c :=
  Walk.mem_leaves (acyclic_swChildren ht) (fun p _ => lt_of_mem_swChildren ht p)
    (fun _ => swChildren_of_swLists) ht.boundedRoot

theorem pairwise_listables (ht : Rooted t) : t.listables.Pairwise (Walk.Ahead t.swChildren) :=
  Walk.pairwise_leaves (acyclic_swChildren ht) (fun p _ => lt_of_mem_swChildren ht p)
    (fun _ => swChildren_of_swLists) ht.boundedRoot

/-- The place of a container in the list. -/
theorem le_idxOf_listables_iff (ht : Rooted t) {m : ℕ} (hc : t.Listable c) :
    m ≤ t.listables.idxOf c ↔
      Walk.AtLeast m fun x => t.Listable x ∧ Walk.Ahead t.swChildren x c := by
  simp only [← mem_listables ht] at hc ⊢
  exact Walk.le_idxOf_leaves_iff (acyclic_swChildren ht) (fun p _ => lt_of_mem_swChildren ht p)
    (fun _ => swChildren_of_swLists) (fun p _ => parent_of_mem_swChildren ht p)
    (nodup_swChildren ht) ht.boundedRoot hc

/-! ### The history of the focus -/

/-- The tree after `con_focus` of each container of a list. -/
def focusAll (cfg : Config) (t : Tree) (calls : List ConId) : Tree :=
  calls.foldl (fun t c => t.conFocus cfg c) t

theorem stirs_focusAll (cfg : Config) (t : Tree) (calls : List ConId) :
    Stirs t (t.focusAll cfg calls) := by
  induction calls generalizing t with
  | nil => exact .refl t
  | cons c calls ih => exact (stirs_conFocus cfg t c).trans (ih _)

theorem Links.towards {t' : Tree} (h : Links t t') (c q : ConId) : t'.towards c q = t.towards c q := by
  rw [Tree.towards, h.nextCon, h.towardsN]
  rfl

/-- Each focus stack after the calls. -/
theorem Rooted.focusAll_focusHead (ht : Rooted t) (cfg : Config) {calls : List ConId}
    (hcalls : ∀ c ∈ calls, t.Reach c) (q : ConId) :
    ((t.focusAll cfg calls).con q).focusHead
      = Recent.stack (fun c => t.towards c q) (t.con q).focusHead calls := by
  induction calls using List.reverseRecOn with
  | nil => rfl
  | append_singleton calls c ih =>
    have hlinks := (stirs_focusAll cfg t calls).links
    have hc : (t.focusAll cfg calls).Reach c := hlinks.reach.mpr (hcalls c (by simp))
    have hstep : t.focusAll cfg (calls ++ [c]) = (t.focusAll cfg calls).conFocus cfg c := by
      rw [focusAll, List.foldl_append]
      rfl
    rw [hstep, (ht.links hlinks).conFocus_focusHead hc, hlinks.towards, Recent.stack_concat,
      ih fun d hd => hcalls d (by simp [hd])]

/-- **Of two children of a container the one that was entered later comes first.** -/
theorem Rooted.pair_focusAll (ht : Rooted t) (cfg : Config) {calls : List ConId}
    (hcalls : ∀ c ∈ calls, t.Reach c) {q a b : ConId} (ha : a ∈ (t.con q).focusHead)
    (hb : b ∈ (t.con q).focusHead) (hne : a ≠ b)
    (h : Recent.Later (Within t.children a) (Within t.children b) calls) :
    [a, b].Sublist ((t.focusAll cfg calls).con q).focusHead := by
  rw [ht.focusAll_focusHead cfg hcalls]
  refine Recent.pair_stack ha hb hne (h.imp (fun c hc hac => ?_) fun c hc hbc => ?_)
  · exact (ht.towards_eq_some (hcalls c hc)).mpr ⟨ht.focus q a ha, hac⟩
  · exact ((ht.towards_eq_some (hcalls c hc)).mp hbc).2

/-! ### The promise -/

/-- What the list promises after the given calls of `con_focus`: the windows are distinct, there are
no more than slots, and of two that were focused the one focused later comes first. -/
structure MostRecent (calls items : List ConId) : Prop where
  nodup : items.Nodup
  length : items.length ≤ 32
  recent : items.Pairwise fun u w =>
    u ∈ calls → w ∈ calls → ¬ Recent.Later (· = w) (· = u) calls

/-- When a list of `m` items keeps the promise after the given calls. -/
structure Ordered (t : Tree) (calls : List ConId) (m : ℕ) : Prop where
  /-- It is full before the floating windows of a container are visited again. -/
  floating : ∀ p, Within t.swChildren t.croot p →
    (∃ f ∈ t.swAgain p, ∃ x, t.swLists x ∧ Within t.swChildren f x) →
    Walk.AtLeast m fun x =>
      t.Listable x ∧ (Within t.swChildren p x ∨ Walk.Ahead t.swChildren x p)
  /-- It is full before a window of the container `b` that was focused after a window of the
  container `a` beside it, where `a` was entered again after that. -/
  entered : ∀ p, ∀ a ∈ t.swChildren p, ∀ b ∈ t.swChildren p, a ≠ b →
    Recent.Later (Within t.children a) (Within t.children b) calls →
    ∀ u ∈ calls, t.Listable u → Within t.swChildren a u →
    ∀ w, t.Listable w → Within t.swChildren b w → Recent.Later (· = w) (· = u) calls →
    Walk.AtLeast m fun x => t.Listable x ∧ Walk.Ahead t.swChildren x w

section Main

variable (ht : Rooted t) (hs : Stacked t)
include ht hs

theorem nodup_take_iff {m : ℕ} :
    ((Walk.visits t.swChildren t.swAgain t.swLists t.nextCon t.croot).take m).Nodup ↔
      ∀ p, Within t.swChildren t.croot p →
        (∃ f ∈ t.swAgain p, ∃ x, t.swLists x ∧ Within t.swChildren f x) →
        Walk.AtLeast m fun x =>
          t.Listable x ∧ (Within t.swChildren p x ∨ Walk.Ahead t.swChildren x p) := by
  simp only [← mem_listables ht]
  exact Walk.nodup_take_visits_iff (acyclic_swChildren ht) (fun p _ => lt_of_mem_swChildren ht p)
    (swAgain_subset hs) (fun _ => swChildren_of_swLists)
    (fun p _ => parent_of_mem_swChildren ht p) (nodup_swChildren ht) ht.boundedRoot

theorem take_visits_eq {m : ℕ}
    (h : ((Walk.visits t.swChildren t.swAgain t.swLists t.nextCon t.croot).take m).Nodup) :
    (Walk.visits t.swChildren t.swAgain t.swLists t.nextCon t.croot).take m = t.listables.take m :=
  Walk.take_visits_eq (acyclic_swChildren ht) (fun p _ => lt_of_mem_swChildren ht p)
    (swAgain_subset hs) (fun _ => swChildren_of_swLists)
    (fun p _ => parent_of_mem_swChildren ht p) (nodup_swChildren ht) ht.boundedRoot h

end Main

/-- A container ahead of a listed one is listed before it. -/
theorem pair_take_listables (ht : Rooted t) {m : ℕ} {u w : ConId} (hu : t.Listable u)
    (hw : t.Listable w) (h : Walk.Ahead t.swChildren u w) (hlt : t.listables.idxOf w < m) :
    [u, w].Sublist (t.listables.take m) := by
  obtain ⟨pre, post, hl, hpre⟩ := List.eq_append_cons_of_mem ((mem_listables ht).mpr hw)
  have hpair := pairwise_listables ht
  have hlen : pre.length < m := by
    rwa [hl, List.idxOf_append_of_notMem hpre, List.idxOf_cons_self] at hlt
  have hupre : u ∈ pre := by
    have hmem := (mem_listables ht).mpr hu
    rw [hl] at hmem hpair
    rcases List.mem_append.mp hmem with hmem | hmem
    · exact hmem
    · exfalso
      have hparent := fun p x => @parent_of_mem_swChildren t x ht p
      rcases List.mem_cons.mp hmem with rfl | hmem
      · exact h.not_within (acyclic_swChildren ht) hparent (nodup_swChildren ht) (.refl u)
      · have := (List.pairwise_cons.mp (List.pairwise_append.mp hpair).2.1).1 u hmem
        exact h.asymm (acyclic_swChildren ht) hparent (nodup_swChildren ht) this
  obtain ⟨k, hk⟩ := Nat.exists_eq_succ_of_ne_zero (Nat.sub_pos_of_lt hlen).ne'
  rw [hl, List.take_append, List.take_of_length_le hlen.le, hk, List.take_succ_cons]
  exact (List.singleton_sublist.mpr hupre).append (List.singleton_sublist.mpr List.mem_cons_self)

theorem idxOf_lt_of_mem_take {l : List ConId} {m : ℕ} (h : x ∈ l.take m) : l.idxOf x < m := by
  have hidx : l.idxOf x = (l.take m).idxOf x := by
    conv_lhs => rw [← List.take_append_drop m l]
    exact List.idxOf_append_of_mem h
  rw [hidx]
  exact (List.idxOf_lt_length_of_mem h).trans_le (List.length_take_le m l)

/-- The order of the focus stacks is the order of the last calls. -/
theorem Rooted.later_of_pair (ht : Rooted t) (cfg : Config) {calls : List ConId}
    (hcalls : ∀ c ∈ calls, t.Reach c) {q a b : ConId}
    (h : [a, b].Sublist ((t.focusAll cfg calls).con q).focusHead)
    (hb : ∃ c ∈ calls, Within t.children b c) :
    Recent.Later (Within t.children a) (Within t.children b) calls := by
  have hstirs := stirs_focusAll cfg t calls
  have hmem : ∀ x ∈ [a, b], x ∈ (t.con q).focusHead := fun x hx =>
    (hstirs.focusHead q).mem_iff.mp (h.subset hx)
  have hnodup : ((t.focusAll cfg calls).con q).focusHead.Nodup :=
    (hstirs.focusHead q).nodup_iff.mpr (ht.nodupFocus q)
  have hne : a ≠ b := by simpa using hnodup.sublist h
  obtain ⟨c, hc, hbc⟩ := hb
  refine (Recent.later_or_later ⟨c, hc, .inr hbc⟩).resolve_right fun hlater => ?_
  exact Walk.pair_asymm hnodup h
    (ht.pair_focusAll cfg hcalls (hmem b (by simp)) (hmem a (by simp)) hne.symm hlater)

/-- **When the switcher keeps its promise.** After any calls of `con_focus` and any directives, the
list is distinct, fits its slots and is in the order of the last focus, exactly where it is full
before a floating window is visited again, and before a window that was focused between two visits
to a container beside it. -/
theorem mostRecent_iff (cfg : Config) (frame : ConId → ℕ) (directives : List ℤ) (t : Tree)
    (calls : List ConId) (ht : Rooted t) (hs : Stacked t) (hcalls : ∀ c ∈ calls, t.Reach c) :
    MostRecent calls (((t.focusAll cfg calls).swCollect (.configured directives) frame).map SwItem.con)
      ↔ Ordered (t.focusAll cfg calls) calls (SwitcherConfig.configured directives).maxItems.toNat := by
  have hstirs := stirs_focusAll cfg t calls
  have ht' := ht.links hstirs.links
  have hs' : Stacked (t.focusAll cfg calls) := fun p c hc =>
    (hstirs.focusHead p).mem_iff.mpr (hs p (hstirs.links.mem_children.mp hc))
  have hwithin : ∀ a, Within (t.focusAll cfg calls).children a = Within t.children a := fun a => by
    ext c
    exact hstirs.links.within
  obtain ⟨-, hslots⟩ := SwitcherConfig.configured_maxItems directives
  rw [swCollect_eq]
  generalize hmax : (SwitcherConfig.configured directives).maxItems.toNat = m
  generalize hafter : t.focusAll cfg calls = t' at *
  constructor
  · intro h
    refine ⟨(nodup_take_iff ht' hs').mp h.nodup, ?_⟩
    intro p a ha b hb hne hlater u hucalls hu hau w hw hbw hrecent
    rw [hwithin, hwithin] at hlater
    by_contra hroom
    rw [← le_idxOf_listables_iff ht' hw, not_le] at hroom
    -- `a` is ahead of `b`, so that `u` is listed before `w`
    have hfocus : ∀ x ∈ t'.swChildren p, x ∈ (t.con p).focusHead := fun x hx => by
      rw [← (hstirs.focusHead p).mem_iff]
      rw [swChildren] at hx
      split at hx
      · cases hx
      · exact hx
    have hpair : [a, b].Sublist (t'.swChildren p) := by
      have := ht.pair_focusAll cfg hcalls (hfocus a ha) (hfocus b hb) hne hlater
      rw [swChildren] at ha ⊢
      split at ha
      · cases ha
      · next hstops => rwa [if_neg hstops, ← hafter]
    have hlisted := pair_take_listables ht' hu hw ⟨p, a, b, hpair, hau, hbw⟩ hroom
    rw [← take_visits_eq ht' hs' h.nodup] at hlisted
    refine List.pairwise_iff_forall_sublist.mp h.recent hlisted hucalls ?_ hrecent
    obtain ⟨c, hc, rfl⟩ := hrecent.exists
    exact hc
  · intro h
    have hnodup := (nodup_take_iff ht' hs').mpr h.floating
    refine ⟨hnodup, ?_, ?_⟩
    · rw [List.length_take]
      omega
    · rw [take_visits_eq ht' hs' hnodup, List.pairwise_iff_forall_sublist]
      intro u w huw hucalls hwcalls hrecent
      have hmem : ∀ x ∈ [u, w], x ∈ t'.listables := fun x hx =>
        List.mem_of_mem_take (huw.subset hx)
      have hu := (mem_listables ht').mp (hmem u (by simp))
      have hw := (mem_listables ht').mp (hmem w (by simp))
      obtain ⟨p, a, b, hab, hau, hbw⟩ := List.pairwise_iff_forall_sublist.mp
        (pairwise_listables ht') (huw.trans (List.take_sublist m _))
      have hne : a ≠ b := by simpa using (nodup_swChildren ht' p).sublist hab
      have hlater : Recent.Later (Within t.children a) (Within t.children b) calls := by
        refine ht.later_of_pair cfg hcalls (q := p) ?_ ⟨w, hwcalls, ?_⟩
        · rw [swChildren] at hab
          split at hab
          · cases hab
          · rwa [hafter]
        · rw [← hwithin]
          exact hbw.mono (swChildren_subset ht')
      -- so the list is full before `w`
      have hfull := h.entered p a (hab.subset (by simp)) b (hab.subset (by simp)) hne
        (by rwa [hwithin, hwithin]) u hucalls hu hau w hw hbw hrecent
      rw [← le_idxOf_listables_iff ht' hw] at hfull
      have hlt := idxOf_lt_of_mem_take (huw.subset (by simp : w ∈ [u, w]))
      omega

/-! ### A floating window -/

/-- A workspace with one window, which floats. -/
def floatingWindow : Tree := ofList [
  { type := .root, nodesHead := [1], focusHead := [1] },
  { type := .output, layout := .output, parent := some 0, nodesHead := [2], focusHead := [2] },
  { layout := .splith, parent := some 1, nodesHead := [3], focusHead := [3] },
  { type := .workspace, layout := .splith, name := "1", num := 1, fullscreenMode := .output
    parent := some 2, floatingHead := [4], focusHead := [4] },
  { type := .floatingCon, layout := .splith, parent := some 3, nodesHead := [5], focusHead := [5] },
  { parent := some 4, floating := .userOn, window := some { id := 5 } }] (some 5)

-- it is listed twice
example : (floatingWindow.swCollect {} id).map SwItem.con = [5, 5] := by decide +kernel

/-! ### Windows of a split container and beside it -/

/-- A workspace with a split container of two windows and a window beside it. -/
def splitBesideWindow : Tree := ofList [
  { type := .root, nodesHead := [1], focusHead := [1] },
  { type := .output, layout := .output, parent := some 0, nodesHead := [2], focusHead := [2] },
  { layout := .splith, parent := some 1, nodesHead := [3], focusHead := [3] },
  { type := .workspace, layout := .splith, name := "1", num := 1, fullscreenMode := .output
    parent := some 2, nodesHead := [4, 7], focusHead := [4, 7] },
  { layout := .splitv, parent := some 3, nodesHead := [5, 6], focusHead := [5, 6] },
  { parent := some 4, window := some { id := 5 } },
  { parent := some 4, window := some { id := 6 } },
  { parent := some 3, window := some { id := 7 } }] (some 5)

theorem rooted_splitBesideWindow : Rooted splitBesideWindow :=
  rooted_ofList (by decide +kernel) (by decide +kernel)

theorem stacked_splitBesideWindow : Stacked splitBesideWindow := stacked_ofList (by decide +kernel)

theorem sits_splitBesideWindow : ∀ c ∈ [5, 6, 7],
    splitBesideWindow.Sits c ∧ splitBesideWindow.hasWindow c := by
  have hsplit : List.IsChain (fun p c => c ∈ splitBesideWindow.children p) [0, 1, 2, 3, 4, 5] := by
    decide +kernel
  have hother : List.IsChain (fun p c => c ∈ splitBesideWindow.children p) [0, 1, 2, 3, 4, 6] := by
    decide +kernel
  have hbeside : List.IsChain (fun p c => c ∈ splitBesideWindow.children p) [0, 1, 2, 3, 7] := by
    decide +kernel
  have hreach : splitBesideWindow.Reach 0 := reach_croot
  simp only [List.forall_mem_cons, List.not_mem_nil, false_implies, implies_true, and_true]
  exact ⟨⟨⟨reach_of_isChain hreach hsplit (by simp), by decide⟩, by decide +kernel⟩,
    ⟨⟨reach_of_isChain hreach hother (by simp), by decide⟩, by decide +kernel⟩,
    ⟨reach_of_isChain hreach hbeside (by simp), by decide⟩, by decide +kernel⟩

theorem ordered_leaveOnce : Ordered (splitBesideWindow.focusAll {} [6, 5, 7]) [6, 5, 7] 8 := by
  refine (mostRecent_iff {} id [] splitBesideWindow [6, 5, 7] rooted_splitBesideWindow
    stacked_splitBesideWindow fun c hc => ?_).mp ?_
  · exact (sits_splitBesideWindow c (by revert c; decide)).1.1
  · have hlist : ((splitBesideWindow.focusAll {} [6, 5, 7]).swCollect (.configured []) id).map
        SwItem.con = [7, 5, 6] := by decide +kernel
    have hcalls : ([6, 5, 7] : List ConId) = (([] ++ [6]) ++ [5]) ++ [7] := rfl
    rw [hlist, hcalls]
    refine ⟨by decide, by decide, ?_⟩
    simp only [Recent.later_concat]
    simp

/-- The split container is left for the other window and entered again. -/
theorem not_mostRecent_enterTwice :
    ¬ ∀ (cfg : Config) (frame : ConId → ℕ) (directives : List ℤ) (t : Tree) (calls : List ConId),
      Rooted t → Stacked t → (∀ c ∈ calls, t.Sits c ∧ t.hasWindow c) →
      MostRecent calls
        (((t.focusAll cfg calls).swCollect (.configured directives) frame).map SwItem.con) := by
  intro h
  have hrecent := (h {} id [] splitBesideWindow [6, 7, 5] rooted_splitBesideWindow
    stacked_splitBesideWindow fun c hc => sits_splitBesideWindow c (by revert c; decide)).recent
  have hlist : ((splitBesideWindow.focusAll {} [6, 7, 5]).swCollect (.configured []) id).map
      SwItem.con = [5, 6, 7] := by decide +kernel
  have hcalls : ([6, 7, 5] : List ConId) = (([] ++ [6]) ++ [7]) ++ [5] := rfl
  rw [hlist, hcalls] at hrecent
  simp only [Recent.later_concat] at hrecent
  simp at hrecent

end Tree

end I3
