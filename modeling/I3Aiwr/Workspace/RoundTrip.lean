import I3Aiwr.Workspace.Tour

/-!
# Visiting every workspace

Focusing the next workspace again and again goes round the tour, as long as the first workspace is
numbered or all workspaces are named. Otherwise it ends among the named workspaces and stays there.

## Main definitions

* `Tree.RoundTrip cfg t`: `workspace next` visits every workspace and comes back, and
  `workspace prev` undoes it

## Main results

* `Tree.roundTrip_iff`: exactly when the first workspace is numbered or all are named
-/

namespace I3

namespace Tree

variable {cfg : Config} {t t' : Tree} {w : ConId}

/-! ### Focusing keeps the tour -/

namespace Stirs

variable (h : Stirs t t')
include h

theorem num (c : ConId) : (t'.con c).num = (t.con c).num := (congrArg Con.num (h.still c) :)

theorem isNamed : t'.isNamed = t.isNamed := by
  funext c
  simp only [Tree.isNamed, h.num]

theorem workspacesOf (o : ConId) : t'.workspacesOf o = t.workspacesOf o := by
  simp only [Tree.workspacesOf, outputGetContent, h.nodesHead, h.type]

theorem workspaces : t'.workspaces = t.workspaces := by
  simp only [Tree.workspaces, isInternal, h.croot, h.nodesHead, h.name]
  exact List.flatMap_congr fun o _ => h.workspacesOf o

theorem before : t'.Before = t.Before := by
  funext c d
  simp only [Before, Pick.Sooner, keyOf, h.isNamed, h.num, h.workspaces]

theorem numberedFirst : t'.NumberedFirst ↔ t.NumberedFirst := by
  simp only [NumberedFirst, h.workspaces, h.isNamed]

theorem arranged (hs : t.Arranged) : t'.Arranged where
  type c hc := by rw [h.type, hs.type c (h.workspaces ▸ hc)]
  num c hc := by rw [h.num]; exact hs.num c (h.workspaces ▸ hc)
  ordered o ho hint := by
    simp only [h.isNamed, h.num, h.workspacesOf]
    rw [h.croot, h.nodesHead] at ho
    refine hs.ordered o ho ?_
    simpa only [isInternal, h.name] using hint

end Stirs

/-- The workspace of a focused workspace is itself. -/
theorem currentWorkspace_conFocus_of {content : ConId} (hparent : (t.con w).parent = some content)
    (htype : (t.con w).type = .workspace) (hpos : 0 < t.nextCon) :
    (t.conFocus cfg w).currentWorkspace = some w := by
  have hstirs := stirs_conFocus cfg t w
  obtain ⟨n, hn⟩ := Nat.exists_eq_succ_of_ne_zero (n := (t.conFocus cfg w).nextCon)
    (by rw [hstirs.nextCon]; exact hpos.ne')
  rw [currentWorkspace, conFocus_focused hparent hpos, Option.bind_some, getWorkspace, chain, hn,
    chainN, List.find?_cons_of_pos]
  simp [hstirs.type, htype]

theorem Rooted.currentWorkspace_conFocus (ht : Rooted t) (hs : t.Arranged) (hw : w ∈ t.workspaces) :
    (t.conFocus cfg w).currentWorkspace = some w := by
  obtain ⟨o, -, -, hmem⟩ := mem_workspaces.mp hw
  obtain ⟨content, hparent, -⟩ := ht.parent_workspace hmem
  exact currentWorkspace_conFocus_of hparent (hs.type w hw) (Nat.zero_lt_of_lt ht.boundedRoot)

/-- On the workspace `w`, in a tree with the lists of `t`. -/
structure On (t t' : Tree) (w : ConId) : Prop where
  stirs : Stirs t t'
  current : t'.currentWorkspace = some w

section

variable (ht : Rooted t) (hs : t.Arranged)
include ht hs

/-- Going from one workspace to the next one in the source is going there in the tour. -/
theorem On.focusNext (cfg : Config) (hw : w ∈ t.workspaces) (hon : On t t' w)
    (h : ¬ t.isNamed w ∨ t.NumberedFirst) :
    ∃ v ∈ t.workspaces, t'.workspaceNext = some v ∧ On t (t'.focusNext cfg) v
      ∧ Tour.Next t.Before t.workspaces.toFinset w v := by
  have ht' := ht.links hon.stirs.links
  have hs' := hon.stirs.arranged hs
  have hw' : w ∈ t'.workspaces := hon.stirs.workspaces ▸ hw
  obtain ⟨v, hv, hnext, htour⟩ := ht'.workspaceNextFrom_next hs' hw'
    (by rwa [hon.stirs.isNamed, hon.stirs.numberedFirst])
  have hnext' : t'.workspaceNext = some v := by rw [workspaceNext, hon.current, Option.bind_some, hnext]
  rw [hon.stirs.before, hon.stirs.workspaces] at htour
  refine ⟨v, hon.stirs.workspaces ▸ hv, hnext', ⟨?_, ?_⟩, htour⟩
  · rw [Tree.focusNext, hnext']
    exact hon.stirs.trans (stirs_conFocus cfg t' v)
  · rw [Tree.focusNext, hnext']
    exact ht'.currentWorkspace_conFocus hs' hv

/-- Where the numbered workspaces are not found, the named ones are not left. -/
theorem On.focusNext_named (cfg : Config) (hw : w ∈ t.workspaces) (hon : On t t' w)
    (hn : t.isNamed w) (h : ¬ t.NumberedFirst) :
    ∃ v ∈ t.workspaces, On t (t'.focusNext cfg) v ∧ t.isNamed v := by
  have ht' := ht.links hon.stirs.links
  have hs' := hon.stirs.arranged hs
  have hw' : w ∈ t'.workspaces := hon.stirs.workspaces ▸ hw
  obtain ⟨v, hv, hnext, hnv⟩ := ht'.workspaceNextFrom_named hs' hw'
    (by rwa [hon.stirs.isNamed]) (by rwa [hon.stirs.numberedFirst])
  have hnext' : t'.workspaceNext = some v := by rw [workspaceNext, hon.current, Option.bind_some, hnext]
  refine ⟨v, hon.stirs.workspaces ▸ hv, ⟨?_, ?_⟩, hon.stirs.isNamed ▸ hnv⟩
  · rw [Tree.focusNext, hnext']
    exact hon.stirs.trans (stirs_conFocus cfg t' v)
  · rw [Tree.focusNext, hnext']
    exact ht'.currentWorkspace_conFocus hs' hv

end

/-! ### The round trip -/

/-- The tree after `workspace next` has been followed `k` times. -/
def afterNext (cfg : Config) (t : Tree) (k : ℕ) : Tree := (fun t => t.focusNext cfg)^[k] t

/-- `workspace next` visits every workspace and comes back to the start after as many steps as there
are workspaces, and no earlier; and `workspace prev` on the next workspace leads back. -/
structure RoundTrip (cfg : Config) (t : Tree) : Prop where
  visits : ∀ w ∈ t.workspaces, ∃ k < t.workspaces.length, (t.afterNext cfg k).currentWorkspace = some w
  returns : (t.afterNext cfg t.workspaces.length).currentWorkspace = t.currentWorkspace
  notEarlier : ∀ k, 0 < k → k < t.workspaces.length →
    (t.afterNext cfg k).currentWorkspace ≠ t.currentWorkspace
  prevNext : ∀ w ∈ t.workspaces, ∃ v, (t.conFocus cfg w).workspaceNext = some v
    ∧ (t.conFocus cfg v).workspacePrev = some w

/-- Following `workspace next` is following the tour. -/
theorem exists_tour (cfg : Config) (ht : Rooted t) (hs : t.Arranged) (h : t.NumberedFirst) :
    ∃ next : ConId → ConId, (∀ u ∈ t.workspaces, next u ∈ t.workspaces
        ∧ Tour.Next t.Before t.workspaces.toFinset u (next u))
      ∧ ∀ w ∈ t.workspaces, t.currentWorkspace = some w →
        ∀ k, On t (t.afterNext cfg k) (next^[k] w) := by
  choose! next hmem hnext htour using
    fun u (hu : u ∈ t.workspaces) => ht.workspaceNextFrom_next hs hu (.inr h)
  refine ⟨next, fun u hu => ⟨hmem u hu, htour u hu⟩, fun w hw hcur k => ?_⟩
  have hiter : ∀ k, next^[k] w ∈ t.workspaces := by
    intro k
    induction k with
    | zero => exact hw
    | succ k ih => rw [Function.iterate_succ_apply']; exact hmem _ ih
  induction k with
  | zero => exact ⟨.refl t, hcur⟩
  | succ k ih =>
    obtain ⟨v, hv, -, hon, hv'⟩ := ih.focusNext ht hs cfg (hiter k) (.inr h)
    have hsame : v = next (next^[k] w) := (linear_before t).next_unique (List.mem_toFinset.mpr hv)
      (List.mem_toFinset.mpr (hmem _ (hiter k))) hv' (htour _ (hiter k))
    rw [afterNext, Function.iterate_succ_apply', Function.iterate_succ_apply', ← hsame]
    exact hon

/-- Once on a named workspace, the round ends among the named ones. -/
theorem On.named_after (cfg : Config) (ht : Rooted t) (hs : t.Arranged) (h : ¬ t.NumberedFirst)
    (hw : w ∈ t.workspaces) (hon : On t t' w) (hn : t.isNamed w) (k : ℕ) :
    ∃ v ∈ t.workspaces, On t (t'.afterNext cfg k) v ∧ t.isNamed v := by
  induction k with
  | zero => exact ⟨w, hw, hon, hn⟩
  | succ k ih =>
    obtain ⟨v, hv, hon, hnv⟩ := ih
    obtain ⟨v', hv', hon', hnv'⟩ := hon.focusNext_named ht hs cfg hv hnv h
    refine ⟨v', hv', ?_, hnv'⟩
    rw [afterNext, Function.iterate_succ_apply']
    exact hon'

theorem stirs_afterNext (cfg : Config) (t : Tree) (k : ℕ) : Stirs t (t.afterNext cfg k) := by
  induction k with
  | zero => exact .refl t
  | succ k ih =>
    rw [afterNext, Function.iterate_succ_apply', focusNext]
    split
    · exact ih
    · exact ih.trans (stirs_conFocus cfg _ _)

/-- A round trip from a named workspace would not visit the numbered ones. -/
theorem RoundTrip.numberedFirst (ht : Rooted t) (hs : t.Arranged) (hw : w ∈ t.workspaces)
    (hcur : t.currentWorkspace = some w) (hround : t.RoundTrip cfg) : t.NumberedFirst := by
  by_contra h
  have h' := h
  simp only [NumberedFirst, not_forall] at h'
  obtain ⟨c, hc, hnc, d, hd, hnd⟩ := h'
  have hcmem : c ∈ t.workspaces := List.mem_of_mem_head? hc
  obtain ⟨k, hk, hkc⟩ := hround.visits c hcmem
  obtain ⟨j, hj, hjd⟩ := hround.visits d hd
  -- from step `k` on, only named workspaces are visited
  have hlate : ∀ m, k ≤ m → ∃ v, (t.afterNext cfg m).currentWorkspace = some v ∧ t.isNamed v := by
    intro m hm
    obtain ⟨v, -, hon, hnv⟩ := On.named_after cfg ht hs h hcmem
      ⟨stirs_afterNext cfg t k, hkc⟩ hnc (m - k)
    rw [afterNext, afterNext, ← Function.iterate_add_apply, Nat.sub_add_cancel hm] at hon
    exact ⟨v, hon.current, hnv⟩
  -- so the start is named, and no numbered workspace is visited at all
  obtain ⟨v, hv, hnv⟩ := hlate _ hk.le
  rw [hround.returns, hcur] at hv
  cases hv
  obtain ⟨v, -, hon, hnv⟩ := On.named_after cfg ht hs h hw ⟨.refl t, hcur⟩ hnv j
  have := hon.current
  rw [hjd] at this
  cases this
  exact hnd hnv

/-- **When `workspace next` goes round**: exactly if the first workspace of the scan is numbered, or
no workspace is. -/
theorem roundTrip_iff (cfg : Config) (t : Tree) (w : ConId) (ht : Rooted t) (hs : t.Arranged)
    (hcur : t.currentWorkspace = some w) (hw : w ∈ t.workspaces) :
    t.RoundTrip cfg ↔ t.NumberedFirst := by
  have hcard : t.workspaces.toFinset.card = t.workspaces.length :=
    List.toFinset_card_of_nodup ht.nodup_workspaces
  have hset : ∀ {u}, u ∈ t.workspaces.toFinset ↔ u ∈ t.workspaces := List.mem_toFinset
  constructor
  · exact RoundTrip.numberedFirst ht hs hw hcur
  · intro h
    obtain ⟨next, hnext, hafter⟩ := exists_tour cfg ht hs h
    have hafter := hafter w hw hcur
    have hlin := linear_before t
    have hmem : ∀ x ∈ t.workspaces.toFinset, next x ∈ t.workspaces.toFinset := fun x hx =>
      hset.mpr (hnext x (hset.mp hx)).1
    have htour : ∀ x ∈ t.workspaces.toFinset,
        Tour.Next t.Before t.workspaces.toFinset x (next x) := fun x hx =>
      (hnext x (hset.mp hx)).2
    refine ⟨fun v hv => ?_, ?_, fun k hpos hlt => ?_, fun u hu => ?_⟩
    · obtain ⟨k, hk, heq⟩ := hlin.visits hmem htour (hset.mpr hw) (hset.mpr hv)
      exact ⟨k, hcard ▸ hk, by rw [(hafter k).current, heq]⟩
    · rw [(hafter _).current, hcur, ← hcard, hlin.returns hmem htour (hset.mpr hw)]
    · rw [(hafter k).current, hcur]
      intro heq
      exact hlin.not_returns hmem htour (hset.mpr hw) hpos (hcard ▸ hlt) (Option.some.inj heq)
    · -- the tour backwards from the next workspace
      have hon : On t (t.conFocus cfg u) u := ⟨stirs_conFocus cfg t u,
        ht.currentWorkspace_conFocus hs hu⟩
      obtain ⟨v, hv, hnextv, -, hv'⟩ := hon.focusNext ht hs cfg hu (.inr h)
      refine ⟨v, hnextv, ?_⟩
      have hstirs := stirs_conFocus cfg t v
      have hv'' : v ∈ (t.conFocus cfg v).workspaces := hstirs.workspaces ▸ hv
      obtain ⟨x, hx, hprev, hx'⟩ := (ht.links hstirs.links).workspacePrevFrom_next
        (hstirs.arranged hs) hv''
      rw [hstirs.before, hstirs.workspaces] at hx'
      rw [hstirs.workspaces] at hx
      rw [workspacePrev, ht.currentWorkspace_conFocus hs hv, Option.bind_some, hprev]
      exact congrArg some (hlin.flip.next_unique (hset.mpr hx) (hset.mpr hu) hx'
        (hlin.next_flip (hset.mpr hu) (hset.mpr hv) hv'))

/-! ### Two outputs -/

/-- Two outputs with a workspace each, beside the internal output. The first one is focused. -/
def twoOutputs (name name' : String) (num num' : ℤ) : Tree := ofList [
  { type := .root, nodesHead := [1, 2, 3], focusHead := [2, 3, 1] },
  { type := .output, layout := .output, name := "__i3", parent := some 0 },
  { type := .output, layout := .output, name := "left", parent := some 0, nodesHead := [4]
    focusHead := [4] },
  { type := .output, layout := .output, name := "right", parent := some 0, nodesHead := [5]
    focusHead := [5] },
  { layout := .splith, name := "content", parent := some 2, nodesHead := [6], focusHead := [6] },
  { layout := .splith, name := "content", parent := some 3, nodesHead := [7], focusHead := [7] },
  { type := .workspace, layout := .splith, name := name, num := num, parent := some 4
    fullscreenMode := .output },
  { type := .workspace, layout := .splith, name := name', num := num', parent := some 5
    fullscreenMode := .output }] (some 6)

/-- The numbered workspace is the first. -/
theorem roundTrip_numberedFirst :
    (twoOutputs "1" "mail" 1 (-1)).RoundTrip {} :=
  (roundTrip_iff {} (twoOutputs "1" "mail" 1 (-1)) 6 (rooted_ofList (by decide +kernel) (by decide +kernel))
    ⟨by unfold Workspaces; decide +kernel, by decide +kernel, by decide +kernel⟩
    (by decide +kernel) (by decide +kernel)).mpr (by unfold NumberedFirst; decide +kernel)

/-- From a named workspace on the first output, `workspace next` leads nowhere else, though there is
a numbered one. -/
theorem not_roundTrip_namedFirst :
    ¬ ∀ (cfg : Config) (t : Tree) (w : ConId), Rooted t → t.Arranged →
      t.currentWorkspace = some w → w ∈ t.workspaces → t.RoundTrip cfg := by
  intro h
  have hround := h {} (twoOutputs "mail" "1" (-1) 1) 6 (rooted_ofList (by decide +kernel) (by decide +kernel))
    ⟨by unfold Workspaces; decide +kernel, by decide +kernel, by decide +kernel⟩
    (by decide +kernel) (by decide +kernel)
  obtain ⟨k, hk, hvisit⟩ := hround.visits 7 (by decide +kernel)
  have hnever : ∀ k < 2,
      ((twoOutputs "mail" "1" (-1) 1).afterNext {} k).currentWorkspace ≠ some 7 := by
    decide +kernel
  exact hnever k hk hvisit

end Tree

end I3
