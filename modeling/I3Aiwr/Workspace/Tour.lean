import I3Aiwr.Lib.Tour
import I3Aiwr.Tree.Rooted
import I3Aiwr.Workspace.CycleScan

/-!
# The tour of the workspaces

The workspaces of all outputs stand in one order: the numbered ones by their numbers, then the named
ones, each in the order of the outputs and of their lists where that leaves a choice. From any
workspace the scans go to the next one of this order, round at the end, or to the one before.

The exception is `workspace_next` on the last named workspace. It looks for the least number with
`first_opposite`, which holds the first workspace it came to; if that is a named one, its number -1
is never undercut, and the numbered workspaces are not found.

## Main definitions

* `Tree.workspaces`: the workspaces in the order of the scan
* `Tree.Arranged`: each output lists its workspaces in the order of `_con_attach`
* `Tree.Before`: the order of the tour
* `Tree.NumberedFirst`: the first workspace is numbered, or all are named

## Main results

* `Tree.scanFrom_next`: the scans find the next workspace of the tour
* `Tree.workspaceNextFrom_next`, `Tree.workspacePrevFrom_next`
-/

namespace I3

namespace Tree

/-- The workspaces that `workspace_next` and `workspace_prev` look at. -/
def workspaces (t : Tree) : List ConId :=
  ((t.con t.croot).nodesHead.filter fun o => !t.isInternal o).flatMap t.workspacesOf

/-- Each output lists its workspaces as `_con_attach` inserts them: the numbered ones ascending, then
the named ones, whose number is -1. -/
structure Arranged (t : Tree) : Prop where
  type : t.Workspaces t.workspaces
  num : ∀ c ∈ t.workspaces, -1 ≤ (t.con c).num
  ordered : ∀ o ∈ (t.con t.croot).nodesHead, ¬ t.isInternal o →
    (t.workspacesOf o).Pairwise fun c d =>
      t.isNamed d ∨ ¬ t.isNamed c ∧ (t.con c).num ≤ (t.con d).num

/-- The first workspace that the scan comes to is numbered, or there are named ones only. -/
def NumberedFirst (t : Tree) : Prop :=
  ∀ c ∈ t.workspaces.head?, t.isNamed c → ∀ d ∈ t.workspaces, t.isNamed d

/-- The order of the tour. -/
def Before (t : Tree) (c d : ConId) : Prop :=
  ¬ t.isNamed c ∧ t.isNamed d
    ∨ (t.isNamed c ↔ t.isNamed d) ∧ Pick.Sooner (t.keyOf .next) t.workspaces c d

/-- The order of the tour, or its reverse. -/
def Turn (t : Tree) : Way → ConId → ConId → Prop
  | .next, c, d => t.Before c d
  | .prev, c, d => t.Before d c

variable {t : Tree} {way : Way} {c d current : ConId}

theorem isNamed_iff : t.isNamed c ↔ (t.con c).num = -1 := by simp [isNamed]

/-! ### The list of the scan -/

/-- The list of the scan, by outputs. -/
theorem along_workspaces :
    ((way.along (t.con t.croot).nodesHead).filter fun o => !t.isInternal o).flatMap
      (fun o => way.along (t.workspacesOf o)) = way.along t.workspaces := by
  cases way with
  | next => rfl
  | prev =>
    simp only [Way.along, workspaces, List.reverse_flatMap, List.filter_reverse]
    rfl

theorem mem_workspaces :
    c ∈ t.workspaces ↔
      ∃ o ∈ (t.con t.croot).nodesHead, ¬ t.isInternal o ∧ c ∈ t.workspacesOf o := by
  simp [workspaces, and_assoc]

theorem exists_content (hc : c ∈ t.workspacesOf d) :
    ∃ content ∈ (t.con d).nodesHead, t.outputGetContent d = some content
      ∧ (t.con content).nodesHead = t.workspacesOf d := by
  rw [workspacesOf] at hc ⊢
  cases h : t.outputGetContent d with
  | none => simp [h] at hc
  | some content => exact ⟨content, List.mem_of_find?_eq_some h, rfl, rfl⟩

section Rooted

variable (ht : Rooted t)
include ht

/-- A workspace has the content container of its output as parent. -/
theorem Rooted.parent_workspace (hc : c ∈ t.workspacesOf d) :
    ∃ content, (t.con c).parent = some content ∧ (t.con content).parent = some d
      ∧ (t.con content).nodesHead = t.workspacesOf d := by
  obtain ⟨content, hmem, -, hnodes⟩ := exists_content hc
  refine ⟨content, ?_, ?_, hnodes⟩
  · exact ht.parent content c (List.mem_append_left _ (hnodes ▸ hc))
  · exact ht.parent d content (List.mem_append_left _ hmem)

theorem Rooted.nodup_flatMap_workspacesOf {l : List ConId} (hl : l.Nodup) :
    (l.flatMap t.workspacesOf).Nodup := by
  rw [List.nodup_flatMap]
  refine ⟨fun o _ => ?_, ?_⟩
  · rw [workspacesOf]
    cases t.outputGetContent o with
    | none => exact List.nodup_nil
    | some content => exact ht.nodupNodes content
  · refine hl.pairwise_of_forall_ne fun o ho o' ho' hne => ?_
    -- two outputs with a workspace in common are the same
    intro c hc hc'
    obtain ⟨content, hparent, hup, -⟩ := ht.parent_workspace hc
    obtain ⟨content', hparent', hup', -⟩ := ht.parent_workspace hc'
    rw [hparent] at hparent'
    cases hparent'
    rw [hup] at hup'
    cases hup'
    exact hne rfl

theorem Rooted.nodup_workspaces : t.workspaces.Nodup :=
  ht.nodup_flatMap_workspacesOf ((ht.nodupNodes t.croot).filter _)

theorem Rooted.nodup_along : (way.along t.workspaces).Nodup :=
  Way.nodup_along.mpr ht.nodup_workspaces

/-- Within the named and within the numbered workspaces, the tour goes by number and then by
position, in either direction. -/
theorem Rooted.turn_iff (hc : c ∈ t.workspaces) (hd : d ∈ t.workspaces)
    (hsame : t.isNamed c ↔ t.isNamed d) :
    t.Turn way c d ↔ Pick.Sooner (t.keyOf way) (way.along t.workspaces) c d := by
  cases way with
  | next =>
    rw [Turn, Before]
    constructor
    · rintro (⟨h, h'⟩ | ⟨-, h⟩)
      · exact absurd (hsame.mpr h') h
      · exact h
    · exact fun h => .inr ⟨hsame, h⟩
  | prev =>
    have hrev := Pick.idxOf_reverse_lt ht.nodup_workspaces hd hc
    have hrev' := Pick.idxOf_reverse_lt (List.nodup_reverse.mpr ht.nodup_workspaces)
      (List.mem_reverse.mpr hc) (List.mem_reverse.mpr hd)
    rw [List.reverse_reverse] at hrev'
    simp only [Turn, Before, Pick.Sooner, keyOf, Way.key, Way.along]
    constructor
    · rintro (⟨h, h'⟩ | ⟨-, h | ⟨heq, h⟩⟩)
      · exact absurd (hsame.mp h') h
      · exact .inl (by omega)
      · exact .inr ⟨by omega, hrev h⟩
    · rintro (h | ⟨heq, h⟩)
      · exact .inr ⟨hsame.symm, .inl (by omega)⟩
      · exact .inr ⟨hsame.symm, .inr ⟨by omega, hrev' h⟩⟩

omit ht in
theorem linear_before (t : Tree) : Tour.Linear t.Before t.workspaces.toFinset where
  irrefl x _ := by
    rintro (⟨h, h'⟩ | ⟨-, h⟩)
    · exact h h'
    · simp [Pick.Sooner] at h
  trans x _ y _ z _ := by
    simp only [Before, Pick.Sooner, keyOf, Way.key]
    rintro (⟨h, h'⟩ | ⟨h, h'⟩) (⟨g, g'⟩ | ⟨g, g'⟩)
    · exact absurd h' g
    · exact .inl ⟨h, g.mp h'⟩
    · exact .inl ⟨mt h.mp g, g'⟩
    · exact .inr ⟨h.trans g, by omega⟩
  total x hx y hy := by
    by_cases heq : x = y
    · exact .inl heq
    · have hidx : t.workspaces.idxOf x ≠ t.workspaces.idxOf y := fun h =>
        heq ((List.idxOf_inj (List.mem_toFinset.mp hx)).mp h)
      simp only [Before, Pick.Sooner, keyOf, Way.key]
      by_cases hnx : t.isNamed x <;> by_cases hny : t.isNamed y <;> simp only [hnx, hny] <;>
        simp <;> omega

omit ht in
theorem linear_turn (t : Tree) (way : Way) : Tour.Linear (t.Turn way) t.workspaces.toFinset := by
  cases way with
  | next => exact linear_before t
  | prev => exact (linear_before t).flip

omit ht in
/-- The named workspaces stand on one side of the numbered ones. -/
theorem classes_turn (t : Tree) (way : Way) (current : ConId) :
    Tour.Classes (t.Turn way) t.workspaces.toFinset
      fun x => t.isNamed x ↔ t.isNamed current := by
  have hside : ∀ x y, (t.isNamed x ↔ t.isNamed current) → ¬ (t.isNamed y ↔ t.isNamed current) →
      if t.isNamed current then t.Before y x else t.Before x y := by
    intro x y hx hy
    split
    · next hcur => exact .inl ⟨fun h => hy ⟨fun _ => hcur, fun _ => h⟩, hx.mpr hcur⟩
    · next hcur =>
      exact .inl ⟨mt hx.mp hcur, by_contra fun h => hy ⟨fun h' => absurd h' h, fun h' => absurd h' hcur⟩⟩
  by_cases hcur : t.isNamed current
  · simp only [if_pos hcur] at hside
    cases way with
    | next => exact .inr fun x _ y _ hx hy => hside x y hx hy
    | prev => exact .inl fun x _ y _ hx hy => hside x y hx hy
  · simp only [if_neg hcur] at hside
    cases way with
    | next => exact .inl fun x _ y _ hx hy => hside x y hx hy
    | prev => exact .inr fun x _ y _ hx hy => hside x y hx hy

end Rooted

/-! ### What the scans find -/

section Scans

variable (ht : Rooted t)
include ht

/-- The best of the workspaces in a class is the least in the order of the tour. -/
theorem Rooted.least_of_best {p : ConId → Bool} {b : ConId}
    (hb : Pick.Best p (t.keyOf way) (way.along t.workspaces) b)
    (hp : ∀ x, p x → (t.isNamed x ↔ t.isNamed b)) {x : ConId} (hx : x ∈ t.workspaces) (hpx : p x) :
    x = b ∨ t.Turn way b x :=
  (hb.least x (Way.mem_along.mpr hx) hpx).imp id
    (ht.turn_iff (Way.mem_along.mp hb.mem) hx (hp x hpx).symm).mpr

/-- Named workspaces have equal numbers, and their order is that of the positions. -/
theorem Rooted.turn_named (hc : c ∈ t.workspaces) (hd : d ∈ t.workspaces) (hnc : t.isNamed c)
    (hnd : t.isNamed d) :
    t.Turn way c d ↔ (way.along t.workspaces).idxOf c < (way.along t.workspaces).idxOf d := by
  have heq : t.keyOf way c = t.keyOf way d := by
    rw [keyOf, keyOf, isNamed_iff.mp hnc, isNamed_iff.mp hnd]
  rw [ht.turn_iff hc hd (iff_of_true hnc hnd), Pick.Sooner, heq]
  simp

/-- Where the scan for the best numbered workspace is sound, it finds the best one if there is
one, and else the first workspace. -/
theorem Rooted.best_numbered {l : List ConId} (hl : way.along t.workspaces = c :: l)
    (hc : t.isNamed c → ∀ d ∈ l, ¬ t.isNamed d → t.keyOf way d < t.keyOf way c) :
    (∃ b, (c :: l).foldl (t.orSooner way) none = some b
        ∧ Pick.Best (fun d => !t.isNamed d) (t.keyOf way) (c :: l) b)
      ∨ (c :: l).foldl (t.orSooner way) none = some c ∧ ∀ d ∈ c :: l, t.isNamed d := by
  have hnodup : (c :: l).Nodup := hl ▸ ht.nodup_along
  rw [List.foldl_cons, orSooner]
  by_cases hn : t.isNamed c
  · have hstep : Pick.keep (fun d => !t.isNamed d) (t.keyOf way) none c = none := by
      simp [Pick.keep, hn]
    rw [foldl_orSooner_named (hc hn)]
    rcases @Pick.foldl_keep _ _ _ _ (fun d => !t.isNamed d) (t.keyOf way) _ hnodup with
      ⟨hnone, hall⟩ | ⟨b, hb, hbest⟩
    · rw [List.foldl_cons, hstep] at hnone
      refine .inr ⟨by rw [hnone, Option.none_or], fun d hd => ?_⟩
      simpa using hall d hd
    · rw [List.foldl_cons, hstep] at hb
      exact .inl ⟨b, by rw [hb, Option.some_or], hbest⟩
  · obtain ⟨b, hb, hbest⟩ := @Pick.foldl_keep_some _ _ _ _ (fun d => !t.isNamed d)
      (t.keyOf way) [c] l c hnodup (by simp) (by simp [hn]) (by simp)
    exact .inl ⟨b, by rw [foldl_orSooner_numbered hn, hb], hbest⟩

/-- **The result of the scan from a named workspace** is the next one of the tour, if the best
numbered one can be found. -/
theorem Rooted.next_named {pre post : List ConId}
    (hl : way.along t.workspaces = pre ++ current :: post) (hcur : t.isNamed current)
    (hfirst : ∀ c ∈ (pre ++ current :: post).head?, t.isNamed c →
      ∀ d ∈ t.workspaces, ¬ t.isNamed d → t.keyOf way d < t.keyOf way c) :
    ∃ v ∈ t.workspaces,
      (post.find? t.isNamed).or (((pre ++ current :: post).foldl (t.orSooner way) none).or
        (pre ++ current :: post).head?) = some v
      ∧ Tour.Next (t.Turn way) t.workspaces.toFinset current v := by
  have hnodup : (pre ++ current :: post).Nodup := hl ▸ ht.nodup_along
  have hmem : ∀ {x}, x ∈ t.workspaces ↔ x ∈ pre ++ current :: post := fun {x} => by
    rw [← hl, Way.mem_along]
  have hcurmem : current ∈ t.workspaces := hmem.mpr (by simp)
  have hlin := linear_turn t way
  have hclasses := classes_turn t way current
  simp only [iff_true_right hcur] at hclasses
  -- beyond the current workspace in the tour means behind it in the scan
  have hturn : ∀ x ∈ t.workspaces, t.isNamed x → (t.Turn way current x ↔ x ∈ post) := by
    intro x hx hnx
    rw [ht.turn_named hcurmem hx hcur hnx, hl]
    exact Pick.idxOf_lt_idxOf_iff hnodup (hmem.mp hx)
  cases hfind : post.find? t.isNamed with
  | some v =>
    have hvpost := List.mem_of_find?_eq_some hfind
    have hv : v ∈ t.workspaces := hmem.mpr (by simp [hvpost])
    have hnv : t.isNamed v := List.find?_some hfind
    refine ⟨v, hv, rfl, hlin.next_of_same hclasses (List.mem_toFinset.mpr hcurmem)
      (List.mem_toFinset.mpr hv) hcur hnv ((hturn v hv hnv).mpr hvpost) fun x hx hnx hux => ?_⟩
    have hx := List.mem_toFinset.mp hx
    have hxpost := (hturn x hx hnx).mp hux
    rw [ht.turn_named hv hx hnv hnx, hl, List.append_cons]
    exact Pick.find?_behind (by simpa using hnodup) hfind hxpost hnx
  | none =>
    have hnone : ∀ x ∈ t.workspaces.toFinset, t.isNamed x → ¬ t.Turn way current x := by
      intro x hx hnx hux
      have hxpost := (hturn x (List.mem_toFinset.mp hx) hnx).mp hux
      exact List.find?_eq_none.mp hfind x hxpost hnx
    obtain ⟨c, l, hcl⟩ := List.exists_cons_of_ne_nil (l := pre ++ current :: post) (by simp)
    have hcmem : c ∈ t.workspaces := hmem.mpr (by simp [hcl])
    rw [hcl] at hfirst ⊢
    rcases ht.best_numbered (hl.trans hcl) (fun hn d hd =>
        hfirst c rfl hn d (hmem.mpr (by simp [hcl, hd]))) with ⟨b, hb, hbest⟩ | ⟨hc, hall⟩
    · -- a numbered one: the first of the other class
      have hbmem : b ∈ t.workspaces := hmem.mpr (hcl ▸ hbest.mem)
      have hnb : ¬ t.isNamed b := by simpa using hbest.holds
      refine ⟨b, hbmem, by simp [hb], hlin.next_of_other hclasses (List.mem_toFinset.mpr hcurmem)
        (List.mem_toFinset.mpr hbmem) hcur hnb hnone fun x hx hnx => ?_⟩
      rw [← hcl, ← hl] at hbest
      refine ht.least_of_best hbest (fun y hy => ?_) (List.mem_toFinset.mp hx) (by simpa using hnx)
      exact iff_of_false (by simpa using hy) hnb
    · -- named ones only: back to the first
      have hnamed : ∀ x ∈ t.workspaces, t.isNamed x := fun x hx => hall x (hcl ▸ hmem.mp hx)
      refine ⟨c, hcmem, by simp [hc], Tour.Linear.next_of_alone
        (fun x hx => hnamed x (List.mem_toFinset.mp hx)) hnone fun x hx hnx => ?_⟩
      have hx := List.mem_toFinset.mp hx
      rw [ht.turn_named hcmem hx (hnamed c hcmem) hnx, hl, hcl]
      by_cases hxc : x = c
      · exact .inl hxc
      · rw [List.idxOf_cons_self, List.idxOf_cons_ne _ (Ne.symm hxc)]
        exact .inr (Nat.succ_pos _)

omit ht in
/-- The candidates beyond a numbered workspace, as picks from the whole list. -/
theorem foldl_orBeyond (l : List ConId) :
    (l.filter fun c => !t.isNamed c).foldl (t.orBeyond way current) none =
      l.foldl (Pick.keep
        (fun c => way.sooner (t.con current).num (t.con c).num && !t.isNamed c) (t.keyOf way))
        none := by
  rw [orBeyond_eq, Pick.foldl_keep_filter]

/-- **The result of the scan from a numbered workspace** is the next one of the tour. -/
theorem Rooted.next_numbered {pre post : List ConId}
    (hl : way.along t.workspaces = pre ++ current :: post) (hcur : ¬ t.isNamed current) :
    ∃ v ∈ t.workspaces,
      (post.find? fun c => (t.con current).num = (t.con c).num).or
        ((((pre ++ current :: post).filter fun c => !t.isNamed c).foldl (t.orBeyond way current)
          none).or (((pre ++ current :: post).foldl t.orNamed none).or
            ((pre ++ current :: post).foldl (t.orSooner way) none))) = some v
      ∧ Tour.Next (t.Turn way) t.workspaces.toFinset current v := by
  have hnodup : (pre ++ current :: post).Nodup := hl ▸ ht.nodup_along
  have hmem : ∀ {x}, x ∈ t.workspaces ↔ x ∈ pre ++ current :: post := fun {x} => by
    rw [← hl, Way.mem_along]
  have hcurmem : current ∈ t.workspaces := hmem.mpr (by simp)
  have hlin := linear_turn t way
  have hclasses : Tour.Classes (t.Turn way) t.workspaces.toFinset fun x => ¬ t.isNamed x := by
    simpa only [iff_false_right hcur] using classes_turn t way current
  have hturn : ∀ x ∈ t.workspaces, ¬ t.isNamed x → (t.Turn way current x ↔
      t.keyOf way current < t.keyOf way x ∨ (t.con current).num = (t.con x).num ∧ x ∈ post) := by
    intro x hx hnx
    rw [ht.turn_iff hcurmem hx (iff_of_false hcur hnx), Pick.Sooner, hl,
      Pick.idxOf_lt_idxOf_iff hnodup (hmem.mp hx), keyOf, keyOf, Way.key_inj]
  cases hfind : post.find? fun c => (t.con current).num = (t.con c).num with
  | some v =>
    -- the same number, further on
    have hvpost := List.mem_of_find?_eq_some hfind
    have hv : v ∈ t.workspaces := hmem.mpr (by simp [hvpost])
    have hnum : (t.con current).num = (t.con v).num := by simpa using List.find?_some hfind
    have hnv : ¬ t.isNamed v := by rwa [isNamed_iff, ← hnum, ← isNamed_iff]
    refine ⟨v, hv, rfl, hlin.next_of_same hclasses (List.mem_toFinset.mpr hcurmem)
      (List.mem_toFinset.mpr hv) hcur hnv ((hturn v hv hnv).mpr (.inr ⟨hnum, hvpost⟩))
      fun x hx hnx hux => ?_⟩
    have hx := List.mem_toFinset.mp hx
    have hkey : t.keyOf way v = t.keyOf way current := by rw [keyOf, keyOf, hnum]
    rw [ht.turn_iff hv hx (iff_of_false hnv hnx), Pick.Sooner, hkey, hl, List.append_cons]
    rcases (hturn x hx hnx).mp hux with hlt | ⟨heq, hxpost⟩
    · exact .inr (.inl hlt)
    · refine (Pick.find?_behind (by simpa using hnodup) hfind hxpost (by simpa using heq)).imp id
        fun hidx => .inr ⟨?_, hidx⟩
      rw [keyOf, keyOf, heq]
  | none =>
    have hsame : ∀ x ∈ post, ¬ (t.con current).num = (t.con x).num := fun x hx => by
      simpa using List.find?_eq_none.mp hfind x hx
    rw [Option.none_or, foldl_orBeyond]
    rcases @Pick.foldl_keep _ _ _ _ (fun c => way.sooner (t.con current).num (t.con c).num
        && !t.isNamed c) (t.keyOf way) _ hnodup with ⟨hnone, hall⟩ | ⟨v, hv, hbest⟩
    · rw [hnone, Option.none_or]
      have hbeyond : ∀ x ∈ t.workspaces.toFinset, ¬ t.isNamed x → ¬ t.Turn way current x := by
        intro x hx hnx hux
        have hx := List.mem_toFinset.mp hx
        rcases (hturn x hx hnx).mp hux with hlt | ⟨heq, hxpost⟩
        · exact hall x (hmem.mp hx) (by simpa [hnx, keyOf] using hlt)
        · exact hsame x hxpost heq
      rw [orNamed_eq]
      rcases @Pick.foldl_keep _ _ _ _ t.isNamed (fun _ => (0 : ℤ)) _ hnodup with
        ⟨hnone', hall'⟩ | ⟨v, hv, hbest⟩
      · -- numbered ones only: back to the least
        obtain ⟨c, l, hcl⟩ := List.exists_cons_of_ne_nil (l := pre ++ current :: post) (by simp)
        have hnumbered : ∀ x ∈ t.workspaces, ¬ t.isNamed x := fun x hx => hall' x (hmem.mp hx)
        have hcmem : c ∈ t.workspaces := hmem.mpr (by simp [hcl])
        rw [hnone', Option.none_or, hcl]
        rcases ht.best_numbered (hl.trans hcl) (fun hn => absurd hn (hnumbered c hcmem)) with
          ⟨b, hb, hbest⟩ | ⟨-, hnamed⟩
        · have hbmem : b ∈ t.workspaces := hmem.mpr (hcl ▸ hbest.mem)
          refine ⟨b, hbmem, hb, Tour.Linear.next_of_alone
            (fun x hx => hnumbered x (List.mem_toFinset.mp hx)) hbeyond fun x hx hnx => ?_⟩
          rw [← hcl, ← hl] at hbest
          refine ht.least_of_best hbest (fun y hy => ?_) (List.mem_toFinset.mp hx)
            (by simpa using hnx)
          exact iff_of_false (by simpa using hy) (hnumbered b hbmem)
        · exact absurd (hnamed c (by simp)) (hnumbered c hcmem)
      · -- the first named one
        have hvmem : v ∈ t.workspaces := hmem.mpr hbest.mem
        refine ⟨v, hvmem, by simp [hv], hlin.next_of_other hclasses
          (List.mem_toFinset.mpr hcurmem) (List.mem_toFinset.mpr hvmem) hcur
          (not_not.mpr hbest.holds) hbeyond fun x hx hnx => ?_⟩
        have hx := List.mem_toFinset.mp hx
        have hnx : t.isNamed x := not_not.mp hnx
        rw [ht.turn_named hvmem hx hbest.holds hnx, hl]
        exact (hbest.least x (hmem.mp hx) hnx).imp id fun hor => by simpa [Pick.Sooner] using hor
    · -- the least number beyond
      have hvmem : v ∈ t.workspaces := hmem.mpr hbest.mem
      have hholds := hbest.holds
      simp only [Bool.and_eq_true, Way.sooner_iff, Bool.not_eq_eq_eq_not, Bool.not_true] at hholds
      have hnv : ¬ t.isNamed v := by simp [hholds.2]
      refine ⟨v, hvmem, by simp [hv], hlin.next_of_same hclasses (List.mem_toFinset.mpr hcurmem)
        (List.mem_toFinset.mpr hvmem) hcur hnv ((hturn v hvmem hnv).mpr (.inl hholds.1))
        fun x hx hnx hux => ?_⟩
      have hx := List.mem_toFinset.mp hx
      rcases (hturn x hx hnx).mp hux with hlt | ⟨heq, hxpost⟩
      · rw [← hl] at hbest
        refine ht.least_of_best hbest (fun y hy => ?_) hx (by simpa [hnx, keyOf] using hlt)
        simp only [Bool.and_eq_true, Bool.not_eq_eq_eq_not, Bool.not_true] at hy
        exact iff_of_false (by simp [hy.2]) hnv
      · exact absurd heq (hsame x hxpost)

/-! ### The whole scans -/

variable (hs : t.Arranged) (hcur : current ∈ t.workspaces)
include hs hcur

/-- **A scan goes to the next workspace of the tour**: backwards always, forwards from a numbered
one, and from a named one if the first workspace is numbered or all are named. -/
theorem Rooted.scanFrom_next (way : Way)
    (h : way = .prev ∨ ¬ t.isNamed current ∨ t.NumberedFirst) :
    ∃ v ∈ t.workspaces, t.scanFrom way current = some v
      ∧ Tour.Next (t.Turn way) t.workspaces.toFinset current v := by
  obtain ⟨pre, post, hl⟩ := List.append_of_mem ((Way.mem_along : current ∈ way.along t.workspaces ↔ _).mpr hcur)
  have hws : t.Workspaces (way.along t.workspaces) := fun c hc => hs.type c (Way.mem_along.mp hc)
  have hnodup : (way.along t.workspaces).Nodup := ht.nodup_along
  by_cases hn : t.isNamed current
  · have hscan : t.scanFrom way current =
        Scan.result (t.namedLoop way current (way.along t.workspaces) {}) := by
      rw [scanFrom]
      simp only [hn, if_true]
      rw [overOutputs_eq (fun _ => rfl) namedLoop_append, along_workspaces]
    rw [hl] at hws hnodup
    rw [hscan, hl, result_namedLoop hws hnodup]
    refine ht.next_named hl hn fun c hc hnc d hd hnd => ?_
    rcases h with rfl | h | h
    · -- backwards every number is taken before -1
      have hnum := hs.num d hd
      rw [isNamed_iff] at hnd
      simp only [keyOf, Way.key, isNamed_iff.mp hnc]
      omega
    · exact absurd hn h
    · cases way with
      | next => exact absurd (h c (by rwa [show t.workspaces = _ from hl]) hnc d hd) hnd
      | prev =>
        have hnum := hs.num d hd
        rw [isNamed_iff] at hnd
        simp only [keyOf, Way.key, isNamed_iff.mp hnc]
        omega
  · have hscan : t.scanFrom way current =
        Scan.result (t.numberedLoop way current false (way.along t.workspaces) {}) := by
      rw [scanFrom]
      simp only [hn, Bool.false_eq_true, if_false]
      cases way with
      | prev =>
        rw [show decide (Way.prev = Way.next) = false from rfl,
          overOutputs_eq (fun _ => rfl) numberedLoop_append, along_workspaces]
      | next =>
        -- each list has its named workspaces last
        rw [show decide (Way.next = Way.next) = true from rfl,
          @overOutputs_congr _ _ _ (t.numberedLoop .next current false) _ fun o ho hint s => ?_,
          overOutputs_eq (fun _ => rfl) numberedLoop_append, along_workspaces]
        refine numberedLoop_stop (fun c hc => hs.type c (mem_workspaces.mpr ⟨o, ho, hint, hc⟩)) ?_ s
        exact (hs.ordered o ho hint).imp fun hor hnc => hor.resolve_right fun hand => hand.1 hnc
    rw [hl] at hws hnodup
    rw [hscan, hl, result_numberedLoop hws hnodup hn]
    exact ht.next_numbered hl hn

omit hs in
/-- The list of the scan around the current workspace, within its output and beyond. -/
theorem Rooted.neighbour_eq (way : Way) :
    ∃ a b rest pre, way.along t.workspaces = pre ++ current :: (b ++ rest)
      ∧ t.neighbour way current = b.head? ∧ (a ++ current :: b).Nodup
      ∧ ∃ o ∈ (t.con t.croot).nodesHead, ¬ t.isInternal o
        ∧ way.along (t.workspacesOf o) = a ++ current :: b := by
  obtain ⟨o, ho, hint, hmem⟩ := mem_workspaces.mp hcur
  obtain ⟨content, hparent, -, hnodes⟩ := ht.parent_workspace hmem
  obtain ⟨a, b, hab⟩ := List.append_of_mem ((Way.mem_along : current ∈ way.along _ ↔ _).mpr hmem)
  have hnodup : (a ++ current :: b).Nodup := by
    rw [← hab, Way.nodup_along, ← hnodes]
    exact ht.nodupNodes content
  have ho' : o ∈ (way.along (t.con t.croot).nodesHead).filter fun o => !t.isInternal o := by
    simp [ho, hint]
  obtain ⟨os, os', hos⟩ := List.append_of_mem ho'
  refine ⟨a, b, os'.flatMap (fun o => way.along (t.workspacesOf o)),
    os.flatMap (fun o => way.along (t.workspacesOf o)) ++ a, ?_, ?_, hnodup, o, ho, hint, hab⟩
  · rw [← along_workspaces, hos, List.flatMap_append, List.flatMap_cons, hab]
    simp
  · have ha : current ∉ a := fun h => List.disjoint_of_nodup_append hnodup h List.mem_cons_self
    rw [neighbour, hparent, Option.bind_some, hnodes, hab, Queue.next_append_self ha]

omit hs in
/-- A named neighbour of a named workspace is the next one of the tour. -/
theorem Rooted.next_neighbour (hn : t.isNamed current) (hd : t.neighbour way current = some d)
    (hnd : t.isNamed d) :
    d ∈ t.workspaces ∧ Tour.Next (t.Turn way) t.workspaces.toFinset current d := by
  obtain ⟨-, b, rest, pre, hl, hb, -⟩ := ht.neighbour_eq hcur way
  obtain ⟨b, rfl⟩ : ∃ b', b = d :: b' := by
    cases b with
    | nil => simp [hb] at hd
    | cons e b => exact ⟨b, by simpa [hb] using hd⟩
  have hnodup : (pre ++ current :: (d :: b ++ rest)).Nodup := hl ▸ ht.nodup_along
  have hmem : ∀ {x}, x ∈ t.workspaces ↔ x ∈ pre ++ current :: (d :: b ++ rest) := fun {x} => by
    rw [← hl, Way.mem_along]
  have hdmem : d ∈ t.workspaces := hmem.mpr (by simp)
  have hclasses := classes_turn t way current
  simp only [iff_true_right hn] at hclasses
  refine ⟨hdmem, (linear_turn t way).next_of_same hclasses (List.mem_toFinset.mpr hcur)
    (List.mem_toFinset.mpr hdmem) hn hnd ?_ fun x hx hnx hux => ?_⟩
  · rw [ht.turn_named hcur hdmem hn hnd, hl, Pick.idxOf_lt_idxOf_iff hnodup (by simp)]
    simp
  · have hx := List.mem_toFinset.mp hx
    rw [ht.turn_named hcur hx hn hnx, hl, Pick.idxOf_lt_idxOf_iff hnodup (hmem.mp hx)] at hux
    rw [ht.turn_named hdmem hx hnd hnx, hl]
    rcases List.mem_cons.mp hux with rfl | hux
    · exact .inl rfl
    · refine .inr ?_
      have hmem' : x ∈ (pre ++ [current]) ++ d :: (b ++ rest) := by
        have : x ∈ b ∨ x ∈ rest := List.mem_append.mp hux
        simp [this]
      rw [List.append_cons] at hnodup ⊢
      exact (Pick.idxOf_lt_idxOf_iff hnodup hmem').mpr hux

/-- Forwards, the neighbour of a named workspace is named. -/
theorem Rooted.isNamed_neighbour (hn : t.isNamed current)
    (hd : t.neighbour .next current = some d) : t.isNamed d := by
  obtain ⟨a, b, rest, pre, -, hb, -, o, ho, hint, hab⟩ := ht.neighbour_eq hcur .next
  rw [hb] at hd
  have hpair := hs.ordered o ho hint
  rw [show t.workspacesOf o = a ++ current :: b from hab, List.pairwise_append,
    List.pairwise_cons] at hpair
  exact (hpair.2.1.1 d (List.mem_of_mem_head? hd)).resolve_right fun h => h.1 hn

/-- **`workspace_next` goes to the next workspace of the tour**, from a named one if the first
workspace is numbered or all are named. -/
theorem Rooted.workspaceNextFrom_next (h : ¬ t.isNamed current ∨ t.NumberedFirst) :
    ∃ v ∈ t.workspaces, t.workspaceNextFrom current = some v
      ∧ Tour.Next t.Before t.workspaces.toFinset current v := by
  rw [workspaceNextFrom]
  split
  · next hn =>
    cases hd : t.neighbour .next current with
    | none =>
      rw [Option.none_or]
      exact ht.scanFrom_next hs hcur .next (.inr h)
    | some d =>
      obtain ⟨hmem, hnext⟩ := ht.next_neighbour hcur hn hd (ht.isNamed_neighbour hs hcur hn hd)
      exact ⟨d, hmem, rfl, hnext⟩
  · exact ht.scanFrom_next hs hcur .next (.inr h)

/-- **`workspace_prev` goes to the workspace before**, always. -/
theorem Rooted.workspacePrevFrom_next :
    ∃ v ∈ t.workspaces, t.workspacePrevFrom current = some v
      ∧ Tour.Next (fun x y => t.Before y x) t.workspaces.toFinset current v := by
  rw [workspacePrevFrom]
  split
  · next hn =>
    cases hd : (t.neighbour .prev current).filter fun d => t.isNamed d with
    | none =>
      rw [Option.none_or]
      exact ht.scanFrom_next hs hcur .prev (.inl rfl)
    | some d =>
      obtain ⟨hd, hnd⟩ := Option.filter_eq_some_iff.mp hd
      obtain ⟨hmem, hnext⟩ := ht.next_neighbour hcur hn hd hnd
      exact ⟨d, hmem, rfl, hnext⟩
  · exact ht.scanFrom_next hs hcur .prev (.inl rfl)

/-- Where the first workspace is named and another one is numbered, `workspace_next` never leaves
the named ones: `first_opposite` is the first workspace, and no number is below -1. -/
theorem Rooted.workspaceNextFrom_named (hn : t.isNamed current) (h : ¬ t.NumberedFirst) :
    ∃ v ∈ t.workspaces, t.workspaceNextFrom current = some v ∧ t.isNamed v := by
  rw [workspaceNextFrom, if_pos hn]
  cases hd : t.neighbour .next current with
  | some d =>
    have hnd := ht.isNamed_neighbour hs hcur hn hd
    exact ⟨d, (ht.next_neighbour hcur hn hd hnd).1, rfl, hnd⟩
  | none =>
    rw [Option.none_or, scanFrom]
    simp only [hn, if_true]
    rw [overOutputs_eq (fun _ => rfl) namedLoop_append, along_workspaces]
    obtain ⟨pre, post, hl⟩ := List.append_of_mem hcur
    have hws := hs.type
    have hnodup := ht.nodup_workspaces
    rw [hl] at hws hnodup
    rw [Way.along, hl, result_namedLoop hws hnodup]
    cases hfind : post.find? t.isNamed with
    | some v =>
      refine ⟨v, ?_, rfl, List.find?_some hfind⟩
      simp [List.mem_of_find?_eq_some hfind]
    | none =>
      simp only [NumberedFirst, not_forall] at h
      obtain ⟨c, hc, hnc, -⟩ := h
      obtain ⟨l, hcl⟩ : ∃ l, t.workspaces = c :: l := ⟨_, List.eq_cons_of_mem_head? hc⟩
      rw [← hl, hcl, List.foldl_cons, orSooner, foldl_orSooner_stuck]
      · exact ⟨c, by simp, rfl, hnc⟩
      · intro d hd _
        have hnum := hs.num d (by simp [hcl, hd])
        simpa [keyOf, Way.key, isNamed_iff.mp hnc] using hnum

end Scans

end Tree

end I3
