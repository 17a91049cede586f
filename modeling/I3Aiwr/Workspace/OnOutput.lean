import Mathlib.Data.List.Cycle
import I3Aiwr.Tree.Graft
import I3Aiwr.Workspace.RoundTrip

/-!
# The workspaces of one output

`workspace_next_on_output` and `workspace_prev_on_output` of `src/workspace.c`. From a named workspace
the neighbour in the list is taken; from a numbered one the list is scanned for the next number. Then
come the first named workspace, and the first of all. The scan backwards passes over named workspaces
where the one forwards stops.

On an output that lists its numbered workspaces in order and the named ones behind them, all of this is
the next element of the list, round and round.

## Main definitions

* `Tree.numberedOnOutput`, `Tree.namedOnOutput`, `Tree.endOnOutput`: the three scans
* `Tree.workspaceNextOnOutput`, `Tree.workspacePrevOnOutput`
* `Tree.Listed t o`: the order of the workspaces of `o`
* `Tree.RoundTripOn cfg t o`: `workspace next_on_output` visits every workspace of `o` and comes back,
  and the two directions undo each other

## Main results

* `Tree.Listed.onOutputFrom`: the scans find the next element of the list
* `Tree.roundTripOn`
-/

namespace I3

namespace Tree

section Definitions

variable (t : Tree) (way : Way) (current : ConId)

/-- The scan from a numbered workspace for the next number. A workspace of the same number behind the
current one is taken at once. -/
def numberedOnOutput : List ConId → Option ConId → Bool → Except ConId (Option ConId)
  | [], o, _ => .ok o
  | c :: cs, o, found =>
    if (t.con c).type ≠ .workspace then numberedOnOutput cs o found
    else if t.isNamed c then if way = .next then .ok o else numberedOnOutput cs o found
    else
      let o := t.orBeyond way current o c
      if c = current then numberedOnOutput cs o true
      else if found ∧ (t.con current).num = (t.con c).num then .error c
      else numberedOnOutput cs o found

/-- The scan for a named workspace: any one, or one behind the current workspace if that is named. -/
def namedOnOutput : List ConId → Bool → Option ConId
  | [], _ => none
  | c :: cs, found =>
    if (t.con c).type ≠ .workspace then namedOnOutput cs found
    else if c = current then namedOnOutput cs true
    else if t.isNamed c ∧ (¬ t.isNamed current ∨ found) then some c
    else namedOnOutput cs found

/-- `!prev || child->num > prev->num`. -/
def orGreater (o : Option ConId) (c : ConId) : Option ConId :=
  match o with
  | none => some c
  | some d => if (t.con c).num > (t.con d).num then some c else some d

/-- The scan for the first workspace, or the last one. Only the former leaves out the names. -/
def endOnOutput (l : List ConId) : Option ConId :=
  (l.filter fun c => (t.con c).type = .workspace).foldl
    (match way with
      | .next => t.orSooner .next
      | .prev => t.orGreater) none

/-- The neighbour of a named workspace. Backwards it has to be named too. -/
def neighbourOnOutput : Option ConId :=
  match way with
  | .next => t.neighbour .next current
  | .prev => (t.neighbour .prev current).filter t.isNamed

/-- The scans one after the other, on the workspaces `l` in the order of the direction. -/
def scansOnOutput (l : List ConId) : Option ConId :=
  match (if t.isNamed current then .ok (t.neighbourOnOutput way current)
    else t.numberedOnOutput way current l none false) with
  | .error c => some c
  | .ok o => o.or ((t.namedOnOutput current l false).or (t.endOnOutput way l))

/-- The scans from the workspace `current`, on its output. -/
def onOutputFrom (output : ConId) : Option ConId :=
  t.scansOnOutput way current (way.along (t.workspacesOf output))

/-- The output of the focused container. -/
def currentOutput : Option ConId := t.focused.bind t.getOutput

def onOutput : Option ConId :=
  t.currentWorkspace.bind fun current => t.currentOutput.bind (t.onOutputFrom way current)

/-- `workspace_next_on_output`. -/
def workspaceNextOnOutput : Option ConId := t.onOutput .next

/-- `workspace_prev_on_output`. -/
def workspacePrevOnOutput : Option ConId := t.onOutput .prev

/-- Focus the next workspace of the output. -/
def focusNextOnOutput (cfg : Config) : Tree :=
  match t.workspaceNextOnOutput with
  | none => t
  | some ws => t.conFocus cfg ws

/-- An output that lists its numbered workspaces in the order of their numbers, and the named ones
behind them. -/
structure Listed (o : ConId) : Prop where
  reach : t.Reach o
  type : (t.con o).type = .output
  workspaces : t.Workspaces (t.workspacesOf o)
  num : ∀ c ∈ t.workspacesOf o, -1 ≤ (t.con c).num
  ordered : (t.workspacesOf o).Pairwise fun c d =>
    t.isNamed d ∨ ¬ t.isNamed c ∧ (t.con c).num ≤ (t.con d).num

end Definitions

variable {cfg : Config} {t t' : Tree} {way : Way} {current c d o w : ConId} {l pre post : List ConId}

/-! ### The next element of a list, and round -/

theorem next_eq_head (hl : (pre ++ c :: post).Nodup) :
    post.head?.or (pre ++ c :: post).head? =
      some ((pre ++ c :: post).next c (List.mem_append_right _ List.mem_cons_self)) := by
  have hlt : pre.length < (pre ++ c :: post).length := by simp
  have hget : (pre ++ c :: post)[pre.length] = c := by simp
  have hnext := List.next_getElem (pre ++ c :: post) hl pre.length (by simp)
  simp only [hget] at hnext
  rw [hnext]
  cases post with
  | nil =>
    rw [List.head?_nil, Option.none_or, List.head?_eq_getElem?]
    simp
  | cons d post =>
    rw [List.head?_cons, Option.some_or, Option.some_inj]
    have hlt : (pre.length + 1) % (pre.length + (post.length + 1 + 1)) = pre.length + 1 :=
      Nat.mod_eq_of_lt (by omega)
    simp [hlt]

/-! ### The scans -/

theorem numberedOnOutput_cons_named (hc : (t.con c).type = .workspace) (hn : t.isNamed c)
    (o : Option ConId) (found : Bool) : t.numberedOnOutput way current (c :: l) o found =
      if way = .next then .ok o else t.numberedOnOutput way current l o found := by
  rw [numberedOnOutput, if_neg (not_not.mpr hc), if_pos hn]

/-- The scan from a numbered workspace does not see the named ones, once nothing else comes behind
them. -/
theorem numberedOnOutput_filter (hl : t.Workspaces l)
    (hnamed : way = .next → l.Pairwise fun c d => t.isNamed c → t.isNamed d) (o : Option ConId)
    (found : Bool) : t.numberedOnOutput way current l o found =
      t.numberedOnOutput way current (l.filter fun c => ¬ t.isNamed c) o found := by
  induction l generalizing o found with
  | nil => rfl
  | cons c l ih =>
    have hc := hl c List.mem_cons_self
    have ih := ih (fun d hd => hl d (List.mem_cons_of_mem c hd))
      fun hway => (List.pairwise_cons.mp (hnamed hway)).2
    by_cases hn : t.isNamed c
    · rw [numberedOnOutput_cons_named hc hn, List.filter_cons_of_neg (by simpa using hn)]
      split
      next hway =>
        -- all that is left is named
        have hrest : (l.filter fun c => ¬ t.isNamed c) = [] := by
          rw [List.filter_eq_nil_iff]
          intro d hd
          simpa using (List.pairwise_cons.mp (hnamed hway)).1 d hd hn
        rw [hrest, numberedOnOutput]
      next => exact ih o found
    · rw [List.filter_cons_of_pos (by simpa using hn), numberedOnOutput, numberedOnOutput,
        if_neg (not_not.mpr hc), if_neg (not_not.mpr hc), if_neg hn, if_neg hn]
      dsimp only
      rw [ih, ih]

/-- Before the current workspace there is no candidate. -/
theorem numberedOnOutput_before (hl : t.Workspaces pre) (hn : ∀ c ∈ pre, ¬ t.isNamed c)
    (hcur : current ∉ pre)
    (hnot : ∀ c ∈ pre, ¬ way.sooner (t.con current).num (t.con c).num) (rest : List ConId) :
    t.numberedOnOutput way current (pre ++ rest) none false =
      t.numberedOnOutput way current rest none false := by
  induction pre with
  | nil => rfl
  | cons c pre ih =>
    have hne : c ≠ current := fun h => hcur (h ▸ List.mem_cons_self)
    have hbeyond : t.orBeyond way current none c = none := by
      rw [orBeyond, if_neg fun h => hnot c List.mem_cons_self h.1]
    rw [List.cons_append, numberedOnOutput, if_neg (not_not.mpr (hl c List.mem_cons_self)),
      if_neg (hn c List.mem_cons_self)]
    dsimp only
    rw [hbeyond, if_neg hne, if_neg (by simp)]
    exact ih (fun d hd => hl d (List.mem_cons_of_mem c hd))
      (fun d hd => hn d (List.mem_cons_of_mem c hd)) (fun h => hcur (List.mem_cons_of_mem c h))
      fun d hd => hnot d (List.mem_cons_of_mem c hd)

/-- A candidate that nothing comes before stays. -/
theorem numberedOnOutput_stuck (hl : t.Workspaces l) (hn : ∀ c ∈ l, ¬ t.isNamed c)
    (hcur : current ∉ l) (hd : way.sooner (t.con current).num (t.con d).num)
    (hnot : ∀ c ∈ l, ¬ way.sooner (t.con c).num (t.con d).num) (found : Bool) :
    t.numberedOnOutput way current l (some d) found = .ok (some d) := by
  induction l with
  | nil => rfl
  | cons c l ih =>
    have hne : c ≠ current := fun h => hcur (h ▸ List.mem_cons_self)
    have hnotc := hnot c List.mem_cons_self
    have hbeyond : t.orBeyond way current (some d) c = some d := by
      rw [orBeyond, if_neg]
      rintro ⟨_, hbefore⟩
      exact hnotc (by simpa using hbefore)
    have hnum : (t.con current).num ≠ (t.con c).num := fun heq => hnotc (heq ▸ hd)
    rw [numberedOnOutput, if_neg (not_not.mpr (hl c List.mem_cons_self)),
      if_neg (hn c List.mem_cons_self)]
    dsimp only
    rw [hbeyond, if_neg hne, if_neg fun h => hnum h.2]
    exact ih (fun e he => hl e (List.mem_cons_of_mem c he))
      (fun e he => hn e (List.mem_cons_of_mem c he)) (fun h => hcur (List.mem_cons_of_mem c h))
      fun e he => hnot e (List.mem_cons_of_mem c he)

/-- **The scan from a numbered workspace** takes the one behind it, where the list goes on with
numbers. -/
theorem numberedOnOutput_eq (way : Way) (hl : t.Workspaces (pre ++ current :: post))
    (hn : ∀ c ∈ pre ++ current :: post, ¬ t.isNamed c) (hnodup : (pre ++ current :: post).Nodup)
    (hordered : (pre ++ current :: post).Pairwise fun c d =>
      ¬ way.sooner (t.con d).num (t.con c).num) :
    (t.numberedOnOutput way current (pre ++ current :: post) none false = .ok none ∧ post = [])
      ∨ ∃ d, post.head? = some d
        ∧ (t.numberedOnOutput way current (pre ++ current :: post) none false = .error d
          ∨ t.numberedOnOutput way current (pre ++ current :: post) none false = .ok (some d)) := by
  obtain ⟨-, hordered', hcross⟩ := List.pairwise_append.mp hordered
  obtain ⟨hhead, htail⟩ := List.pairwise_cons.mp hordered'
  have hnotmem : current ∉ pre := fun h =>
    List.disjoint_of_nodup_append hnodup h List.mem_cons_self
  have hnotmem' : current ∉ post := (List.nodup_cons.mp hnodup.of_append_right).1
  have hself : t.orBeyond way current none current = none := by
    rw [orBeyond, if_neg]
    simp
  rw [numberedOnOutput_before (fun c hc => hl c (List.mem_append_left _ hc))
    (fun c hc => hn c (List.mem_append_left _ hc)) hnotmem
    (fun c hc => hcross c hc current List.mem_cons_self), numberedOnOutput,
    if_neg (not_not.mpr (hl current (by simp))), if_neg (hn current (by simp))]
  dsimp only
  rw [hself, if_pos rfl]
  cases post with
  | nil => exact .inl ⟨rfl, rfl⟩
  | cons d post =>
    have hne : d ≠ current := fun h => hnotmem' (h ▸ List.mem_cons_self)
    refine .inr ⟨d, rfl, ?_⟩
    rw [numberedOnOutput, if_neg (not_not.mpr (hl d (by simp))), if_neg (hn d (by simp))]
    dsimp only
    rw [if_neg hne]
    by_cases hsame : (t.con current).num = (t.con d).num
    · exact .inl (if_pos ⟨rfl, hsame⟩)
    · rw [if_neg fun h => hsame h.2]
      -- a greater number, as the list is in order
      have hsooner : way.sooner (t.con current).num (t.con d).num := by
        have hnot := hhead d List.mem_cons_self
        rw [Way.sooner_iff] at hnot ⊢
        exact lt_of_le_of_ne (not_lt.mp hnot) fun heq => hsame (Way.key_inj.mp heq)
      have hbeyond : t.orBeyond way current none d = some d := by
        rw [orBeyond, if_pos ⟨hsooner, rfl⟩]
      rw [hbeyond]
      refine .inr (numberedOnOutput_stuck (fun c hc => hl c (by simp [hc]))
        (fun c hc => hn c (by simp [hc])) (fun h => hnotmem' (List.mem_cons_of_mem d h)) hsooner
        (fun c hc => (List.pairwise_cons.mp htail).1 c hc) _)

/-- From a numbered workspace the scan for a named one takes the first. -/
theorem namedOnOutput_of_numbered (hl : t.Workspaces l) (hn : ¬ t.isNamed current) (found : Bool) :
    t.namedOnOutput current l found = l.find? t.isNamed := by
  induction l generalizing found with
  | nil => rfl
  | cons c l ih =>
    have ih := ih fun d hd => hl d (List.mem_cons_of_mem c hd)
    rw [namedOnOutput, if_neg (not_not.mpr (hl c List.mem_cons_self))]
    split
    next hcur =>
      rw [List.find?_cons_of_neg (by rw [hcur]; exact hn), ih]
    next hcur =>
      split
      next hnamed => rw [List.find?_cons_of_pos hnamed.1]
      next hnot =>
        rw [List.find?_cons_of_neg fun h => hnot ⟨h, .inl hn⟩, ih]

/-- From a named workspace it finds nothing, where nothing named is behind that. -/
theorem namedOnOutput_of_named (hl : t.Workspaces (pre ++ current :: post)) (hn : t.isNamed current)
    (hcur : current ∉ pre) (hcur' : current ∉ post) (hpost : ∀ c ∈ post, ¬ t.isNamed c) :
    t.namedOnOutput current (pre ++ current :: post) false = none := by
  have hbehind : ∀ found, t.namedOnOutput current post found = none := by
    have hl' : t.Workspaces post := fun c hc => hl c (by simp [hc])
    clear hl
    induction post with
    | nil => exact fun _ => rfl
    | cons c post ih =>
      intro found
      have hne : c ≠ current := fun h => hcur' (h ▸ List.mem_cons_self)
      rw [namedOnOutput, if_neg (not_not.mpr (hl' c List.mem_cons_self)), if_neg hne,
        if_neg fun h => hpost c List.mem_cons_self h.1]
      exact ih (fun h => hcur' (List.mem_cons_of_mem c h))
        (fun d hd => hpost d (List.mem_cons_of_mem c hd))
        (fun d hd => hl' d (List.mem_cons_of_mem c hd)) found
  induction pre with
  | nil =>
    rw [List.nil_append, namedOnOutput, if_neg (not_not.mpr (hl current (by simp))), if_pos rfl]
    exact hbehind true
  | cons c pre ih =>
    have hne : c ≠ current := fun h => hcur (h ▸ List.mem_cons_self)
    rw [List.cons_append, namedOnOutput, if_neg (not_not.mpr (hl c List.mem_cons_self)), if_neg hne,
      if_neg (by simp [hn])]
    exact ih (fun d hd => hl d (List.mem_cons_of_mem c hd)) fun h => hcur (List.mem_cons_of_mem c h)

/-! ### The ends of the list -/

theorem endOnOutput_eq (hl : t.Workspaces l) :
    t.endOnOutput way l = l.foldl (match way with
      | .next => t.orSooner .next
      | .prev => t.orGreater) none := by
  unfold endOnOutput
  rw [List.filter_eq_self.mpr fun c hc => by simpa using hl c hc]

/-- Forwards the first workspace is the first one of the list. -/
theorem endOnOutput_next (hl : t.Workspaces l) (hordered : l.Pairwise fun c d =>
    t.isNamed d ∨ ¬ t.isNamed c ∧ (t.con c).num ≤ (t.con d).num) :
    t.endOnOutput .next l = l.head? := by
  rw [endOnOutput_eq hl]
  cases l with
  | nil => rfl
  | cons c l =>
    have hle := (List.pairwise_cons.mp hordered).1
    rw [List.foldl_cons, List.head?_cons]
    refine foldl_orSooner_stuck fun d hd hn => ?_
    exact ((hle d hd).resolve_left hn).2

theorem foldl_orGreater_stuck (hle : ∀ c ∈ l, (t.con c).num ≤ (t.con d).num) :
    l.foldl t.orGreater (some d) = some d := by
  induction l with
  | nil => rfl
  | cons c l ih =>
    rw [List.foldl_cons, orGreater, if_neg (not_lt.mpr (hle c List.mem_cons_self))]
    exact ih fun e he => hle e (List.mem_cons_of_mem c he)

/-- The first of the greatest numbers is found, behind lesser ones. -/
theorem foldl_orGreater (hpre : ∀ c ∈ pre, (t.con c).num < (t.con d).num)
    (hpost : ∀ c ∈ post, (t.con c).num ≤ (t.con d).num) :
    (pre ++ d :: post).foldl t.orGreater none = some d := by
  have hsome : ∀ (l : List ConId) (o : Option ConId), (∀ c ∈ l, (t.con c).num < (t.con d).num) →
      (∀ c ∈ o, (t.con c).num < (t.con d).num) →
      ∀ c ∈ l.foldl t.orGreater o, (t.con c).num < (t.con d).num := by
    intro l
    induction l with
    | nil => exact fun o _ ho => ho
    | cons e l ih =>
      intro o hl ho
      rw [List.foldl_cons]
      refine ih _ (fun c hc => hl c (List.mem_cons_of_mem e hc)) fun c hc => ?_
      cases o with
      | none =>
        obtain rfl : e = c := by simpa [orGreater] using hc
        exact hl e List.mem_cons_self
      | some f =>
        rw [orGreater] at hc
        split at hc
        · obtain rfl : e = c := by simpa using hc
          exact hl e List.mem_cons_self
        · exact ho c hc
  have hless := hsome pre none hpre (by simp)
  rw [List.foldl_append, List.foldl_cons]
  have hstep : t.orGreater (pre.foldl t.orGreater none) d = some d := by
    cases hcase : pre.foldl t.orGreater none with
    | none => rfl
    | some f => rw [orGreater, if_pos (hless f hcase)]
  rw [hstep, foldl_orGreater_stuck hpost]

/-! ### The order of an output -/

namespace Listed

variable (ht : Rooted t) (hs : t.Listed o)
include ht hs

omit hs in
theorem nodup : (t.workspacesOf o).Nodup := by
  rw [workspacesOf]
  split
  · exact List.nodup_nil
  · exact ht.nodupNodes _

omit hs in
theorem neighbour_eq (hl : way.along (t.workspacesOf o) = pre ++ current :: post) :
    t.neighbour way current = post.head? := by
  have hmem : current ∈ t.workspacesOf o := by
    have halong : current ∈ way.along (t.workspacesOf o) := by
      rw [hl]
      simp
    exact Way.mem_along.mp halong
  have hnodup : (pre ++ current :: post).Nodup := by
    rw [← hl, Way.nodup_along]
    exact nodup ht
  obtain ⟨content, hparent, -, hnodes⟩ := ht.parent_workspace hmem
  have hpre : current ∉ pre := fun h => List.disjoint_of_nodup_append hnodup h List.mem_cons_self
  rw [neighbour, hparent, Option.bind_some, hnodes, hl, Queue.next_append_self hpre]

omit ht in
/-- A number that is not the one of a name is greater. -/
theorem num_lt {c d : ConId} (hd : d ∈ t.workspacesOf o) (hnc : t.isNamed c) (hnd : ¬ t.isNamed d) :
    (t.con c).num < (t.con d).num := by
  have hle := hs.num d hd
  rw [isNamed_iff] at hnc hnd
  omega

/-- Forwards the scans find what is behind the workspace, or else the first one. -/
theorem scansOnOutput_next (hl : t.workspacesOf o = pre ++ current :: post) :
    t.scansOnOutput .next current (pre ++ current :: post) =
      post.head?.or (pre ++ current :: post).head? := by
  have hnodup : (pre ++ current :: post).Nodup := hl ▸ nodup ht
  have hws : t.Workspaces (pre ++ current :: post) := hl ▸ hs.workspaces
  have hordered := hl ▸ hs.ordered
  have hend := endOnOutput_next hws hordered
  obtain ⟨-, hordered', hcross⟩ := List.pairwise_append.mp hordered
  obtain ⟨hbehind, hpost⟩ := List.pairwise_cons.mp hordered'
  have hcur : current ∉ pre := fun h => List.disjoint_of_nodup_append hnodup h List.mem_cons_self
  have hcur' : current ∉ post := (List.nodup_cons.mp hnodup.of_append_right).1
  rw [scansOnOutput]
  by_cases hn : t.isNamed current
  · rw [if_pos hn]
    dsimp only
    have hneighbour : t.neighbour .next current = post.head? := neighbour_eq ht hl
    rw [neighbourOnOutput, hneighbour, hend]
    cases post with
    | nil => rw [namedOnOutput_of_named hws hn hcur hcur' (by simp), Option.none_or]
    | cons d post => rfl
  · have hpre : ∀ c ∈ pre, ¬ t.isNamed c := fun c hc =>
      ((hcross c hc current List.mem_cons_self).resolve_left hn).1
    have hnamed : (pre ++ current :: post).Pairwise fun c d => t.isNamed c → t.isNamed d :=
      hordered.imp fun h hc => h.resolve_right fun h' => h'.1 hc
    have hsplit : ((pre ++ current :: post).filter fun c => ¬ t.isNamed c) =
        pre ++ current :: post.filter fun c => ¬ t.isNamed c := by
      rw [List.filter_append, List.filter_cons_of_pos (by simpa using hn),
        List.filter_eq_self.mpr fun c hc => by simpa using hpre c hc]
    have hsub := List.filter_sublist (p := fun c => ¬ t.isNamed c) (l := pre ++ current :: post)
    rw [if_neg hn, numberedOnOutput_filter hws fun _ => hnamed]
    rw [hsplit] at hsub ⊢
    have hscan := numberedOnOutput_eq .next (fun c hc => hws c (hsub.subset hc))
      (by
        intro c hc
        rw [← hsplit] at hc
        simpa using (List.mem_filter.mp hc).2) (hnodup.sublist hsub)
      (by
        rw [← hsplit, List.pairwise_filter]
        refine hordered.imp fun h _ hd => ?_
        have hle := (h.resolve_left (by simpa using hd)).2
        simpa [Way.sooner] using hle)
    rcases hscan with ⟨hnone, hempty⟩ | ⟨d, hd, hfound⟩
    · -- the list goes on with names, or ends
      have hall : ∀ c ∈ post, t.isNamed c := by
        intro c hc
        simpa using (List.filter_eq_nil_iff.mp hempty) c hc
      rw [hnone]
      dsimp only
      rw [Option.none_or, namedOnOutput_of_numbered hws hn, hend, List.find?_append,
        List.find?_eq_none.mpr hpre, Option.none_or, List.find?_cons_of_neg hn]
      cases post with
      | nil => rfl
      | cons e post => rw [List.find?_cons_of_pos (hall e List.mem_cons_self), List.head?_cons]
    · have hhead : post.head? = some d := by
        cases post with
        | nil => simp at hd
        | cons e post =>
          by_cases hne : t.isNamed e
          · have hrest := (List.pairwise_cons.mp
              (List.pairwise_cons.mp (List.pairwise_append.mp hnamed).2.1).2).1
            have hempty : ((e :: post).filter fun c => ¬ t.isNamed c) = [] := by
              rw [List.filter_eq_nil_iff]
              intro c hc
              obtain rfl | hc := List.mem_cons.mp hc
              · simpa using hne
              · simpa using hrest c hc hne
            rw [hempty] at hd
            cases hd
          · rwa [List.filter_cons_of_pos (by simpa using hne)] at hd
      rw [hhead, Option.some_or]
      rcases hfound with hfound | hfound
      · rw [hfound]
      · rw [hfound]
        rfl

/-- Backwards they find what is before it, or else the last one. -/
theorem scansOnOutput_prev (hl : (t.workspacesOf o).reverse = pre ++ current :: post) :
    t.scansOnOutput .prev current (pre ++ current :: post) =
      post.head?.or (pre ++ current :: post).head? := by
  have hnodup : (pre ++ current :: post).Nodup := hl ▸ List.nodup_reverse.mpr (nodup ht)
  have hmem : ∀ c ∈ pre ++ current :: post, c ∈ t.workspacesOf o := fun c hc =>
    List.mem_reverse.mp (hl ▸ hc)
  have hws : t.Workspaces (pre ++ current :: post) := fun c hc => hs.workspaces c (hmem c hc)
  have hordered : (pre ++ current :: post).Pairwise fun c d =>
      t.isNamed c ∨ ¬ t.isNamed d ∧ (t.con d).num ≤ (t.con c).num :=
    hl ▸ List.pairwise_reverse.mpr hs.ordered
  obtain ⟨-, hordered', hcross⟩ := List.pairwise_append.mp hordered
  obtain ⟨hbehind, hpost⟩ := List.pairwise_cons.mp hordered'
  have hcur : current ∉ pre := fun h => List.disjoint_of_nodup_append hnodup h List.mem_cons_self
  have hcur' : current ∉ post := (List.nodup_cons.mp hnodup.of_append_right).1
  -- a list that is named all over, or not at all, has its greatest number at the head
  have hhead : ∀ e l, pre ++ current :: post = e :: l →
      (t.isNamed e → ∀ c ∈ l, t.isNamed c) → t.endOnOutput .prev (pre ++ current :: post) = some e := by
    intro e l heq hall
    rw [endOnOutput_eq hws]
    rw [heq] at hordered ⊢
    rw [← List.nil_append (e :: l)]
    refine foldl_orGreater (by simp) fun c hc => ?_
    rcases (List.pairwise_cons.mp hordered).1 c hc with hne | hle
    · rw [isNamed_iff.mp hne, isNamed_iff.mp (hall hne c hc)]
    · exact hle.2
  rw [scansOnOutput]
  by_cases hn : t.isNamed current
  · have hpre : ∀ c ∈ pre, t.isNamed c := fun c hc =>
      (hcross c hc current List.mem_cons_self).resolve_right fun h => h.1 hn
    rw [if_pos hn]
    dsimp only
    have hneighbour : t.neighbour .prev current = post.head? := neighbour_eq ht hl
    rw [neighbourOnOutput, hneighbour]
    cases post with
    | nil =>
      rw [namedOnOutput_of_named hws hn hcur hcur' (by simp), List.head?_nil, Option.filter_none,
        Option.none_or, Option.none_or, Option.none_or]
      cases pre with
      | nil => exact hhead current [] rfl (by simp)
      | cons e pre =>
        refine hhead e (pre ++ [current]) rfl fun _ c hc => ?_
        rcases List.mem_append.mp hc with hc | hc
        · exact hpre c (List.mem_cons_of_mem e hc)
        · rwa [List.mem_singleton.mp hc]
    | cons d post =>
      rw [List.head?_cons, Option.some_or]
      by_cases hnd : t.isNamed d
      · rw [Option.filter_some_pos hnd, Option.some_or]
      · -- the last number, with all the names in front of it
        have hrest : ∀ c ∈ post, ¬ t.isNamed c ∧ (t.con c).num ≤ (t.con d).num := fun c hc =>
          ((List.pairwise_cons.mp hpost).1 c hc).resolve_left hnd
        have hnone : ∀ c ∈ d :: post, ¬ t.isNamed c := by
          intro c hc
          obtain rfl | hc := List.mem_cons.mp hc
          · exact hnd
          · exact (hrest c hc).1
        have hd : d ∈ t.workspacesOf o := hmem d (by simp)
        rw [Option.filter_some_neg (by simpa using hnd), Option.none_or, namedOnOutput_of_named hws hn hcur hcur' hnone,
          Option.none_or, endOnOutput_eq hws, List.append_cons]
        refine foldl_orGreater (fun c hc => hs.num_lt hd ?_ hnd) fun c hc => (hrest c hc).2
        rcases List.mem_append.mp hc with hc | hc
        · exact hpre c hc
        · rwa [List.mem_singleton.mp hc]
  · have hnum : ∀ c ∈ post, ¬ t.isNamed c := fun c hc => ((hbehind c hc).resolve_left hn).1
    have hsplit : ((pre ++ current :: post).filter fun c => ¬ t.isNamed c) =
        (pre.filter fun c => ¬ t.isNamed c) ++ current :: post := by
      rw [List.filter_append, List.filter_cons_of_pos (by simpa using hn)]
      congr 2
      exact List.filter_eq_self.mpr fun c hc => by simpa using hnum c hc
    have hsub := List.filter_sublist (p := fun c => ¬ t.isNamed c) (l := pre ++ current :: post)
    rw [if_neg hn, numberedOnOutput_filter hws (by simp)]
    rw [hsplit] at hsub ⊢
    have hscan := numberedOnOutput_eq .prev (fun c hc => hws c (hsub.subset hc))
      (by
        intro c hc
        rw [← hsplit] at hc
        simpa using (List.mem_filter.mp hc).2) (hnodup.sublist hsub)
      (by
        rw [← hsplit, List.pairwise_filter]
        refine hordered.imp fun h hc _ => ?_
        have hle := (h.resolve_left (by simpa using hc)).2
        simpa [Way.sooner] using hle)
    rcases hscan with ⟨hnone, rfl⟩ | ⟨d, hd, hfound⟩
    · rw [hnone]
      dsimp only
      rw [Option.none_or, namedOnOutput_of_numbered hws hn, List.head?_nil, Option.none_or]
      cases hcons : pre ++ [current] with
      | nil => simp at hcons
      | cons e l =>
        rw [List.head?_cons]
        by_cases hne : t.isNamed e
        · rw [List.find?_cons_of_pos hne, Option.some_or]
        · rw [← hcons, hhead e l hcons fun h => absurd h hne, List.find?_eq_none.mpr, Option.none_or]
          rw [hcons] at hordered ⊢
          intro c hc
          obtain rfl | hc := List.mem_cons.mp hc
          · exact hne
          · exact (((List.pairwise_cons.mp hordered).1 c hc).resolve_left hne).1
    · rw [hd, Option.some_or]
      rcases hfound with hfound | hfound
      · rw [hfound]
      · rw [hfound]
        rfl

/-- **The scans find the next element of the list**, in the direction of the scan. -/
theorem onOutputFrom (way : Way) (hw : w ∈ way.along (t.workspacesOf o)) :
    t.onOutputFrom way w o = some ((way.along (t.workspacesOf o)).next w hw) := by
  obtain ⟨pre, post, hl⟩ := List.append_of_mem hw
  have hnodup : (pre ++ w :: post).Nodup := by
    rw [← hl, Way.nodup_along]
    exact nodup ht
  rw [Tree.onOutputFrom]
  simp only [hl]
  rw [← next_eq_head hnodup]
  cases way with
  | next => exact hs.scansOnOutput_next ht hl
  | prev => exact hs.scansOnOutput_prev ht hl

/-- The output of a workspace. -/
theorem getOutput_eq (hw : w ∈ t.workspacesOf o) : t.getOutput w = some o := by
  obtain ⟨content, hcontent, hget, hnodes⟩ := exists_content hw
  have hwc : w ∈ t.children content := List.mem_append_left _ (hnodes ▸ hw)
  have hco : content ∈ t.children o := List.mem_append_left _ hcontent
  have hbelow : Descent.Below t.children o w := (Descent.Below.single hco).tail hwc
  have hcontype : (t.con content).type = .con := by
    simpa using List.find?_some hget
  apply ht.find?_chain (hs.reach.trans hbelow.within) hbelow.within (by simpa using hs.type)
  intro z hoz hzw
  -- between the two there is the content container only
  rcases Descent.within_iff.mp hzw with rfl | hzw
  · simp [hs.workspaces _ hw]
  · rcases Descent.within_iff.mp (Descent.within_parent ht.parent hzw (ht.parent content w hwc)) with
      rfl | hzc
    · simp [hcontype]
    · have hzo := Descent.within_parent ht.parent hzc (ht.parent o content hco)
      exact absurd (hoz.trans_within hzo) (ht.acyclic o)

end Listed

/-! ### Going round -/

/-- Stirring the tree keeps the order of the output. -/
theorem Stirs.listed (h : Stirs t t') (hs : t.Listed o) : t'.Listed o where
  reach := h.links.reach.mpr hs.reach
  type := by rw [h.type, hs.type]
  workspaces c hc := by rw [h.type, hs.workspaces c (h.workspacesOf o ▸ hc)]
  num c hc := by rw [h.num]; exact hs.num c (h.workspacesOf o ▸ hc)
  ordered := by
    simp only [h.isNamed, h.num, h.workspacesOf]
    exact hs.ordered

/-- On the workspace `w` of the output `o`, in a tree with the lists of `t`. -/
structure OnThe (o : ConId) (t t' : Tree) (w : ConId) : Prop where
  stirs : Stirs t t'
  current : t'.currentWorkspace = some w
  output : t'.currentOutput = some o

section

variable (ht : Rooted t) (hs : t.Listed o)
include ht hs

/-- On a workspace that was focused. -/
theorem OnThe.conFocus (cfg : Config) (h : Stirs t t') (hw : w ∈ t.workspacesOf o) :
    OnThe o t (t'.conFocus cfg w) w := by
  have ht' := ht.links h.links
  have hs' := h.listed hs
  have hw' : w ∈ t'.workspacesOf o := h.workspacesOf o ▸ hw
  obtain ⟨content, hparent, -⟩ := ht'.parent_workspace hw'
  have hpos : 0 < t'.nextCon := Nat.zero_lt_of_lt ht'.boundedRoot
  have hstirs := stirs_conFocus cfg t' w
  refine ⟨h.trans hstirs, ?_, ?_⟩
  · exact currentWorkspace_conFocus_of hparent (hs'.workspaces w hw') hpos
  · rw [currentOutput, conFocus_focused hparent hpos, Option.bind_some]
    exact (hstirs.listed hs').getOutput_eq (ht'.links hstirs.links) (hstirs.workspacesOf o ▸ hw')

/-- **What the two functions return** on a workspace of the output. -/
theorem OnThe.onOutput (h : OnThe o t t' w) (way : Way)
    (hw : w ∈ way.along (t.workspacesOf o)) :
    t'.onOutput way = some ((way.along (t.workspacesOf o)).next w hw) := by
  have hlists := h.stirs.workspacesOf o
  have hfrom := (h.stirs.listed hs).onOutputFrom (ht.links h.stirs.links) way (hlists ▸ hw)
  rw [Tree.onOutput, h.current, Option.bind_some, h.output, Option.bind_some, hfrom]
  simp only [hlists]

theorem OnThe.workspaceNextOnOutput (h : OnThe o t t' w) (hw : w ∈ t.workspacesOf o) :
    t'.workspaceNextOnOutput = some ((t.workspacesOf o).next w hw) :=
  h.onOutput ht hs .next hw

theorem OnThe.workspacePrevOnOutput (h : OnThe o t t' w) (hw : w ∈ t.workspacesOf o) :
    t'.workspacePrevOnOutput = some ((t.workspacesOf o).prev w hw) := by
  have hprev := h.onOutput ht hs .prev (List.mem_reverse.mpr hw)
  exact hprev.trans (congrArg some (List.next_reverse_eq_prev _ (Listed.nodup ht) w hw))

end

/-- The tree after the next workspace of the output has been followed `k` times. -/
def afterNextOnOutput (cfg : Config) (t : Tree) (k : ℕ) : Tree :=
  (fun t => t.focusNextOnOutput cfg)^[k] t

/-- Each workspace of the output is visited once before the first one comes again, after as many steps
as there are workspaces. The two directions undo each other. -/
structure RoundTripOn (cfg : Config) (t : Tree) (o : ConId) : Prop where
  visits : ∀ w ∈ t.workspacesOf o,
    ∃! k, k < (t.workspacesOf o).length ∧ (t.afterNextOnOutput cfg k).currentWorkspace = some w
  returns : (t.afterNextOnOutput cfg (t.workspacesOf o).length).currentWorkspace = t.currentWorkspace
  prevNext : ∀ w ∈ t.workspacesOf o, ∃ v, (t.conFocus cfg w).workspaceNextOnOutput = some v
    ∧ (t.conFocus cfg v).workspacePrevOnOutput = some w
  nextPrev : ∀ w ∈ t.workspacesOf o, ∃ v, (t.conFocus cfg w).workspacePrevOnOutput = some v
    ∧ (t.conFocus cfg v).workspaceNextOnOutput = some w

section

variable (ht : Rooted t) (hs : t.Listed o)
include ht hs

/-- After `k` steps from the workspace in place `i` of the list. -/
theorem OnThe.afterNextOnOutput (cfg : Config) {i : ℕ} (hi : i < (t.workspacesOf o).length)
    (h : OnThe o t t (t.workspacesOf o)[i]) (k : ℕ) :
    ∃ _ : (i + k) % (t.workspacesOf o).length < (t.workspacesOf o).length,
      OnThe o t (t.afterNextOnOutput cfg k) (t.workspacesOf o)[(i + k) % (t.workspacesOf o).length] := by
  have hpos : 0 < (t.workspacesOf o).length := Nat.zero_lt_of_lt hi
  induction k with
  | zero =>
    refine ⟨Nat.mod_lt _ hpos, ?_⟩
    have hstart : t.afterNextOnOutput cfg 0 = t := rfl
    simp only [hstart, Nat.add_zero, Nat.mod_eq_of_lt hi]
    exact h
  | succ k ih =>
    obtain ⟨hk, ih⟩ := ih
    have hmem := List.getElem_mem hk
    have hnext := ih.workspaceNextOnOutput ht hs hmem
    rw [List.next_getElem _ (Listed.nodup ht)] at hnext
    have hplace : ((i + k) % (t.workspacesOf o).length + 1) % (t.workspacesOf o).length =
        (i + (k + 1)) % (t.workspacesOf o).length := by
      rw [Nat.mod_add_mod, Nat.add_assoc]
    simp only [hplace] at hnext
    refine ⟨Nat.mod_lt _ hpos, ?_⟩
    rw [Tree.afterNextOnOutput, Function.iterate_succ_apply', focusNextOnOutput]
    rw [Tree.afterNextOnOutput] at hnext ih
    rw [hnext]
    exact .conFocus ht hs cfg ih.stirs (List.getElem_mem _)

/-- **On one output, next and prev are inverse cycles.** -/
theorem roundTripOn (cfg : Config) (hw : w ∈ t.workspacesOf o)
    (hcur : t.currentWorkspace = some w) (hout : t.currentOutput = some o) : t.RoundTripOn cfg o := by
  obtain ⟨i, hi, rfl⟩ := List.getElem_of_mem hw
  have hnodup : (t.workspacesOf o).Nodup := Listed.nodup ht
  have hpos : 0 < (t.workspacesOf o).length := Nat.zero_lt_of_lt hi
  have hafter := OnThe.afterNextOnOutput ht hs cfg hi ⟨.refl t, hcur, hout⟩
  refine ⟨?_, ?_, ?_, ?_⟩
  · intro v hv
    obtain ⟨j, hj, rfl⟩ := List.getElem_of_mem hv
    -- place `j` is this many steps behind place `i`
    refine ⟨(j + ((t.workspacesOf o).length - i)) % (t.workspacesOf o).length,
      ⟨Nat.mod_lt _ hpos, ?_⟩, ?_⟩
    · obtain ⟨hk, h⟩ := hafter ((j + ((t.workspacesOf o).length - i)) % (t.workspacesOf o).length)
      have hplace : (i + (j + ((t.workspacesOf o).length - i)) % (t.workspacesOf o).length) %
          (t.workspacesOf o).length = j := by
        rw [Nat.add_mod_mod, show i + (j + ((t.workspacesOf o).length - i)) =
          j + (t.workspacesOf o).length by omega, Nat.add_mod_right, Nat.mod_eq_of_lt hj]
      have hcurrent := h.current
      simp only [hplace] at hcurrent
      exact hcurrent
    · rintro k ⟨hlt, hk⟩
      obtain ⟨hplace, h⟩ := hafter k
      have hsame : (i + k) % (t.workspacesOf o).length = j := by
        rw [h.current, Option.some_inj] at hk
        exact (hnodup.getElem_inj_iff).mp hk
      rw [← hsame, Nat.mod_add_mod, show i + k + ((t.workspacesOf o).length - i) =
        k + (t.workspacesOf o).length by omega, Nat.add_mod_right, Nat.mod_eq_of_lt hlt]
  · obtain ⟨hk, h⟩ := hafter (t.workspacesOf o).length
    rw [h.current, hcur, Option.some_inj]
    simp only [Nat.add_mod_right, Nat.mod_eq_of_lt hi]
  · intro v hv
    have hnext := (OnThe.conFocus ht hs cfg (.refl t) hv).workspaceNextOnOutput ht hs hv
    have hmem := List.next_mem (t.workspacesOf o) v hv
    refine ⟨_, hnext, ?_⟩
    rw [(OnThe.conFocus ht hs cfg (.refl t) hmem).workspacePrevOnOutput ht hs hmem,
      List.prev_next _ hnodup]
  · intro v hv
    have hprev := (OnThe.conFocus ht hs cfg (.refl t) hv).workspacePrevOnOutput ht hs hv
    have hmem := List.prev_mem (t.workspacesOf o) v hv
    refine ⟨_, hprev, ?_⟩
    rw [(OnThe.conFocus ht hs cfg (.refl t) hmem).workspaceNextOnOutput ht hs hmem,
      List.next_prev _ hnodup]

end

/-! ### Numbers and names -/

/-- An output with two workspaces of the number 1, one of the number 3 and two names, beside the
internal output. -/
def numbersAndNames : Tree := ofList [
  { type := .root, nodesHead := [1, 2], focusHead := [2, 1] },
  { type := .output, layout := .output, name := "__i3", parent := some 0 },
  { type := .output, layout := .output, name := "left", parent := some 0, nodesHead := [3]
    focusHead := [3] },
  { layout := .splith, name := "content", parent := some 2, nodesHead := [4, 5, 6, 7, 8]
    focusHead := [5, 4, 6, 7, 8] },
  { type := .workspace, layout := .splith, name := "1", num := 1, parent := some 3 },
  { type := .workspace, layout := .splith, name := "1:b", num := 1, parent := some 3
    fullscreenMode := .output },
  { type := .workspace, layout := .splith, name := "3", num := 3, parent := some 3 },
  { type := .workspace, layout := .splith, name := "mail", num := -1, parent := some 3 },
  { type := .workspace, layout := .splith, name := "web", num := -1, parent := some 3 }] (some 5)

theorem roundTripOn_numbersAndNames : numbersAndNames.RoundTripOn {} 2 :=
  have ht : Rooted numbersAndNames := rooted_ofList (by decide +kernel) (by decide +kernel)
  roundTripOn ht ⟨(ht.sits_of_mem reach_croot (c := 2) (by decide +kernel)).1, by decide +kernel,
    by unfold Workspaces; decide +kernel, by decide +kernel, by decide +kernel⟩ {}
    (show 5 ∈ numbersAndNames.workspacesOf 2 by decide +kernel) (by decide +kernel)
    (by decide +kernel)

end Tree

end I3
