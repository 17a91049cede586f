import I3Aiwr.Lib.Pick
import I3Aiwr.Workspace.Cycle

/-!
# What the scans find

On lists of workspaces without duplicates, a scan from a workspace takes the first candidate behind
it, and otherwise the best candidate of the whole list. Stopping at the first named workspace of
each list makes no difference where the named ones stand last.

## Main results

* `Tree.result_namedLoop`, `Tree.result_numberedLoop`: the results on one list
* `Tree.numberedLoop_stop`: stopping makes no difference
* `Tree.overOutputs_eq`: scanning output by output is scanning one list
-/

namespace I3

namespace Way

/-- The numbers in the order of the scan. -/
def key : Way → ℤ → ℤ
  | next, n => n
  | prev, n => -n

@[simp] theorem sooner_iff (way : Way) (m n : ℤ) : way.sooner m n ↔ way.key m < way.key n := by
  cases way <;> simp [sooner, key]

theorem key_inj {way : Way} {m n : ℤ} : way.key m = way.key n ↔ m = n := by
  cases way <;> simp [key]

@[simp] theorem mem_along {α : Type} {way : Way} {l : List α} {x : α} : x ∈ way.along l ↔ x ∈ l := by
  cases way <;> simp [along]

theorem nodup_along {α : Type} {way : Way} {l : List α} : (way.along l).Nodup ↔ l.Nodup := by
  cases way <;> simp [along]

end Way

namespace Tree

variable {t : Tree} {way : Way} {current : ConId} {l pre post : List ConId}

/-- The key of a workspace in the order of the scan. -/
def keyOf (t : Tree) (way : Way) (c : ConId) : ℤ := way.key (t.con c).num

/-- A list of workspaces. -/
def Workspaces (t : Tree) (l : List ConId) : Prop := ∀ c ∈ l, (t.con c).type = .workspace

/-! ### The candidates as picks -/

theorem orBeyond_eq :
    t.orBeyond way current =
      Pick.keep (fun c => way.sooner (t.con current).num (t.con c).num) (t.keyOf way) := by
  funext o c
  cases o <;> simp [orBeyond, Pick.keep, keyOf]

theorem orNamed_eq : t.orNamed = Pick.keep t.isNamed (fun _ => (0 : ℤ)) := by
  funext o c
  cases o <;> simp [orNamed, Pick.keep]

/-- From a numbered candidate on, only numbered workspaces are taken. -/
theorem foldl_orSooner_numbered {d : ConId} (hd : ¬ t.isNamed d) :
    l.foldl (t.orSooner way) (some d)
      = l.foldl (Pick.keep (fun c => !t.isNamed c) (t.keyOf way)) (some d) := by
  induction l generalizing d with
  | nil => rfl
  | cons c l ih =>
    rw [List.foldl_cons, List.foldl_cons, orSooner, Pick.keep]
    by_cases hc : ¬ t.isNamed c ∧ t.keyOf way c < t.keyOf way d
    · rw [if_pos (by simpa [keyOf] using hc), if_pos (by simpa [keyOf] using hc)]
      exact ih hc.1
    · rw [if_neg (by simpa [keyOf] using hc), if_neg (by simpa [keyOf] using hc)]
      exact ih hd

/-- A named candidate that all numbered workspaces come before gives way to the best of them. -/
theorem foldl_orSooner_named {d : ConId}
    (hlt : ∀ c ∈ l, ¬ t.isNamed c → t.keyOf way c < t.keyOf way d) :
    l.foldl (t.orSooner way) (some d)
      = (l.foldl (Pick.keep (fun c => !t.isNamed c) (t.keyOf way)) none).or (some d) := by
  induction l with
  | nil => rfl
  | cons c l ih =>
    rw [List.foldl_cons, List.foldl_cons, orSooner, Pick.keep]
    by_cases hc : t.isNamed c
    · rw [if_neg (by simp [hc]), if_neg (by simp [hc])]
      exact ih fun e he => hlt e (List.mem_cons_of_mem c he)
    · rw [if_pos (by simpa [keyOf, hc] using hlt c List.mem_cons_self hc),
        if_pos (by simp [hc]), foldl_orSooner_numbered hc]
      -- the scan has a candidate from here on, and needs no other one
      have hsome : ∀ (l : List ConId) (c : ConId),
          (l.foldl (Pick.keep (fun c => !t.isNamed c) (t.keyOf way)) (some c)).isSome := by
        intro l
        induction l with
        | nil => simp
        | cons e l ih =>
          intro c
          rw [List.foldl_cons, Pick.keep]
          split <;> exact ih _
      rw [Option.or_of_isSome (hsome l c)]

/-- A named candidate that no numbered workspace comes before stays. -/
theorem foldl_orSooner_stuck {d : ConId}
    (hle : ∀ c ∈ l, ¬ t.isNamed c → t.keyOf way d ≤ t.keyOf way c) :
    l.foldl (t.orSooner way) (some d) = some d := by
  induction l with
  | nil => rfl
  | cons c l ih =>
    have hc : ¬ (¬ t.isNamed c ∧ t.keyOf way c < t.keyOf way d) := fun h =>
      absurd h.2 (not_lt.mpr (hle c List.mem_cons_self h.1))
    rw [List.foldl_cons, orSooner, if_neg (by simpa [keyOf] using hc)]
    exact ih fun e he => hle e (List.mem_cons_of_mem c he)

/-! ### Before the current workspace and behind it -/

theorem foldl_or_some (l : List ConId) (o : Option ConId) :
    l.foldl (fun o c => o.or (some c)) o = o.or l.head? := by
  induction l generalizing o with
  | nil => simp
  | cons c l ih => rw [List.foldl_cons, ih]; cases o <;> simp

/-- Before the current workspace is passed, the scan only keeps its candidates. -/
theorem namedLoop_before (hl : t.Workspaces pre) (hcur : current ∉ pre) (s : Scan)
    (hs : s.found = false) (rest : List ConId) :
    t.namedLoop way current (pre ++ rest) s =
      t.namedLoop way current rest { s with
        first := pre.foldl (fun o c => o.or (some c)) s.first
        opposite := pre.foldl (t.orSooner way) s.opposite } := by
  induction pre generalizing s with
  | nil => rfl
  | cons c pre ih =>
    obtain ⟨hne, hcur⟩ := not_or.mp (List.mem_cons.not.mp hcur)
    rw [List.cons_append, namedLoop, if_neg (by simp [hl c (by simp)]), if_neg (Ne.symm hne),
      if_neg (by simp [hs])]
    exact ih (fun e he => hl e (by simp [he])) hcur _ hs

/-- Behind the current workspace the first named one is taken. -/
theorem namedLoop_behind (hl : t.Workspaces post) (hcur : current ∉ post) (s : Scan)
    (hs : s.found = true) :
    t.namedLoop way current post s = match post.find? t.isNamed with
      | some c => .error c
      | none => .ok { s with
          first := post.foldl (fun o c => o.or (some c)) s.first
          opposite := post.foldl (t.orSooner way) s.opposite } := by
  induction post generalizing s with
  | nil => rfl
  | cons c post ih =>
    obtain ⟨hne, hcur⟩ := not_or.mp (List.mem_cons.not.mp hcur)
    rw [namedLoop, if_neg (by simp [hl c (by simp)]), if_neg (Ne.symm hne), List.find?_cons]
    by_cases hc : t.isNamed c
    · rw [if_pos (by simp [hc, hs])]
      simp [hc]
    · rw [if_neg (by simp [hc])]
      rw [Bool.not_eq_true] at hc
      rw [hc]
      exact ih (fun e he => hl e (by simp [he])) hcur _ hs

/-- **The scan from a named workspace**: the first named one behind it, or else the best numbered
one, as far as `foldl_orSooner` finds it. -/
theorem result_namedLoop (hl : t.Workspaces (pre ++ current :: post))
    (hnd : (pre ++ current :: post).Nodup) :
    Scan.result (t.namedLoop way current (pre ++ current :: post) {}) =
      (post.find? t.isNamed).or ((pre ++ current :: post).foldl (t.orSooner way) none
        |>.or (pre ++ current :: post).head?) := by
  have hpre : current ∉ pre := fun h => List.disjoint_of_nodup_append hnd h List.mem_cons_self
  have hpost : current ∉ post := (List.nodup_cons.mp hnd.of_append_right).1
  rw [namedLoop_before (fun c hc => hl c (by simp [hc])) hpre _ rfl, namedLoop,
    if_neg (by simp [hl current (by simp)]), if_pos rfl,
    namedLoop_behind (fun c hc => hl c (by simp [hc])) hpost _ rfl]
  cases post.find? t.isNamed with
  | some c => rfl
  | none =>
    simp only [Scan.result, Option.none_or, List.foldl_append, List.foldl_cons, foldl_or_some,
      Option.or_assoc]
    cases pre <;> simp

/-! ### From a numbered workspace -/

section Steps

variable {c : ConId} (hc : (t.con c).type = .workspace) (s : Scan)
include hc

theorem numberedLoop_cons_named (hn : t.isNamed c) :
    t.numberedLoop way current false (c :: l) s = t.numberedLoop way current false l { s with
      first := t.orSooner way s.first c
      opposite := t.orNamed s.opposite c } := by
  rw [numberedLoop, if_neg (by simp [hc]), if_pos hn, if_neg Bool.false_ne_true]

theorem numberedLoop_cons_numbered (hn : ¬ t.isNamed c) (hne : c ≠ current) (hs : s.found = false) :
    t.numberedLoop way current false (c :: l) s = t.numberedLoop way current false l { s with
      first := t.orSooner way s.first c
      opposite := t.orNamed s.opposite c
      candidate := t.orBeyond way current s.candidate c } := by
  rw [numberedLoop, if_neg (by simp [hc]), if_neg hn]
  dsimp only
  rw [if_neg hne, if_neg (by simp [hs])]

theorem numberedLoop_cons_found (hn : ¬ t.isNamed c) (hne : c ≠ current) (hs : s.found = true) :
    t.numberedLoop way current false (c :: l) s =
      if (t.con current).num = (t.con c).num then .error c
      else t.numberedLoop way current false l { s with
        first := t.orSooner way s.first c
        opposite := t.orNamed s.opposite c
        candidate := t.orBeyond way current s.candidate c } := by
  rw [numberedLoop, if_neg (by simp [hc]), if_neg hn]
  dsimp only
  rw [if_neg hne]
  simp [hs]

end Steps

/-- Once there are a first and a named candidate, named workspaces change nothing. -/
theorem numberedLoop_allNamed (hl : t.Workspaces l) (hnamed : ∀ c ∈ l, t.isNamed c) (s : Scan)
    (hfirst : s.first.isSome) (hopposite : s.opposite.isSome) :
    t.numberedLoop way current false l s = .ok s := by
  induction l with
  | nil => rfl
  | cons c l ih =>
    obtain ⟨d, hd⟩ := Option.isSome_iff_exists.mp hfirst
    obtain ⟨e, he⟩ := Option.isSome_iff_exists.mp hopposite
    have hn : t.isNamed c := hnamed c (by simp)
    have hf : t.orSooner way s.first c = s.first := by simp [hd, orSooner, hn]
    have ho : t.orNamed s.opposite c = s.opposite := by simp [he, orNamed]
    rw [numberedLoop_cons_named (hl c (by simp)) s hn, hf, ho]
    exact ih (fun e he => hl e (by simp [he])) fun e he => hnamed e (by simp [he])

/-- **Stopping at the first named workspace** of a list makes no difference. -/
theorem numberedLoop_stop (hl : t.Workspaces l)
    (hnamed : l.Pairwise fun c d => t.isNamed c → t.isNamed d) (s : Scan) :
    t.numberedLoop way current true l s = t.numberedLoop way current false l s := by
  induction l generalizing s with
  | nil => rfl
  | cons c l ih =>
    obtain ⟨hc, hnamed⟩ := List.pairwise_cons.mp hnamed
    have hl' : t.Workspaces l := fun e he => hl e (by simp [he])
    have hcws : ¬ (t.con c).type ≠ .workspace := by simp [hl c (by simp)]
    by_cases hn : t.isNamed c
    · -- everything behind is named too, and there are candidates now
      rw [numberedLoop_cons_named (hl c (by simp)) s hn, numberedLoop, if_neg hcws, if_pos hn,
        if_pos rfl]
      refine (numberedLoop_allNamed hl' (fun e he => hc e he hn) _ ?_ ?_).symm
      · cases hf : s.first <;> simp [orSooner, hn]
      · cases ho : s.opposite <;> simp [orNamed, hn]
    · rw [numberedLoop, numberedLoop, if_neg hcws, if_neg hcws, if_neg hn, if_neg hn]
      dsimp only
      rw [ih hl' hnamed, ih hl' hnamed]

/-- The candidates after a part of the list in which nothing is taken at once. -/
def keepNumbered (t : Tree) (way : Way) (current : ConId) (l : List ConId) (s : Scan) : Scan :=
  { s with
    first := l.foldl (t.orSooner way) s.first
    opposite := l.foldl t.orNamed s.opposite
    candidate := (l.filter fun c => !t.isNamed c).foldl (t.orBeyond way current) s.candidate }

theorem numberedLoop_before (hl : t.Workspaces pre) (hcur : current ∉ pre) (s : Scan)
    (hs : s.found = false) (rest : List ConId) :
    t.numberedLoop way current false (pre ++ rest) s =
      t.numberedLoop way current false rest (t.keepNumbered way current pre s) := by
  induction pre generalizing s with
  | nil => rfl
  | cons c pre ih =>
    obtain ⟨hne, hcur⟩ := not_or.mp (List.mem_cons.not.mp hcur)
    have hpre : t.Workspaces pre := fun e he => hl e (by simp [he])
    rw [List.cons_append]
    by_cases hn : t.isNamed c
    · rw [numberedLoop_cons_named (hl c (by simp)) s hn, ih hpre hcur]
      · simp [keepNumbered, hn]
      · exact hs
    · rw [numberedLoop_cons_numbered (hl c (by simp)) s hn (Ne.symm hne) hs, ih hpre hcur]
      · simp [keepNumbered, hn]
      · exact hs

/-- Behind the current workspace the first one with the same number is taken. -/
theorem numberedLoop_behind (hl : t.Workspaces post) (hcur : current ∉ post)
    (hnum : ¬ t.isNamed current) (s : Scan) (hs : s.found = true) :
    t.numberedLoop way current false post s =
      match post.find? fun c => (t.con current).num = (t.con c).num with
      | some c => .error c
      | none => .ok (t.keepNumbered way current post s) := by
  induction post generalizing s with
  | nil => rfl
  | cons c post ih =>
    obtain ⟨hne, hcur⟩ := not_or.mp (List.mem_cons.not.mp hcur)
    have hpost : t.Workspaces post := fun e he => hl e (by simp [he])
    rw [List.find?_cons]
    by_cases hn : t.isNamed c
    · have hother : ¬ (t.con current).num = (t.con c).num := by
        intro heq
        rw [isNamed, heq] at hnum
        exact hnum hn
      rw [numberedLoop_cons_named (hl c (by simp)) s hn, ih hpost hcur _ (by simp [hs])]
      simp [keepNumbered, hn, hother]
    · rw [numberedLoop_cons_found (hl c (by simp)) s hn (Ne.symm hne) hs]
      by_cases hsame : (t.con current).num = (t.con c).num
      · simp [hsame]
      · rw [if_neg hsame, ih hpost hcur _ (by simp [hs])]
        simp [keepNumbered, hn, hsame]

/-- **The scan from a numbered workspace**: the first one behind it with the same number, else the
best one beyond, else the first named one, else the best numbered one. -/
theorem result_numberedLoop (hl : t.Workspaces (pre ++ current :: post))
    (hnd : (pre ++ current :: post).Nodup) (hnum : ¬ t.isNamed current) :
    Scan.result (t.numberedLoop way current false (pre ++ current :: post) {}) =
      (post.find? fun c => (t.con current).num = (t.con c).num).or
        ((((pre ++ current :: post).filter fun c => !t.isNamed c).foldl (t.orBeyond way current)
          none).or (((pre ++ current :: post).foldl t.orNamed none).or
            ((pre ++ current :: post).foldl (t.orSooner way) none))) := by
  have hpre : current ∉ pre := fun h => List.disjoint_of_nodup_append hnd h List.mem_cons_self
  have hpost : current ∉ post := (List.nodup_cons.mp hnd.of_append_right).1
  rw [numberedLoop_before (fun c hc => hl c (by simp [hc])) hpre _ rfl, numberedLoop,
    if_neg (by simp [hl current (by simp)]), if_neg hnum]
  simp only [if_true]
  rw [numberedLoop_behind (fun c hc => hl c (by simp [hc])) hpost hnum _ rfl]
  cases post.find? fun c => (t.con current).num = (t.con c).num with
  | some c => rfl
  | none => simp [Scan.result, keepNumbered, hnum]

/-! ### Output by output -/

/-- A scan of one list after another is a scan of them together. -/
theorem overOutputs_eq {scan : List ConId → Scan → Except ConId Scan}
    (hnil : ∀ s, scan [] s = .ok s)
    (happend : ∀ l l' s, scan (l ++ l') s = match scan l s with
      | .error c => .error c
      | .ok s => scan l' s) (outputs : List ConId) (s : Scan) :
    t.overOutputs way scan outputs s =
      scan ((outputs.filter fun o => !t.isInternal o).flatMap
        fun o => way.along (t.workspacesOf o)) s := by
  induction outputs generalizing s with
  | nil => exact (hnil s).symm
  | cons o outputs ih =>
    rw [overOutputs]
    by_cases ho : t.isInternal o
    · rw [if_pos ho, ih]
      simp [ho]
    · rw [if_neg ho, List.filter_cons_of_pos (by simp [ho]), List.flatMap_cons, happend]
      cases scan (way.along (t.workspacesOf o)) s with
      | error c => rfl
      | ok s => exact ih s

/-- Only the lists of the outputs matter. -/
theorem overOutputs_congr {scan scan' : List ConId → Scan → Except ConId Scan}
    {outputs : List ConId}
    (h : ∀ o ∈ outputs, ¬ t.isInternal o → ∀ s,
      scan (way.along (t.workspacesOf o)) s = scan' (way.along (t.workspacesOf o)) s) (s : Scan) :
    t.overOutputs way scan outputs s = t.overOutputs way scan' outputs s := by
  induction outputs generalizing s with
  | nil => rfl
  | cons o outputs ih =>
    have ih := ih fun p hp => h p (List.mem_cons_of_mem o hp)
    rw [overOutputs, overOutputs]
    by_cases ho : t.isInternal o
    · rw [if_pos ho, if_pos ho, ih]
    · rw [if_neg ho, if_neg ho, h o List.mem_cons_self ho]
      cases scan' (way.along (t.workspacesOf o)) s with
      | error c => rfl
      | ok s => exact ih s

theorem namedLoop_append (l l' : List ConId) (s : Scan) :
    t.namedLoop way current (l ++ l') s = match t.namedLoop way current l s with
      | .error c => .error c
      | .ok s => t.namedLoop way current l' s := by
  induction l generalizing s with
  | nil => rfl
  | cons c l ih =>
    rw [List.cons_append, namedLoop, namedLoop]
    split
    · exact ih s
    · dsimp only
      split
      · exact ih _
      · split
        · rfl
        · exact ih _

theorem numberedLoop_append (l l' : List ConId) (s : Scan) :
    t.numberedLoop way current false (l ++ l') s =
      match t.numberedLoop way current false l s with
      | .error c => .error c
      | .ok s => t.numberedLoop way current false l' s := by
  induction l generalizing s with
  | nil => rfl
  | cons c l ih =>
    rw [List.cons_append, numberedLoop, numberedLoop]
    split
    · exact ih s
    · dsimp only
      split
      · exact ih _
      · split
        · exact ih _
        · split
          · rfl
          · exact ih _

end Tree

end I3
