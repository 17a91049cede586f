import Mathlib.Algebra.BigOperators.Group.List.Lemmas
import Mathlib.Algebra.BigOperators.GroupWithZero.Action
import Mathlib.Algebra.Order.BigOperators.Group.List
import Mathlib.Algebra.Order.Field.Rat
import Mathlib.Data.List.Perm.Basic
import Mathlib.Data.List.TakeWhile
import I3Aiwr.Restart.Parts

/-!
# Attaching the containers that are loaded

What becomes of the shares, the places, the focus stack and the marks of containers that the loader
attaches one after the other.

## Main definitions

* `Restart.Node.allMarks`, `Restart.Loader.held`: the marks there are
* `Restart.Sorted`: workspaces in the order in which they are attached

## Main results

* `Restart.fixPercents_fixPercents`: fixing the shares twice is fixing them once
* `Restart.foldl_conAttach`: containers that are attached in their order stay in it
* `Restart.foldr_moveToFront`: the focus stack gets the order of the dump
* `Restart.foldl_conMark`: marks that no container has are set
-/

namespace I3

namespace Restart

/-! ### Shares -/

variable {ps : List ℚ} {total : ℚ} {m : ℕ}

theorem length_fillPercents (m : ℕ) (ps : List ℚ) (total : ℚ) :
    (fillPercents m ps total).length = ps.length := by
  induction ps generalizing total with
  | nil => rfl
  | cons p ps ih =>
    unfold fillPercents
    dsimp only
    split
    · rw [List.length_cons, ih, List.length_cons]
    · rw [List.length_cons, ih, List.length_cons]

theorem length_fixPercents (ps : List ℚ) : (fixPercents ps).length = ps.length := by
  unfold fixPercents
  dsimp only
  split_ifs
  · rw [List.length_map, length_fillPercents]
  · rw [List.length_map, length_fillPercents]
  · exact length_fillPercents _ _ _

/-- Every container has a share then. -/
theorem pos_of_mem_fillPercents (htotal : 0 ≤ total) (hm : m ≠ 0 → 0 < total) :
    ∀ p ∈ fillPercents m ps total, 0 < p := by
  induction ps generalizing total with
  | nil => simp [fillPercents]
  | cons q ps ih =>
    have hshare : 0 < if m = 0 then 1 else total / (m : ℚ) := by
      split
      · exact one_pos
      · next hne => exact div_pos (hm hne) (by exact_mod_cast Nat.pos_of_ne_zero hne)
    unfold fillPercents
    dsimp only
    split
    · intro p hp
      rcases List.mem_cons.mp hp with rfl | hp
      · exact hshare
      · have hgrown : 0 < total + if m = 0 then 1 else total / (m : ℚ) := by linarith
        exact ih hgrown.le (fun _ => hgrown) p hp
    · next hq =>
      intro p hp
      rcases List.mem_cons.mp hp with rfl | hp
      · exact lt_of_not_ge hq
      · exact ih htotal hm p hp

/-- Shares that are all set stay as they are. -/
theorem fillPercents_of_pos (h : ∀ p ∈ ps, 0 < p) : fillPercents m ps total = ps := by
  induction ps generalizing total with
  | nil => rfl
  | cons p ps ih =>
    have hp : ¬ p ≤ 0 := not_le.mpr (h p List.mem_cons_self)
    unfold fillPercents
    rw [if_neg hp, ih fun q hq => h q (List.mem_cons_of_mem p hq)]

/-- Shares that are all set and make up the whole stay as they are. -/
theorem fixPercents_of_sum (h : ∀ p ∈ ps, 0 < p) (hsum : ps.sum = 1) : fixPercents ps = ps := by
  have hall : ps.filter (fun p => 0 < p) = ps :=
    List.filter_eq_self.mpr fun p hp => decide_eq_true (h p hp)
  unfold fixPercents
  dsimp only
  rw [fillPercents_of_pos h, hsum, if_neg one_ne_zero, if_neg (not_not.mpr rfl)]

/-- **Fixing the shares twice** is fixing them once. -/
theorem fixPercents_fixPercents (h : ∀ p ∈ ps, 0 ≤ p) :
    fixPercents (fixPercents ps) = fixPercents ps := by
  rcases eq_or_ne ps [] with rfl | hne
  · rfl
  have hnonneg : 0 ≤ (ps.filter fun p => 0 < p).sum :=
    List.sum_nonneg fun p hp => h p (List.mem_filter.mp hp).1
  have hset : (ps.filter fun p => 0 < p).length ≠ 0 → 0 < (ps.filter fun p => 0 < p).sum := by
    intro hlen
    exact List.sum_pos _ (fun p hp => of_decide_eq_true (List.mem_filter.mp hp).2)
      (fun hnil => hlen (by rw [hnil, List.length_nil]))
  have hpos : ∀ p ∈ fillPercents _ ps _, 0 < p := pos_of_mem_fillPercents hnonneg hset
  have hfilled : fillPercents (ps.filter fun p => 0 < p).length ps (ps.filter fun p => 0 < p).sum ≠ [] := by
    intro hnil
    have hlen := length_fillPercents (ps.filter fun p => 0 < p).length ps (ps.filter fun p => 0 < p).sum
    rw [hnil, List.length_nil] at hlen
    exact hne (List.length_eq_zero_iff.mp hlen.symm)
  have hsum := List.sum_pos _ hpos hfilled
  generalize hf : fillPercents (ps.filter fun p => 0 < p).length ps (ps.filter fun p => 0 < p).sum = filled
    at hpos hsum
  have hfix : fixPercents ps = if filled.sum ≠ 1 then filled.map fun p => p / filled.sum else filled := by
    unfold fixPercents
    dsimp only
    rw [hf, if_neg hsum.ne']
  rw [hfix]
  split
  · apply fixPercents_of_sum
    · intro p hp
      obtain ⟨q, hq, rfl⟩ := List.mem_map.mp hp
      exact div_pos (hpos q hq) hsum
    · have hscale : (filled.map fun p => p / filled.sum).sum = filled.sum / filled.sum := by
        simp only [div_eq_mul_inv]
        rw [List.sum_map_mul_right, List.map_id']
      rw [hscale, div_self hsum.ne']
  · next hone => exact fixPercents_of_sum hpos (not_not.mp hone)

/-! ### The shares of containers -/

variable {ns ms : List Node} {n : Node} {con : Fields}

/-- A container with another share. -/
def Node.setPercent (n : Node) (p : ℚ) : Node := n.setCon fun con => { con with percent := p }

theorem conFixPercent_eq (ns : List Node) : conFixPercent ns
    = ns.zipWith Node.setPercent (fixPercents (ns.map fun n => n.con.percent)) := rfl

/-- What no share is part of is the same after the shares were fixed. -/
theorem map_conFixPercent {α : Type*} (f : Node → α) (hf : ∀ n p, f (n.setPercent p) = f n)
    (ns : List Node) : (conFixPercent ns).map f = ns.map f := by
  have hzip (ns : List Node) (ps : List ℚ) (hlen : ns.length = ps.length) :
      (ns.zipWith Node.setPercent ps).map f = ns.map f := by
    induction ns generalizing ps with
    | nil => rfl
    | cons n ns ih =>
      cases ps with
      | nil => cases hlen
      | cons p ps =>
        rw [List.zipWith_cons_cons, List.map_cons, List.map_cons, hf, ih ps (Nat.succ.inj hlen)]
  apply hzip
  rw [length_fixPercents, List.length_map]

theorem isEmpty_conFixPercent (ns : List Node) : (conFixPercent ns).isEmpty = ns.isEmpty := by
  have hlen := congrArg List.length (map_conFixPercent (fun _ => ()) (fun _ _ => rfl) ns)
  rw [List.length_map, List.length_map] at hlen
  cases ns <;> cases h : conFixPercent _ <;> simp_all

theorem map_percent_conFixPercent (ns : List Node) :
    (conFixPercent ns).map (fun n => n.con.percent) = fixPercents (ns.map fun n => n.con.percent) := by
  have hzip (ns : List Node) (ps : List ℚ) (hlen : ns.length = ps.length) :
      (ns.zipWith Node.setPercent ps).map (fun n => n.con.percent) = ps := by
    induction ns generalizing ps with
    | nil => exact (List.length_eq_zero_iff.mp hlen.symm).symm
    | cons n ns ih =>
      cases ps with
      | nil => cases hlen
      | cons p ps =>
        obtain ⟨con, nodes, floatingNodes, focus⟩ := n
        rw [List.zipWith_cons_cons, List.map_cons, ih ps (Nat.succ.inj hlen)]
        rfl
  apply hzip
  rw [length_fixPercents, List.length_map]

theorem setPercent_setPercent (n : Node) (p q : ℚ) : (n.setPercent p).setPercent q = n.setPercent q := by
  cases n
  rfl

theorem conFixPercent_conFixPercent (h : ∀ n ∈ ns, 0 ≤ n.con.percent) :
    conFixPercent (conFixPercent ns) = conFixPercent ns := by
  have hps : ∀ p ∈ ns.map fun n => n.con.percent, 0 ≤ p := by
    intro p hp
    obtain ⟨n, hn, rfl⟩ := List.mem_map.mp hp
    exact h n hn
  have hzip (ns : List Node) (ps : List ℚ) :
      (ns.zipWith Node.setPercent ps).zipWith Node.setPercent ps = ns.zipWith Node.setPercent ps := by
    induction ns generalizing ps with
    | nil => rfl
    | cons n ns ih =>
      cases ps with
      | nil => rfl
      | cons p ps =>
        rw [List.zipWith_cons_cons, List.zipWith_cons_cons, setPercent_setPercent, ih]
  rw [conFixPercent_eq (conFixPercent ns), map_percent_conFixPercent, fixPercents_fixPercents hps,
    conFixPercent_eq]
  exact hzip _ _

/-! ### Places -/

/-- Each workspace is behind those with numbers up to its own, and before those without a number. -/
def Sorted (ns : List Node) : Prop :=
  ns.Pairwise fun m n =>
    n.con.type = .workspace → n.con.num = -1 ∨ (m.con.num ≠ -1 ∧ m.con.num ≤ n.con.num)

instance (ns : List Node) : Decidable (Sorted ns) := inferInstanceAs (Decidable (List.Pairwise _ _))

theorem insertNode_of_sorted (h : ∀ m ∈ ns, n.con.type = .workspace →
    n.con.num = -1 ∨ (m.con.num ≠ -1 ∧ m.con.num ≤ n.con.num)) : insertNode ns n = ns ++ [n] := by
  unfold insertNode
  split
  · rfl
  · next hnum =>
    rw [not_or, not_not] at hnum
    obtain ⟨htype, hnum⟩ := hnum
    have hall : ∀ m ∈ ns, decide (m.con.num ≠ -1 ∧ m.con.num ≤ n.con.num) = true := by
      intro m hm
      exact decide_eq_true ((h m hm htype).resolve_left hnum)
    rw [List.takeWhile_eq_self_iff.mpr hall, List.dropWhile_eq_nil_iff.mpr hall]

/-- **Containers that are attached in their order** stay in it. -/
theorem foldl_conAttach (htype : ∀ m ∈ ms, m.con.type ≠ .floatingCon) {floatingNodes : List Node}
    {focus : List ℤ} (h : Sorted (ns ++ ms)) :
    ms.foldl (fun parent m => conAttach m parent) (.mk con ns floatingNodes focus)
      = .mk con (ns ++ ms) floatingNodes (focus ++ ms.map fun m => m.con.id) := by
  induction ms generalizing ns focus with
  | nil => rw [List.foldl_nil, List.append_nil, List.map_nil, List.append_nil]
  | cons m ms ih =>
    have hplace : insertNode ns m = ns ++ [m] := by
      apply insertNode_of_sorted
      intro m' hm'
      exact (List.pairwise_append.mp h).2.2 m' hm' m List.mem_cons_self
    have hattach : conAttach m (.mk con ns floatingNodes focus)
        = .mk con (ns ++ [m]) floatingNodes (focus ++ [m.con.id]) := by
      rw [conAttach, if_neg (htype m List.mem_cons_self), hplace]
    rw [List.foldl_cons, hattach, ih (fun m' hm' => htype m' (List.mem_cons_of_mem m hm'))
      (by rwa [List.append_assoc, List.singleton_append]), List.map_cons, List.append_assoc,
      List.append_assoc, List.singleton_append, List.singleton_append]

theorem foldl_conAttach_floating (htype : ∀ m ∈ ms, m.con.type = .floatingCon)
    {floatingNodes : List Node} {focus : List ℤ} :
    ms.foldl (fun parent m => conAttach m parent) (.mk con ns floatingNodes focus)
      = .mk con ns (floatingNodes ++ ms) (focus ++ ms.map fun m => m.con.id) := by
  induction ms generalizing floatingNodes focus with
  | nil => rw [List.foldl_nil, List.append_nil, List.map_nil, List.append_nil]
  | cons m ms ih =>
    have hattach : conAttach m (.mk con ns floatingNodes focus)
        = .mk con ns (floatingNodes ++ [m]) (focus ++ [m.con.id]) := by
      rw [conAttach, if_pos (htype m List.mem_cons_self)]
    rw [List.foldl_cons, hattach, ih fun m' hm' => htype m' (List.mem_cons_of_mem m hm'), List.map_cons,
      List.append_assoc, List.append_assoc, List.singleton_append, List.singleton_append]

theorem conAttach_con (n parent : Node) : (conAttach n parent).con = parent.con := by
  cases parent
  simp only [conAttach]
  split <;> rfl

/-! ### The focus stack -/

/-- **The focus stack gets the order of the dump**, which the containers were not attached in. -/
theorem foldr_moveToFront {ids stack : List ℤ} (h : ids.Perm stack) (hnodup : stack.Nodup) :
    ids.foldr moveToFront stack = ids := by
  -- the last `ids` come first, in their order, and the others keep theirs
  have hfold (tail : List ℤ) (htail : tail.Nodup) (hsub : ∀ id ∈ tail, id ∈ stack) :
      tail.foldr moveToFront stack = tail ++ stack.filter fun id => id ∉ tail := by
    induction tail with
    | nil => simp
    | cons id tail ih =>
      obtain ⟨hid, htail⟩ := List.nodup_cons.mp htail
      have hrest := ih htail fun id' hid' => hsub id' (List.mem_cons_of_mem id hid')
      have hmem : id ∈ tail ++ stack.filter fun id => id ∉ tail := by
        simp [hid, hsub id List.mem_cons_self]
      rw [List.foldr_cons, hrest, moveToFront, if_pos hmem, List.erase_append_right _ hid,
        (hnodup.filter _).erase_eq_filter, List.filter_filter, List.cons_append]
      congr 2
      apply List.filter_congr
      intro id' _
      rw [Bool.eq_iff_iff]
      simp [not_or]
  have hnil : (stack.filter fun id => id ∉ ids) = [] := by
    rw [List.filter_eq_nil_iff]
    intro id hid
    simpa using h.mem_iff.mpr hid
  rw [hfold ids (h.nodup_iff.mpr hnodup) (fun id hid => h.mem_iff.mp hid), hnil, List.append_nil]

/-! ### Marks -/

namespace Node

mutual

/-- The marks of a container and of all below it. -/
def allMarks : Node → List String
  | mk con nodes floatingNodes _ =>
    con.marks ++ (allMarksOf nodes ++ allMarksOf floatingNodes)

def allMarksOf : List Node → List String
  | [] => []
  | n :: ns => allMarks n ++ allMarksOf ns

end

theorem allMarksOf_eq (ns : List Node) : allMarksOf ns = ns.flatMap allMarks := by
  induction ns with
  | nil => rfl
  | cons n ns ih => rw [allMarksOf, ih, List.flatMap_cons]

mutual

/-- A mark that is nowhere is not removed anywhere. -/
theorem unmark_of_notMem {mark : String} : ∀ n : Node, mark ∉ n.allMarks → n.unmark mark = n
  | mk con nodes floatingNodes focus, h => by
    rw [allMarks, List.mem_append, List.mem_append, not_or, not_or] at h
    rw [unmark, unmarkAll_of_notMem nodes h.2.1, unmarkAll_of_notMem floatingNodes h.2.2,
      List.erase_of_not_mem h.1]

theorem unmarkAll_of_notMem {mark : String} :
    ∀ ns : List Node, mark ∉ allMarksOf ns → unmarkAll mark ns = ns
  | [], _ => rfl
  | n :: ns, h => by
    rw [allMarksOf, List.mem_append, not_or] at h
    rw [unmarkAll, unmark_of_notMem n h.1, unmarkAll_of_notMem ns h.2]

end

end Node

/-- The marks of the containers that are open, and of all that are attached to them. -/
def Loader.held (L : Loader) : List String := (L.node :: L.parents).flatMap Node.allMarks

theorem allMarksOf_conFixPercent (ns : List Node) :
    Node.allMarksOf (conFixPercent ns) = Node.allMarksOf ns := by
  have hset (n : Node) (p : ℚ) : (n.setPercent p).allMarks = n.allMarks := by
    cases n
    rfl
  rw [Node.allMarksOf_eq, Node.allMarksOf_eq, List.flatMap_def, List.flatMap_def,
    map_conFixPercent Node.allMarks hset]

theorem insertNode_perm (ns : List Node) (n : Node) : (insertNode ns n).Perm (ns ++ [n]) := by
  unfold insertNode
  split
  · exact .refl _
  · refine List.perm_middle.trans ?_
    rw [List.takeWhile_append_dropWhile]
    exact (List.perm_append_singleton n ns).symm

/-- A container brings its marks. -/
theorem allMarks_conAttach (n parent : Node) :
    (conAttach n parent).allMarks.Perm (parent.allMarks ++ n.allMarks) := by
  obtain ⟨con, nodes, floatingNodes, focus⟩ := parent
  simp only [conAttach]
  split
  · simp [Node.allMarks, Node.allMarksOf_eq]
  · have hnodes : (Node.allMarksOf (insertNode nodes n)).Perm (Node.allMarksOf nodes ++ n.allMarks) := by
      rw [Node.allMarksOf_eq, Node.allMarksOf_eq]
      refine ((insertNode_perm nodes n).flatMap_right _).trans ?_
      simp
    simp only [Node.allMarks, List.append_assoc]
    refine List.Perm.append_left _ ?_
    refine (hnodes.append_right _).trans ?_
    rw [List.append_assoc]
    exact List.perm_append_comm.append_left _

/-- The containers above are none of those that the mark is for, and none has it. -/
theorem markNodes_of_notMem {above : List Node} {mark : String} {depth : ℕ}
    (hlen : above.length ≤ depth) (h : mark ∉ above.flatMap Node.allMarks) :
    Loader.markNodes depth mark above = above := by
  induction above with
  | nil => rfl
  | cons n ns ih =>
    rw [List.flatMap_cons, List.mem_append, not_or] at h
    rw [List.length_cons] at hlen
    have hne : ns.length ≠ depth := by omega
    rw [Loader.markNodes, Loader.markNode, if_neg hne, Node.unmark_of_notMem n h.1,
      ih (by omega) h.2]

/-- A mark that no container has is set. -/
theorem conMark_of_notMem {L : Loader} {mark : String} (h : mark ∉ L.held) :
    L.conMark L.parents.length mark
      = L.setCon fun con => { con with marks := con.marks ++ [mark] } := by
  rw [Loader.held, List.flatMap_cons, List.mem_append, not_or] at h
  rw [Loader.conMark, markNodes_of_notMem (le_refl _) h.2, Loader.markNode, if_pos rfl,
    Node.unmark_of_notMem _ h.1]
  rfl

theorem held_setMark {L : Loader} (mark : String) :
    (L.setCon fun con => { con with marks := con.marks ++ [mark] }).held.Perm (L.held ++ [mark]) := by
  obtain ⟨⟨con, nodes, floatingNodes, focus⟩, parents, lastKey, parsing, swallowIsEmpty, pending⟩ := L
  simp only [Loader.held, Loader.setCon, Node.setCon, List.flatMap_cons, Node.allMarks, List.append_assoc]
  exact (List.perm_append_comm.append_left _).trans (by simp)

/-- **Marks that no container has** are set, in their order. -/
theorem foldl_conMark {L : Loader} {marks : List String} (h : (L.held ++ marks).Nodup) :
    (marks.map fun mark => (L.parents.length, mark)).foldl (fun L m => L.conMark m.1 m.2) L
      = L.setCon fun con => { con with marks := con.marks ++ marks } := by
  induction marks generalizing L with
  | nil =>
    have hid : (fun con => { con with marks := con.marks ++ [] } : Fields → Fields) = id := by
      funext con
      rw [List.append_nil]
      rfl
    rw [hid, Loader.setCon, setCon_id]
    rfl
  | cons mark marks ih =>
    have hmem : mark ∉ L.held := by
      rw [List.nodup_append] at h
      exact fun hheld => h.2.2 mark hheld mark List.mem_cons_self rfl
    rw [List.map_cons, List.foldl_cons, conMark_of_notMem hmem]
    have hnodup : ((L.setCon fun con => { con with marks := con.marks ++ [mark] }).held
        ++ marks).Nodup := by
      rw [((held_setMark mark).append_right marks).nodup_iff, List.append_assoc]
      exact h
    have hrest := ih hnodup
    obtain ⟨⟨con, nodes, floatingNodes, focus⟩, parents, lastKey, parsing, swallowIsEmpty, pending⟩ := L
    refine hrest.trans ?_
    simp only [Loader.setCon, Node.setCon, List.append_assoc, List.singleton_append]

end Restart

end I3
