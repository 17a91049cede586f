import Mathlib.Algebra.BigOperators.Group.List.Basic
import Mathlib.Algebra.BigOperators.Ring.List
import Mathlib.Algebra.Order.BigOperators.Group.List
import Mathlib.Algebra.Order.Field.Rat
import Mathlib.Tactic.FieldSimp
import Mathlib.Tactic.Positivity
import I3Aiwr.Tree.Columns

/-!
# Fixing the percentages of a split

`con_fix_percent` of `src/con.c` is called after a container came or went: those without a percentage
get one, and all are scaled so that they sum up to 1. The comment in the source has the new ones
"proportional to all others", but the total they are taken from grows with every one of them.

## Main definitions

* `Tree.Fair`: what fixing is to do
* `Tree.filled`: the percentages before they are scaled

## Main results

* `Tree.percent_filled`: what the containers without a percentage get, in their order
* `Tree.percent_conFixPercent`: all percentages afterwards
* `Tree.fair_iff`: fixing is fair if at most one container has no percentage, or none has one
-/

namespace I3

namespace Tree

section Definitions

variable (t t' : Tree) (parent : ConId) (nodes : List ConId)

def percentSum : ℚ := (nodes.map fun d => (t.con d).percent).sum

/-- The containers with a percentage. -/
def setNodes : List ConId := nodes.filter fun d => 0 < (t.con d).percent

/-- How many have none. -/
def unsetCount : ℕ := nodes.countP fun d => (t.con d).percent ≤ 0

/-- The share that the containers with a percentage have on average, in the tree `t'`. -/
def meanShare : ℚ := t'.percentSum (t.setNodes nodes) / (t.setNodes nodes).length

/-- What fixing the percentages of a container's children is to do. -/
structure Fair : Prop where
  positive : ∀ d ∈ (t.con parent).nodesHead, 0 < (t'.con d).percent
  sum : t'.percentSum (t.con parent).nodesHead = 1
  ratio : ∀ d ∈ (t.con parent).nodesHead, ∀ e ∈ (t.con parent).nodesHead,
    0 < (t.con d).percent → 0 < (t.con e).percent →
      (t'.con d).percent / (t'.con e).percent = (t.con d).percent / (t.con e).percent
  same : ∀ d ∈ (t.con parent).nodesHead, ∀ e ∈ (t.con parent).nodesHead,
    (t.con d).percent = 0 → (t.con e).percent = 0 → (t'.con d).percent = (t'.con e).percent
  mean : ∀ d ∈ (t.con parent).nodesHead, (t.con d).percent = 0 →
    (t'.con d).percent = if t.setNodes (t.con parent).nodesHead = [] then
      1 / ((t.con parent).nodesHead.length : ℚ) else t.meanShare t' (t.con parent).nodesHead
  again : t'.conFixPercent parent = t'

/-- The percentages after the second loop. -/
def filled : Tree := (percentFill (t.setNodes nodes).length nodes t (t.percentSum nodes)).1

end Definitions

variable {t t' : Tree} {parent c d : ConId} {nodes pre post : List ConId} {total : ℚ} {n : ℕ}

/-! ### Sums -/

theorem percentSum_cons : t.percentSum (c :: nodes) = (t.con c).percent + t.percentSum nodes := by
  rw [percentSum, percentSum, List.map_cons, List.sum_cons]

theorem percentSum_congr (h : ∀ d ∈ nodes, (t'.con d).percent = (t.con d).percent) :
    t'.percentSum nodes = t.percentSum nodes := by
  rw [percentSum, percentSum, List.map_congr_left h]

theorem percentSum_setPercent (hc : c ∉ nodes) (p : ℚ) :
    (t.setPercent c p).percentSum nodes = t.percentSum nodes := by
  apply percentSum_congr
  intro d hd
  have hdc : d ≠ c := fun heq => hc (heq ▸ hd)
  rw [setPercent, modify_con_of_ne _ _ hdc]

theorem percentSum_pos (hnodes : nodes ≠ []) (h : ∀ d ∈ nodes, 0 < (t.con d).percent) :
    0 < t.percentSum nodes := by
  apply List.sum_pos
  · intro p hp
    obtain ⟨d, hd, rfl⟩ := List.mem_map.1 hp
    exact h d hd
  · simpa using hnodes

/-- Only the containers with a percentage contribute. -/
theorem percentSum_setNodes (h : ∀ d ∈ nodes, 0 ≤ (t.con d).percent) :
    t.percentSum (t.setNodes nodes) = t.percentSum nodes := by
  induction nodes with
  | nil => rfl
  | cons c nodes ih =>
    have ih := ih fun d hd => h d (List.mem_cons_of_mem c hd)
    rw [setNodes] at ih
    rcases (h c List.mem_cons_self).lt_or_eq with hpos | hzero
    · rw [setNodes, List.filter_cons_of_pos (by simpa using hpos), percentSum_cons, percentSum_cons, ih]
    · rw [setNodes, List.filter_cons_of_neg (by simp [← hzero]), percentSum_cons, ← hzero, zero_add, ih]

/-! ### The loops -/

/-- The first loop takes the containers with a percentage together. -/
theorem percentTotal_setNodes (t : Tree) (nodes : List ConId) (total : ℚ) (n : ℕ) :
    t.percentTotal nodes (total, n) =
      (total + t.percentSum (t.setNodes nodes), n + (t.setNodes nodes).length) := by
  induction nodes generalizing total n with
  | nil => simp [percentTotal, percentSum, setNodes]
  | cons c nodes ih =>
    rw [percentTotal]
    by_cases hpos : 0 < (t.con c).percent
    · rw [if_pos hpos, ih, setNodes, setNodes, List.filter_cons_of_pos (by simpa using hpos),
        List.length_cons, percentSum_cons, add_assoc, add_assoc, Nat.add_comm 1]
    · rw [if_neg hpos, ih, setNodes, setNodes, List.filter_cons_of_neg (by simpa using hpos)]

theorem percentTotal_eq (h : ∀ d ∈ nodes, 0 ≤ (t.con d).percent) (total : ℚ) (n : ℕ) :
    t.percentTotal nodes (total, n) = (total + t.percentSum nodes, n + (t.setNodes nodes).length) := by
  rw [percentTotal_setNodes, percentSum_setNodes h]

/-- The second loop leaves the percentages that are set. -/
theorem percent_percentFill_of_pos (hd : 0 < (t.con d).percent) (n : ℕ) (nodes : List ConId) (total : ℚ) :
    ((percentFill n nodes t total).1.con d).percent = (t.con d).percent := by
  induction nodes generalizing t total with
  | nil => rfl
  | cons c nodes ih =>
    rw [percentFill]
    split
    next hc =>
      have hdc : d ≠ c := fun heq => absurd hd (heq ▸ not_lt.2 hc)
      have hkept (p : ℚ) : ((t.setPercent c p).con d).percent = (t.con d).percent := by
        rw [setPercent, modify_con_of_ne _ _ hdc]
      rw [ih (by rwa [hkept]), hkept]
    next => exact ih hd total

theorem percentFill_of_pos (h : ∀ d ∈ nodes, 0 < (t.con d).percent) (n : ℕ) (total : ℚ) :
    percentFill n nodes t total = (t, total) := by
  induction nodes with
  | nil => rfl
  | cons c nodes ih =>
    rw [percentFill, if_neg (not_le.2 (h c List.mem_cons_self))]
    exact ih fun d hd => h d (List.mem_cons_of_mem c hd)

theorem percent_percentFill_of_notMem (hd : d ∉ nodes) (n : ℕ) (t : Tree) (total : ℚ) :
    ((percentFill n nodes t total).1.con d).percent = (t.con d).percent :=
  (Reweighs.percentFill n (S := (· ∈ nodes)) (fun _ h => h) total).percent d hd

theorem setNodes_setPercent (hc : c ∉ nodes) (p : ℚ) :
    (t.setPercent c p).setNodes nodes = t.setNodes nodes := by
  apply List.filter_congr
  intro d hd
  have hdc : d ≠ c := fun heq => hc (heq ▸ hd)
  rw [setPercent, modify_con_of_ne _ _ hdc]

/-- The total keeps up with the percentages, whatever they were. -/
theorem percentFill_sum (hn : nodes.Nodup) (n : ℕ) (total : ℚ) :
    (percentFill n nodes t total).2 + t.percentSum (t.setNodes nodes) =
      total + (percentFill n nodes t total).1.percentSum nodes := by
  induction nodes generalizing t total with
  | nil => simp [percentFill, percentSum, setNodes]
  | cons c nodes ih =>
    obtain ⟨hc, hn⟩ := List.nodup_cons.1 hn
    have hcset : c ∉ t.setNodes nodes := fun hmem => hc (List.mem_of_mem_filter hmem)
    rw [percentFill]
    split
    next hunset =>
      generalize (if n = 0 then 1 else total / n : ℚ) = p
      have ih := @ih (t.setPercent c p) hn (total + p)
      have hp : ((percentFill n nodes (t.setPercent c p) (total + p)).1.con c).percent = p := by
        rw [percent_percentFill_of_notMem hc, setPercent, modify_con_self]
      rw [setNodes_setPercent hc, percentSum_setPercent hcset] at ih
      rw [setNodes, List.filter_cons_of_neg (by simpa using hunset), ← setNodes, percentSum_cons, hp]
      linarith
    next hset =>
      have ih := @ih t hn total
      rw [setNodes, List.filter_cons_of_pos (by simpa using hset), ← setNodes, percentSum_cons, percentSum_cons,
        percent_percentFill_of_pos (not_le.1 hset)]
      linarith

theorem percentFill_total (hn : nodes.Nodup) (h : ∀ d ∈ nodes, 0 ≤ (t.con d).percent) (n : ℕ) (total : ℚ) :
    (percentFill n nodes t total).2 + t.percentSum nodes =
      total + (percentFill n nodes t total).1.percentSum nodes := by
  rw [← percentFill_sum hn, percentSum_setNodes h]

/-- All percentages are positive after the second loop. -/
theorem percentFill_pos (hn : nodes.Nodup) (htotal : n ≠ 0 → 0 < total) :
    ∀ d ∈ nodes, 0 < ((percentFill n nodes t total).1.con d).percent := by
  induction nodes generalizing t total with
  | nil => simp
  | cons c nodes ih =>
    obtain ⟨hc, hn⟩ := List.nodup_cons.1 hn
    intro d hd
    rw [percentFill]
    split
    next hunset =>
      have hp : (0 : ℚ) < if n = 0 then 1 else total / n := by
        split
        next => exact one_pos
        next hne => exact div_pos (htotal hne) (by exact_mod_cast Nat.pos_of_ne_zero hne)
      generalize (if n = 0 then 1 else total / n : ℚ) = p at hp ⊢
      rcases List.mem_cons.1 hd with rfl | hd
      · rwa [percent_percentFill_of_notMem hc, setPercent, modify_con_self]
      · exact ih hn (fun hne => add_pos (htotal hne) hp) d hd
    next hset =>
      rcases List.mem_cons.1 hd with rfl | hd
      · rw [percent_percentFill_of_pos (not_le.1 hset)]
        exact not_le.1 hset
      · exact ih hn htotal d hd

theorem unsetCount_setPercent (hc : c ∉ nodes) (p : ℚ) :
    (t.setPercent c p).unsetCount nodes = t.unsetCount nodes := by
  apply List.countP_congr
  intro d hd
  have hdc : d ≠ c := fun heq => hc (heq ▸ hd)
  rw [setPercent, modify_con_of_ne _ _ hdc]

/-- **What the second loop gives out grows with every container that has no percentage**: by what was
given to those in front. -/
theorem percent_percentFill (hn : n ≠ 0) (hnodup : (pre ++ d :: post).Nodup) (hd : (t.con d).percent ≤ 0)
    (total : ℚ) :
    ((percentFill n (pre ++ d :: post) t total).1.con d).percent =
      total / n * (1 + 1 / n) ^ t.unsetCount pre := by
  induction pre generalizing t total with
  | nil =>
    have hpost : d ∉ post := (List.nodup_cons.1 hnodup).1
    rw [List.nil_append, percentFill, if_pos hd, if_neg hn, percent_percentFill_of_notMem hpost,
      setPercent, modify_con_self]
    simp [unsetCount]
  | cons c pre ih =>
    obtain ⟨hc, hnodup⟩ := List.nodup_cons.1 hnodup
    have hdc : d ≠ c := fun heq => hc (heq ▸ List.mem_append_right _ List.mem_cons_self)
    have hpre : c ∉ pre := fun h => hc (List.mem_append_left _ h)
    rw [List.cons_append, percentFill]
    split
    next hunset =>
      have hd' : ((t.setPercent c (total / n)).con d).percent ≤ 0 := by
        rwa [setPercent, modify_con_of_ne _ _ hdc]
      have hcount : t.unsetCount (c :: pre) = t.unsetCount pre + 1 :=
        List.countP_cons_of_pos (by simpa using hunset)
      dsimp only
      rw [ih hnodup hd', unsetCount_setPercent hpre, hcount, pow_succ]
      ring
    next hset =>
      have hcount : t.unsetCount (c :: pre) = t.unsetCount pre :=
        List.countP_cons_of_neg (by simpa using hset)
      rw [ih hnodup hd, hcount]

theorem percent_percentFill_zero (hnodup : nodes.Nodup) (hd : d ∈ nodes) (hunset : (t.con d).percent ≤ 0)
    (total : ℚ) : ((percentFill 0 nodes t total).1.con d).percent = 1 := by
  induction nodes generalizing t total with
  | nil => cases hd
  | cons c nodes ih =>
    obtain ⟨hc, hnodup⟩ := List.nodup_cons.1 hnodup
    rw [percentFill]
    rcases List.mem_cons.1 hd with rfl | hd
    · rw [if_pos hunset, percent_percentFill_of_notMem hc, setPercent, modify_con_self, if_pos rfl]
    · have hdc : d ≠ c := fun heq => hc (heq ▸ hd)
      split
      · apply ih hnodup hd
        rwa [setPercent, modify_con_of_ne _ _ hdc]
      · exact ih hnodup hd hunset total

/-- The last loop, where there is a total. -/
theorem percent_percentScale (hnodup : nodes.Nodup) (htotal : total ≠ 0) (hd : d ∈ nodes) :
    ((percentScale nodes (t, total)).con d).percent = (t.con d).percent / total := by
  rw [percentScale, if_neg htotal]
  split
  · have hscaled := congrArg Con.percent (con_mapPercents (t := t) hnodup (fun _ p => p / total) d)
    rwa [if_pos hd] at hscaled
  next hone =>
    rw [not_not.1 hone, div_one]

/-! ### All percentages -/

theorem percentSum_div {r : ℚ} (h : ∀ d ∈ nodes, (t'.con d).percent = (t.con d).percent / r) :
    t'.percentSum nodes = t.percentSum nodes / r := by
  induction nodes with
  | nil => simp [percentSum]
  | cons d nodes ih =>
    rw [percentSum_cons, percentSum_cons, h d List.mem_cons_self,
      ih fun e he => h e (List.mem_cons_of_mem d he), add_div]

/-- **The percentages sum up to 1** in a container that does not scroll, whatever they were. -/
theorem percentSum_conFixPercent (hlayout : (t.con parent).layout ≠ .scrolling)
    (hnodes : (t.con parent).nodesHead ≠ []) (hnodup : (t.con parent).nodesHead.Nodup) :
    (t.conFixPercent parent).percentSum (t.con parent).nodesHead = 1 := by
  rw [conFixPercent, if_neg hlayout]
  dsimp only
  rw [percentTotal_setNodes, zero_add, Nat.zero_add]
  dsimp only
  generalize (t.con parent).nodesHead = nodes at hnodes hnodup ⊢
  have hscale : ∀ s : Tree, 0 < s.percentSum nodes →
      (percentScale nodes (s, s.percentSum nodes)).percentSum nodes = 1 := by
    intro s hpos
    rw [percentSum_div fun d hd => percent_percentScale hnodup hpos.ne' hd]
    exact div_self hpos.ne'
  split
  next =>
    have htotal : (t.setNodes nodes).length ≠ 0 → 0 < t.percentSum (t.setNodes nodes) := fun hne =>
      percentSum_pos (fun hnil => hne (by rw [hnil, List.length_nil]))
        fun d hd => by simpa using (List.mem_filter.1 hd).2
    have hpos := percentSum_pos hnodes (percentFill_pos (t := t) hnodup htotal)
    have hsum := percentFill_sum (t := t) hnodup (t.setNodes nodes).length (t.percentSum (t.setNodes nodes))
    rw [add_comm, add_right_inj] at hsum
    rw [← hscale _ hpos, ← hsum]
  next hall =>
    -- all percentages are set
    have hset : t.setNodes nodes = nodes :=
      List.filter_eq_self.2 fun d hd => by
        simpa using List.length_filter_eq_length_iff.1 (not_not.1 hall) d hd
    have hpos : 0 < t.percentSum nodes := percentSum_pos hnodes fun d hd => by
      simpa using List.length_filter_eq_length_iff.1 (not_not.1 hall) d hd
    rw [hset]
    exact hscale t hpos

/-- There is something to be fixed, and no percentage is negative. -/
structure Weighted (t : Tree) (parent : ConId) : Prop where
  layout : (t.con parent).layout ≠ .scrolling
  children : (t.con parent).nodesHead ≠ []
  nodup : (t.con parent).nodesHead.Nodup
  nonneg : ∀ d ∈ (t.con parent).nodesHead, 0 ≤ (t.con d).percent

namespace Weighted

variable (h : Weighted t parent)
include h

theorem unset_iff (hd : d ∈ (t.con parent).nodesHead) : (t.con d).percent ≤ 0 ↔ (t.con d).percent = 0 :=
  ⟨fun hle => le_antisymm hle (h.nonneg d hd), le_of_eq⟩

omit h in
theorem length_ne_zero (hne : t.setNodes (t.con parent).nodesHead ≠ []) :
    (t.setNodes (t.con parent).nodesHead).length ≠ 0 := by
  rwa [Ne, List.length_eq_zero_iff]

theorem percentSum_pos (hne : t.setNodes (t.con parent).nodesHead ≠ []) :
    0 < t.percentSum (t.con parent).nodesHead := by
  rw [← percentSum_setNodes h.nonneg]
  exact Tree.percentSum_pos hne fun d hd => by simpa using (List.mem_filter.1 hd).2

omit h in
theorem filled_of_pos (hpos : 0 < (t.con d).percent) (nodes : List ConId) :
    ((t.filled nodes).con d).percent = (t.con d).percent :=
  percent_percentFill_of_pos hpos _ _ _

theorem percent_filled (hne : t.setNodes (t.con parent).nodesHead ≠ [])
    (hsplit : (t.con parent).nodesHead = pre ++ d :: post) (hd : (t.con d).percent = 0) :
    ((t.filled (t.con parent).nodesHead).con d).percent =
      t.percentSum (t.con parent).nodesHead / (t.setNodes (t.con parent).nodesHead).length *
        (1 + 1 / ((t.setNodes (t.con parent).nodesHead).length : ℚ)) ^ t.unsetCount pre := by
  have hn := length_ne_zero hne
  have hnodup := h.nodup
  rw [filled]
  generalize (t.setNodes (t.con parent).nodesHead).length = n at hn ⊢
  generalize t.percentSum (t.con parent).nodesHead = total
  rw [hsplit] at hnodup ⊢
  exact percent_percentFill hn hnodup hd.le total

theorem filled_of_none (hnone : t.setNodes (t.con parent).nodesHead = [])
    (hd : d ∈ (t.con parent).nodesHead) : ((t.filled (t.con parent).nodesHead).con d).percent = 1 := by
  have hunset : (t.con d).percent ≤ 0 := by
    by_contra hpos
    have hmem : d ∈ t.setNodes (t.con parent).nodesHead :=
      List.mem_filter.2 ⟨hd, by simpa using not_le.1 hpos⟩
    rw [hnone] at hmem
    cases hmem
  rw [filled, hnone]
  exact percent_percentFill_zero h.nodup hd hunset _

theorem filled_pos (hd : d ∈ (t.con parent).nodesHead) :
    0 < ((t.filled (t.con parent).nodesHead).con d).percent := by
  by_cases hnone : t.setNodes (t.con parent).nodesHead = []
  · rw [h.filled_of_none hnone hd]
    exact one_pos
  rcases (h.nonneg d hd).lt_or_eq with hpos | hzero
  · rwa [filled_of_pos hpos]
  · obtain ⟨pre, post, hsplit⟩ := List.append_of_mem hd
    have hsum := h.percentSum_pos hnone
    have hlength := Nat.pos_of_ne_zero (length_ne_zero hnone)
    rw [h.percent_filled hnone hsplit hzero.symm]
    positivity

theorem filled_sum_pos :
    0 < (t.filled (t.con parent).nodesHead).percentSum (t.con parent).nodesHead :=
  Tree.percentSum_pos h.children fun _ hd => h.filled_pos hd

/-- The containers are filled and then scaled, also where there is nothing to be filled. -/
theorem conFixPercent_eq :
    t.conFixPercent parent = percentScale (t.con parent).nodesHead
      (t.filled (t.con parent).nodesHead,
        (t.filled (t.con parent).nodesHead).percentSum (t.con parent).nodesHead) := by
  have htotal := percentFill_total h.nodup h.nonneg (t.setNodes (t.con parent).nodesHead).length
    (t.percentSum (t.con parent).nodesHead)
  have hpair : percentFill (t.setNodes (t.con parent).nodesHead).length (t.con parent).nodesHead t
      (t.percentSum (t.con parent).nodesHead) = (t.filled (t.con parent).nodesHead,
        (t.filled (t.con parent).nodesHead).percentSum (t.con parent).nodesHead) := by
    refine Prod.ext rfl ?_
    change (percentFill _ _ t _).2 = (percentFill _ _ t _).1.percentSum _
    linarith
  rw [conFixPercent, if_neg h.layout]
  dsimp only
  rw [percentTotal_eq h.nonneg, zero_add, Nat.zero_add]
  dsimp only
  split
  · rw [hpair]
  next hall =>
    -- all percentages are set, and the second loop would have passed over them
    have hset : ∀ d ∈ (t.con parent).nodesHead, 0 < (t.con d).percent := by
      have hlength := List.length_filter_eq_length_iff.1 (not_not.1 hall)
      exact fun d hd => by simpa using hlength d hd
    rw [← hpair, percentFill_of_pos hset]

/-- **All percentages afterwards**: what the loops gave out, divided by their sum. -/
theorem percent_conFixPercent (hd : d ∈ (t.con parent).nodesHead) :
    ((t.conFixPercent parent).con d).percent =
      ((t.filled (t.con parent).nodesHead).con d).percent /
        (t.filled (t.con parent).nodesHead).percentSum (t.con parent).nodesHead := by
  rw [h.conFixPercent_eq]
  exact percent_percentScale h.nodup h.filled_sum_pos.ne' hd

theorem percent_pos (hd : d ∈ (t.con parent).nodesHead) : 0 < ((t.conFixPercent parent).con d).percent := by
  rw [h.percent_conFixPercent hd]
  exact div_pos (h.filled_pos hd) h.filled_sum_pos

theorem sum_eq {l : List ConId} (hl : ∀ d ∈ l, d ∈ (t.con parent).nodesHead) :
    (t.conFixPercent parent).percentSum l = (t.filled (t.con parent).nodesHead).percentSum l /
      (t.filled (t.con parent).nodesHead).percentSum (t.con parent).nodesHead := by
  exact percentSum_div fun d hd => h.percent_conFixPercent (hl d hd)

theorem sum_one : (t.conFixPercent parent).percentSum (t.con parent).nodesHead = 1 := by
  rw [h.sum_eq fun _ hd => hd]
  exact div_self h.filled_sum_pos.ne'

/-- A second call changes nothing. -/
theorem conFixPercent_again : (t.conFixPercent parent).conFixPercent parent = t.conFixPercent parent := by
  have hreweighs : Reweighs (fun _ => True) t (t.conFixPercent parent) := .conFixPercent fun _ _ => trivial
  have hnodes := hreweighs.nodesHead parent
  have hpos : ∀ d ∈ ((t.conFixPercent parent).con parent).nodesHead,
      0 < ((t.conFixPercent parent).con d).percent := fun d hd => h.percent_pos (hnodes ▸ hd)
  have h' : Weighted (t.conFixPercent parent) parent :=
    ⟨by rw [hreweighs.layout]; exact h.layout, by rw [hnodes]; exact h.children,
      by rw [hnodes]; exact h.nodup, fun d hd => (hpos d hd).le⟩
  have hfilled : (t.conFixPercent parent).filled ((t.conFixPercent parent).con parent).nodesHead =
      t.conFixPercent parent := by
    rw [filled, percentFill_of_pos hpos]
  have hsum : (t.conFixPercent parent).percentSum ((t.conFixPercent parent).con parent).nodesHead = 1 := by
    rw [hnodes, h.sum_one]
  rw [h'.conFixPercent_eq, hfilled, hsum, percentScale, if_neg one_ne_zero, if_neg (not_not.2 rfl)]

theorem ratio (hd : d ∈ (t.con parent).nodesHead) (hc : c ∈ (t.con parent).nodesHead)
    (hpos : 0 < (t.con d).percent) (hposc : 0 < (t.con c).percent) :
    ((t.conFixPercent parent).con d).percent / ((t.conFixPercent parent).con c).percent =
      (t.con d).percent / (t.con c).percent := by
  rw [h.percent_conFixPercent hd, h.percent_conFixPercent hc, filled_of_pos hpos, filled_of_pos hposc]
  exact div_div_div_cancel_right₀ h.filled_sum_pos.ne' _ _

/-! ### Where fixing is fair -/

theorem meanShare_eq :
    t.meanShare (t.conFixPercent parent) (t.con parent).nodesHead =
      t.percentSum (t.con parent).nodesHead / (t.setNodes (t.con parent).nodesHead).length /
        (t.filled (t.con parent).nodesHead).percentSum (t.con parent).nodesHead := by
  have hset : (t.filled (t.con parent).nodesHead).percentSum (t.setNodes (t.con parent).nodesHead) =
      t.percentSum (t.con parent).nodesHead := by
    rw [← percentSum_setNodes h.nonneg]
    apply percentSum_congr
    intro d hd
    exact filled_of_pos (by simpa using (List.mem_filter.1 hd).2) _
  have hsub : ∀ d ∈ t.setNodes (t.con parent).nodesHead, d ∈ (t.con parent).nodesHead :=
    fun d hd => (List.mem_filter.1 hd).1
  rw [meanShare, h.sum_eq hsub, hset, div_right_comm]

/-- Only the first container without a percentage gets the mean share. -/
theorem percent_eq_meanShare_iff (hne : t.setNodes (t.con parent).nodesHead ≠ [])
    (hsplit : (t.con parent).nodesHead = pre ++ d :: post) (hd : (t.con d).percent = 0) :
    ((t.conFixPercent parent).con d).percent =
        t.meanShare (t.conFixPercent parent) (t.con parent).nodesHead ↔ t.unsetCount pre = 0 := by
  have hmem : d ∈ (t.con parent).nodesHead := hsplit ▸ List.mem_append_right _ List.mem_cons_self
  have hlength : (0 : ℚ) < (t.setNodes (t.con parent).nodesHead).length := by
    exact_mod_cast Nat.pos_of_ne_zero (length_ne_zero hne)
  have hshare : 0 < t.percentSum (t.con parent).nodesHead / (t.setNodes (t.con parent).nodesHead).length :=
    div_pos (h.percentSum_pos hne) hlength
  have hgrowth : (1 : ℚ) < 1 + 1 / (t.setNodes (t.con parent).nodesHead).length := by
    have hpart := one_div_pos.2 hlength
    linarith
  rw [h.percent_conFixPercent hmem, h.percent_filled hne hsplit hd, h.meanShare_eq,
    div_left_inj' h.filled_sum_pos.ne', mul_eq_left₀ hshare.ne']
  constructor
  · intro hpow
    by_contra hcount
    exact (one_lt_pow₀ hgrowth hcount).ne' hpow
  · intro hcount
    rw [hcount, pow_zero]

/-- None has a percentage, and all get the same. -/
theorem percent_of_none (hnone : t.setNodes (t.con parent).nodesHead = [])
    (hd : d ∈ (t.con parent).nodesHead) :
    ((t.conFixPercent parent).con d).percent = 1 / ((t.con parent).nodesHead.length : ℚ) := by
  have hsum : (t.filled (t.con parent).nodesHead).percentSum (t.con parent).nodesHead =
      (t.con parent).nodesHead.length := by
    rw [percentSum, List.map_congr_left fun _ he => h.filled_of_none hnone he, List.map_const',
      List.sum_replicate, nsmul_one]
  rw [h.percent_conFixPercent hd, h.filled_of_none hnone hd, hsum]

end Weighted

/-- Of two elements with a property one has another one in front. -/
theorem exists_second {α : Type*} {p : α → Bool} {l : List α} (h : 2 ≤ l.countP p) :
    ∃ pre a post, l = pre ++ a :: post ∧ p a = true ∧ pre.countP p ≠ 0 := by
  induction l with
  | nil => simp at h
  | cons b l ih =>
    by_cases hb : p b = true
    · rw [List.countP_cons_of_pos hb] at h
      obtain ⟨a, ha, hpa⟩ := List.countP_pos_iff.1 (by omega : 0 < l.countP p)
      obtain ⟨pre, post, rfl⟩ := List.append_of_mem ha
      refine ⟨b :: pre, a, post, rfl, hpa, ?_⟩
      rw [List.countP_cons_of_pos hb]
      exact Nat.succ_ne_zero _
    · rw [List.countP_cons_of_neg hb] at h
      obtain ⟨pre, a, post, rfl, hpa, hpre⟩ := ih h
      exact ⟨b :: pre, a, post, rfl, hpa, by rwa [List.countP_cons_of_neg hb]⟩

/-- **Fixing the percentages is fair if at most one container has none**, or if all are without. -/
theorem fair_iff (t : Tree) (parent : ConId) (hlayout : (t.con parent).layout ≠ .scrolling)
    (hchildren : (t.con parent).nodesHead ≠ []) (hnodup : (t.con parent).nodesHead.Nodup)
    (hnonneg : ∀ d ∈ (t.con parent).nodesHead, 0 ≤ (t.con d).percent) :
    Fair t (t.conFixPercent parent) parent ↔
      t.unsetCount (t.con parent).nodesHead ≤ 1 ∨ ∀ d ∈ (t.con parent).nodesHead, (t.con d).percent = 0 := by
  have h : Weighted t parent := ⟨hlayout, hchildren, hnodup, hnonneg⟩
  have hnone : t.setNodes (t.con parent).nodesHead = [] ↔
      ∀ d ∈ (t.con parent).nodesHead, (t.con d).percent = 0 := by
    rw [setNodes, List.filter_eq_nil_iff]
    refine forall₂_congr fun d hd => ?_
    rw [← h.unset_iff hd, decide_eq_true_eq, not_lt]
  rw [← hnone]
  constructor
  · intro hfair
    by_contra hnot
    obtain ⟨hcount, hne⟩ := not_or.1 hnot
    have htwo : 2 ≤ t.unsetCount (t.con parent).nodesHead := by omega
    obtain ⟨pre, d, post, hsplit, hd, hpre⟩ := exists_second htwo
    have hmem : d ∈ (t.con parent).nodesHead := hsplit ▸ List.mem_append_right _ List.mem_cons_self
    have hzero := (h.unset_iff hmem).1 (by simpa using hd)
    have hmean := hfair.mean d hmem hzero
    rw [if_neg hne] at hmean
    exact hpre ((h.percent_eq_meanShare_iff hne hsplit hzero).1 hmean)
  · intro hcond
    have hmean : ∀ d ∈ (t.con parent).nodesHead, (t.con d).percent = 0 →
        ((t.conFixPercent parent).con d).percent = if t.setNodes (t.con parent).nodesHead = [] then
          1 / ((t.con parent).nodesHead.length : ℚ)
          else t.meanShare (t.conFixPercent parent) (t.con parent).nodesHead := by
      intro d hd hzero
      split
      next hempty => exact h.percent_of_none hempty hd
      next hne =>
        obtain ⟨pre, post, hsplit⟩ := List.append_of_mem hd
        refine (h.percent_eq_meanShare_iff hne hsplit hzero).2 ?_
        have hcount := hcond.resolve_right hne
        rw [hsplit, unsetCount, List.countP_append, List.countP_cons_of_pos (by simp [hzero])] at hcount
        rw [unsetCount]
        omega
    exact
      { positive := fun d hd => h.percent_pos hd
        sum := h.sum_one
        ratio := fun d hd c hc => h.ratio hd hc
        same := fun d hd c hc hzero hzeroc => by rw [hmean d hd hzero, hmean c hc hzeroc]
        mean := hmean
        again := h.conFixPercent_again }

/-- A split with three windows, of which the last two have just been attached. -/
def twoUnset : Tree where
  con c := match c with
    | 1 => { layout := .splith, nodesHead := [2, 3, 4], focusHead := [2, 3, 4] }
    | 2 => { parent := some 1, percent := 1 }
    | 3 => { parent := some 1 }
    | 4 => { parent := some 1 }
    | _ => {}
  allCons := [1, 2, 3, 4]
  croot := 1
  focused := some 2
  nextCon := 5

theorem fair_twoUnset :
    Fair twoUnset (twoUnset.conFixPercent 1) 1 ↔
      twoUnset.unsetCount (twoUnset.con 1).nodesHead ≤ 1 ∨
        ∀ d ∈ (twoUnset.con 1).nodesHead, (twoUnset.con d).percent = 0 :=
  fair_iff twoUnset 1 (by decide) (by decide) (by decide) (by decide +kernel)

/-- They get a quarter and a half. -/
theorem not_fair_twoUnset : ¬ Fair twoUnset (twoUnset.conFixPercent 1) 1 := by
  intro hfair
  have hsame := hfair.same 3 (by decide) 4 (by decide) rfl rfl
  have hthird : ((twoUnset.conFixPercent 1).con 3).percent = 1 / 4 := by decide +kernel
  have hfourth : ((twoUnset.conFixPercent 1).con 4).percent = 1 / 2 := by decide +kernel
  rw [hthird, hfourth] at hsame
  norm_num at hsame

end Tree

end I3
