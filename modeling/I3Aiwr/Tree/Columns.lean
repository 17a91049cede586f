import I3Aiwr.Tree.Graft
import I3Aiwr.Tree.Reveal
import I3Aiwr.Tree.Resize

/-!
# The widths of the other columns

Which ways of resizing a window leave alone the widths of the columns that it is not in. The columns of
a scrolling container have widths of their own, and a drag, `scrolling wider` and the commands `resize
grow` and `resize shrink` go by them before they try the splits above the window. `resize set` does not:
where no split within the column has another container beside, the column gets its width from the others
as in a split. So does `resize grow width` by nothing at all.

## Main definitions

* `Resize`, `Tree.perform`: the ways of resizing
* `Tree.Spares`: the condition

## Main results

* `Tree.Reweighs`: what an operation changes of the percentages
* `Tree.Found.eq_column`: a search that ends at a column ends at the one of the window
* `Tree.othersKept_iff`: the other columns keep their widths exactly where the resizing spares them
* `Tree.not_othersKept_set`: `resize set` with two columns
-/

namespace I3

/-- A way of resizing a window. -/
inductive Resize
  | command (way : ResizeWay) (word : ResizeWord) (px ppt : ℤ)
  | set (cwidth : ℤ) (widthPpt : Bool) (cheight : ℤ) (heightPpt : Bool)
  | drag (border : Border) (drag : Drag)
  | cycle (backwards : Bool)
  deriving DecidableEq, Repr

namespace Tree

section Definitions

variable (cfg : Config) (rc : ResizeConfig) (t : Tree)

def perform (c : ConId) : Resize → Tree
  | .command way word px ppt => t.cmdResize cfg rc c way word px ppt
  | .set cwidth widthPpt cheight heightPpt => t.cmdResizeSet rc c cwidth widthPpt cheight heightPpt
  | .drag border drag => t.resizeForBorder cfg rc c border drag
  | .cycle backwards => t.scrollingCycleWidth cfg c backwards

/-- The effective width of a column with a percentage. -/
def effectiveWidth (p : ℚ) : ℚ := if p > 0 then p else cfg.defaultWidth / 100

/-- The other columns have the widths that they had. -/
def OthersKept (t' : Tree) (sc k : ConId) : Prop :=
  ∀ d ∈ (t.con sc).nodesHead, d ≠ k → t'.columnPercent cfg d = t.columnPercent cfg d

/-- The percentage of a column, or an equal share for one without. -/
def sharedPercent (sc d : ConId) : ℚ :=
  if (t.con d).percent = 0 then 1 / (t.con sc).nodesHead.length else (t.con d).percent

/-- There is no room for the column to change by so much. -/
def Crowded (sc k : ConId) (ppt : ℚ) : Prop :=
  (ppt < 0 ∧ t.sharedPercent sc k + ppt < 1 / (t.con sc).rect.width) ∨
    (0 ≤ ppt / ((t.con sc).nodesHead.length - 1) ∧ ∃ d ∈ (t.con sc).nodesHead, d ≠ k ∧
      t.sharedPercent sc d - ppt / ((t.con sc).nodesHead.length - 1) < 1 / (t.con sc).rect.width)

instance (sc k : ConId) (ppt : ℚ) : Decidable (t.Crowded sc k ppt) :=
  inferInstanceAs (Decidable (_ ∨ _ ∧ ∃ d ∈ (t.con sc).nodesHead, d ≠ k ∧
    t.sharedPercent sc d - ppt / ((t.con sc).nodesHead.length - 1) < 1 / (t.con sc).rect.width))

/-- What another column is left with where one changes by so much as in a split. -/
def leftover (sc k : ConId) (ppt : ℚ) (d : ConId) : ℚ :=
  if t.Crowded sc k ppt then t.sharedPercent sc d
  else t.sharedPercent sc d - ppt / ((t.con sc).nodesHead.length - 1)

/-- What is left to the other columns is as wide as what they have. -/
def LeavesOthers (sc k : ConId) (ppt : ℚ) : Prop :=
  ∀ d ∈ (t.con sc).nodesHead, d ≠ k →
    effectiveWidth cfg (t.leftover sc k ppt d) = effectiveWidth cfg (t.con d).percent

/-- The same of the neighbour of a column, from which alone it gets its width. -/
def LeavesNeighbor (sc k second : ConId) (pct : ℚ) : Prop :=
  (t.con k).percent + pct < 1 / (t.con sc).rect.width ∨
    (t.con second).percent - pct < 1 / (t.con sc).rect.width ∨
      effectiveWidth cfg ((t.con second).percent - pct) = effectiveWidth cfg (t.con second).percent

/-- The window is in a column, and a command for it is about the column's own width. -/
def ResizesColumn (c : ConId) (px ppt : ℤ) : Prop :=
  ∃ column ∈ t.columnOf c, ∃ con ∈ (t.con column).parent,
    resizeDelta px ppt (t.con con).rect.width ≠ 0

/-- The search for containers to resize ends at the column, with another one beside it. -/
def EndsAt (c k : ConId) (direction : Direction) (bothSides : Bool) : Prop :=
  (t.resizeParticipants c direction bothSides).1 = k ∧
    (t.resizeParticipants c direction bothSides).2 ≠ none

/-- A command that is not about the column's own width. -/
def SparesCommand (sc k c : ConId) (word : ResizeWord) (px ppt : ℤ) : Prop :=
  match word with
  | .width => t.EndsAt c k .left true → t.LeavesOthers cfg sc k (t.changeOf sc (toInt px) (ppt / 100))
  | .left | .right => ∀ second, t.resizeParticipants c word.direction false = (k, some second) →
    t.LeavesNeighbor cfg sc k second (t.changeOf sc (toInt px) (toInt ppt / 100))
  | .height | .up | .down => True

/-- Where resizing the window `c` of the column `k` of `sc` leaves alone the widths of the others. -/
def Spares (sc k c : ConId) : Resize → Prop
  | .command way word px ppt =>
    let px := if way = .shrink then -px else px
    let ppt := if way = .shrink then -ppt else ppt
    t.insideFloating c ≠ none ∨ t.ResizesColumn c px ppt ∨ t.SparesCommand cfg sc k c word px ppt
  | .set cwidth widthPpt cheight _ =>
    cwidth ≤ 0 ∨ cheight < 0 ∨ t.insideFloating c ≠ none ∨
      (t.EndsAt c k .left true → t.LeavesOthers cfg sc k
        (if widthPpt then cwidth / 100 - (t.con k).percent
          else toInt (cwidth - (t.con k).rect.width) / (t.con sc).rect.width))
  | .drag _ _ => True
  | .cycle _ => True

end Definitions

/-! ### What an operation changes -/

variable {cfg : Config} {rc : ResizeConfig} {t t' t'' : Tree} {S : ConId → Prop}
  {sc k c d first second parent : ConId}

/-- The links and layouts stay, and the percentages of all but the containers of a set. -/
structure Reweighs (S : ConId → Prop) (t t' : Tree) : Prop where
  parent : ∀ c, (t'.con c).parent = (t.con c).parent
  nodesHead : ∀ c, (t'.con c).nodesHead = (t.con c).nodesHead
  layout : ∀ c, (t'.con c).layout = (t.con c).layout
  percent : ∀ c, ¬ S c → (t'.con c).percent = (t.con c).percent

namespace Reweighs

@[refl] theorem refl (t : Tree) : Reweighs S t t := ⟨fun _ => rfl, fun _ => rfl, fun _ => rfl, fun _ _ => rfl⟩

theorem trans (h : Reweighs S t t') (h' : Reweighs S t' t'') : Reweighs S t t'' where
  parent c := (h'.parent c).trans (h.parent c)
  nodesHead c := (h'.nodesHead c).trans (h.nodesHead c)
  layout c := (h'.layout c).trans (h.layout c)
  percent c hc := (h'.percent c hc).trans (h.percent c hc)

theorem mono {S' : ConId → Prop} (h : Reweighs S t t') (hsub : ∀ c, S c → S' c) : Reweighs S' t t' :=
  ⟨h.parent, h.nodesHead, h.layout, fun c hc => h.percent c fun hs => hc (hsub c hs)⟩

/-- One container changes, and not in its links. -/
theorem of_modify {f : Con → Con} (hparent : (f (t.con c)).parent = (t.con c).parent)
    (hnodes : (f (t.con c)).nodesHead = (t.con c).nodesHead)
    (hlayout : (f (t.con c)).layout = (t.con c).layout)
    (hpercent : S c ∨ (f (t.con c)).percent = (t.con c).percent) : Reweighs S t (t.modify c f) := by
  refine ⟨fun d => ?_, fun d => ?_, fun d => ?_, fun d hd => ?_⟩ <;> by_cases hdc : d = c
  all_goals first | (subst hdc; rw [modify_con_self]) | rw [modify_con_of_ne _ _ hdc]
  · exact hparent
  · exact hnodes
  · exact hlayout
  · exact hpercent.resolve_left hd

theorem setPercent (hc : S c) (p : ℚ) : Reweighs S t (t.setPercent c p) :=
  of_modify rfl rfl rfl (.inl hc)

theorem foldl {f : Tree → ConId → Tree} {l : List ConId} (h : ∀ t, ∀ c ∈ l, Reweighs S t (f t c)) :
    Reweighs S t (l.foldl f t) := by
  induction l generalizing t with
  | nil => exact .refl t
  | cons c l ih =>
    exact (h t c List.mem_cons_self).trans (ih fun t d hd => h t d (List.mem_cons_of_mem c hd))

theorem mapPercents {nodes : List ConId} (h : ∀ d ∈ nodes, S d) (f : ConId → ℚ → ℚ) :
    Reweighs S t (t.mapPercents nodes f) :=
  foldl fun _ d hd => .setPercent (h d hd) _

theorem percentFill (n : ℕ) {nodes : List ConId} (h : ∀ d ∈ nodes, S d) (total : ℚ) :
    Reweighs S t (percentFill n nodes t total).1 := by
  induction nodes generalizing t total with
  | nil => exact .refl t
  | cons d nodes ih =>
    have hnodes : ∀ d ∈ nodes, S d := fun d hd => h d (List.mem_cons_of_mem _ hd)
    rw [Tree.percentFill]
    split
    · exact (setPercent (h d List.mem_cons_self) _).trans (ih hnodes _)
    · exact ih hnodes _

theorem percentScale {nodes : List ConId} (h : ∀ d ∈ nodes, S d) (total : ℚ) :
    Reweighs S t (percentScale nodes (t, total)) := by
  rw [Tree.percentScale]
  split
  · exact foldl fun _ d hd => .setPercent (h d hd) _
  split
  · exact foldl fun _ d hd => .setPercent (h d hd) _
  · exact .refl t

theorem conFixPercent (h : ∀ d ∈ (t.con parent).nodesHead, S d) : Reweighs S t (t.conFixPercent parent) := by
  rw [Tree.conFixPercent]
  split
  · exact .refl t
  · dsimp only
    split
    · exact (Reweighs.percentFill _ h _).trans (.percentScale h _)
    · exact .percentScale h _

theorem treeRender : Reweighs S t (t.treeRender cfg) :=
  ⟨fun _ => rfl, fun _ => rfl, fun _ => rfl, fun _ _ => rfl⟩

theorem setScrollOffset (offset : ℚ) : Reweighs S t (t.setScrollOffset c offset) :=
  of_modify rfl rfl rfl (.inr rfl)

theorem of_con (h : t'.con = t.con) : Reweighs S t t' :=
  ⟨fun _ => by rw [h], fun _ => by rw [h], fun _ => by rw [h], fun _ _ => by rw [h]⟩

theorem scrollToOffset (target : ℚ) : Reweighs S t (t.scrollToOffset cfg c target) := by
  have hcancel : Reweighs S t t.scrollCancel := by
    rw [scrollCancel]
    split <;> exact .of_con rfl
  rw [Tree.scrollToOffset]
  split
  · exact .refl t
  dsimp only
  split
  · exact hcancel.trans (.setScrollOffset _)
  split
  · exact hcancel.trans (.of_con rfl)
  · refine (hcancel.trans (Reweighs.trans ?_ (.setScrollOffset target))).trans .treeRender
    exact .of_con rfl

theorem scrollingReveal : Reweighs S t (t.scrollingReveal cfg c) := by
  rw [Tree.scrollingReveal]
  split
  · exact .refl t
  split
  · exact .refl t
  split
  · exact .refl t
  · exact .scrollToOffset _

theorem scrollingResizeColumn (hc : S c) (delta : ℤ) :
    Reweighs S t (t.scrollingResizeColumn cfg c delta) := by
  rw [Tree.scrollingResizeColumn]
  split
  · exact .refl t
  split
  · exact .refl t
  · exact ((Reweighs.setPercent hc _).trans .treeRender).trans .scrollingReveal

theorem scrollingResizeColumnPx (hc : S c) (px : ℤ) :
    Reweighs S t (t.scrollingResizeColumnPx cfg c px) := by
  rw [Tree.scrollingResizeColumnPx]
  split
  · exact .refl t
  split
  · exact .refl t
  split
  · exact .refl t
  · exact (Reweighs.setPercent hc _).trans .treeRender

/-- What a container has in common with its siblings is all that resizing two of them changes. -/
theorem resizeNeighboring (h : ∀ d ∈ (t.con parent).nodesHead, S d)
    (hparent : (t.con first).parent = some parent) (hfirst : S first) (hsecond : S second) {px ppt : ℤ}
    (ht' : t.resizeNeighboring rc first second px ppt = some t') : Reweighs S t t' := by
  rw [Tree.resizeNeighboring, hparent] at ht'
  dsimp only at ht'
  split at ht'
  · cases ht'
  · rw [Option.some_inj] at ht'
    subst ht'
    have hpair (p q : ℚ) : Reweighs S t ((t.setPercent first p).setPercent second q) :=
      (Reweighs.setPercent hfirst p).trans (.setPercent hsecond q)
    refine (hpair _ _).trans (.conFixPercent fun d hd => h d ?_)
    rwa [(hpair _ _).nodesHead] at hd

theorem columnPercent (h : Reweighs S t t') (hc : ¬ S c) :
    t'.columnPercent cfg c = t.columnPercent cfg c := by
  rw [Tree.columnPercent, Tree.columnPercent, h.percent c hc]

end Reweighs

/-! ### The searches -/

/-- The two containers of a search: the first one is the window or above it, and both are children of a
container of the orientation. -/
structure Found (t : Tree) (c : ConId) (direction : Direction) (first second parent : ConId) : Prop where
  reach : t.Reach first
  within : Descent.Within t.children first c
  type : (t.con first).type ≠ .workspace ∧ (t.con first).type ≠ .floatingCon
  up : (t.con first).parent = some parent
  orientation : t.orientation parent = some direction.orientation
  firstMem : first ∈ (t.con parent).nodesHead
  secondMem : second ∈ (t.con parent).nodesHead
  ne : second ≠ first

theorem mem_of_siblingTowards {direction : Direction} (h : t.siblingTowards parent c direction = some d) :
    d ∈ (t.con parent).nodesHead := by
  cases direction
  · exact Queue.mem_of_prev h
  · exact Queue.mem_of_next h
  · exact Queue.mem_of_prev h
  · exact Queue.mem_of_next h

theorem mem_of_counterpart {direction : Direction} {bothSides : Bool}
    (h : t.counterpart parent c direction bothSides = some d) : d ∈ (t.con parent).nodesHead := by
  rw [counterpart] at h
  split at h
  · next second hsecond =>
    cases h
    exact mem_of_siblingTowards hsecond
  · split at h
    · exact mem_of_siblingTowards h
    · cases h

theorem counterpart_ne {direction : Direction} {bothSides : Bool} (hn : (t.con parent).nodesHead.Nodup)
    (h : t.counterpart parent c direction bothSides = some d) : d ≠ c := by
  have hsibling : ∀ direction, t.siblingTowards parent c direction = some d → d ≠ c := by
    intro direction hs
    cases direction
    · exact Queue.next_ne (List.nodup_reverse.mpr hn) hs
    · exact Queue.next_ne hn hs
    · exact Queue.next_ne (List.nodup_reverse.mpr hn) hs
    · exact Queue.next_ne hn hs
  rw [counterpart] at h
  split at h
  · next second hsecond =>
    cases h
    exact hsibling direction hsecond
  · split at h
    · exact hsibling _ h
    · cases h

/-- Only a container in the list has a counterpart there. -/
theorem first_mem_of_counterpart {direction : Direction} {bothSides : Bool}
    (h : t.counterpart parent c direction bothSides = some d) : c ∈ (t.con parent).nodesHead := by
  have hnext : ∀ l : List ConId, Queue.next c l = some d → c ∈ l := by
    intro l hl
    induction l with
    | nil => cases hl
    | cons a l ih =>
      rw [Queue.next] at hl
      split at hl
      · next ha => exact ha ▸ List.mem_cons_self
      · exact List.mem_cons_of_mem a (ih hl)
  have hsibling : ∀ direction, t.siblingTowards parent c direction = some d →
      c ∈ (t.con parent).nodesHead := by
    intro direction hs
    cases direction
    · exact List.mem_reverse.mp (hnext _ hs)
    · exact hnext _ hs
    · exact List.mem_reverse.mp (hnext _ hs)
    · exact hnext _ hs
  rw [counterpart] at h
  split at h
  · next second hsecond =>
    cases h
    exact hsibling direction hsecond
  · split at h
    · exact hsibling _ h
    · cases h

theorem found_of_resizeParticipantsN (ht : Rooted t) {direction : Direction} {bothSides : Bool} (n : ℕ)
    (hc : t.Reach c) (h : t.resizeParticipantsN direction bothSides n c = (first, some second)) :
    ∃ parent, Found t c direction first second parent := by
  induction n generalizing c with
  | zero => cases h
  | succ n ih =>
    rw [resizeParticipantsN] at h
    split at h
    · cases h
    next htype =>
    split at h
    · cases h
    next parent hparent =>
    have hup : (∃ q, Found t parent direction first second q) → ∃ q, Found t c direction first second q := by
      rintro ⟨q, hf⟩
      refine ⟨q, { hf with within := ?_ }⟩
      exact (hf.within.tail (ht.mem_children_of_parent hc hparent)).within
    split at h
    · exact hup (ih (ht.reach_parent hc hparent) h)
    next horientation =>
    split at h
    · next d hd =>
      cases h
      exact ⟨parent, hc, .refl _, not_or.mp htype, hparent, not_not.mp (not_or.mp horientation).1,
        first_mem_of_counterpart hd, mem_of_counterpart hd, counterpart_ne (ht.nodupNodes parent) hd⟩
    · exact hup (ih (ht.reach_parent hc hparent) h)

theorem found_of_resizeParticipants (ht : Rooted t) {direction : Direction} {bothSides : Bool}
    (hc : t.Reach c) (h : t.resizeParticipants c direction bothSides = (first, some second)) :
    ∃ parent, Found t c direction first second parent :=
  found_of_resizeParticipantsN ht t.nextCon hc h

/-- **The column of a window**: of the columns of a container one only has the window in it. -/
theorem eq_column (ht : Rooted t) (hk : k ∈ (t.con sc).nodesHead) (hc : Descent.Within t.children k c)
    (hd : d ∈ (t.con sc).nodesHead) (hdc : Descent.Within t.children d c) : d = k :=
  ht.acyclic.eq_of_within ht.parent (List.mem_append_left _ hd) (List.mem_append_left _ hk) hdc hc

/-- A search that ends among the columns ends at the one of the window. -/
theorem Found.eq_column {direction : Direction} (hf : Found t c direction first second sc) (ht : Rooted t)
    (hk : k ∈ (t.con sc).nodesHead) (hc : Descent.Within t.children k c) : first = k :=
  Tree.eq_column ht hk hc hf.firstMem hf.within

theorem columnOfN_spec (ht : Rooted t) (n : ℕ) (hc : t.Reach c) (h : t.columnOfN n c = some d) :
    Descent.Within t.children d c ∧ t.Reach d := by
  induction n generalizing c with
  | zero => cases h
  | succ n ih =>
    rw [columnOfN] at h
    split at h
    · cases h
    next parent hparent =>
    split at h
    · cases h
      exact ⟨.refl _, hc⟩
    split at h
    · cases h
    · obtain ⟨hwithin, hreach⟩ := ih (ht.reach_parent hc hparent) h
      exact ⟨(hwithin.tail (ht.mem_children_of_parent hc hparent)).within, hreach⟩

theorem borderColumnN_spec (ht : Rooted t) (n : ℕ) (hc : t.Reach c) (h : t.borderColumnN n c = some d) :
    Descent.Within t.children d c ∧ t.Reach d ∧
      ∃ parent, (t.con d).parent = some parent ∧ (t.con parent).layout = .scrolling := by
  induction n generalizing c with
  | zero => cases h
  | succ n ih =>
    rw [borderColumnN] at h
    split at h
    · cases h
    next parent hparent =>
    split at h
    · cases h
    split at h
    · next hlayout =>
      cases h
      exact ⟨.refl _, hc, parent, hparent, hlayout⟩
    · obtain ⟨hwithin, hrest⟩ := ih (ht.reach_parent hc hparent) h
      exact ⟨(hwithin.tail (ht.mem_children_of_parent hc hparent)).within, hrest⟩

/-- The search along a border finds a column where the one for splits would end at one. -/
theorem borderColumnN_isSome {direction : Direction} {bothSides : Bool} (n : ℕ)
    (h : t.resizeParticipantsN direction bothSides n c = (first, some second))
    (hparent : (t.con first).parent = some sc) (hlayout : (t.con sc).layout = .scrolling) :
    t.borderColumnN n c ≠ none := by
  induction n generalizing c with
  | zero => cases h
  | succ n ih =>
    rw [resizeParticipantsN] at h
    split at h
    · cases h
    next htype =>
    split at h
    · cases h
    next parent hp =>
    rw [borderColumnN, hp]
    dsimp only
    rw [if_neg htype]
    by_cases hscrolling : (t.con parent).layout = .scrolling
    · rw [if_pos hscrolling]
      exact Option.some_ne_none c
    rw [if_neg hscrolling]
    split at h
    · exact ih h
    split at h
    · -- the search would not end here
      cases h
      rw [hp, Option.some_inj] at hparent
      exact absurd (hparent ▸ hlayout) hscrolling
    · exact ih h

/-- Where a search finds nothing it has come to a workspace or the like. -/
def StopsAt (t : Tree) (c : ConId) : Prop :=
  ((t.con c).type = .workspace ∨ (t.con c).type = .floatingCon) ∨ (t.con c).parent = none

theorem resizeParticipantsN_of_stopsAt (h : t.StopsAt c) (direction : Direction) (bothSides : Bool)
    (n : ℕ) : t.resizeParticipantsN direction bothSides n c = (c, none) := by
  cases n with
  | zero => rfl
  | succ n =>
    rw [resizeParticipantsN]
    split
    · rfl
    next htype =>
    rw [h.resolve_left htype]

theorem stopsAt_of_resizeParticipantsN {direction : Direction} {bothSides : Bool} (n : ℕ)
    (h : t.resizeParticipantsN direction bothSides n c = (d, none)) :
    t.StopsAt d ∨ (t.chainN (n + 1) c).length = n + 1 := by
  induction n generalizing c with
  | zero =>
    right
    rw [chainN]
    split <;> rfl
  | succ n ih =>
    rw [resizeParticipantsN] at h
    split at h
    · next htype =>
      cases h
      exact .inl (.inl htype)
    split at h
    · next hparent =>
      cases h
      exact .inl (.inr hparent)
    next parent hparent =>
    have hup : t.StopsAt d ∨ (t.chainN (n + 1) parent).length = n + 1 →
        t.StopsAt d ∨ (t.chainN (n + 1 + 1) c).length = n + 1 + 1 := by
      refine Or.imp_right fun hlength => ?_
      rw [chainN, hparent, List.length_cons, hlength]
    split at h
    · exact hup (ih h)
    split at h
    · cases h
    · exact hup (ih h)

/-- The search is not longer than the tree is deep. -/
theorem stopsAt_of_resizeParticipants (ht : Rooted t) (hc : t.Reach c) {direction : Direction}
    {bothSides : Bool} (h : t.resizeParticipants c direction bothSides = (d, none)) : t.StopsAt d := by
  refine (stopsAt_of_resizeParticipantsN t.nextCon h).resolve_right fun hlength => ?_
  have hle := ht.length_chainN_le (t.nextCon + 1) hc
  omega

/-- Searching again from where a search ended. -/
theorem resizeParticipants_self (ht : Rooted t) (hc : t.Reach c) {direction : Direction} {bothSides : Bool}
    {second : Option ConId} (h : t.resizeParticipants c direction bothSides = (d, second)) :
    t.resizeParticipants d direction bothSides = (d, second) := by
  cases second with
  | none =>
    exact resizeParticipantsN_of_stopsAt (stopsAt_of_resizeParticipants ht hc h) direction bothSides _
  | some second =>
    obtain ⟨m, hm⟩ := Nat.exists_eq_succ_of_ne_zero (Nat.pos_iff_ne_zero.mp
      (Nat.zero_lt_of_lt ht.boundedRoot))
    have hself : ∀ n c, t.resizeParticipantsN direction bothSides n c = (d, some second) →
        t.resizeParticipantsN direction bothSides (m + 1) d = (d, some second) := by
      intro n
      induction n with
      | zero => exact fun c h => nomatch h
      | succ n ih =>
        intro c h
        rw [resizeParticipantsN] at h
        split at h
        · cases h
        next htype =>
        split at h
        · cases h
        next parent hparent =>
        split at h
        · exact ih parent h
        next horientation =>
        split at h
        · next s hs =>
          cases h
          rw [resizeParticipantsN, if_neg htype, hparent]
          dsimp only
          rw [if_neg horientation, hs]
        · exact ih parent h
    rw [resizeParticipants, hm]
    exact hself _ c h

/-! ### Splits -/

/-- New percentages for containers of a list change nothing else. -/
theorem con_mapPercents {nodes : List ConId} (hn : nodes.Nodup) (f : ConId → ℚ → ℚ) (c : ConId) :
    (t.mapPercents nodes f).con c =
      { t.con c with
        percent := if c ∈ nodes then f c (t.con c).percent else (t.con c).percent } := by
  induction nodes generalizing t with
  | nil => simp [mapPercents]
  | cons d nodes ih =>
    obtain ⟨hd, hn⟩ := List.nodup_cons.mp hn
    show ((t.setPercent d (f d (t.con d).percent)).mapPercents nodes f).con c = _
    rw [ih hn]
    by_cases hcd : c = d
    · subst hcd
      simp [setPercent, hd]
    · simp [setPercent, hcd]

theorem links_mapPercents (nodes : List ConId) (f : ConId → ℚ → ℚ) : Links t (t.mapPercents nodes f) :=
  links_foldl_setPercent _ _ _

theorem links_widthHeight (direction : Direction) (px : ℤ) (ppt : ℚ) :
    Links t (t.widthHeight rc c direction px ppt) := by
  rw [widthHeight]
  split
  · exact .refl t
  split
  · exact .refl t
  dsimp only
  split
  · exact links_mapPercents _ _
  · exact (links_mapPercents _ _).trans (links_mapPercents _ _)

/-- Only the containers beside the one that is found change, and it. -/
theorem Reweighs.widthHeight (ht : Rooted t) (hc : t.Reach c) {direction : Direction}
    (h : ∀ first second parent, t.resizeParticipants c direction true = (first, some second) →
      Found t c direction first second parent → ∀ d ∈ (t.con parent).nodesHead, S d)
    (px : ℤ) (ppt : ℚ) : Reweighs S t (t.widthHeight rc c direction px ppt) := by
  rw [Tree.widthHeight]
  split
  · exact .refl t
  next first second hfound =>
  obtain ⟨q, hf⟩ := found_of_resizeParticipants ht hc hfound
  have hall := h first second q hfound hf
  rw [hf.up]
  dsimp only
  have hfill := Reweighs.mapPercents (t := t) hall
    fun _ p => if p = 0 then 1 / ((t.con q).nodesHead.length : ℚ) else p
  split
  · exact hfill
  · exact hfill.trans (.mapPercents hall _)

theorem Reweighs.tilingDirection (ht : Rooted t) (hc : t.Reach c) {direction : Direction}
    (h : ∀ first second parent, t.resizeParticipants c direction false = (first, some second) →
      Found t c direction first second parent → ∀ d ∈ (t.con parent).nodesHead, S d)
    (px ppt : ℤ) : Reweighs S t (t.tilingDirection rc c direction px ppt) := by
  rw [Tree.tilingDirection]
  split
  · exact .refl t
  next first second hfound =>
  obtain ⟨q, hf⟩ := found_of_resizeParticipants ht hc hfound
  have hall := h first second q hfound hf
  cases hresult : t.resizeNeighboring rc first second (if ppt ≠ 0 then 0 else px) ppt with
  | none => exact .refl t
  | some t' =>
    exact .resizeNeighboring hall hf.up (hall first hf.firstMem) (hall second hf.secondMem) hresult

theorem links_resizeSetTiling (direction : Direction) (isPpt : Bool) (targetSize : ℤ) :
    Links t (t.resizeSetTiling rc c direction isPpt targetSize) := links_widthHeight direction _ _

/-- The second search, from where the first one ended, ends there too. -/
theorem Reweighs.resizeSetTiling (ht : Rooted t) (hc : t.Reach c) {direction : Direction}
    (h : ∀ first second parent, t.resizeParticipants c direction true = (first, some second) →
      Found t c direction first second parent → ∀ d ∈ (t.con parent).nodesHead, S d)
    (isPpt : Bool) (targetSize : ℤ) :
    Reweighs S t (t.resizeSetTiling rc c direction isPpt targetSize) := by
  obtain ⟨⟨found, other⟩, hsearch⟩ : ∃ result, t.resizeParticipants c direction true = result := ⟨_, rfl⟩
  have hself := resizeParticipants_self ht hc hsearch
  rw [Tree.resizeSetTiling, hsearch]
  dsimp only
  cases other with
  | none =>
    rw [Tree.widthHeight, hself]
  | some other =>
    obtain ⟨q, hf⟩ := found_of_resizeParticipants ht hc hsearch
    refine .widthHeight ht hf.reach (fun first second parent hagain hf' => ?_) _ _
    rw [hself] at hagain
    cases hagain
    obtain rfl : q = parent := Option.some_inj.mp (hf.up.symm.trans hf'.up)
    exact h found other q hsearch hf

theorem percentFor1px_column (ht : Rooted t) (hlayout : (t.con sc).layout = .scrolling)
    (hd : d ∈ (t.con sc).nodesHead) : t.percentFor1px rc d = 1 / (t.con sc).rect.width := by
  have hparent : (t.con d).parent = some sc := ht.parent sc d (List.mem_append_left _ hd)
  have horientation : t.orientation sc = some .horiz := by rw [Tree.orientation, hlayout]
  rw [percentFor1px, hparent]
  dsimp only
  rw [if_pos horientation, rectSizeInOrientation, if_pos horientation, Nat.cast_one]

/-- A column and its neighbour; the percentages are not made up to the whole. -/
theorem resizeNeighboring_column (ht : Rooted t) (hlayout : (t.con sc).layout = .scrolling)
    (hk : k ∈ (t.con sc).nodesHead) (hsecond : second ∈ (t.con sc).nodesHead) (px ppt : ℤ) :
    t.resizeNeighboring rc k second px ppt =
      if (t.con k).percent + t.changeOf sc px (ppt / 100) < 1 / (t.con sc).rect.width ∨
          (t.con second).percent - t.changeOf sc px (ppt / 100) < 1 / (t.con sc).rect.width then none
      else some ((t.setPercent k ((t.con k).percent + t.changeOf sc px (ppt / 100))).setPercent second
        ((t.con second).percent - t.changeOf sc px (ppt / 100))) := by
  rw [resizeNeighboring, ht.parent sc k (List.mem_append_left _ hk)]
  dsimp only
  rw [percentFor1px_column ht hlayout hk, percentFor1px_column ht hlayout hsecond]
  split
  · rfl
  · have hstill (p q : ℚ) : (((t.setPercent k p).setPercent second q).con sc).layout = .scrolling := by
      rw [((Reweighs.setPercent (S := fun _ => True) trivial p).trans (.setPercent trivial q)).layout,
        hlayout]
    rw [conFixPercent, if_pos (hstill _ _)]

/-- **Width from the others**: what each other column has when the search ends at a column. -/
theorem percent_widthHeight (ht : Rooted t) (hlayout : (t.con sc).layout = .scrolling)
    (hk : k ∈ (t.con sc).nodesHead) (hsearch : t.resizeParticipants c .left true = (k, some second))
    (hd : d ∈ (t.con sc).nodesHead) (hne : d ≠ k) (px : ℤ) (ppt : ℚ) :
    ((t.widthHeight rc c .left px ppt).con d).percent = t.leftover sc k (t.changeOf sc px ppt) d := by
  have hparent : (t.con k).parent = some sc := ht.parent sc k (List.mem_append_left _ hk)
  have hn : (t.con sc).nodesHead.Nodup := ht.nodupNodes sc
  rw [widthHeight, hsearch]
  dsimp only
  rw [hparent]
  dsimp only
  obtain ⟨s, hs⟩ : ∃ s, t.mapPercents (t.con sc).nodesHead
      (fun _ p => if p = 0 then 1 / ((t.con sc).nodesHead.length : ℚ) else p) = s := ⟨_, rfl⟩
  have hcon : ∀ x, s.con x = { t.con x with
      percent := if x ∈ (t.con sc).nodesHead then t.sharedPercent sc x else (t.con x).percent } := by
    intro x
    rw [← hs, con_mapPercents hn]
    rfl
  have hpercent : ∀ x ∈ (t.con sc).nodesHead, (s.con x).percent = t.sharedPercent sc x := by
    intro x hx
    rw [hcon]
    exact if_pos hx
  have hone : ∀ x ∈ (t.con sc).nodesHead, s.percentFor1px rc x = 1 / (t.con sc).rect.width := by
    intro x hx
    have hroot : Rooted s := ht.links (hs ▸ links_mapPercents _ _)
    have hlayout' : (s.con sc).layout = .scrolling := by rw [hcon, hlayout]
    have hcolumn := @percentFor1px_column rc s sc x hroot hlayout' (by rwa [hcon])
    rwa [hcon sc] at hcolumn
  have hchange : s.changeOf sc px ppt = t.changeOf sc px ppt := by
    have hsize : s.rectSizeInOrientation sc = t.rectSizeInOrientation sc := by
      rw [rectSizeInOrientation, rectSizeInOrientation, Tree.orientation, Tree.orientation, hcon]
    rw [changeOf, changeOf, hsize]
  have hroom : s.noRoom rc (t.con sc).nodesHead k (t.changeOf sc px ppt) ↔
      t.Crowded sc k (t.changeOf sc px ppt) := by
    unfold noRoom Crowded subtractPercent
    rw [hpercent k hk, hone k hk]
    refine or_congr Iff.rfl (and_congr Iff.rfl (exists_congr fun x => and_congr_right fun hx => ?_))
    rw [hpercent x hx, hone x hx]
  rw [hs, hchange, leftover]
  by_cases hcrowded : t.Crowded sc k (t.changeOf sc px ppt)
  · rw [if_pos (hroom.mpr hcrowded), if_pos hcrowded]
    exact hpercent d hd
  · rw [if_neg fun h => hcrowded (hroom.mp h), if_neg hcrowded, con_mapPercents hn]
    dsimp only
    rw [if_pos hd, if_neg hne, hpercent d hd]
    rfl

/-! ### Drags -/

/-- What a drag resizes is in a set: the column, or both containers with all beside them. -/
structure DragWithin (S : ConId → Prop) (t : Tree) (d : Dragged) : Prop where
  first : S d.first
  column : ∀ x ∈ d.column, S x
  second : ∀ x ∈ d.second, S x
  up : ∃ parent, (t.con d.first).parent = some parent ∧
    ((t.con parent).layout = .scrolling ∧ d.second = none ∨ ∀ x ∈ (t.con parent).nodesHead, S x)

theorem DragWithin.reweighs {g : Dragged} (hg : DragWithin S t g) (h : Reweighs S t t') :
    DragWithin S t' g where
  first := hg.first
  column := hg.column
  second := hg.second
  up := by
    obtain ⟨parent, hparent, hall⟩ := hg.up
    exact ⟨parent, by rw [h.parent, hparent], by rwa [h.layout, h.nodesHead]⟩

theorem DragWithin.neighboring {g : Dragged} (hg : DragWithin S t g) (hsecond : g.second = some second)
    {px ppt : ℤ} (ht' : t.resizeNeighboring rc g.first second px ppt = some t') : Reweighs S t t' := by
  obtain ⟨parent, hparent, hall⟩ := hg.up
  refine .resizeNeighboring (hall.resolve_left ?_) hparent hg.first (hg.second second hsecond) ht'
  rintro ⟨-, hnone⟩
  rw [hsecond] at hnone
  cases hnone

theorem DragWithin.dragBy {g : Dragged} (hg : DragWithin S t g) {px : ℤ}
    (ht' : t.dragBy cfg rc g px = some t') : Reweighs S t t' := by
  rw [Tree.dragBy] at ht'
  split at ht'
  · next column hcolumn =>
    cases ht'
    exact .scrollingResizeColumnPx (hg.column column hcolumn) _
  · next second _ hsecond => exact hg.neighboring hsecond ht'
  · cases ht'

theorem DragWithin.dragBack {g : Dragged} (hg : DragWithin S t g) (before : Tree) :
    Reweighs S t (t.dragBack before g) := by
  have hfirst : Reweighs S t (t.setPercent g.first (before.con g.first).percent) := .setPercent hg.first _
  rw [Tree.dragBack]
  split
  · next second hsecond => exact hfirst.trans (.setPercent (hg.second second hsecond) _)
  · exact hfirst

/-- A motion, from whatever came before. -/
theorem Reweighs.resizeCallback {g : Dragged} {s : Dragging} (hg : DragWithin S t g)
    (h : Reweighs S t s.tree) (m : Motion) : Reweighs S t (Tree.resizeCallback cfg rc g s m).tree := by
  rw [Tree.resizeCallback]
  split
  · exact h
  split
  · exact h
  split
  · exact h
  split
  · next t' ht' =>
    have hby := h.trans ((hg.reweighs h).dragBy ht')
    dsimp only
    split
    · exact hby
    · exact hby.trans .treeRender
  · exact h

theorem Reweighs.resizeCallbacks {g : Dragged} (hg : DragWithin S t g) (motions : List Motion)
    {s : Dragging} (h : Reweighs S t s.tree) :
    Reweighs S t (motions.foldl (Tree.resizeCallback cfg rc g) s).tree := by
  induction motions generalizing s with
  | nil => exact h
  | cons m motions ih => exact ih (h.resizeCallback hg m)

theorem Reweighs.dragEnd {g : Dragged} {s : Dragging} (hg : DragWithin S t g) (h : Reweighs S t s.tree)
    (initial : ℤ) (revert : Bool) : Reweighs S t (Tree.dragEnd cfg rc t g initial s revert) := by
  obtain ⟨parent, hparent, hall⟩ := hg.up
  rw [Tree.dragEnd]
  split
  · split
    · -- what the drag has changed is put back, and in a split made up to the whole
      have hback := h.trans ((hg.reweighs h).dragBack t)
      rw [hparent]
      refine (hback.trans ?_).trans .treeRender
      rcases hall with ⟨hlayout, -⟩ | hall
      · rw [Tree.conFixPercent, hback.layout, if_pos hlayout]
      · exact .conFixPercent fun d hd => hall d (by rwa [hback.nodesHead] at hd)
    split
    · exact h.trans .treeRender
    · refine Reweighs.trans ?_ .treeRender
      cases hresult : s.tree.dragBy cfg rc g (s.newPosition - s.appliedPosition) with
      | none => exact h
      | some t' => exact h.trans ((hg.reweighs h).dragBy hresult)
  split
  · exact h
  split
  · exact h
  · next second hsecond =>
    cases hresult : s.tree.resizeNeighboring rc g.first second (s.newPosition - initial) 0 with
    | none => exact h
    | some t' => exact h.trans ((hg.reweighs h).neighboring hsecond hresult)

theorem Reweighs.resizeGraphical {second : Option ConId} {orientation : Orientation}
    {direction : Direction} (hg : DragWithin S t (t.dragged first second orientation direction))
    (drag : Drag) : Reweighs S t (t.resizeGraphical cfg rc first second orientation direction drag) :=
  .dragEnd hg (.resizeCallbacks hg drag.motions .treeRender) _ _

/-! ### The other columns -/

/-- The container is no other column than `k`. -/
def NoOther (t : Tree) (sc k d : ConId) : Prop := d ∈ (t.con sc).nodesHead → d = k

theorem Reweighs.othersKept_after (h : Reweighs (t'.NoOther sc k) t' t'')
    (hnodes : (t'.con sc).nodesHead = (t.con sc).nodesHead) :
    t.OthersKept cfg t'' sc k ↔ t.OthersKept cfg t' sc k := by
  refine forall_congr' fun d => forall_congr' fun hd => forall_congr' fun hk => ?_
  rw [h.columnPercent fun hno => hk (hno (hnodes ▸ hd))]

theorem Reweighs.othersKept (h : Reweighs (t.NoOther sc k) t t') : t.OthersKept cfg t' sc k :=
  fun _ hd hk => h.columnPercent fun hno => hk (hno hd)

/-- The children of a container that is not `sc` are no columns of it. -/
theorem noOther_of_ne (ht : Rooted t) (hne : parent ≠ sc) (hd : d ∈ (t.con parent).nodesHead) :
    t.NoOther sc k d := by
  intro hcolumn
  have hparent := ht.parent parent d (List.mem_append_left _ hd)
  rw [ht.parent sc d (List.mem_append_left _ hcolumn), Option.some_inj] at hparent
  exact absurd hparent.symm hne

section Column

variable (ht : Rooted t) (hlayout : (t.con sc).layout = .scrolling) (hk : k ∈ (t.con sc).nodesHead)
  (hreach : t.Reach c) (hc : Descent.Within t.children k c)

include ht hk hc

theorem noOther_of_within (hd : Descent.Within t.children d c) : t.NoOther sc k d :=
  fun hcolumn => eq_column ht hk hc hcolumn hd

include hlayout

/-- A split that is not horizontal is not that of the columns. -/
theorem noOther_of_found {direction : Direction} (hf : Found t c direction first second parent)
    (hdirection : direction.orientation = .vert ∨ first ≠ k) :
    ∀ d ∈ (t.con parent).nodesHead, t.NoOther sc k d := by
  intro d hd
  refine noOther_of_ne ht ?_ hd
  rintro rfl
  rcases hdirection with hvert | hne
  · have horientation := hf.orientation
    rw [Tree.orientation, hlayout, Option.some_inj, hvert] at horientation
    cases horientation
  · exact hne (hf.eq_column ht hk hc)

include hreach

omit hlayout in
theorem othersKept_cycle (backwards : Bool) :
    t.OthersKept cfg (t.scrollingCycleWidth cfg c backwards) sc k := by
  rw [scrollingCycleWidth]
  split
  · exact fun _ _ _ => rfl
  next column hcolumn =>
  have hno : t.NoOther sc k column :=
    noOther_of_within ht hk hc (columnOfN_spec ht t.nextCon hreach hcolumn).1
  exact (((Reweighs.of_modify rfl rfl rfl (.inl hno)).trans .treeRender).trans .scrollingReveal).othersKept

theorem othersKept_drag (border : Border) (drag : Drag) :
    t.OthersKept cfg (t.resizeForBorder cfg rc c border drag) sc k := by
  rw [resizeForBorder]
  dsimp only
  split
  · next column hcolumn =>
    -- a column is dragged alone
    have hborder : t.borderColumnN t.nextCon c = some column := by
      split at hcolumn
      · exact hcolumn
      · cases hcolumn
    obtain ⟨hwithin, -, q, hq, hscrolling⟩ := borderColumnN_spec ht t.nextCon hreach hborder
    have hno : t.NoOther sc k column := noOther_of_within ht hk hc hwithin
    have hg : DragWithin (t.NoOther sc k) t (t.dragged column none .horiz border.direction) := by
      refine ⟨hno, fun x hx => ?_, fun _ h => (nomatch h), q, hq, .inl ⟨hscrolling, rfl⟩⟩
      have hself : (t.dragged column none .horiz border.direction).column = some column := by
        simp [dragged, hq, hscrolling]
      rw [hself] at hx
      exact Option.some_inj.mp hx ▸ hno
    exact ((Reweighs.resizeGraphical hg drag).trans .treeRender).othersKept
  · next hcolumn =>
    split
    · exact fun _ _ _ => rfl
    next first second hfound =>
    obtain ⟨q, hf⟩ := found_of_resizeParticipants ht hreach hfound
    split
    · exact fun _ _ _ => rfl
    -- the search would have found the column
    have hne : q ≠ sc := by
      rintro rfl
      have hhoriz : border.direction.orientation = .horiz := by
        have horientation := hf.orientation
        rw [Tree.orientation, hlayout, Option.some_inj] at horientation
        exact horientation.symm
      have hside : border = .left ∨ border = .right := by
        cases border <;> simp [Border.direction, Direction.orientation] at hhoriz ⊢
      rw [if_pos hside] at hcolumn
      exact borderColumnN_isSome t.nextCon hfound hf.up hlayout hcolumn
    have hall : ∀ d ∈ (t.con q).nodesHead, t.NoOther sc k d := fun d hd => noOther_of_ne ht hne hd
    have hpair {a b : ConId} (ha : a ∈ (t.con q).nodesHead) (hb : b ∈ (t.con q).nodesHead) :
        DragWithin (t.NoOther sc k) t
          (t.dragged a (some b) border.direction.orientation border.direction) := by
      refine ⟨hall a ha, fun x hx => ?_, fun x hx => ?_, q, ?_, .inr hall⟩
      · simp only [dragged] at hx
        split at hx
        · exact Option.some_inj.mp hx ▸ hall a ha
        · cases hx
      · exact Option.some_inj.mp hx ▸ hall b hb
      · exact ht.parent q a (List.mem_append_left _ ha)
    cases border.direction.backwards
    · exact ((Reweighs.resizeGraphical (hpair hf.firstMem hf.secondMem) drag).trans
        .treeRender).othersKept
    · exact ((Reweighs.resizeGraphical (hpair hf.secondMem hf.firstMem) drag).trans
        .treeRender).othersKept

/-- A window whose width comes from the others, if the search ends at its column. -/
theorem othersKept_widthHeight (px : ℤ) (ppt : ℚ) :
    t.OthersKept cfg (t.widthHeight rc c .left px ppt) sc k ↔
      (t.EndsAt c k .left true → t.LeavesOthers cfg sc k (t.changeOf sc px ppt)) := by
  by_cases hends : t.EndsAt c k .left true
  · obtain ⟨hfirst, hsome⟩ := hends
    obtain ⟨second, hsecond⟩ := Option.ne_none_iff_exists'.mp hsome
    have hsearch : t.resizeParticipants c .left true = (k, some second) := Prod.ext hfirst hsecond
    simp only [show t.EndsAt c k .left true from ⟨hfirst, hsome⟩, true_implies, OthersKept, LeavesOthers]
    refine forall_congr' fun d => forall_congr' fun hd => forall_congr' fun hne => ?_
    rw [columnPercent, columnPercent, percent_widthHeight ht hlayout hk hsearch hd hne px ppt]
    rfl
  · refine iff_of_true (Reweighs.othersKept ?_) fun h => absurd h hends
    refine .widthHeight ht hreach (fun first second q hsearch hf => ?_) px ppt
    refine noOther_of_found ht hlayout hk hc hf (.inr fun hfirst => hends ?_)
    rw [EndsAt, hsearch]
    exact ⟨hfirst, Option.some_ne_none second⟩

/-- A window that gets its width from a neighbour. -/
theorem othersKept_tilingDirection (direction : Direction) (px ppt : ℤ) :
    t.OthersKept cfg (t.tilingDirection rc c direction px ppt) sc k ↔
      ∀ second, t.resizeParticipants c direction false = (k, some second) →
        t.LeavesNeighbor cfg sc k second (t.changeOf sc px (ppt / 100)) := by
  by_cases hends : ∃ second, t.resizeParticipants c direction false = (k, some second)
  · obtain ⟨second, hsearch⟩ := hends
    obtain ⟨q, hf⟩ := found_of_resizeParticipants ht hreach hsearch
    obtain rfl : sc = q :=
      Option.some_inj.mp ((ht.parent sc k (List.mem_append_left _ hk)).symm.trans hf.up)
    have hone : (∀ second', t.resizeParticipants c direction false = (k, some second') →
        t.LeavesNeighbor cfg sc k second' (t.changeOf sc px (ppt / 100))) ↔
        t.LeavesNeighbor cfg sc k second (t.changeOf sc px (ppt / 100)) := by
      simp only [hsearch, Prod.mk.injEq, true_and, Option.some_inj, forall_eq']
    have hpct : t.changeOf sc (if ppt ≠ 0 then 0 else px) (ppt / 100) = t.changeOf sc px (ppt / 100) := by
      by_cases hppt : ppt = 0
      · rw [if_neg (not_not.mpr hppt)]
      · have hne : (ppt : ℚ) / 100 ≠ 0 := div_ne_zero (Int.cast_ne_zero.mpr hppt) (by norm_num)
        rw [changeOf, changeOf, if_pos hne, if_pos hne]
    rw [hone, tilingDirection, hsearch]
    dsimp only
    rw [resizeNeighboring_column ht hlayout hk hf.secondMem, hpct, LeavesNeighbor]
    by_cases hroom : (t.con k).percent + t.changeOf sc px (ppt / 100) < 1 / (t.con sc).rect.width ∨
        (t.con second).percent - t.changeOf sc px (ppt / 100) < 1 / (t.con sc).rect.width
    · rw [if_pos hroom]
      exact iff_of_true (fun _ _ _ => rfl) (or_assoc.mp (.inl hroom))
    rw [if_neg hroom, ← or_assoc, or_iff_right hroom, Option.getD_some]
    constructor
    · intro hkept
      have hsecond := hkept second hf.secondMem hf.ne
      rw [columnPercent, setPercent, modify_con_self] at hsecond
      exact hsecond
    · intro hkept d hd hne
      rw [columnPercent, columnPercent]
      by_cases hds : d = second
      · rw [hds, setPercent, modify_con_self]
        exact hkept
      · rw [setPercent, setPercent, modify_con_of_ne _ _ hds, modify_con_of_ne _ _ hne]
  · refine iff_of_true (Reweighs.othersKept ?_) fun second h => absurd ⟨second, h⟩ hends
    refine .tilingDirection ht hreach (fun first second q hsearch hf => ?_) px ppt
    refine noOther_of_found ht hlayout hk hc hf (.inr fun hfirst => hends ⟨second, ?_⟩)
    rw [hsearch, hfirst]

omit hlayout in
/-- What is about a column's own width changes this column alone. -/
theorem othersKept_handled {word : ResizeWord} {px ppt : ℤ}
    (h : t.scrollingResizeHandled cfg c word px ppt = some t') : t.OthersKept cfg t' sc k := by
  rw [scrollingResizeHandled] at h
  split at h
  · cases h
  next column hcolumn =>
  split at h
  · cases h
  split at h
  · cases h
  split at h
  · cases h
  · rw [Option.some_inj] at h
    subst h
    have hwithin := (columnOfN_spec ht t.nextCon hreach hcolumn).1
    exact (Reweighs.scrollingResizeColumn (noOther_of_within ht hk hc hwithin) _).othersKept

omit ht hk hc hreach hlayout in
theorem resizesColumn_of_handled {word : ResizeWord} {px ppt : ℤ}
    (h : t.scrollingResizeHandled cfg c word px ppt ≠ none) : t.ResizesColumn c px ppt := by
  rw [scrollingResizeHandled] at h
  split at h
  · exact absurd rfl h
  next column hcolumn =>
  split at h
  · exact absurd rfl h
  next con hcon =>
  split at h
  · exact absurd rfl h
  split at h
  · exact absurd rfl h
  next hdelta => exact ⟨column, hcolumn, con, hcon, hdelta⟩

omit ht hk hc hreach hlayout in
theorem handled_of_resizesColumn {word : ResizeWord} {px ppt : ℤ} (h : t.ResizesColumn c px ppt)
    (hword : ¬ (word = .height ∨ word = .up ∨ word = .down)) :
    t.scrollingResizeHandled cfg c word px ppt ≠ none := by
  obtain ⟨column, hcolumn, con, hcon, hdelta⟩ := h
  rw [Option.mem_def] at hcolumn hcon
  rw [scrollingResizeHandled, hcolumn]
  dsimp only
  rw [hcon]
  dsimp only
  rw [if_neg hword, if_neg hdelta]
  exact Option.some_ne_none _

omit ht hk hc hreach hlayout in
theorem othersKept_resizeFloating (floating : ConId) :
    t.OthersKept cfg (t.resizeFloating rc floating) sc k := by
  rw [resizeFloating]
  split
  · exact fun _ _ _ => rfl
  · exact (Reweighs.of_modify rfl rfl rfl (.inr rfl)).othersKept

/-- A command that goes to the splits. -/
theorem othersKept_splits (word : ResizeWord) (px ppt : ℤ) :
    t.OthersKept cfg (if word = .width ∨ word = .height
        then t.widthHeight rc c word.direction (toInt px) (ppt / 100)
        else t.tilingDirection rc c word.direction (toInt px) (toInt ppt)) sc k ↔
      t.SparesCommand cfg sc k c word px ppt := by
  have hvert {w : ResizeWord} (hword : w.direction.orientation = .vert) {second parent : ConId}
      (first : ConId) (hf : Found t c w.direction first second parent) :=
    noOther_of_found ht hlayout hk hc hf (.inl hword)
  cases word with
  | width => exact othersKept_widthHeight ht hlayout hk hreach hc (toInt px) _
  | left => exact othersKept_tilingDirection ht hlayout hk hreach hc .left (toInt px) (toInt ppt)
  | right => exact othersKept_tilingDirection ht hlayout hk hreach hc .right (toInt px) (toInt ppt)
  | height =>
    refine iff_of_true (Reweighs.othersKept ?_) trivial
    exact .widthHeight ht hreach (fun first second q _ hf => hvert (w := .height) rfl first hf) _ _
  | up =>
    refine iff_of_true (Reweighs.othersKept ?_) trivial
    exact .tilingDirection ht hreach (fun first second q _ hf => hvert (w := .up) rfl first hf) _ _
  | down =>
    refine iff_of_true (Reweighs.othersKept ?_) trivial
    exact .tilingDirection ht hreach (fun first second q _ hf => hvert (w := .down) rfl first hf) _ _

theorem othersKept_command (way : ResizeWay) (word : ResizeWord) (px ppt : ℤ) :
    t.OthersKept cfg (t.cmdResize cfg rc c way word px ppt) sc k ↔
      t.Spares cfg sc k c (.command way word px ppt) := by
  rw [cmdResize, Spares]
  generalize (if way = .shrink then -px else px) = px
  generalize (if way = .shrink then -ppt else ppt) = ppt
  cases hfloating : t.insideFloating c with
  | some floating =>
    exact iff_of_true (othersKept_resizeFloating floating) (.inl (Option.some_ne_none floating))
  | none =>
    rw [or_iff_right (not_not.mpr rfl)]
    dsimp only
    cases hhandled : t.scrollingResizeHandled cfg c word px ppt with
    | some t' =>
      refine iff_of_true (othersKept_handled ht hk hreach hc hhandled) (.inl ?_)
      exact resizesColumn_of_handled (hhandled.symm ▸ Option.some_ne_none t')
    | none =>
      refine (othersKept_splits ht hlayout hk hreach hc word px ppt).trans (iff_or_self.mpr fun h => ?_)
      -- what is about the column's own width gets here with a vertical word only
      by_cases hword : word = .height ∨ word = .up ∨ word = .down
      · rcases hword with rfl | rfl | rfl <;> trivial
      · exact absurd hhandled (handled_of_resizesColumn h hword)

/-- The width that a window is to have; the search has ended before it is known. -/
theorem othersKept_resizeSetTiling (isPpt : Bool) (targetSize : ℤ) :
    t.OthersKept cfg (t.resizeSetTiling rc c .left isPpt targetSize) sc k ↔
      (t.EndsAt c k .left true → t.LeavesOthers cfg sc k
        (if isPpt then targetSize / 100 - (t.con k).percent
          else toInt (targetSize - (t.con k).rect.width) / (t.con sc).rect.width)) := by
  by_cases hends : t.EndsAt c k .left true
  · have hsearch : t.resizeParticipants c .left true = (k, (t.resizeParticipants c .left true).2) :=
      Prod.ext hends.1 rfl
    have hself := resizeParticipants_self ht hreach hsearch
    have hkends : t.EndsAt k k .left true := by
      rw [EndsAt, hself]
      exact ⟨rfl, hends.2⟩
    have hkreach : t.Reach k := ht.reach_of_within hreach hc
    have hwide : t.rectSizeInOrientation sc = (t.con sc).rect.width := by
      rw [rectSizeInOrientation, Tree.orientation, hlayout, if_pos rfl]
    have hchange : t.changeOf sc
        (if isPpt then 0 else toInt (targetSize - (t.con k).rect.extent Direction.left.orientation))
        (if isPpt then targetSize / 100 - (t.con k).percent else 0) =
        if isPpt then targetSize / 100 - (t.con k).percent
          else toInt (targetSize - (t.con k).rect.width) / (t.con sc).rect.width := by
      rw [changeOf, hwide]
      cases isPpt
      · exact if_neg (not_not.mpr rfl)
      · rw [if_pos rfl, if_pos rfl, if_pos rfl]
        split
        · rfl
        next hzero => rw [not_not.mp hzero, Int.cast_zero, zero_div]
    rw [resizeSetTiling, hends.1, othersKept_widthHeight ht hlayout hk hkreach (.refl k), hchange]
    simp only [hkends, hends, true_implies]
  · refine iff_of_true (Reweighs.othersKept ?_) fun h => absurd h hends
    refine .resizeSetTiling ht hreach (fun first second q hsearch hf => ?_) isPpt targetSize
    refine noOther_of_found ht hlayout hk hc hf (.inr fun hfirst => hends ?_)
    rw [EndsAt, hsearch]
    exact ⟨hfirst, Option.some_ne_none second⟩

theorem othersKept_set (cwidth : ℤ) (widthPpt : Bool) (cheight : ℤ) (heightPpt : Bool) :
    t.OthersKept cfg (t.cmdResizeSet rc c cwidth widthPpt cheight heightPpt) sc k ↔
      t.Spares cfg sc k c (.set cwidth widthPpt cheight heightPpt) := by
  rw [cmdResizeSet, Spares]
  by_cases hnegative : cwidth < 0 ∨ cheight < 0
  · rw [if_pos hnegative]
    refine iff_of_true (fun _ _ _ => rfl) ?_
    exact hnegative.imp le_of_lt .inl
  obtain ⟨-, hheight⟩ := not_or.mp hnegative
  rw [if_neg hnegative]
  cases hfloating : t.insideFloating c with
  | some floating =>
    exact iff_of_true (othersKept_resizeFloating floating)
      (.inr (.inr (.inl (Option.some_ne_none floating))))
  | none =>
    dsimp only
    obtain ⟨s, hs⟩ : ∃ s, (if 0 < cwidth then t.resizeSetTiling rc c .left widthPpt cwidth else t) = s :=
      ⟨_, rfl⟩
    have hlinks : Links t s := by
      rw [← hs]
      split
      · exact links_resizeSetTiling _ _ _
      · exact .refl t
    have hstill : (s.con sc).layout = .scrolling := by
      rw [← hs, ← hlayout]
      split
      · exact (Reweighs.resizeSetTiling (S := fun _ => True) ht hreach
          (fun _ _ _ _ _ _ _ => trivial) widthPpt cwidth).layout sc
      · rfl
    have hvert : Reweighs (s.NoOther sc k) s
        (if 0 < cheight then s.resizeSetTiling rc c .down heightPpt cheight else s) := by
      split
      · refine .resizeSetTiling (ht.links hlinks) (hlinks.reach.mpr hreach) ?_ heightPpt cheight
        intro first second q _ hf
        refine noOther_of_found (ht.links hlinks) hstill ?_ (hlinks.within.mpr hc) hf (.inl rfl)
        rwa [hlinks.nodesHead]
      · exact .refl s
    rw [hs, hvert.othersKept_after (hlinks.nodesHead sc), ← hs]
    by_cases hwidth : 0 < cwidth
    · rw [if_pos hwidth, othersKept_resizeSetTiling ht hlayout hk hreach hc]
      simp only [not_le.mpr hwidth, hheight, ne_eq, not_true_eq_false, false_or]
    · rw [if_neg hwidth]
      exact iff_of_true (fun _ _ _ => rfl) (.inl (not_lt.mp hwidth))

end Column

/-- **The other columns keep their widths**: for every window of a column and every way of resizing it,
exactly where that is about the column's own width, or the search for a split does not end at the
column, or what is left to the others is as wide as what they have. -/
theorem othersKept_iff (cfg : Config) (rc : ResizeConfig) (t : Tree) (sc k c : ConId) (r : Resize)
    (ht : Rooted t) (hlayout : (t.con sc).layout = .scrolling) (hk : k ∈ (t.con sc).nodesHead)
    (hreach : t.Reach c) (hc : Descent.Within t.children k c) :
    t.OthersKept cfg (t.perform cfg rc c r) sc k ↔ t.Spares cfg sc k c r := by
  cases r with
  | command way word px ppt => exact othersKept_command ht hlayout hk hreach hc way word px ppt
  | set cwidth widthPpt cheight heightPpt =>
    exact othersKept_set ht hlayout hk hreach hc cwidth widthPpt cheight heightPpt
  | drag border drag => exact iff_of_true (othersKept_drag ht hlayout hk hreach hc border drag) trivial
  | cycle backwards => exact iff_of_true (othersKept_cycle ht hk hreach hc backwards) trivial

/-- A scrolling workspace with two columns, one of them with two windows above each other. -/
def twoColumns : Tree := ofList [
  { type := .root, nodesHead := [1], focusHead := [1] },
  { type := .output, layout := .output, parent := some 0, nodesHead := [2], focusHead := [2] },
  { layout := .splith, parent := some 1, nodesHead := [3], focusHead := [3] },
  { type := .workspace, layout := .scrolling, name := "1", fullscreenMode := .output, parent := some 2,
    rect := { width := 1000, height := 500 }, nodesHead := [4, 5], focusHead := [4, 5] },
  { layout := .splitv, parent := some 3, nodesHead := [6, 7], focusHead := [6, 7] },
  { layout := .splith, parent := some 3, window := some { id := 5 } },
  { layout := .splith, parent := some 4, percent := 1 / 2, window := some { id := 6 } },
  { layout := .splith, parent := some 4, percent := 1 / 2, window := some { id := 7 } }] (some 6)

theorem rooted_twoColumns : Rooted twoColumns := rooted_ofList (by decide +kernel) (by decide +kernel)

theorem reach_twoColumns : twoColumns.Reach 6 ∧ Descent.Within twoColumns.children 4 6 := by
  have ht := rooted_twoColumns
  have h₁ := ht.sits_of_mem (reach_croot : twoColumns.Reach 0) (c := 1) (by decide +kernel)
  have h₂ := ht.sits_of_mem h₁.1 (c := 2) (by decide +kernel)
  have h₃ := ht.sits_of_mem h₂.1 (c := 3) (by decide +kernel)
  have h₄ := ht.sits_of_mem h₃.1 (c := 4) (by decide +kernel)
  refine ⟨(ht.sits_of_mem h₄.1 (c := 6) (by decide +kernel)).1, ?_⟩
  exact ((Descent.Within.refl 4).tail (by decide +kernel)).within

/-- The column is made wider by a tenth of the viewport; the other one stays half as wide as that. -/
theorem othersKept_twoColumns :
    twoColumns.OthersKept {} (twoColumns.perform {} {} 6 (.command .grow .width 0 10)) 3 4 :=
  (othersKept_iff {} {} twoColumns 3 4 6 (.command .grow .width 0 10) rooted_twoColumns rfl
    (by decide +kernel) reach_twoColumns.1 reach_twoColumns.2).mpr
    (.inr (.inl ⟨4, by decide +kernel, 3, by decide +kernel, by decide +kernel⟩))

/-- `resize set 30 ppt 0` in the first of two columns, which gives the window's column three tenths more
than half, and the other one the rest. -/
theorem not_othersKept_set :
    ¬ ∀ (t : Tree) (sc k c : ConId) (r : Resize), Rooted t → (t.con sc).layout = .scrolling →
      k ∈ (t.con sc).nodesHead → t.Reach c → Descent.Within t.children k c →
        t.OthersKept {} (t.perform {} {} c r) sc k := by
  intro h
  have hkept := h twoColumns 3 4 6 (.set 30 true 0 false) rooted_twoColumns rfl (by decide +kernel)
    reach_twoColumns.1 reach_twoColumns.2 5 (by decide +kernel) (by decide)
  exact absurd hkept (by decide +kernel)

end Tree

end I3
