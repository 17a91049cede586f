import I3Aiwr.Lib.Rounds
import I3Aiwr.Parser.Variables
import I3Aiwr.Tree.Encapsulate
import I3Aiwr.Tree.Next

/-!
# Going through a list of layouts

`con_toggle_layout` in `src/src/con.c` reads the layout of the parent of a container, or of a workspace
itself, looks for it on a list of words, and passes the layout that comes next to `con_set_layout`. That puts
the tiling children of a workspace into a new container, which gets the layout; the workspace keeps the old
one, and the next call reads that again.

## Main definitions

* `layoutFromName`
* `Tree.toggledLayout`, `Tree.conToggleLayout`
* `Tree.listedLayouts`: the layouts that the words stand for
* `Tree.Toggled`: a tiling container in a split container
* `Tree.StaysIn`: a tiling child of the workspace that `tree_flatten` is not going to remove
* `Tree.GoesRoundLayouts`: call after call goes round the list

## Main results

* `toggledLayout_eq`: what comes next on the list
* `parent_treeFlattenN`: flattening leaves a container in its place if none on the way down is redundant
* `toggled_conSetLayout`, `toggled_wrapChildren`: a call for a container in a split container, or in a workspace
* `readLayout_workspace`: a call for a workspace with tiling children
* `goesRoundLayouts_iff`
* `not_goesRoundLayouts_workspace`
-/

namespace I3

/-- `layout_from_name` -/
def layoutFromName (layoutStr : List Char) : Option Layout :=
  if layoutStr = "default".toList then some .default
  else if Parser.sameCase layoutStr "stacked".toList ∨ Parser.sameCase layoutStr "stacking".toList then
    some .stacked
  else if Parser.sameCase layoutStr "tabbed".toList then some .tabbed
  else if Parser.sameCase layoutStr "scrolling".toList then some .scrolling
  else if Parser.sameCase layoutStr "splitv".toList then some .splitv
  else if Parser.sameCase layoutStr "splith".toList then some .splith
  else none

namespace Tree

/-! ### The list -/

/-- The words between blanks, as `strtok` finds them. -/
def layoutWords (toggleMode : List Char) : List (List Char) :=
  (toggleMode.splitOnP (· = ' ')).filter (· ≠ [])

/-- The layout that a word stands for, `none` if it is skipped. -/
def wordLayout (layout lastSplitLayout : Layout) (word : List Char) : Option Layout :=
  if Parser.sameCase word "split".toList then
    some (if layout ≠ .splith ∧ layout ≠ .splitv then
        -- in case `last_split_layout` was not initialized
        if lastSplitLayout = .default then .splith else lastSplitLayout
      else if layout = .splith then .splitv else .splith)
  else (layoutFromName word).filter (· ≠ .default)

/-- The loop over the words, with `new_layout` and `current_layout_found`. -/
def toggleLoop (layout lastSplitLayout : Layout) : List (List Char) → Layout → Bool → Layout
  | [], newLayout, _ => newLayout
  | word :: words, newLayout, found =>
    match wordLayout layout lastSplitLayout word with
    | none => toggleLoop layout lastSplitLayout words newLayout found
    | some l =>
      if found then l
      else toggleLoop layout lastSplitLayout words (if newLayout = .default then l else newLayout) (layout = l)

def toggledLayout (layout lastSplitLayout : Layout) (toggleMode : List Char) : Layout :=
  toggleLoop layout lastSplitLayout (layoutWords toggleMode) .default false

variable (cfg : Config) (t : Tree)

/-- The container whose layout is meant. -/
def layoutCon (con : ConId) : Option ConId :=
  if (t.con con).type = .workspace then some con else (t.con con).parent

/-- `con_toggle_layout` -/
def conToggleLayout (con : ConId) (toggleMode : List Char) : Tree :=
  match t.layoutCon con with
  | none => t
  | some parent =>
    let layout := (t.con parent).layout
    if Parser.sameCase toggleMode "split".toList ∨ ' ' ∈ toggleMode then
      let newLayout := toggledLayout layout (t.con parent).lastSplitLayout toggleMode
      if newLayout ≠ .default then t.conSetLayout cfg con newLayout else t
    else if Parser.sameCase toggleMode "all".toList ∨ Parser.sameCase toggleMode "default".toList then
      if layout = .stacked then t.conSetLayout cfg con .tabbed
      else if layout = .tabbed then
        if Parser.sameCase toggleMode "all".toList then t.conSetLayout cfg con .splith
        else t.conSetLayout cfg con (t.con parent).lastSplitLayout
      else if layout = .splith ∨ layout = .splitv then
        if Parser.sameCase toggleMode "all".toList ∧ layout = .splith then t.conSetLayout cfg con .splitv
        else t.conSetLayout cfg con .stacked
      else t
    else t

/-- The layouts that the words of the list stand for. -/
def listedLayouts (toggleMode : List Char) : List Layout :=
  (layoutWords toggleMode).filterMap fun word => (layoutFromName word).filter (· ≠ .default)

/-- The layout that the command reads. -/
def readLayout (con : ConId) : Option Layout := (t.layoutCon con).map fun c => (t.con c).layout

variable {cfg t} {t' : Tree} {c con d p q ws x y : ConId} {layout last l : Layout} {toggleMode : List Char}
  {words : List (List Char)} {found : Bool}

/-! ### What comes next on the list -/

theorem next_of_notMem {α : Type*} [DecidableEq α] {a : α} {as : List α} (h : a ∉ as) :
    Queue.next a as = none := by
  induction as with
  | nil => rfl
  | cons b as ih =>
    obtain ⟨hb, has⟩ := not_or.mp (List.mem_cons.not.mp h)
    rw [Queue.next, if_neg (Ne.symm hb), ih has]

/-- The loop goes through the layouts that the words stand for. -/
theorem toggleLoop_eq (hplain : ∀ word ∈ words, ¬ Parser.sameCase word "split".toList) (newLayout : Layout) :
    toggleLoop layout last words newLayout found =
      let ls := words.filterMap fun word => (layoutFromName word).filter (· ≠ .default)
      let first := if newLayout = .default then ls.head?.getD .default else newLayout
      (if found then ls.head? else Queue.next layout ls).getD first := by
  induction words generalizing newLayout found with
  | nil => cases found <;> by_cases h : newLayout = .default <;> simp [toggleLoop, Queue.next, h]
  | cons word words ih =>
    have hword : wordLayout layout last word = (layoutFromName word).filter (· ≠ .default) :=
      if_neg (hplain word List.mem_cons_self)
    have hplain' : ∀ w ∈ words, ¬ Parser.sameCase w "split".toList := fun w hw =>
      hplain w (List.mem_cons_of_mem word hw)
    rw [toggleLoop, hword, List.filterMap_cons]
    cases hl : (layoutFromName word).filter (· ≠ .default) with
    | none => exact ih hplain' newLayout
    | some l =>
      have hne : l ≠ .default := by simpa using (Option.mem_filter_iff.mp hl).2
      cases found with
      | true => rfl
      | false =>
        dsimp only
        rw [if_neg Bool.false_ne_true, if_neg Bool.false_ne_true, ih hplain', Queue.next]
        by_cases hcur : layout = l
        · by_cases hnew : newLayout = .default <;> simp [hcur, hnew, hne]
        · by_cases hnew : newLayout = .default <;> simp [hcur, Ne.symm hcur, hnew, hne]

/-- **What comes next on the list**: the layout after the current one, or else the first one. -/
theorem toggledLayout_eq (hplain : ∀ word ∈ layoutWords toggleMode, ¬ Parser.sameCase word "split".toList)
    (hnodup : (listedLayouts toggleMode).Nodup) (hne : listedLayouts toggleMode ≠ []) :
    (listedLayouts toggleMode)[Rounds.start (listedLayouts toggleMode) layout %
      (listedLayouts toggleMode).length]? = some (toggledLayout layout last toggleMode) := by
  rw [toggledLayout, toggleLoop_eq hplain]
  change _ = some ((Queue.next layout (listedLayouts toggleMode)).getD
    ((listedLayouts toggleMode).head?.getD .default))
  generalize listedLayouts toggleMode = ls at hnodup hne
  by_cases hmem : layout ∈ ls
  · obtain ⟨xs, ys, rfl⟩ := List.append_of_mem hmem
    have hnot : layout ∉ xs := fun hxs => List.disjoint_of_nodup_append hnodup hxs List.mem_cons_self
    have hidx : (xs ++ layout :: ys).idxOf layout = xs.length := by
      rw [List.idxOf_append_of_notMem hnot, List.idxOf_cons_self, Nat.add_zero]
    have hround := Rounds.head?_or_head? (xs ++ [layout]) ys
    rw [List.append_assoc, List.singleton_append, List.length_append, List.length_singleton] at hround
    rw [Rounds.start, if_pos hmem, hidx, ← hround, Queue.next_append_self hnot]
    cases ys <;> cases xs <;> simp
  · have hnone : Queue.next layout ls = none := next_of_notMem hmem
    obtain ⟨l, ls, rfl⟩ := List.exists_cons_of_ne_nil hne
    rw [Rounds.start, if_neg hmem, Nat.zero_mod, hnone]
    rfl

/-! ### Flattening around a container -/

/-- The containers from `y` down to `x` do not float, and none is redundant. -/
def Firm (t : Tree) (y x : ConId) : Prop :=
  ∀ z, Descent.Within t.children y z → Descent.Within t.children z x →
    (t.con z).type ≠ .floatingCon ∧ t.redundant z = none

/-- Flattening beside the way down leaves the way. -/
theorem firm_treeFlattenN {z : ConId} (n : ℕ) (ht : Healthy t) (hp : t.Reach p) (hz : z ∈ t.children p)
    (hy : y ∈ t.children p) (hzx : ¬ Descent.Within t.children z x) (hfirm : t.Firm y x) :
    (treeFlattenN cfg n t z).Firm y x := by
  have hr := ht.rooted
  have haround := (@treeFlattenN_spec cfg t z n ht (hp.tail hz).within).2 p hz
  have hyreach := (hp.tail hy).within
  intro w hyw hwx
  have hyw' := haround.flattens.calm.within_of_nextCon haround.nextCon (hr.lt_nextCon hyreach) hyw
  have hwx' := haround.flattens.calm.within_of_nextCon haround.nextCon
    (hr.lt_nextCon (hyreach.trans hyw')) hwx
  have hpw : Descent.Below t.children p w := (Descent.Below.single hy).trans_within hyw'
  have hzw : ¬ Descent.Within t.children z w := fun h => hzx (h.trans hwx')
  rw [haround.alters.type, haround.alters.redundant (fun h => h.elim (hr.acyclic.ne hpw) hzw) hzw fun d hd => ?_]
  · exact hfirm w hyw' hwx'
  · have hdw : d ∈ t.children w := List.mem_append_left _ hd
    rintro (rfl | hzd)
    · exact hr.acyclic.not_within (.single hdw) hpw.within
    · rcases Descent.within_iff.mp hzd with rfl | hzd
      · -- it would be below two containers
        have heq : w = p := Option.some_inj.mp ((hr.parent w d hdw).symm.trans (hr.parent p d hz))
        exact hr.acyclic.ne hpw heq
      · exact hzw (Descent.within_parent hr.parent hzd (hr.parent w d hdw))

/-- The children of `y` one after another. -/
theorem parent_foldl {n : ℕ}
    (ih : ∀ {t : Tree} {z : ConId}, Healthy t → t.Reach z → Descent.Within t.children z x → t.Firm z x →
      (treeFlattenN cfg n t z).Reach x ∧ ((treeFlattenN cfg n t z).con x).parent = (t.con x).parent)
    {l : List ConId} (ht : Healthy t) (hy : t.Reach y) (hx : t.Reach x) (hl : l ⊆ t.children y)
    (hnodup : l.Nodup) (hfirm : ∀ z ∈ l, Descent.Within t.children z x → t.Firm z x) :
    (l.foldl (treeFlattenN cfg n) t).Reach x ∧
      ((l.foldl (treeFlattenN cfg n) t).con x).parent = (t.con x).parent := by
  induction l generalizing t with
  | nil => exact ⟨hx, rfl⟩
  | cons z l ihl =>
    have hr := ht.rooted
    obtain ⟨hzl, hnodup⟩ := List.nodup_cons.mp hnodup
    have hz : z ∈ t.children y := hl List.mem_cons_self
    have hlc : ∀ w ∈ l, w ∈ t.children y := fun w hw => hl (List.mem_cons_of_mem z hw)
    have hzreach := (hy.tail hz).within
    have haround := (@treeFlattenN_spec cfg t z n ht hzreach).2 y hz
    have hflat := haround.flattens
    have hback : ∀ w ∈ l, Descent.Within (treeFlattenN cfg n t z).children w x → Descent.Within t.children w x :=
      fun w hw => hflat.calm.within_of_nextCon haround.nextCon (hr.bounded y w (hlc w hw))
    have hstep : (treeFlattenN cfg n t z).Reach x ∧ ((treeFlattenN cfg n t z).con x).parent = (t.con x).parent ∧
        ∀ w ∈ l, Descent.Within (treeFlattenN cfg n t z).children w x → (treeFlattenN cfg n t z).Firm w x := by
      by_cases hzx : Descent.Within t.children z x
      · obtain ⟨hreach, hparent⟩ := ih ht hzreach hzx (hfirm z List.mem_cons_self hzx)
        refine ⟨hreach, hparent, fun w hw hwx => ?_⟩
        -- only one of the children is above `x`
        have heq := hr.acyclic.eq_of_within hr.parent (hlc w hw) hz (hback w hw hwx) hzx
        exact absurd (heq ▸ hw) hzl
      · refine ⟨hflat.reach hx hzx, haround.alters.parent x hzx, fun w hw hwx => ?_⟩
        exact firm_treeFlattenN n ht hy hz (hlc w hw) hzx
          (hfirm w (List.mem_cons_of_mem z hw) (hback w hw hwx))
    obtain ⟨hreach, hparent, hfirm'⟩ := hstep
    have hl' : l ⊆ (treeFlattenN cfg n t z).children y := fun w hw =>
      hflat.kept y w (hlc w hw) (hr.acyclic.separate hr.parent (hlc w hw) hz (fun heq => hzl (heq ▸ hw)) (.refl _))
    obtain ⟨hreach', hparent'⟩ := ihl hflat.calm.healthy
      (hflat.reach hy (hr.acyclic.not_within (.single hz))) hreach hl' hnodup hfirm'
    exact ⟨hreach', hparent'.trans hparent⟩

/-- **Flattening leaves a container in its place** if nothing on the way down to it floats or is redundant. -/
theorem parent_treeFlattenN (n : ℕ) (ht : Healthy t) (hy : t.Reach y) (hyx : Descent.Within t.children y x)
    (hfirm : t.Firm y x) :
    (treeFlattenN cfg n t y).Reach x ∧ ((treeFlattenN cfg n t y).con x).parent = (t.con x).parent := by
  induction n generalizing t y with
  | zero => exact ⟨hy.trans hyx, rfl⟩
  | succ n ih =>
    have hr := ht.rooted
    have hstep : ∀ {t c p}, Healthy t → t.Reach p → c ∈ t.children p →
        Around t (treeFlattenN cfg n t c) c p := fun ht hp hc =>
      (treeFlattenN_spec n ht (hp.tail hc).within).2 _ hc
    obtain ⟨hinside, hyreach⟩ := inside_foldl hstep ht hy (List.subset_append_left _ _) (hr.nodupNodes y)
    obtain ⟨hreach, hparent⟩ := parent_foldl ih ht hy (hy.trans hyx) (List.subset_append_left _ _)
      (hr.nodupNodes y) fun z hz hzx w hzw => hfirm w (Descent.Within.trans
        (Descent.Below.single (List.mem_append_left _ hz)).within hzw)
    unfold treeFlattenN
    rw [(hfirm y (.refl y) hyx).2]
    dsimp only
    generalize (t.con y).nodesHead.foldl (treeFlattenN cfg n) t = t₁ at hinside hyreach hreach hparent ⊢
    have hr₁ := hinside.flattens.calm.healthy.rooted
    have hfloating : ∀ z ∈ (t₁.con y).floatingHead, Descent.Within t₁.children z x → t₁.Firm z x := by
      -- what floats is not above `x`
      intro z hz hzx
      have hzy : z ∈ t₁.children y := List.mem_append_right _ hz
      have hzlt : z < t.nextCon := hinside.nextCon ▸ hr₁.bounded y z hzy
      have hyz := hinside.flattens.calm.within_of_nextCon hinside.nextCon (hr.lt_nextCon hy)
        (Descent.Below.single hzy).within
      have hzx' := hinside.flattens.calm.within_of_nextCon hinside.nextCon hzlt hzx
      have htype := hr₁.typeFloating y z hz
      rw [hinside.alters.type] at htype
      exact absurd htype (hfirm z hyz hzx').1
    obtain ⟨hreach', hparent'⟩ := parent_foldl ih hinside.flattens.calm.healthy hyreach hreach
      (List.subset_append_right _ _) (hr₁.nodupFloating y) hfloating
    exact ⟨hreach', hparent'.trans hparent⟩

/-! ### A container in a split container -/

/-- The container is on the workspace in a split container, and nothing above it floats. -/
structure Toggled (t : Tree) (ws con : ConId) : Prop where
  healthy : Healthy t
  reach : t.Reach ws
  type : (t.con ws).type = .workspace
  plain : ∀ x, Descent.Below t.children ws x → Descent.Within t.children x con → (t.con x).type = .con
  split : ∃ p, con ∈ t.children p ∧ Descent.Below t.children ws p

theorem links_assignLayout (t : Tree) (c : ConId) (layout : Layout) : Links t (t.assignLayout c layout) := by
  rw [assignLayout]
  exact links_setLayout ..

theorem assignLayout_layout (h : layout ≠ .default) : ((t.assignLayout c layout).con c).layout = layout := by
  simp [assignLayout, setLayout, h]

namespace Toggled

theorem links (h : Toggled t ws con) (hl : Links t t') : Toggled t' ws con where
  healthy := h.healthy.links hl
  reach := hl.reach.mpr h.reach
  type := (hl.type ws).trans h.type
  plain x hx hxc := by
    rw [hl.type]
    exact h.plain x (hx.mono fun _ _ => hl.mem_children.mp) (hl.within.mp hxc)
  split := by
    obtain ⟨p, hp, hwp⟩ := h.split
    exact ⟨p, hl.mem_children.mpr hp, hwp.mono fun _ _ => hl.mem_children.mpr⟩

section Split

variable (h : Toggled t ws con) (hp : con ∈ t.children p) (hwp : Descent.Below t.children ws p)
include h hp hwp

theorem type_con : (t.con con).type = .con := h.plain con (hwp.tail hp) (.refl con)

theorem type_split : (t.con p).type = .con := h.plain p hwp (Descent.Below.single hp).within

theorem layoutCon : t.layoutCon con = some p := by
  rw [Tree.layoutCon, if_neg (by simp [h.type_con hp hwp]), h.healthy.rooted.parent p con hp]

/-- The container tiles in the split container. -/
theorem mem_nodesHead : con ∈ (t.con p).nodesHead := by
  refine (List.mem_append.mp hp).resolve_right fun hf => ?_
  have htype := h.healthy.rooted.typeFloating p con hf
  rw [h.type_con hp hwp] at htype
  cases htype

/-- The split container has no floating children. -/
theorem children_split : t.children p = (t.con p).nodesHead := by
  have hfloating : (t.con p).floatingHead = [] := by
    cases hf : (t.con p).floatingHead with
    | nil => rfl
    | cons y l =>
      have htype := h.healthy.layered.floating p y (by simp [hf])
      rw [h.type_split hp hwp] at htype
      cases htype
  rw [children, hfloating, List.append_nil]

/-- Closing the middle one, after the container was attached to the outer one. -/
theorem toggled_closed {s : Tree} (hmem : p ∈ t.children q) (hwq : Descent.Below t.children ws q)
    (hnodes : (t.con p).nodesHead = [con]) (hcalm : Calm t s) (hnext : s.nextCon = t.nextCon)
    (hchildren : ∀ a w, w ∈ s.children a ↔ (w ∈ t.children a ∧ w ≠ con) ∨ (a = q ∧ w = con)) :
    Toggled (s.treeCloseInternal cfg p .dontKillWindow true) ws con ∧
      con ∈ (s.treeCloseInternal cfg p .dontKillWindow true).children q ∧
      Descent.Below (s.treeCloseInternal cfg p .dontKillWindow true).children ws q := by
  have hr := h.healthy.rooted
  have hqp : q ≠ p := hr.acyclic.ne (.single hmem) |>.symm
  have hqcon : Descent.Below t.children q con := (Descent.Below.single hmem).tail hp
  have hpcon : p ≠ con := (hr.acyclic.ne (.single hp)).symm
  -- nothing is left in the middle one
  have hempty : ∀ w, w ∉ s.children p := by
    intro w hw
    rcases (hchildren p w).mp hw with ⟨hw, hne⟩ | ⟨heq, -⟩
    · rw [h.children_split hp hwp, hnodes, List.mem_singleton] at hw
      exact hne hw
    · exact hqp heq.symm
  have hsr := hcalm.healthy.rooted
  have hps : p ∈ s.children q := (hchildren q p).mpr (.inl ⟨hmem, hpcon⟩)
  -- the way down to the outer one
  have hdown : ∀ {a b}, Descent.Within t.children a b → Descent.Within t.children b q →
      Descent.Within s.children a b := by
    intro a b hab hbq
    refine Descent.Within.transfer hab fun v w _ hw hwb => (hchildren v w).mpr (.inl ⟨hw, ?_⟩)
    rintro rfl
    exact hr.acyclic.not_within hqcon (hwb.trans hbq)
  have hsq : s.Reach q := by
    rw [Reach, hcalm.croot]
    exact hdown (h.reach.trans hwq.within) (.refl q)
  have hsits : s.Sits p := hsr.sits_of_mem hsq hps
  obtain ⟨hkeeps, -, hclosed⟩ := @keeps_treeCloseInternal cfg s p hcalm.healthy hsits .dontKillWindow
  have hdoomed : ∀ w, Descent.Within s.children p w → w = p := by
    intro w hw
    rcases Descent.within_iff.mp hw with heq | hbelow
    · exact heq
    · obtain ⟨d, hd, -⟩ := Descent.below_iff_head.mp hbelow
      exact absurd hd (hempty d)
  have hall := hcalm.trans hclosed
  generalize s.treeCloseInternal cfg p .dontKillWindow true = u at hkeeps hclosed hall ⊢
  have hkept : ∀ a, ∀ w ∈ s.children a, w ≠ p → w ∈ u.children a := fun a w hw hne =>
    hkeeps.kept a w hw fun hpw => hne (hdoomed w hpw)
  have hup : ∀ {a b}, Descent.Within s.children a b → Descent.Within s.children b q →
      Descent.Within u.children a b := by
    intro a b hab hbq
    refine Descent.Within.transfer hab fun v w _ hw hwb => hkept v w hw ?_
    rintro rfl
    exact hsr.acyclic.not_within (.single hps) (hwb.trans hbq)
  have hconq : con ∈ u.children q := hkept q con ((hchildren q con).mpr (.inr ⟨rfl, rfl⟩)) (Ne.symm hpcon)
  have hwq' : Descent.Below u.children ws q := by
    refine (Descent.within_iff.mp (hup (hdown hwq.within (.refl q)) (.refl q))).resolve_left ?_
    exact hr.acyclic.ne hwq
  refine ⟨⟨hall.healthy, ?_, ?_, ?_, q, hconq, hwq'⟩, hconq, hwq'⟩
  · rw [Reach, hall.croot]
    exact hup (hdown h.reach hwq.within) (hdown hwq.within (.refl q))
  · rw [hall.type ws (hr.lt_nextCon h.reach), h.type]
  · intro x hx hxcon
    have hlt : ∀ {a b}, Descent.Below u.children a b → b < t.nextCon := by
      intro a b hab
      obtain ⟨v, -, hv⟩ := Descent.below_iff_exists.mp hab
      exact hnext ▸ hsr.bounded v b (hkeeps.subset v hv)
    have hwscon : Descent.Below u.children ws con := hwq'.tail hconq
    rw [hall.type x (hlt hx)]
    exact h.plain x (hall.below ws (hr.lt_nextCon h.reach) x (hlt hx) hx)
      (hall.within (hlt hx) (hlt hwscon) hxcon)

/-- **The middle one of three containers is closed**, and the container is in the outer one. -/
theorem closeMiddle :
    Toggled (t.closeMiddle cfg p).1 ws con ∧ con ∈ (t.closeMiddle cfg p).1.children (t.closeMiddle cfg p).2 ∧
      Descent.Below (t.closeMiddle cfg p).1.children ws (t.closeMiddle cfg p).2 := by
  have hr := h.healthy.rooted
  unfold Tree.closeMiddle
  split
  · next pp child hpp hnodes =>
    split
    · next hif =>
      obtain ⟨-, hppws, -⟩ := hif
      obtain rfl : con = child := by simpa [hnodes] using h.mem_nodesHead hp hwp
      have hpreach : t.Reach p := h.reach.trans hwp.within
      have hmem : p ∈ t.children pp := hr.mem_children_of_parent hpreach hpp
      have hconreach : t.Reach con := (hpreach.tail hp).within
      -- the outer one is on the workspace too
      have hwpp : Descent.Below t.children ws pp := by
        refine (Descent.within_iff.mp (Descent.within_parent hr.parent hwp hpp)).resolve_left ?_
        rintro rfl
        exact hppws h.type
      have hppcon : Descent.Below t.children pp con := (Descent.Below.single hmem).tail hp
      have hpptype : (t.con pp).type = .con := h.plain pp hwpp hppcon.within
      have hcontype := h.type_con hp hwp
      have hattach := @conAttach_split cfg (t.conDetach con) con pp (by rw [conDetach_type, hpptype])
        (by rw [conDetach_type, hcontype]; simp) (by rw [conDetach_type, hcontype]; simp)
      have hattaches : Attaches (t.conDetach con) ((t.conDetach con).conAttach cfg con pp true) con pp := by
        rw [hattach]
        exact attaches_editNodes _ (by rw [conDetach_type, hcontype]; simp) (List.perm_append_singleton _ _)
      have hcalm := calm_of_attaches h.healthy hconreach hattaches hppcon (by simp [hcontype])
      have hlinks : ∀ last, Links ((t.conDetach con).conAttach cfg con pp true)
          (((t.conDetach con).conAttach cfg con pp true).setLastSplitLayout pp last) := fun last =>
        .of_modify _ pp _ rfl rfl rfl rfl rfl rfl rfl
      dsimp only
      generalize (((t.conDetach con).conAttach cfg con pp true).con p).lastSplitLayout = last
      have hcalm' := hcalm.trans_links (hlinks last)
      have hnext :
          (((t.conDetach con).conAttach cfg con pp true).setLastSplitLayout pp last).nextCon = t.nextCon := by
        rw [(hlinks last).nextCon, hattaches.nextCon, conDetach_nextCon]
      have hchildren : ∀ q w,
          w ∈ (((t.conDetach con).conAttach cfg con pp true).setLastSplitLayout pp last).children q ↔
            (w ∈ t.children q ∧ w ≠ con) ∨ (q = pp ∧ w = con) := by
        intro q w
        rw [(hlinks last).mem_children, hattaches.mem_children, hr.mem_children_conDetach]
      generalize ((t.conDetach con).conAttach cfg con pp true).setLastSplitLayout pp last = s
        at hchildren hcalm' hnext
      exact toggled_closed h hp hwp hmem hwpp hnodes hcalm' hnext hchildren
    · exact ⟨h, hp, hwp⟩
  · exact ⟨h, hp, hwp⟩

end Split

end Toggled

/-- **A call for a container in a split container**: it stays in one, which has the new layout. -/
theorem toggled_conSetLayout (h : Toggled t ws con) (hne : layout ≠ .default) :
    Toggled (t.conSetLayout cfg con layout) ws con ∧
      (t.conSetLayout cfg con layout).readLayout con = some layout := by
  obtain ⟨p, hp, hwp⟩ := h.split
  have hcon : (if (t.con con).type = .workspace then some con else (t.con con).parent) = some p :=
    h.layoutCon hp hwp
  have hl := links_fillLastSplit t p
  have hfilled := h.links hl
  have hp' : con ∈ (t.fillLastSplit p).children p := hl.mem_children.mpr hp
  have hwp' : Descent.Below (t.fillLastSplit p).children ws p := hwp.mono fun _ _ => hl.mem_children.mpr
  obtain ⟨hclosed, hmem, hbelow⟩ := @Toggled.closeMiddle cfg _ con p ws hfilled hp' hwp'
  rw [conSetLayout, hcon]
  dsimp only
  rw [if_neg (by simp [hfilled.type_split hp' hwp'])]
  generalize (t.fillLastSplit p).closeMiddle cfg p = r at hclosed hmem hbelow
  obtain ⟨u, q⟩ := r
  have hl' := links_assignLayout u q layout
  have hlast := hclosed.links hl'
  refine ⟨hlast, ?_⟩
  rw [readLayout, hlast.layoutCon (hl'.mem_children.mpr hmem) (hbelow.mono fun _ _ => hl'.mem_children.mpr),
    Option.map_some, assignLayout_layout hne]

/-! ### A workspace -/

/-- An empty workspace gets the layout itself. -/
theorem readLayout_empty (htype : (t.con ws).type = .workspace) (hnil : (t.con ws).nodesHead = [])
    (hne : layout ≠ .default) :
    ((t.conSetLayout cfg ws layout).con ws).type = .workspace ∧
      ((t.conSetLayout cfg ws layout).con ws).nodesHead = [] ∧
      Links t (t.conSetLayout cfg ws layout) ∧ (t.conSetLayout cfg ws layout).readLayout ws = some layout := by
  have hl := links_fillLastSplit t ws
  have hnum : (t.fillLastSplit ws).numChildren ws = 0 := by rw [numChildren, hl.nodesHead, hnil, List.length_nil]
  have hset : t.conSetLayout cfg ws layout = (((t.fillLastSplit ws).setWorkspaceLayout ws
      (if layout = .stacked ∨ layout = .tabbed ∨ layout = .scrolling then layout else .default)).setLayout ws
        layout).assignLayout ws layout := by
    rw [conSetLayout, if_pos htype]
    dsimp only
    rw [if_pos ((hl.type ws).trans htype), if_pos hnum]
  have hlinks : Links t (t.conSetLayout cfg ws layout) := by
    rw [hset]
    have hws : ∀ l, Links (t.fillLastSplit ws) ((t.fillLastSplit ws).setWorkspaceLayout ws l) := fun l =>
      .of_modify _ ws _ rfl rfl rfl rfl rfl rfl rfl
    exact ((hl.trans (hws _)).trans (links_setLayout _ ws layout)).trans (links_assignLayout _ ws layout)
  have htype' := (hlinks.type ws).trans htype
  refine ⟨htype', (hlinks.nodesHead ws).trans hnil, hlinks, ?_⟩
  rw [readLayout, Tree.layoutCon, if_pos htype', hset, Option.map_some, assignLayout_layout hne]

/-! ### A container in a workspace -/

/-- `con_orientation` of a container with the layout. -/
def layoutOrientation : Layout → Option Orientation
  | .splitv | .stacked => some .vert
  | .splith | .tabbed | .scrolling => some .horiz
  | .default | .dockarea | .output => none

theorem orientation_eq (t : Tree) (c : ConId) : t.orientation c = layoutOrientation (t.con c).layout := by
  rw [Tree.orientation]
  cases (t.con c).layout <;> rfl

/-- Two splits, the outer one with only the inner one in it, are redundant in a parent with the layout. -/
def RedundantSplits (t : Tree) (parent outer : Layout) (inner : ConId) : Prop :=
  t.isSplit inner = true ∧ (outer = .splith ∨ outer = .splitv) ∧
    ((t.con inner).layout = .splith ∨ (t.con inner).layout = .splitv) ∧
    layoutOrientation outer ≠ layoutOrientation (t.con inner).layout ∧
    layoutOrientation (t.con inner).layout = layoutOrientation parent

instance (t : Tree) (parent outer : Layout) (inner : ConId) : Decidable (t.RedundantSplits parent outer inner) :=
  inferInstanceAs (Decidable (_ ∧ _ ∧ _ ∧ _ ∧ _))

/-- The container is not part of a redundant pair when the children of the workspace are in a new container
with the layout. -/
structure StaysIn (t : Tree) (ws con : ConId) (layout : Layout) : Prop where
  outer : (t.con ws).nodesHead = [con] → ¬ t.RedundantSplits (t.con ws).layout layout con
  inner : ∀ d, (t.con con).nodesHead = [d] → (t.con con).window = none →
    ¬ t.RedundantSplits layout (t.con con).layout d

theorem redundant_eq_none (h : ∀ o d, (t.con c).parent = some o → (t.con c).nodesHead = [d] →
    (t.con c).window = none → ¬ t.RedundantSplits (t.con o).layout (t.con c).layout d) : t.redundant c = none := by
  unfold Tree.redundant
  split
  · next o d ho hd =>
    refine if_neg fun hif => ?_
    obtain ⟨-, -, hwindow, -, hsplit, houter, hinner, hne, heq⟩ := hif
    rw [orientation_eq, orientation_eq] at hne heq
    exact h o d ho hd hwindow ⟨hsplit, houter, hinner, hne, heq⟩
  · rfl

section Wrap

variable (hw : Wrappable t ws) (habove : ∀ a, Descent.Below t.children a ws → t.Upper a)
  (hcon : con ∈ (t.con ws).nodesHead) (hstays : t.StaysIn ws con layout)
include hw habove hcon hstays

/-- Nothing is redundant on the way down to the container in the new container. -/
theorem firm_wrapChildren : (t.wrapChildren cfg ws layout).Firm (t.wrapChildren cfg ws layout).croot con := by
  have hwraps := @wraps_wrapChildren cfg t ws layout hw
  generalize t.wrapChildren cfg ws layout = u at hwraps
  have hr := hwraps.healthy.rooted
  have hmem := hwraps.mem_new hcon
  have hconlt : con ≠ t.nextCon := (hw.healthy.rooted.bounded ws con (List.mem_append_left _ hcon)).ne
  have hconws : con ≠ ws := hw.healthy.rooted.acyclic.ne (.single (List.mem_append_left _ hcon))
  have hnodes : (u.con con).nodesHead = (t.con con).nodesHead := hwraps.nodesHead con hconlt hconws
  have hsplits : ∀ {parent outer d}, d ≠ t.nextCon → d ≠ ws → u.RedundantSplits parent outer d →
      t.RedundantSplits parent outer d := by
    intro parent outer d hd hdws h
    rw [RedundantSplits, Tree.isSplit, isLeaf, hwraps.layout d hd, hwraps.nodesHead d hd hdws] at h
    exact h
  intro z _ hz
  rcases Descent.within_iff.mp hz with rfl | hz
  · refine ⟨?_, redundant_eq_none fun o d ho hd hwindow h => ?_⟩
    · rw [hwraps.type con hconlt, (hw.plain con hcon).1]
      rintro ⟨⟩
    · obtain rfl : t.nextCon = o := Option.some_inj.mp ((hr.parent _ _ hmem).symm.trans ho)
      rw [hnodes] at hd
      have hdcon : Descent.Below t.children con d := .single (List.mem_append_left _ (by simp [hd]))
      have hdws : Descent.Below t.children ws d :=
        (Descent.Below.single (List.mem_append_left _ hcon)).trans hdcon
      have hdlt : d ≠ t.nextCon := (hw.healthy.rooted.lt_nextCon (hw.reach.trans hdws.within)).ne
      rw [hwraps.layoutNew, hwraps.layout con hconlt] at h
      rw [hwraps.window con hconlt] at hwindow
      exact hstays.inner d hd hwindow (hsplits hdlt (hw.healthy.rooted.acyclic.ne hdws) h)
  · rcases Descent.within_iff.mp (Descent.within_parent hr.parent hz (hr.parent _ _ hmem)) with rfl | hz
    · refine ⟨by rw [hwraps.typeNew]; rintro ⟨⟩, redundant_eq_none fun o d ho hd hwindow h => ?_⟩
      obtain rfl : ws = o := Option.some_inj.mp ((hr.parent _ _ hwraps.mem_ws).symm.trans ho)
      rw [hwraps.nodesNew] at hd
      obtain rfl : con = d := by simpa [hd] using hcon
      rw [hwraps.layoutNew, hwraps.layout ws hw.ne] at h
      exact hstays.outer hd (hsplits hconlt hconws h)
    · have hupper := hwraps.above hw habove z hz
      exact ⟨hupper.not_floating, hupper.redundant⟩

/-- **A call for a container in a workspace**: it is in the new split container with the new layout. -/
theorem toggled_wrapChildren :
    Toggled ((t.wrapChildren cfg ws layout).treeFlatten cfg (t.wrapChildren cfg ws layout).croot) ws con ∧
      ((t.wrapChildren cfg ws layout).treeFlatten cfg (t.wrapChildren cfg ws layout).croot).readLayout con =
        some layout := by
  have hfirm := @firm_wrapChildren cfg t con ws layout hw habove hcon hstays
  have hwraps := @wraps_wrapChildren cfg t ws layout hw
  generalize t.wrapChildren cfg ws layout = u at hfirm hwraps ⊢
  have hr := hwraps.healthy.rooted
  have hmem := hwraps.mem_new hcon
  have hnewreach : u.Reach t.nextCon := (hwraps.reach.tail hwraps.mem_ws).within
  have hconreach : u.Reach con := (hnewreach.tail hmem).within
  have hconlt : con ≠ t.nextCon := (hw.healthy.rooted.bounded ws con (List.mem_append_left _ hcon)).ne
  have hinside := (@treeFlattenN_spec cfg u u.croot u.nextCon hwraps.healthy (.refl _)).1
    (hfirm u.croot (.refl _) hconreach).2
  obtain ⟨hreach, hparent⟩ := @parent_treeFlattenN cfg u con u.croot u.nextCon hwraps.healthy (.refl _)
    hconreach hfirm
  obtain ⟨hreach', hparent'⟩ := @parent_treeFlattenN cfg u t.nextCon u.croot u.nextCon hwraps.healthy (.refl _)
    hnewreach fun z hz hznew => hfirm z hz (hznew.tail hmem).within
  rw [hr.parent _ _ hmem] at hparent
  rw [hr.parent _ _ hwraps.mem_ws] at hparent'
  change Toggled (treeFlattenN cfg u.nextCon u u.croot) ws con ∧
    (treeFlattenN cfg u.nextCon u u.croot).readLayout con = some layout
  generalize treeFlattenN cfg u.nextCon u u.croot = v at hinside hreach hparent hreach' hparent'
  have hv := hinside.flattens.calm.healthy.rooted
  have hconv : con ∈ v.children t.nextCon := hv.mem_children_of_parent hreach hparent
  have hnewv : t.nextCon ∈ v.children ws := hv.mem_children_of_parent hreach' hparent'
  have htypes : (v.con con).type = .con ∧ (v.con t.nextCon).type = .con := by
    rw [hinside.alters.type, hinside.alters.type, hwraps.type con hconlt, (hw.plain con hcon).1, hwraps.typeNew]
    exact ⟨rfl, rfl⟩
  have htoggled : Toggled v ws con := by
    refine ⟨hinside.flattens.calm.healthy, ?_, ?_, fun x hx hxcon => ?_, t.nextCon, hconv, .single hnewv⟩
    · exact hv.reach_parent hreach' hparent'
    · rw [hinside.alters.type, hwraps.type ws hw.ne, hw.type]
    · rcases Descent.within_iff.mp hxcon with rfl | hbelow
      · exact htypes.1
      · rcases Descent.within_iff.mp (Descent.within_parent hv.parent hbelow hparent) with rfl | hbelow'
        · exact htypes.2
        · have hxws := Descent.within_parent hv.parent hbelow' hparent'
          exact absurd hxws (hv.acyclic.not_within hx)
  refine ⟨htoggled, ?_⟩
  rw [readLayout, htoggled.layoutCon hconv (.single hnewv), Option.map_some, hinside.alters.layout,
    hwraps.layoutNew]

end Wrap

/-! ### Again and again -/

/-- The workspace `ws` in an orderly tree, and it or a tiling container on it. -/
structure Togglable (t : Tree) (ws con : ConId) : Prop where
  wrappable : Wrappable t ws
  above : ∀ a, Descent.Below t.children a ws → t.Upper a
  within : Descent.Within t.children ws con
  plain : ∀ x, Descent.Below t.children ws x → Descent.Within t.children x con → (t.con x).type = .con

/-- The layout that is set is the one that is read again. -/
def ReadsBack (t : Tree) (ws con : ConId) : Prop :=
  Toggled t ws con ∨ con = ws ∧ t.Reach ws ∧ (t.con ws).type = .workspace ∧ (t.con ws).nodesHead = []

theorem ReadsBack.reach (h : t.ReadsBack ws con) : t.Reach con := by
  rcases h with h | ⟨rfl, hreach, -⟩
  · obtain ⟨p, hp, hwp⟩ := h.split
    exact ((h.reach.trans hwp.within).tail hp).within
  · exact hreach

theorem readsBack_conSetLayout (h : t.ReadsBack ws con) (hne : layout ≠ .default) :
    (t.conSetLayout cfg con layout).ReadsBack ws con ∧
      (t.conSetLayout cfg con layout).readLayout con = some layout := by
  rcases h with h | ⟨rfl, hreach, htype, hnil⟩
  · obtain ⟨htoggled, hread⟩ := @toggled_conSetLayout cfg t con ws layout h hne
    exact ⟨.inl htoggled, hread⟩
  · obtain ⟨htype', hnil', hl, hread⟩ := @readLayout_empty cfg t con layout htype hnil hne
    exact ⟨.inr ⟨rfl, hl.reach.mpr hreach, htype', hnil'⟩, hread⟩

section List

variable (hplain : ∀ word ∈ layoutWords toggleMode, ¬ Parser.sameCase word "split".toList)
  (hnodup : (listedLayouts toggleMode).Nodup) (hlength : 2 ≤ (listedLayouts toggleMode).length)
include hplain hnodup hlength

theorem toggledLayout_ne_default : toggledLayout layout last toggleMode ≠ .default := by
  have hne : listedLayouts toggleMode ≠ [] := by
    intro hnil
    simp [hnil] at hlength
  have hmem := List.mem_of_getElem? (@toggledLayout_eq layout last toggleMode hplain hnodup hne)
  obtain ⟨word, -, hword⟩ := List.mem_filterMap.mp hmem
  simpa using (Option.mem_filter_iff.mp hword).2

omit hnodup hlength in
theorem toggledLayout_last {last' : Layout} :
    toggledLayout layout last toggleMode = toggledLayout layout last' toggleMode := by
  rw [toggledLayout, toggledLayout, toggleLoop_eq hplain, toggleLoop_eq hplain]

omit hplain hnodup in
/-- Where there are several words, there is a blank. -/
theorem blank_mem : ' ' ∈ toggleMode := by
  by_contra hblank
  have hwords : layoutWords toggleMode = [toggleMode].filter (· ≠ []) := by
    rw [layoutWords, List.splitOnP_eq_singleton]
    intro c hc
    exact decide_eq_false fun heq => hblank (heq ▸ hc)
  have hle : (listedLayouts toggleMode).length ≤ 1 := by
    rw [listedLayouts, hwords]
    exact (List.length_filterMap_le _ _).trans ((List.length_filter_le _ _).trans le_rfl)
  omega

/-- **A call** passes on the next layout of the list. -/
theorem conToggleLayout_eq (hread : t.readLayout con = some layout) :
    t.conToggleLayout cfg con toggleMode = t.conSetLayout cfg con (toggledLayout layout .default toggleMode) := by
  obtain ⟨p, hp, rfl⟩ := Option.map_eq_some_iff.mp hread
  have hne := @toggledLayout_ne_default (t.con p).layout (t.con p).lastSplitLayout _ hplain hnodup hlength
  rw [conToggleLayout, hp]
  dsimp only
  rw [if_pos (.inr (blank_mem hlength)), if_pos hne, toggledLayout_last hplain]

/-- Every further call goes on to the next layout of the list. -/
theorem readLayout_iterate (h : t.ReadsBack ws con) (hread : t.readLayout con = some layout) (k : ℕ) :
    ((fun t => t.conToggleLayout cfg con toggleMode)^[k] t).ReadsBack ws con ∧
      ((fun t => t.conToggleLayout cfg con toggleMode)^[k] t).readLayout con =
        some (Rounds.run (fun l => some (toggledLayout l .default toggleMode)) layout k) := by
  induction k with
  | zero => exact ⟨h, hread⟩
  | succ k ih =>
    obtain ⟨hback, hread⟩ := ih
    rw [Function.iterate_succ_apply', conToggleLayout_eq hplain hnodup hlength hread]
    exact readsBack_conSetLayout hback (toggledLayout_ne_default hplain hnodup hlength)

theorem run_toggledLayout (k : ℕ) :
    some (Rounds.run (fun l => some (toggledLayout l .default toggleMode))
        (toggledLayout layout .default toggleMode) k) =
      (listedLayouts toggleMode)[(Rounds.start (listedLayouts toggleMode) layout + k) %
        (listedLayouts toggleMode).length]? := by
  have hne : listedLayouts toggleMode ≠ [] := by
    intro hnil
    simp [hnil] at hlength
  have hround : Rounds.GoesRound (fun l => some (toggledLayout l .default toggleMode)) (listedLayouts toggleMode)
      layout :=
    Rounds.goesRound_of_right (fun l => (toggledLayout_eq hplain hnodup hne).symm) hnodup hne rfl fun _ _ => rfl
  rw [← hround k]
  -- one call more from the start
  induction k with
  | zero => rfl
  | succ k ih => rw [Rounds.run, Rounds.run, ← Option.some_inj.mp ih]; rfl

end List

/-! ### The first call -/

theorem Upper.fillLastSplit {a : ConId} (h : t.Upper a) (c : ConId) : (t.fillLastSplit c).Upper a := by
  have hl := links_fillLastSplit t c
  have hlayout : ∀ x, ((t.fillLastSplit c).con x).layout = (t.con x).layout := by
    intro x
    obtain ⟨last, hx⟩ := fillLastSplit_con t c x
    rw [hx]
  rw [Upper, hl.type, hl.parent]
  simp only [hlayout]
  exact h

theorem StaysIn.fillLastSplit (h : t.StaysIn ws con layout) (c : ConId) :
    (t.fillLastSplit c).StaysIn ws con layout := by
  have hl := links_fillLastSplit t c
  have hlayout : ∀ x, ((t.fillLastSplit c).con x).layout = (t.con x).layout ∧
      ((t.fillLastSplit c).con x).window = (t.con x).window := by
    intro x
    obtain ⟨last, hx⟩ := fillLastSplit_con t c x
    rw [hx]
    exact ⟨rfl, rfl⟩
  have hsplits : ∀ {parent outer d}, (t.fillLastSplit c).RedundantSplits parent outer d →
      t.RedundantSplits parent outer d := by
    intro parent outer d hd
    rw [RedundantSplits, Tree.isSplit, isLeaf, hl.nodesHead, (hlayout d).1] at hd
    exact hd
  refine ⟨fun hnodes hd => ?_, fun d hnodes hwindow hd => ?_⟩
  · rw [hl.nodesHead] at hnodes
    rw [(hlayout ws).1] at hd
    exact h.outer hnodes (hsplits hd)
  · rw [hl.nodesHead] at hnodes
    rw [(hlayout con).2] at hwindow
    rw [(hlayout con).1] at hd
    exact h.inner d hnodes hwindow (hsplits hd)

/-- The first call for a tiling container in the workspace. -/
theorem readsBack_wrap (h : t.Togglable ws con) (hcon : con ∈ (t.con ws).nodesHead)
    (hstays : t.StaysIn ws con layout) :
    (t.conSetLayout cfg con layout).ReadsBack ws con ∧
      (t.conSetLayout cfg con layout).readLayout con = some layout := by
  have hr := h.wrappable.healthy.rooted
  have hl := links_fillLastSplit t ws
  have hlayoutCon : (if (t.con con).type = .workspace then some con else (t.con con).parent) = some ws := by
    rw [if_neg (by simp [(h.wrappable.plain con hcon).1]), hr.parent ws con (List.mem_append_left _ hcon)]
  rw [conSetLayout_wrap h.wrappable.type (List.ne_nil_of_mem hcon) hlayoutCon]
  obtain ⟨htoggled, hread⟩ := @toggled_wrapChildren cfg (t.fillLastSplit ws) con ws layout
    h.wrappable.fillLastSplit
    (fun a ha => (h.above a (ha.mono fun _ _ => hl.mem_children.mp)).fillLastSplit ws)
    (by rw [hl.nodesHead]; exact hcon) (hstays.fillLastSplit ws)
  exact ⟨.inl htoggled, hread⟩

/-- A container deeper down is in a split container already. -/
theorem Togglable.toggled (h : t.Togglable ws con) (hne : con ≠ ws) (hcon : con ∉ (t.con ws).nodesHead) :
    Toggled t ws con := by
  have hr := h.wrappable.healthy.rooted
  have hbelow := (Descent.within_iff.mp h.within).resolve_left hne
  obtain ⟨p, hwp, hp⟩ := Descent.below_iff_exists.mp hbelow
  refine ⟨h.wrappable.healthy, h.wrappable.reach, h.wrappable.type, h.plain, p, hp, ?_⟩
  refine (Descent.within_iff.mp hwp).resolve_left ?_
  rintro rfl
  -- what is in the workspace itself and does not float is a tiling child
  refine hcon ((List.mem_append.mp hp).resolve_right fun hf => ?_)
  have htype := hr.typeFloating p con hf
  rw [h.plain con hbelow (.refl _)] at htype
  cases htype

/-- A workspace with tiling children keeps its layout. -/
theorem readLayout_workspace (h : Wrappable t ws) (hne : (t.con ws).nodesHead ≠ []) :
    (t.conSetLayout cfg ws layout).readLayout ws = t.readLayout ws := by
  obtain ⟨last, hfill⟩ := fillLastSplit_con t ws ws
  have hwraps := @wraps_wrapChildren cfg _ ws layout h.fillLastSplit
  rw [conSetLayout_wrap h.type hne (if_pos h.type)]
  have hwslt := h.fillLastSplit.ne
  generalize (t.fillLastSplit ws).wrapChildren cfg ws layout = u at hwraps
  have hinside := (@treeFlattenN_spec cfg u u.croot u.nextCon hwraps.healthy (.refl _)).1
    (Upper.redundant (.inl hwraps.healthy.rooted.typeRoot))
  have htype : ((u.treeFlatten cfg u.croot).con ws).type = .workspace := by
    rw [treeFlatten, hinside.alters.type, hwraps.type ws hwslt, hfill, h.type]
  rw [readLayout, Tree.layoutCon, if_pos htype, readLayout, Tree.layoutCon, if_pos h.type, Option.map_some,
    Option.map_some, treeFlatten, hinside.alters.layout, hwraps.layout ws hwslt, hfill]

/-- Calling `con_toggle_layout` again and again goes round the layouts of the list. -/
def GoesRoundLayouts (cfg : Config) (t : Tree) (con : ConId) (toggleMode : List Char) : Prop :=
  ∃ layout, t.readLayout con = some layout ∧
    ∀ k, ((fun t => t.conToggleLayout cfg con toggleMode)^[k + 1] t).Reach con ∧
      ((fun t => t.conToggleLayout cfg con toggleMode)^[k + 1] t).readLayout con =
        (listedLayouts toggleMode)[(Rounds.start (listedLayouts toggleMode) layout + k) %
          (listedLayouts toggleMode).length]?

/-- **Call after call** goes round the layouts of the list, for a tiling container that no redundant pair
takes away, and for a workspace exactly if it has no tiling children. -/
theorem goesRoundLayouts_iff (cfg : Config) (t : Tree) (ws con : ConId) (toggleMode : List Char)
    (hplain : ∀ word ∈ layoutWords toggleMode, ¬ Parser.sameCase word "split".toList)
    (hnodup : (listedLayouts toggleMode).Nodup) (hlength : 2 ≤ (listedLayouts toggleMode).length)
    (h : t.Togglable ws con)
    (hstays : con ∈ (t.con ws).nodesHead →
      ∀ layout ∈ (listedLayouts toggleMode)[Rounds.start (listedLayouts toggleMode) (t.con ws).layout %
        (listedLayouts toggleMode).length]?, t.StaysIn ws con layout) :
    t.GoesRoundLayouts cfg con toggleMode ↔ (con = ws → (t.con ws).nodesHead = []) := by
  have hne : listedLayouts toggleMode ≠ [] := by
    intro hnil
    simp [hnil] at hlength
  constructor
  · rintro ⟨layout, hread, hround⟩ rfl
    by_contra hnodes
    -- the second call would read the first layout again
    have hfirst := (hround 0).2
    rw [Function.iterate_one, conToggleLayout_eq hplain hnodup hlength hread,
      readLayout_workspace h.wrappable hnodes, hread, Nat.add_zero] at hfirst
    exact Rounds.getElem?_start_ne hnodup hlength layout hfirst.symm
  intro hempty
  have hfirst : ∃ layout, t.readLayout con = some layout ∧
      (t.conSetLayout cfg con (toggledLayout layout .default toggleMode)).ReadsBack ws con ∧
        (t.conSetLayout cfg con (toggledLayout layout .default toggleMode)).readLayout con =
          some (toggledLayout layout .default toggleMode) := by
    by_cases hcon : con ∈ (t.con ws).nodesHead
    · have hr := h.wrappable.healthy.rooted
      have hread : t.readLayout con = some (t.con ws).layout := by
        rw [readLayout, Tree.layoutCon, if_neg (by simp [(h.wrappable.plain con hcon).1]),
          hr.parent ws con (List.mem_append_left _ hcon), Option.map_some]
      exact ⟨_, hread, readsBack_wrap h hcon (hstays hcon _ (toggledLayout_eq hplain hnodup hne))⟩
    · have hback : t.ReadsBack ws con := by
        by_cases heq : con = ws
        · exact .inr ⟨heq, h.wrappable.reach, h.wrappable.type, hempty heq⟩
        · exact .inl (h.toggled heq hcon)
      have hread : ∃ layout, t.readLayout con = some layout := by
        rcases hback with hback | ⟨rfl, -, htype, -⟩
        · obtain ⟨p, hp, hwp⟩ := hback.split
          exact ⟨_, by rw [readLayout, hback.layoutCon hp hwp, Option.map_some]⟩
        · exact ⟨_, by rw [readLayout, Tree.layoutCon, if_pos htype, Option.map_some]⟩
      obtain ⟨layout, hread⟩ := hread
      exact ⟨layout, hread, readsBack_conSetLayout hback (toggledLayout_ne_default hplain hnodup hlength)⟩
  obtain ⟨layout, hread, hback, hnext⟩ := hfirst
  refine ⟨layout, hread, fun k => ?_⟩
  rw [Function.iterate_succ_apply, conToggleLayout_eq hplain hnodup hlength hread]
  obtain ⟨hback', hread'⟩ := @readLayout_iterate cfg _ con ws _ toggleMode hplain hnodup hlength hback hnext k
  refine ⟨hback'.reach, ?_⟩
  rw [hread', run_toggledLayout hplain hnodup hlength]

/-! ### Two windows -/

/-- A workspace with two windows; one of them has the focus, or the workspace itself. -/
def twoWindows (focused : ConId) : Tree := ofList [
  { type := .root, layout := .splith, nodesHead := [1], focusHead := [1] },
  { type := .output, parent := some 0, name := "eDP-1", layout := .output, nodesHead := [2], focusHead := [2] },
  { parent := some 1, layout := .splith, nodesHead := [3], focusHead := [3] },
  { type := .workspace, parent := some 2, name := "1", num := 1, layout := .splith, nodesHead := [4, 5],
    focusHead := [4, 5], fullscreenMode := .output },
  { parent := some 3, window := some { id := 1 } },
  { parent := some 3, window := some { id := 2 } }] (some focused)

theorem togglable_twoWindows (f : ConId) (hf : f ∈ [3, 4]) : Togglable (twoWindows f) 3 f := by
  have hall : ∀ f ∈ [3, 4], (∀ q < 6, ∀ c ∈ (twoWindows f).children q, q < c) ∧
      List.IsChain (fun q c => c ∈ (twoWindows f).children q) [0, 1, 2, 3, 4] ∧
      (twoWindows f).isFloating 3 = false ∧
      (∀ d ∈ ((twoWindows f).con 3).nodesHead,
        ((twoWindows f).con d).type = .con ∧ (twoWindows f).isFloating d = false) ∧
      ∀ x ∈ [4, 5], ((twoWindows f).con x).type = .con := by
    decide +kernel
  have hrooted : ∀ f ∈ [3, 4], Rooted (twoWindows f) := by
    intro f hf
    apply rooted_ofList
    · revert f
      decide +kernel
    · revert f
      decide +kernel
  have hhealthy : Healthy (twoWindows f) := by
    apply healthy_ofList (3 < ·) (hrooted f hf)
    clear hall hrooted
    revert f
    decide +kernel
  have hstacked : Stacked (twoWindows f) := by
    apply stacked_ofList
    clear hall hrooted hhealthy
    revert f
    decide +kernel
  obtain ⟨hlist, hchain, hfloating, hplain, hcons⟩ := hall f hf
  have hchildren : ∀ q, ∀ c ∈ (twoWindows f).children q, q < c := by
    intro q c hc
    by_cases hq : q < 6
    · exact hlist q hq c hc
    · rw [twoWindows, children, ofList_con hq] at hc
      cases hc
  have hbelow : ∀ x, Descent.Below (twoWindows f).children 3 x → x ∈ [4, 5] := by
    intro x hx
    have hlow := Descent.lt_of_below hchildren hx
    have hhigh : x < 6 := (hrooted f hf).lt_nextCon
      ((reach_of_isChain reach_croot hchain (by simp)).trans hx.within)
    obtain ⟨k, rfl⟩ := Nat.exists_eq_add_of_lt hlow
    rcases k with - | - | k
    · simp
    · simp
    · exact absurd hhigh (Nat.not_lt.mpr (by omega))
  refine ⟨⟨hhealthy, hstacked, reach_of_isChain reach_croot hchain (by simp), rfl, hfloating, hplain⟩,
    fun a ha => ?_, ?_, fun x hx _ => hcons x (hbelow x hx)⟩
  · have hlt := Descent.lt_of_below hchildren ha
    rcases a with - | - | - | a
    · exact .inl rfl
    · exact .inr (.inl rfl)
    · exact .inr (.inr (.inr ⟨rfl, 1, rfl, rfl⟩))
    · exact absurd hlt (Nat.not_lt.mpr (Nat.le_add_left 3 a))
  · rcases List.mem_pair.mp hf with rfl | rfl
    · exact .refl _
    · exact (Descent.Below.single (by decide +kernel)).within

/-- From one of the windows the first call leads to the first layout, which is not the current one. -/
theorem goesRoundLayouts_twoWindows :
    ((twoWindows 4).conToggleLayout {} 4 "stacking tabbed splith".toList).readLayout 4 = some .stacked ∧
      ((twoWindows 4).GoesRoundLayouts {} 4 "stacking tabbed splith".toList ↔
        (4 = 3 → ((twoWindows 4).con 3).nodesHead = [])) :=
  ⟨by decide +kernel, goesRoundLayouts_iff {} (twoWindows 4) 3 4 "stacking tabbed splith".toList (by decide +kernel)
    (by decide +kernel) (by decide +kernel) (togglable_twoWindows 4 (by simp)) fun _ layout _ =>
      ⟨fun h => absurd h (by decide +kernel), fun d h => absurd h (by simp [twoWindows, ofList])⟩⟩

/-- The focused workspace is split horizontally after the call, as it was before. -/
theorem not_goesRoundLayouts_workspace :
    (twoWindows 3).focused = some 3 ∧ Togglable (twoWindows 3) 3 3 ∧
      listedLayouts "stacking tabbed splith".toList = [.stacked, .tabbed, .splith] ∧
      ¬ (twoWindows 3).GoesRoundLayouts {} 3 "stacking tabbed splith".toList := by
  refine ⟨rfl, togglable_twoWindows 3 (by simp), by decide +kernel, ?_⟩
  rintro ⟨layout, hread, hround⟩
  have hcurrent : (twoWindows 3).readLayout 3 = some .splith := by decide +kernel
  obtain rfl := Option.some_inj.mp (hcurrent.symm.trans hread)
  have hfirst := (hround 0).2
  rw [Function.iterate_one] at hfirst
  have hsame :
      ((twoWindows 3).conToggleLayout {} 3 "stacking tabbed splith".toList).readLayout 3 = some .splith := by
    decide +kernel
  rw [hsame] at hfirst
  exact absurd hfirst (by decide +kernel)

end Tree

end I3
