import I3Aiwr.Tree.Nested
import I3Aiwr.Tree.Percent
import I3Aiwr.Tree.SetLayout

/-!
# Toggling the scrolling layout twice

Leaving the scrolling layout normalises the percentages of the columns, and entering it again puts the
tiling children of the workspace into a new container. The columns come through this where they are the
tiling children of the workspace, none of them is redundant, and their widths sum up to 1 in the first
place, or in one arrangement of nested containers that flattening removes.

## Main definitions

* `Tree.Scrolled t con ws sc`: the workspace `ws` of `con` has the scrolling container `sc`
* `Tree.KeepsColumns cfg t t' ws sc`: the columns are the same
* `Tree.Survives cfg t ws sc`: where toggling twice keeps them

## Main results

* `Tree.keepsColumns_toggle_iff`: toggling twice
-/

namespace I3

namespace Tree

section Definitions

variable (cfg : Config) (t t' : Tree) (con ws sc : ConId)

/-- The workspace of `con` scrolls. The focus is first in the focus order on its way down, and below the
tiling children of the workspace nothing floats and nothing is docked. -/
structure Scrolled : Prop where
  healthy : Healthy t
  stacked : Stacked t
  reach : t.Reach con
  workspace : t.getWorkspace con = some ws
  found : t.wsFindScrolling ws = some sc
  above : ∀ a, Descent.Below t.children a ws → t.Upper a
  notFloating : t.isFloating ws = false
  tiling : ∀ d ∈ (t.con ws).nodesHead, ∀ x, Descent.Within t.children d x →
    (t.con x).type = .con ∧ t.isFloating x = false
  foremost : ∀ f ∈ t.focused, t.Foremost t.croot f
  widths : ∀ d ∈ (t.con sc).nodesHead, 1 / 20 ≤ (t.con d).percent ∧ (t.con d).percent ≤ 4

/-- The workspace has a scrolling container with the same columns in the same order, in the same focus
order and with the same widths. -/
def KeepsColumns : Prop :=
  ∃ sc', t'.wsFindScrolling ws = some sc' ∧ (t'.con sc').nodesHead = (t.con sc).nodesHead
    ∧ t'.tilingOrder sc' = t.tilingOrder sc
    ∧ ∀ d ∈ (t.con sc).nodesHead, t'.columnPercent cfg d = t.columnPercent cfg d

/-- The workspace itself scrolls: each column stays, and the widths sum up to 1. -/
def SurvivesWhole : Prop :=
  (t.con ws).nodesHead = []
    ∨ (∀ d ∈ (t.con ws).nodesHead, t.redundant d = none) ∧ t.percentSum (t.con ws).nodesHead = 1

/-- A container on the workspace scrolls: around it is a vertical split with nothing else in it, and nothing
else is on the workspace. All columns are as wide as that split, and behind the first column their focus
order is their order. -/
def SurvivesNested : Prop :=
  ∃ c, (t.con ws).nodesHead = [c] ∧ (t.con c).nodesHead = [sc] ∧ (t.con c).layout = .splitv
    ∧ (t.con c).window = none
    ∧ (∀ d ∈ (t.con sc).nodesHead, t.columnPercent cfg d = t.columnPercent cfg c)
    ∧ ∃ next, t.tilingOrder sc = next :: (t.con sc).nodesHead.erase next

/-- The columns survive toggling twice. Where another container of the workspace scrolls, too, the second
time is about that one, and a third one without columns stands for one without columns. -/
def Survives : Prop :=
  match (t.setLayout sc .splith).wsFindScrolling ws with
  | none => sc = ws ∧ t.SurvivesWhole ws ∨ sc ≠ ws ∧ t.SurvivesNested cfg ws sc
  | some sc₂ => (t.con sc).nodesHead = []
    ∧ ∃ sc₃, ((t.setLayout sc .splith).setLayout sc₂ .splith).wsFindScrolling ws = some sc₃
      ∧ (t.con sc₃).nodesHead = []

end Definitions

variable {cfg : Config} {t t' : Tree} {c d e p q x con ws sc : ConId}

/-! ### The container found -/

theorem wsFindScrollingN_congr (hlayout : ∀ x, (t'.con x).layout = (t.con x).layout)
    (hnodes : ∀ x, (t'.con x).nodesHead = (t.con x).nodesHead) (n : ℕ) (ws : ConId) :
    t'.wsFindScrollingN n ws = t.wsFindScrollingN n ws := by
  induction n generalizing ws with
  | zero => rfl
  | succ n ih =>
    have hih : t'.wsFindScrollingN n = t.wsFindScrollingN n := funext fun x => ih x
    rw [wsFindScrollingN, wsFindScrollingN, hlayout, hnodes, hih]

theorem wsFindScrollingN_spec (n : ℕ) (h : t.wsFindScrollingN n ws = some sc) :
    (t.con sc).layout = .scrolling ∧ Descent.Within t.children ws sc := by
  induction n generalizing ws with
  | zero => cases h
  | succ n ih =>
    rw [wsFindScrollingN] at h
    split at h
    · next hlayout =>
      cases h
      exact ⟨hlayout, .refl _⟩
    · obtain ⟨d, hd, h⟩ := List.exists_of_findSome?_eq_some h
      obtain ⟨hlayout, hwithin⟩ := ih h
      exact ⟨hlayout, ((Descent.Below.single (List.mem_append_left _ hd)).trans_within hwithin).within⟩

/-- The scrolling container is at or below the workspace, in the tiling containers. -/
theorem wsFindScrolling_spec (h : t.wsFindScrolling ws = some sc) :
    (t.con sc).layout = .scrolling ∧ Descent.Within t.children ws sc :=
  wsFindScrollingN_spec _ h

theorem wsFindScrolling_self (hn : 0 < t.nextCon) (h : (t.con ws).layout = .scrolling) :
    t.wsFindScrolling ws = some ws := by
  obtain ⟨n, hn⟩ := Nat.exists_eq_succ_of_ne_zero hn.ne'
  rw [wsFindScrolling, hn, wsFindScrollingN, if_pos h]

/-- A scrolling container that is the only tiling child is found. -/
theorem wsFindScrolling_only (hn : 1 < t.nextCon) (hws : (t.con ws).layout ≠ .scrolling)
    (hnodes : (t.con ws).nodesHead = [q]) (hq : (t.con q).layout = .scrolling) :
    t.wsFindScrolling ws = some q := by
  obtain ⟨n, hn⟩ := Nat.exists_eq_add_of_lt hn
  have hone : t.wsFindScrollingN (n + 1) q = some q := by rw [wsFindScrollingN, if_pos hq]
  have hn' : t.nextCon = n + 1 + 1 := hn.trans (by rw [Nat.add_comm 1 n])
  rw [wsFindScrolling, hn', wsFindScrollingN, if_neg hws, hnodes, List.findSome?_cons, hone]

/-- Below a workspace that does not scroll itself the container is in one of the tiling children. -/
theorem wsFindScrolling_tiling (h : t.wsFindScrolling ws = some sc) (hne : sc ≠ ws) :
    ∃ d ∈ (t.con ws).nodesHead, Descent.Within t.children d sc := by
  unfold wsFindScrolling at h
  cases hn : t.nextCon with
  | zero =>
    rw [hn] at h
    cases h
  | succ n =>
    rw [hn, wsFindScrollingN] at h
    split at h
    · exact absurd (Option.some_inj.mp h).symm hne
    · obtain ⟨d, hd, h⟩ := List.exists_of_findSome?_eq_some h
      exact ⟨d, hd, (wsFindScrollingN_spec n h).2⟩

/-! ### Leaving the layout -/

/-- The tree after leaving: only the layout of the container and the percentages of its columns differ. -/
structure Leaves (t t' : Tree) (sc : ConId) : Prop where
  links : Links t t'
  focus : SameFocus t t'
  layout : ∀ x, (t'.con x).layout = ((t.setLayout sc .splith).con x).layout
  floating : ∀ x, (t'.con x).floating = (t.con x).floating
  window : ∀ x, (t'.con x).window = (t.con x).window
  percent : ∀ x ∉ (t.con sc).nodesHead, (t'.con x).percent = (t.con x).percent

theorem setLayout_layout (t : Tree) (c x : ConId) (layout : Layout) :
    ((t.setLayout c layout).con x).layout = if x = c then layout else (t.con x).layout := by
  rw [setLayout, modify_con]
  split <;> rfl

/-- Before the percentages are fixed. -/
def unscrolled (t : Tree) (ws sc : ConId) : Tree :=
  ((t.setLayout sc .splith).setScrollOffset sc 0).setWorkspaceLayout ws .default

theorem leaves_unscrolled (t : Tree) (ws sc : ConId) : Leaves t (t.unscrolled ws sc) sc := by
  obtain ⟨s, hs⟩ : ∃ s, (t.setLayout sc .splith).setScrollOffset sc 0 = s := ⟨_, rfl⟩
  have hoffset : Alters (fun _ => False) (fun _ => False) (fun _ => False) (t.setLayout sc .splith) s :=
    hs ▸ .of_modify rfl rfl rfl (.inr rfl) (.inr rfl) (.inr rfl) (.inr rfl)
  have hworkspace : Alters (fun _ => False) (fun _ => False) (fun _ => False) s (s.setWorkspaceLayout ws .default) :=
    .of_modify rfl rfl rfl (.inr rfl) (.inr rfl) (.inr rfl) (.inr rfl)
  have halters : Alters (fun _ => False) (fun _ => False) (fun _ => False) (t.setLayout sc .splith)
      (t.unscrolled ws sc) := by
    rw [unscrolled, hs]
    exact hoffset.trans hworkspace
  have hset : ∀ x, ((t.setLayout sc .splith).con x).floating = (t.con x).floating
      ∧ ((t.setLayout sc .splith).con x).window = (t.con x).window
      ∧ ((t.setLayout sc .splith).con x).percent = (t.con x).percent := by
    intro x
    rw [setLayout, modify_con]
    split
    · exact ⟨rfl, rfl, rfl⟩
    · exact ⟨rfl, rfl, rfl⟩
  refine ⟨?_, ?_, halters.layout, fun x => ?_, fun x => ?_, fun x _ => ?_⟩
  · have hlinks : Links s (s.setWorkspaceLayout ws .default) := .of_modify s ws _ rfl rfl rfl rfl rfl rfl rfl
    have hset : Links t s := hs ▸ (links_setLayout t sc .splith).trans (stirs_setScrollOffset _ sc 0).links
    rw [unscrolled, hs]
    exact hset.trans hlinks
  · have hfocus : SameFocus s (s.setWorkspaceLayout ws .default) := .of_modify s ws _ rfl
    have hset : SameFocus t s := hs ▸ (SameFocus.of_modify t sc _ rfl).trans (.of_modify _ sc _ rfl)
    rw [unscrolled, hs]
    exact hset.trans hfocus
  · rw [halters.floating, (hset x).1]
  · rw [halters.window x id, (hset x).2.1]
  · rw [halters.percent x id, (hset x).2.2]

/-- **Leaving the scrolling layout.** -/
theorem leaves_leaveScrolling (cfg : Config) (t : Tree) (ws sc : ConId) :
    Leaves t ((t.leaveScrolling ws sc).treeRender cfg) sc := by
  have hfirst := t.leaves_unscrolled ws sc
  have heq : t.leaveScrolling ws sc = (t.unscrolled ws sc).conFixPercent sc := rfl
  have hrender := stirs_treeRender cfg ((t.unscrolled ws sc).conFixPercent sc)
  have hfix : Alters (fun _ => False) (fun _ => False) (· ∈ (t.con sc).nodesHead) (t.unscrolled ws sc)
      (((t.unscrolled ws sc).conFixPercent sc).treeRender cfg) :=
    (Alters.conFixPercent (.inr fun d hd => hfirst.links.nodesHead sc ▸ hd)).trans (.of_stirs hrender)
  rw [heq]
  refine ⟨(hfirst.links.trans (links_conFixPercent _ sc)).trans hrender.links,
    (hfirst.focus.trans (sameFocus_conFixPercent _ sc)).trans (sameFocus_treeRender _), fun x => ?_, fun x => ?_,
    fun x => ?_, fun x hx => ?_⟩
  · rw [hfix.layout, hfirst.layout]
  · rw [hfix.floating, hfirst.floating]
  · rw [hfix.window x id, hfirst.window]
  · rw [hfix.percent x hx, hfirst.percent x hx]

/-- **The percentages are normalised.** -/
theorem percent_leaveScrolling (ht : Rooted t) (hpos : ∀ e ∈ (t.con sc).nodesHead, 0 < (t.con e).percent)
    (hd : d ∈ (t.con sc).nodesHead) : (((t.leaveScrolling ws sc).treeRender cfg).con d).percent
      = (t.con d).percent / t.percentSum (t.con sc).nodesHead := by
  have hfirst := t.leaves_unscrolled ws sc
  have hnodes := hfirst.links.nodesHead sc
  have hsame : ∀ e ∈ (t.con sc).nodesHead, ((t.unscrolled ws sc).con e).percent = (t.con e).percent := by
    intro e he
    rw [unscrolled, setWorkspaceLayout, modify_con, setScrollOffset, modify_con, setLayout, modify_con]
    split_ifs <;> simp_all
  have hpos' : ∀ e ∈ (t.con sc).nodesHead, 0 < ((t.unscrolled ws sc).con e).percent := fun e he =>
    (hsame e he).symm ▸ hpos e he
  have hweighted : Weighted (t.unscrolled ws sc) sc := by
    refine ⟨?_, ?_, ?_, fun e he => ?_⟩
    · rw [hfirst.layout, setLayout_layout, if_pos rfl]
      rintro ⟨⟩
    · rw [hnodes]
      exact List.ne_nil_of_mem hd
    · rw [hnodes]
      exact ht.nodupNodes sc
    · exact (hpos' e (hnodes ▸ he)).le
  have heq : t.leaveScrolling ws sc = (t.unscrolled ws sc).conFixPercent sc := rfl
  rw [heq, (stirs_treeRender cfg _).percent, hweighted.percent_conFixPercent (by rwa [hnodes]), hnodes, filled,
    percentFill_of_pos hpos', percentSum_congr hsame, hsame d hd]

/-! ### The new strip -/

/-- The focused container is below the first entry of the focus stack on its way down. -/
theorem Rooted.mem_heads_of_foremost (ht : Rooted t) {f : ConId} (hf : t.Foremost c f)
    (hp : Descent.Within t.children c p) (hx : x ∈ t.children p) (hxf : Descent.Within t.children x f) :
    x ∈ t.heads p := by
  revert hp
  refine Relation.ReflTransGen.head_induction_on hf (fun hfp => ?_) fun {u v} hv hvf ih hup => ?_
  · exact absurd hxf (ht.acyclic.not_within (Descent.Within.tail hfp hx))
  · have hvc := ht.heads_subset u hv
    rcases Descent.within_iff.mp hup with rfl | hbelow
    · obtain rfl := ht.acyclic.eq_of_within ht.parent hx hvc hxf (ht.within_of_foremost hvf)
      exact hv
    · -- the way down to `p` leads through the first entry
      obtain ⟨w, hw, hwp⟩ := Descent.below_iff_head.mp hbelow
      have hwf : Descent.Within t.children w f := (hwp.tail hx).within.trans hxf
      obtain rfl := ht.acyclic.eq_of_within ht.parent hw hvc hwf (ht.within_of_foremost hvf)
      exact ih hwp

namespace Wraps

section Wraps

variable {target : Layout} (h : Wraps t t' ws target)
include h

theorem mem_new (hd : d ∈ (t.con ws).nodesHead) : d ∈ t'.children t.nextCon :=
  List.mem_append_left _ (h.nodesNew ▸ hd)

theorem mem_ws : t.nextCon ∈ t'.children ws := List.mem_append_left _ (by simp [h.nodesWs])

/-- The new container has no floating children. -/
theorem children_new : t'.children t.nextCon = (t.con ws).nodesHead := by
  have hfloating : (t'.con t.nextCon).floatingHead = [] := by
    cases hf : (t'.con t.nextCon).floatingHead with
    | nil => rfl
    | cons y l =>
      have := h.healthy.layered.floating t.nextCon y (by simp [hf])
      rw [h.typeNew] at this
      cases this
  rw [children, h.nodesNew, hfloating, List.append_nil]

/-- What is below something in a tiling child was below it before. -/
theorem within_of_within (hd : d ∈ (t.con ws).nodesHead) (he : Descent.Within t'.children d e)
    (hx : Descent.Within t'.children e x) : Descent.Within t.children e x := by
  have hr := h.healthy.rooted
  have hdnew := h.mem_new hd
  have hbelow : Descent.Below t'.children ws d := (Descent.Below.single h.mem_ws).tail hdnew
  refine Descent.Within.transfer hx fun y z hey hz _ => ?_
  have hy := he.trans hey
  have hynew : y ≠ t.nextCon := by
    rintro rfl
    exact hr.acyclic.not_within (.single hdnew) hy
  have hyws : y ≠ ws := by
    rintro rfl
    exact hr.acyclic.not_within hbelow hy
  rwa [children, h.nodesHead y hynew hyws, h.floatingHead y hynew] at hz

theorem within (hd : d ∈ (t.con ws).nodesHead) (hx : Descent.Within t'.children d x) :
    Descent.Within t.children d x := h.within_of_within hd (.refl d) hx

/-- What is below the new container was below a tiling child. -/
theorem exists_of_below (hx : Descent.Below t'.children t.nextCon x) :
    x ≠ t.nextCon ∧ ∃ d ∈ (t.con ws).nodesHead, Descent.Within t.children d x := by
  obtain ⟨d, hd, hdx⟩ := Descent.below_iff_head.mp hx
  rw [h.children_new] at hd
  exact ⟨h.healthy.rooted.acyclic.ne hx, d, hd, h.within hd hdx⟩

variable (hb : Wrappable t ws)
include hb

/-- Above the new container are the workspace and what was above that. -/
theorem above (habove : ∀ a, Descent.Below t.children a ws → t.Upper a) (a : ConId)
    (ha : Descent.Below t'.children a t.nextCon) : t'.Upper a := by
  have hr := h.healthy.rooted
  have ht := hb.healthy.rooted
  have haws : Descent.Within t'.children a ws := Descent.within_parent hr.parent ha (hr.parent ws _ h.mem_ws)
  rcases Descent.within_iff.mp haws with rfl | hbelow
  · exact .inr (.inr (.inl (by rw [h.type ws hb.ne, hb.type])))
  · -- the way down to the workspace is as before
    have hnot : ∀ y, Descent.Below t'.children y ws → y ≠ t.nextCon ∧ y ≠ ws := by
      intro y hy
      refine ⟨?_, (hr.acyclic.ne hy).symm⟩
      rintro rfl
      exact hr.acyclic.not_within hy (Descent.Below.single h.mem_ws).within
    have hbefore : Descent.Within t.children a ws := by
      refine Descent.Within.transfer haws fun y z _ hz hzws => ?_
      obtain ⟨hynew, hyws⟩ := hnot y ((Descent.Below.single hz).trans_within hzws)
      rwa [children, h.nodesHead y hynew hyws, h.floatingHead y hynew] at hz
    obtain ⟨hanew, hane⟩ := hnot a hbelow
    have hbelow' : Descent.Below t.children a ws := (Descent.within_iff.mp hbefore).resolve_left (Ne.symm hane)
    have hanodes : a ∉ (t.con ws).nodesHead := fun hmem =>
      ht.acyclic.not_within (.single (List.mem_append_left _ hmem)) hbelow'.within
    rcases habove a hbelow' with hu | hu | hu | ⟨htype, o, ho, hlayout⟩
    · exact .inl (by rw [h.type a hanew, hu])
    · exact .inr (.inl (by rw [h.type a hanew, hu]))
    · exact .inr (.inr (.inl (by rw [h.type a hanew, hu])))
    · have honew : o ≠ t.nextCon := by
        have ha := ht.reach_of_within hb.reach hbelow'.within
        exact (ht.lt_nextCon (ht.reach_of_within ha (Descent.Below.single
          (ht.mem_children_of_parent ha ho)).within)).ne
      refine .inr (.inr (.inr ⟨by rw [h.type a hanew, htype], o, ?_, ?_⟩))
      · rw [h.parent a hanew hanodes, ho]
      · rw [h.layout o honew, hlayout]

/-- **The new container is a strip.** -/
theorem strip (htarget : target = .scrolling) (habove : ∀ a, Descent.Below t.children a ws → t.Upper a) :
    Strip t.nextCon ws t' :=
  ⟨h.healthy, (h.reach.tail h.mem_ws).within, h.typeNew, h.layoutNew.trans htarget, h.nodesWs, h.above hb habove⟩

/-- **The focus is in the first of the new columns**, if it is in one. -/
theorem orderly (hforemost : ∀ f ∈ t.focused, t.Foremost t.croot f)
    (htiling : ∀ d ∈ (t.con ws).nodesHead, ∀ x, Descent.Within t.children d x →
      (t.con x).type = .con ∧ t.isFloating x = false) : Orderly t.nextCon t' := by
  have ht := hb.healthy.rooted
  refine ⟨fun f hf x hx hxf => ?_, fun x hx => ?_⟩
  · rw [h.children_new] at hx
    have hmem : x ∈ t.children ws := List.mem_append_left _ hx
    have hhead := ht.mem_heads_of_foremost (hforemost f (h.focused ▸ hf)) hb.reach hmem (h.within hx hxf)
    rw [mem_heads] at hhead ⊢
    obtain ⟨l, hl⟩ := List.head?_eq_some_iff.mp hhead
    rw [h.focusNew, hl, List.filter_cons_of_pos (by simpa using hx), List.head?_cons]
  · obtain ⟨hxnew, d, hd, hdx⟩ := h.exists_of_below hx
    obtain ⟨htype, hfloating⟩ := htiling d hd x hdx
    rw [h.type x hxnew, isFloating, h.floating x hxnew]
    exact ⟨by simp [htype], hfloating⟩

end Wraps

end Wraps

/-! ### Redundant columns -/

/-- What makes a column redundant. -/
theorem redundant_column (hp : (t.con d).parent = some q) (hq : (t.con q).layout = .scrolling)
    (htype : (t.con d).type = .con) : t.redundant d = some (q, e) ↔ (t.con d).nodesHead = [e]
      ∧ (t.con d).window = none ∧ (t.con d).layout = .splitv ∧ (t.con e).layout = .splith
      ∧ (t.con e).nodesHead ≠ [] := by
  have hsplit : ∀ x, (t.con x).layout = .splith ∨ (t.con x).layout = .splitv →
      (t.isSplit x ↔ (t.con x).nodesHead ≠ []) := by
    rintro x (hx | hx)
    all_goals simp [isSplit, isLeaf, hx]
  constructor
  · intro hred
    unfold Tree.redundant at hred
    split at hred
    · next o f ho hnodes =>
      split at hred
      · next hif =>
        cases hred
        obtain ⟨-, -, hwindow, -, hsplite, hd, he, horient, hparent⟩ := hif
        simp only [orientation, hq] at hparent horient
        rcases he with he | he
        · rcases hd with hd | hd
          · simp [hd, he] at horient
          · exact ⟨hnodes, hwindow, hd, he, (hsplit e (.inl he)).mp hsplite⟩
        · simp [he] at hparent
      · cases hred
    · cases hred
  · rintro ⟨hnodes, hwindow, hd, he, hchildren⟩
    have hsplitd : t.isSplit d := (hsplit d (.inr hd)).mpr (by simp [hnodes])
    have hsplite : t.isSplit e := (hsplit e (.inl he)).mpr hchildren
    unfold Tree.redundant
    simp [hp, hnodes, htype, hq, hwindow, hd, he, hsplitd, hsplite, orientation]

/-- A container is redundant below its parent. -/
theorem redundant_parent (h : t.redundant d = some (p, e)) : (t.con d).parent = some p := by
  unfold Tree.redundant at h
  split at h
  · next o f ho _ =>
    split at h
    · cases h
      exact ho
    · cases h
  · cases h

/-! ### Entering the layout again -/

/-- Filling in `last_split_layout` is no part of what is left. -/
theorem Leaves.fillLastSplit (h : Leaves t t' sc) (c : ConId) : Leaves t (t'.fillLastSplit c) sc := by
  have hkeep : ∀ layout, Leaves t (t'.setLastSplitLayout c layout) sc := by
    intro layout
    have halters : Alters (fun _ => False) (fun _ => False) (fun _ => False) t' (t'.setLastSplitLayout c layout) :=
      .of_modify rfl rfl rfl (.inr rfl) (.inr rfl) (.inr rfl) (.inr rfl)
    refine ⟨h.links.trans (.of_modify t' c _ rfl rfl rfl rfl rfl rfl rfl), h.focus.trans (.of_modify t' c _ rfl),
      fun x => ?_, fun x => ?_, fun x => ?_, fun x hx => ?_⟩
    · rw [halters.layout, h.layout]
    · rw [halters.floating, h.floating]
    · rw [halters.window x id, h.window]
    · rw [halters.percent x id, h.percent x hx]
  rw [Tree.fillLastSplit]
  split
  · exact hkeep _
  · exact h

theorem fillLastSplit_percent (t : Tree) (c x : ConId) : ((t.fillLastSplit c).con x).percent = (t.con x).percent := by
  rw [fillLastSplit]
  split
  · rw [setLastSplitLayout, modify_con]
    split <;> rfl
  · rfl

/-- Other layouts than that of the container are as before. -/
theorem Leaves.layout_of_ne (h : Leaves t t' sc) (hx : x ≠ sc) : (t'.con x).layout = (t.con x).layout := by
  rw [h.layout, setLayout_layout, if_neg hx]

namespace Scrolled

variable {s : Tree} (h : t.Scrolled con ws sc)
include h

theorem type : (t.con ws).type = .workspace := (h.healthy.rooted.getWorkspace_spec h.reach h.workspace).1

theorem reach_ws : t.Reach ws :=
  h.healthy.rooted.reach_of_within h.reach (h.healthy.rooted.getWorkspace_spec h.reach h.workspace).2

theorem scrolling : (t.con sc).layout = .scrolling := (wsFindScrolling_spec h.found).1

theorem within : Descent.Within t.children ws sc := (wsFindScrolling_spec h.found).2

theorem widths_pos (hd : d ∈ (t.con sc).nodesHead) : 0 < (t.con d).percent :=
  lt_of_lt_of_le (by norm_num) (h.widths d hd).1

/-- The container above the same workspace. -/
theorem getWorkspace (hl : Leaves t s sc) : s.getWorkspace con = some ws := by
  have hwithin := (h.healthy.rooted.getWorkspace_spec h.reach h.workspace).2
  have hs := h.healthy.links hl.links
  exact hs.rooted.getWorkspace_eq hs.layered (hl.links.reach.mpr h.reach) (by rw [hl.links.type, h.type])
    (hl.links.within.mpr hwithin)

/-- The workspace is ready to get a new container. -/
theorem wrappable (hl : Leaves t s sc) : Wrappable s ws where
  healthy := h.healthy.links hl.links
  stacked := h.stacked.links hl.links
  reach := hl.links.reach.mpr h.reach_ws
  type := by rw [hl.links.type, h.type]
  notFloating := by rw [isFloating, hl.floating, ← isFloating, h.notFloating]
  plain d hd := by
    rw [hl.links.nodesHead] at hd
    rw [hl.links.type, isFloating, hl.floating]
    exact h.tiling d hd d (.refl d)

theorem above_leaves (hl : Leaves t s sc) (a : ConId) (ha : Descent.Below s.children a ws) : s.Upper a := by
  have hbelow : Descent.Below t.children a ws := ha.mono fun _ _ => hl.links.mem_children.mp
  rcases h.above a hbelow with hu | hu | hu | ⟨htype, o, ho, hlayout⟩
  · exact .inl (by rw [hl.links.type, hu])
  · exact .inr (.inl (by rw [hl.links.type, hu]))
  · exact .inr (.inr (.inl (by rw [hl.links.type, hu])))
  · have hne : o ≠ sc := by
      rintro rfl
      exact absurd (hlayout.symm.trans h.scrolling) nofun
    exact .inr (.inr (.inr ⟨by rw [hl.links.type, htype], o, by rw [hl.links.parent, ho],
      by rw [hl.layout_of_ne hne, hlayout]⟩))

theorem foremost_leaves (hl : Leaves t s sc) (f : ConId) (hf : f ∈ s.focused) : s.Foremost s.croot f := by
  rw [Foremost, hl.focus.heads, hl.links.croot]
  exact h.foremost f (hl.focus.focused ▸ hf)

theorem tiling_leaves (hl : Leaves t s sc) (d : ConId) (hd : d ∈ (s.con ws).nodesHead) (x : ConId)
    (hx : Descent.Within s.children d x) : (s.con x).type = .con ∧ s.isFloating x = false := by
  rw [hl.links.nodesHead] at hd
  rw [hl.links.type, isFloating, hl.floating]
  exact h.tiling d hd x (hl.links.within.mp hx)

end Scrolled

/-- The tree before it is flattened, and the new container. -/
structure Entered (t s t' : Tree) (ws sc : ConId) : Prop where
  leaves : Leaves t s sc
  wraps : Wraps s t' ws .scrolling
  wrappable : Wrappable s ws
  strip : Strip s.nextCon ws t'
  orderly : Orderly s.nextCon t'
  children : (t.con ws).nodesHead ≠ []
  layout : (s.con ws).layout ≠ .scrolling

/-- **Entering again** after leaving. -/
theorem Scrolled.entered {s : Tree} (h : t.Scrolled con ws sc) (hl : Leaves t s sc)
    (hnone : s.wsFindScrolling ws = none) (hne : (t.con ws).nodesHead ≠ []) :
    Entered t s (s.wrapChildren cfg ws .scrolling) ws sc := by
  have hb := h.wrappable hl
  have hw := @wraps_wrapChildren cfg s ws .scrolling hb
  refine ⟨hl, hw, hb, hw.strip hb rfl (h.above_leaves hl), hw.orderly hb (h.foremost_leaves hl) (h.tiling_leaves hl),
    hne, fun hlayout => ?_⟩
  rw [wsFindScrolling_self (Nat.zero_lt_of_lt hb.healthy.rooted.boundedRoot) hlayout] at hnone
  cases hnone

namespace Entered

variable {s : Tree} (he : Entered t s t' ws sc)
include he

theorem nodesNew : (t'.con s.nextCon).nodesHead = (t.con ws).nodesHead := by
  rw [he.wraps.nodesNew, he.leaves.links.nodesHead]

theorem old (hd : d ∈ (t.con ws).nodesHead) : d ≠ s.nextCon ∧ d ≠ ws := by
  have hmem : d ∈ s.children ws := List.mem_append_left _ (by rwa [he.leaves.links.nodesHead])
  have hs := he.wrappable.healthy.rooted
  exact ⟨(hs.bounded ws d hmem).ne, hs.acyclic.ne (.single hmem)⟩

/-- The fields of a container that the new one does not concern. -/
theorem nodesHead (hx : x ≠ s.nextCon) (hxws : x ≠ ws) : (t'.con x).nodesHead = (t.con x).nodesHead := by
  rw [he.wraps.nodesHead x hx hxws, he.leaves.links.nodesHead]

/-- What is below a tiling child is old, too. -/
theorem grandchild (hd : d ∈ (t.con ws).nodesHead) (hed : e ∈ (t.con d).nodesHead) : e ≠ s.nextCon ∧ e ≠ ws := by
  have hs := he.wrappable.healthy.rooted
  have hmem : d ∈ s.children ws := List.mem_append_left _ (by rwa [he.leaves.links.nodesHead])
  have hmem' : e ∈ s.children d := List.mem_append_left _ (by rwa [he.leaves.links.nodesHead])
  exact ⟨(hs.bounded d e hmem').ne, hs.acyclic.ne ((Descent.Below.single hmem).tail hmem')⟩

/-- **The new container is found**, also after flattening. -/
theorem found : ((t'.treeFlatten cfg t'.croot).treeRender cfg).wsFindScrolling ws = some s.nextCon := by
  obtain ⟨d, l, hdl⟩ := List.exists_cons_of_ne_nil he.children
  have hd : d ∈ (t'.con s.nextCon).nodesHead := by
    rw [he.nodesNew, hdl]
    exact List.mem_cons_self
  obtain ⟨hstrip, -⟩ := @nodesHead_treeFlatten cfg t' d s.nextCon ws he.strip hd
  -- the layout of the workspace stays
  have hroot : t'.redundant t'.croot = none := by
    refine (he.strip.above t'.croot ?_).redundant
    exact Descent.Within.tail he.wraps.reach he.strip.mem
  have hlayout := ((@treeFlattenN_spec cfg t' t'.croot t'.nextCon he.wraps.healthy (.refl _)).1 hroot).alters.layout ws
  have hrender := stirs_treeRender cfg (t'.treeFlatten cfg t'.croot)
  have hlt := hstrip.healthy.rooted.lt_nextCon hstrip.reach
  apply wsFindScrolling_only
  · rw [hrender.nextCon]
    exact lt_of_le_of_lt (Nat.zero_lt_of_lt he.wrappable.healthy.rooted.boundedRoot) hlt
  · rw [hrender.layout, treeFlatten, hlayout, he.wraps.layout ws he.wrappable.ne]
    exact he.layout
  · rw [hrender.nodesHead, hstrip.only]
  · rw [hrender.layout, hstrip.layout]

/-- **The columns afterwards.** -/
theorem nodesHead_new : (((t'.treeFlatten cfg t'.croot).treeRender cfg).con s.nextCon).nodesHead
    = (t.con ws).nodesHead.flatMap t'.unfolded := by
  obtain ⟨d, l, hdl⟩ := List.exists_cons_of_ne_nil he.children
  have hd : d ∈ (t'.con s.nextCon).nodesHead := by
    rw [he.nodesNew, hdl]
    exact List.mem_cons_self
  obtain ⟨-, hnodes⟩ := @nodesHead_treeFlatten cfg t' d s.nextCon ws he.strip hd
  rw [(stirs_treeRender cfg _).nodesHead, hnodes, he.nodesNew]

/-- **Whether the columns are kept**, put in terms of the new container. -/
theorem keepsColumns_iff : t.KeepsColumns cfg ((t'.treeFlatten cfg t'.croot).treeRender cfg) ws sc
    ↔ (t.con ws).nodesHead.flatMap t'.unfolded = (t.con sc).nodesHead
      ∧ ((t'.treeFlatten cfg t'.croot).treeRender cfg).tilingOrder s.nextCon = t.tilingOrder sc
      ∧ ∀ d ∈ (t.con sc).nodesHead,
        ((t'.treeFlatten cfg t'.croot).treeRender cfg).columnPercent cfg d = t.columnPercent cfg d := by
  constructor
  · rintro ⟨sc', hfound, hnodes, horder, hwidths⟩
    obtain rfl := Option.some_inj.mp (hfound.symm.trans he.found)
    exact ⟨he.nodesHead_new ▸ hnodes, horder, hwidths⟩
  · rintro ⟨hnodes, horder, hwidths⟩
    exact ⟨s.nextCon, he.found, he.nodesHead_new.trans hnodes, horder, hwidths⟩

/-- Whether a column is redundant. -/
theorem redundant_iff (hd : d ∈ (t.con ws).nodesHead) (htype : (t.con d).type = .con) :
    t'.redundant d = some (s.nextCon, e) ↔ (t.con d).nodesHead = [e] ∧ (t.con d).window = none
      ∧ ((t.setLayout sc .splith).con d).layout = .splitv ∧ ((t.setLayout sc .splith).con e).layout = .splith
      ∧ (t.con e).nodesHead ≠ [] := by
  obtain ⟨hnew, hdws⟩ := he.old hd
  have hr := he.wraps.healthy.rooted
  have hmem : d ∈ t'.children s.nextCon := List.mem_append_left _ (by rwa [he.nodesNew])
  rw [redundant_column (hr.parent s.nextCon d hmem) he.wraps.layoutNew (by
    rw [he.wraps.type d hnew, he.leaves.links.type, htype])]
  rw [he.nodesHead hnew hdws, he.wraps.window d hnew, he.leaves.window, he.wraps.layout d hnew, he.leaves.layout]
  refine and_congr_right fun hnodes => ?_
  obtain ⟨henew, hews⟩ := he.grandchild hd (e := e) (by simp [hnodes])
  rw [he.wraps.layout e henew, he.leaves.layout, he.nodesHead henew hews]

/-- A redundant column leaves something, and another leaves itself. -/
theorem unfolded_cases (hd : d ∈ (t.con ws).nodesHead) (htype : (t.con d).type = .con) :
    t'.redundant d = none ∧ t'.unfolded d = [d]
      ∨ ∃ e, t'.redundant d = some (s.nextCon, e) ∧ (t.con d).nodesHead = [e] ∧ (t.con e).nodesHead ≠ []
        ∧ t'.unfolded d = (t.con e).nodesHead := by
  have hmem : d ∈ t'.children s.nextCon := List.mem_append_left _ (by rwa [he.nodesNew])
  have hr := he.wraps.healthy.rooted
  unfold Tree.unfolded
  cases hred : t'.redundant d with
  | none => exact .inl ⟨rfl, rfl⟩
  | some r =>
    obtain ⟨o, e⟩ := r
    obtain rfl : o = s.nextCon :=
      Option.some_inj.mp ((redundant_parent hred).symm.trans (hr.parent s.nextCon d hmem))
    obtain ⟨hnodes, -, -, -, hne⟩ := (he.redundant_iff hd htype).mp hred
    obtain ⟨henew, hews⟩ := he.grandchild hd (e := e) (by simp [hnodes])
    exact .inr ⟨e, rfl, hnodes, hne, he.nodesHead henew hews⟩

/-! #### The workspace scrolled -/

omit he in
/-- The columns survive where each stays. -/
theorem whole_redundant (h : t.Scrolled con ws ws) (he : Entered t s t' ws ws) (hd : d ∈ (t.con ws).nodesHead) :
    t'.redundant d = none ↔ t.redundant d = none := by
  have htype := (h.tiling d hd d (.refl d)).1
  have hmem : d ∈ t.children ws := List.mem_append_left _ hd
  have ht := h.healthy.rooted
  have hr := he.wraps.healthy.rooted
  have hmem' : d ∈ t'.children s.nextCon := List.mem_append_left _ (by rwa [he.nodesNew])
  -- the workspace is the only container that gets another layout
  have hsame : ∀ e, t'.redundant d = some (s.nextCon, e) ↔ t.redundant d = some (ws, e) := by
    intro e
    rw [he.redundant_iff hd htype, redundant_column (ht.parent ws d hmem) h.scrolling htype]
    refine and_congr_right fun hnodes => ?_
    rw [setLayout_layout, setLayout_layout, if_neg (he.old hd).2,
      if_neg (he.grandchild hd (e := e) (by simp [hnodes])).2]
  rw [Option.eq_none_iff_forall_not_mem, Option.eq_none_iff_forall_not_mem]
  constructor
  · rintro hnot ⟨o, e⟩ hmemo
    obtain rfl : o = ws := Option.some_inj.mp ((redundant_parent hmemo).symm.trans (ht.parent ws d hmem))
    exact hnot _ ((hsame e).mpr hmemo)
  · rintro hnot ⟨o, e⟩ hmemo
    obtain rfl : o = s.nextCon :=
      Option.some_inj.mp ((redundant_parent hmemo).symm.trans (hr.parent s.nextCon d hmem'))
    exact hnot _ ((hsame e).mp hmemo)

omit he in
/-- The columns are the same where none of them is redundant. -/
theorem whole_flatMap (h : t.Scrolled con ws ws) (he : Entered t s t' ws ws) :
    (t.con ws).nodesHead.flatMap t'.unfolded = (t.con ws).nodesHead
      ↔ ∀ d ∈ (t.con ws).nodesHead, t.redundant d = none := by
  constructor
  · intro heq d hd
    rcases he.unfolded_cases hd (h.tiling d hd d (.refl d)).1 with ⟨hnone, -⟩ | ⟨e, -, hnodes, hne, hunfolded⟩
    · exact (whole_redundant h he hd).mp hnone
    · -- what a redundant column leaves was no column
      obtain ⟨x, l, hx⟩ := List.exists_cons_of_ne_nil hne
      have hxe : x ∈ (t.con e).nodesHead := by simp [hx]
      have hxws : x ∈ (t.con ws).nodesHead := by
        rw [← heq]
        exact List.mem_flatMap.mpr ⟨d, hd, by rwa [hunfolded]⟩
      have ht := h.healthy.rooted
      have heq' : e = ws := Option.some_inj.mp ((ht.parent e x (List.mem_append_left _ hxe)).symm.trans
        (ht.parent ws x (List.mem_append_left _ hxws)))
      exact absurd heq' (he.grandchild hd (by simp [hnodes])).2
  · intro hnone
    have hself : ∀ d ∈ (t.con ws).nodesHead, t'.unfolded d = [d] := by
      intro d hd
      rw [Tree.unfolded, (whole_redundant h he hd).mpr (hnone d hd)]
    rw [List.flatMap_congr hself, List.flatMap_singleton']

omit he in
/-- **The workspace scrolled**: each column stays, and the widths sum up to 1. -/
theorem whole_iff (h : t.Scrolled con ws ws) (he : Entered t s t' ws ws)
    (hpercent : ∀ d ∈ (t.con ws).nodesHead,
      (s.con d).percent = (t.con d).percent / t.percentSum (t.con ws).nodesHead) :
    t.KeepsColumns cfg ((t'.treeFlatten cfg t'.croot).treeRender cfg) ws ws
      ↔ (∀ d ∈ (t.con ws).nodesHead, t.redundant d = none) ∧ t.percentSum (t.con ws).nodesHead = 1 := by
  rw [he.keepsColumns_iff, whole_flatMap h he]
  refine and_congr_right fun hnone => ?_
  obtain ⟨d, l, hdl⟩ := List.exists_cons_of_ne_nil he.children
  have hd : d ∈ (t.con ws).nodesHead := by simp [hdl]
  have hnew := he.nodesNew
  have hun : Undisturbed s.nextCon t' (t'.treeFlatten cfg t'.croot) := by
    refine undisturbed_treeFlatten he.strip he.orderly (d := d) (hnew ▸ hd) fun e hmem => ?_
    rw [hnew] at hmem
    exact (whole_redundant h he hmem).mpr (hnone e hmem)
  obtain ⟨u, hu⟩ : ∃ u, t'.treeFlatten cfg t'.croot = u := ⟨_, rfl⟩
  rw [hu] at hun ⊢
  have hrender := stirs_treeRender cfg u
  -- the focus order of the new container is that of the tiling children
  have horder : (u.treeRender cfg).tilingOrder s.nextCon = t.tilingOrder ws := by
    rw [tilingOrder, tilingOrder, hrender.nodesHead, (sameFocus_treeRender u).focusHead, hun.nodesHead, hun.focusHead,
      hnew, he.wraps.focusNew, he.leaves.focus.focusHead, he.leaves.links.nodesHead, List.filter_filter]
    simp
  have hwidth : ∀ e ∈ (t.con ws).nodesHead, ((u.treeRender cfg).con e).percent
      = (t.con e).percent / t.percentSum (t.con ws).nodesHead := by
    intro e hmem
    rw [hrender.percent, hun.percent e (by rwa [hnew]), he.wraps.percent e (he.old hmem).1, hpercent e hmem]
  have hsum : 0 < t.percentSum (t.con ws).nodesHead := percentSum_pos he.children fun e hmem => h.widths_pos hmem
  have hcolumn : ∀ e ∈ (t.con ws).nodesHead, (u.treeRender cfg).columnPercent cfg e
      = (t.con e).percent / t.percentSum (t.con ws).nodesHead := by
    intro e hmem
    rw [columnPercent, hwidth e hmem, if_pos (div_pos (h.widths_pos hmem) hsum)]
  have hbefore : ∀ e ∈ (t.con ws).nodesHead, t.columnPercent cfg e = (t.con e).percent := fun e hmem => by
    rw [columnPercent, if_pos (h.widths_pos hmem)]
  constructor
  · rintro ⟨-, hwidths⟩
    have heq := hwidths d hd
    rw [hcolumn d hd, hbefore d hd, div_eq_iff hsum.ne'] at heq
    have hpos := (h.widths_pos hd).ne'
    exact (mul_right_eq_self₀.mp heq.symm).resolve_right hpos
  · intro hone
    refine ⟨horder, fun e hmem => ?_⟩
    rw [hcolumn e hmem, hbefore e hmem, hone, div_one]

/-! #### A container of the workspace scrolled -/

/-- The columns are the same only where the container is the only child of the only tiling child, and that
is redundant. -/
theorem exists_of_flatMap (h : t.Scrolled con ws sc) (hne : sc ≠ ws)
    (heq : (t.con ws).nodesHead.flatMap t'.unfolded = (t.con sc).nodesHead) :
    ∃ c, (t.con ws).nodesHead = [c] ∧ t'.redundant c = some (s.nextCon, sc) := by
  have ht := h.healthy.rooted
  have hsub : ∀ d ∈ (t.con ws).nodesHead, ∀ x ∈ t'.unfolded d, x ∈ (t.con sc).nodesHead := fun d hd x hx => by
    rw [← heq]
    exact List.mem_flatMap.mpr ⟨d, hd, hx⟩
  have hall : ∀ d ∈ (t.con ws).nodesHead, t'.redundant d = some (s.nextCon, sc) ∧ (t.con sc).parent = some d := by
    intro d hd
    rcases he.unfolded_cases hd (h.tiling d hd d (.refl d)).1 with ⟨-, hunfolded⟩ | ⟨e, hred, hnodes, hchildren, hunfolded⟩
    · -- a column that stays was a tiling child of the workspace
      have hmem := hsub d hd d (by rw [hunfolded]; exact List.mem_singleton_self d)
      exact absurd (Option.some_inj.mp ((ht.parent sc d (List.mem_append_left _ hmem)).symm.trans
        (ht.parent ws d (List.mem_append_left _ hd)))) hne
    · obtain ⟨x, l, hx⟩ := List.exists_cons_of_ne_nil hchildren
      have hxe : x ∈ (t.con e).nodesHead := by simp [hx]
      have hmem := hsub d hd x (by rwa [hunfolded])
      obtain rfl : e = sc := Option.some_inj.mp ((ht.parent e x (List.mem_append_left _ hxe)).symm.trans
        (ht.parent sc x (List.mem_append_left _ hmem)))
      exact ⟨hred, ht.parent d e (List.mem_append_left _ (by simp [hnodes]))⟩
  obtain ⟨c, l, hl⟩ := List.exists_cons_of_ne_nil he.children
  have hc := hall c (by simp [hl])
  refine ⟨c, ?_, hc.1⟩
  cases l with
  | nil => exact hl
  | cons d l =>
    -- a second tiling child would be the parent, too
    obtain rfl : c = d := Option.some_inj.mp (hc.2.symm.trans (hall d (by simp [hl])).2)
    have hnodup := ht.nodupNodes ws
    rw [hl] at hnodup
    simp at hnodup

/-- The strip when the container is in a redundant one. -/
theorem nested (h : t.Scrolled con ws sc) (hne : sc ≠ ws) (hnodes : (t.con ws).nodesHead = [c])
    (hred : t'.redundant c = some (s.nextCon, sc)) (hchild : (t.con c).nodesHead = [sc]) :
    Nested s.nextCon c sc (t.con sc).nodesHead (t.con sc).focusHead (t.con c).percent t' := by
  have ht := h.healthy.rooted
  have hcmem : c ∈ (t.con ws).nodesHead := by simp [hnodes]
  have hscmem : sc ∈ (t.con c).nodesHead := by simp [hchild]
  obtain ⟨hcnew, hcws⟩ := he.old hcmem
  obtain ⟨hscnew, -⟩ := he.grandchild hcmem hscmem
  have hsnodes := he.leaves.links.nodesHead ws
  have hcs : c ∈ (s.con ws).nodesHead := hsnodes ▸ hcmem
  have hwithin : Descent.Within t'.children c sc := by
    refine (Descent.Below.single (List.mem_append_left _ ?_)).within
    rwa [he.nodesHead hcnew hcws]
  have hcsc : c ∉ (t.con sc).nodesHead := fun hmem => ht.acyclic.not_within
    (.single (List.mem_append_left _ hscmem)) (Descent.Below.single (List.mem_append_left _ hmem)).within
  have hs := he.wrappable.healthy.rooted
  refine ⟨by rw [he.nodesNew, hnodes], ?_, hred, he.nodesHead hscnew hne, ?_, he.orderly, ?_, ?_⟩
  · -- the only tiling child
    have hperm := he.wrappable.tilingOrder_perm
    rw [hsnodes, hnodes] at hperm
    have horder := List.perm_singleton.mp hperm
    rw [tilingOrder] at horder
    rw [he.wraps.focusNew, horder]
  · rw [he.wraps.percent c hcnew, he.leaves.percent c hcsc]
  · rw [he.wraps.focusHead sc hscnew hne, he.leaves.focus.focusHead]
  · refine ⟨fun f hf x hx hxf => ?_, fun x hx => ?_⟩
    · have hx' : x ∈ s.children sc := by
        rwa [Tree.children, ← he.wraps.nodesHead sc hscnew hne, ← he.wraps.floatingHead sc hscnew]
      have hxf' := he.wraps.within_of_within hcs (hwithin.tail hx).within hxf
      have hscr : Descent.Within s.children s.croot sc :=
        he.wrappable.reach.trans (he.leaves.links.within.mpr h.within)
      have hhead := hs.mem_heads_of_foremost (h.foremost_leaves he.leaves f (he.wraps.focused ▸ hf)) hscr hx' hxf'
      rwa [mem_heads, he.wraps.focusHead sc hscnew hne, ← mem_heads]
    · have hnew : c ∈ t'.children s.nextCon := he.wraps.mem_new hcs
      exact he.orderly.plain x (((Descent.Below.single hnew).trans_within hwithin).trans hx)

/-- **A container of the workspace scrolled.** -/
theorem nested_iff (h : t.Scrolled con ws sc) (hne : sc ≠ ws) :
    t.KeepsColumns cfg ((t'.treeFlatten cfg t'.croot).treeRender cfg) ws sc ↔ t.SurvivesNested cfg ws sc := by
  have ht := h.healthy.rooted
  obtain ⟨d, hd, hdsc⟩ := wsFindScrolling_tiling h.found hne
  have htypesc := (h.tiling d hd sc hdsc).1
  -- nothing floats on a container that is no workspace
  have hfloating : (t.con sc).floatingHead = [] :=
    h.healthy.layered.floatingHead_eq_nil (by simp [htypesc])
  have horder : t.tilingOrder sc = (t.con sc).focusHead := by
    refine List.filter_eq_self.mpr fun x hx => ?_
    have hmem := ht.focus sc x hx
    rw [Tree.children, hfloating, List.append_nil] at hmem
    simpa using hmem
  -- what happens in the arrangement that survives
  have hafter : ∀ {c next f}, (t.con ws).nodesHead = [c] → t'.redundant c = some (s.nextCon, sc) →
      (t.con c).nodesHead = [sc] → (t.con sc).focusHead = next :: f →
      ((t'.treeFlatten cfg t'.croot).treeRender cfg).tilingOrder s.nextCon
          = next :: (t.con sc).nodesHead.erase next
        ∧ ∀ x ∈ (t.con sc).nodesHead,
          ((t'.treeFlatten cfg t'.croot).treeRender cfg).columnPercent cfg x = t.columnPercent cfg c := by
    intro c next f hnodes hred hchild hfocus
    have hnext : next ∈ (t.con sc).nodesHead := by
      have hmem := ht.focus sc next (by simp [hfocus])
      rwa [Tree.children, hfloating, List.append_nil] at hmem
    have hnested := he.nested h hne hnodes hred hchild
    rw [hfocus] at hnested
    obtain ⟨-, hemerged⟩ := @emerged_treeFlatten cfg _ _ _ _ _ _ _ _ _ he.strip hnested hnext
    have hrender := stirs_treeRender cfg (t'.treeFlatten cfg t'.croot)
    refine ⟨?_, fun x hx => ?_⟩
    · rw [tilingOrder, (sameFocus_treeRender _).focusHead, hrender.nodesHead, hemerged.nodesHead, hemerged.focusHead]
      refine List.filter_eq_self.mpr fun x hx => ?_
      rcases List.mem_cons.mp hx with rfl | hx
      · simpa using hnext
      · simpa using List.mem_of_mem_erase hx
    · rw [columnPercent, columnPercent, hrender.percent, hemerged.percent x hx]
  rw [he.keepsColumns_iff]
  constructor
  · rintro ⟨heq, hfocus, hwidths⟩
    obtain ⟨c, hnodes, hred⟩ := he.exists_of_flatMap h hne heq
    have hcmem : c ∈ (t.con ws).nodesHead := by simp [hnodes]
    obtain ⟨hchild, hwindow, hlayout, -, hchildren⟩ :=
      (he.redundant_iff hcmem (h.tiling c hcmem c (.refl c)).1).mp hred
    have hcsc : c ≠ sc := (ht.acyclic.ne (.single (List.mem_append_left _ (by simp [hchild])))).symm
    rw [setLayout_layout, if_neg hcsc] at hlayout
    obtain ⟨x, l, hx⟩ := List.exists_cons_of_ne_nil hchildren
    obtain ⟨next, f, hf⟩ := List.exists_cons_of_ne_nil (List.ne_nil_of_mem
      (h.stacked sc (List.mem_append_left _ (show x ∈ (t.con sc).nodesHead by simp [hx]))))
    obtain ⟨hafter, hpercent⟩ := hafter hnodes hred hchild hf
    refine ⟨c, hnodes, hchild, hlayout, hwindow, fun e hmem => ?_, next, hfocus.symm.trans hafter⟩
    rw [← hwidths e hmem, hpercent e hmem]
  · rintro ⟨c, hnodes, hchild, hlayout, hwindow, hwidths, next, hfocus⟩
    have hcmem : c ∈ (t.con ws).nodesHead := by simp [hnodes]
    have hcsc : c ≠ sc := (ht.acyclic.ne (.single (List.mem_append_left _ (by simp [hchild])))).symm
    have hnext : next ∈ (t.con sc).nodesHead := by
      have hmem : next ∈ t.tilingOrder sc := by simp [hfocus]
      simpa using (List.mem_filter.mp hmem).2
    have hred : t'.redundant c = some (s.nextCon, sc) := by
      refine (he.redundant_iff hcmem (h.tiling c hcmem c (.refl c)).1).mpr ⟨hchild, hwindow, ?_, ?_, ?_⟩
      · rw [setLayout_layout, if_neg hcsc, hlayout]
      · rw [setLayout_layout, if_pos rfl]
      · exact List.ne_nil_of_mem hnext
    obtain ⟨hafter, hpercent⟩ := hafter hnodes hred hchild (horder.symm.trans hfocus)
    have hunfolded : t'.unfolded c = (t.con sc).nodesHead := by
      obtain ⟨hscnew, -⟩ := he.grandchild hcmem (e := sc) (by simp [hchild])
      unfold Tree.unfolded
      rw [hred]
      exact he.nodesHead hscnew hne
    refine ⟨by rw [hnodes, List.flatMap_singleton, hunfolded], hafter.trans hfocus.symm, fun e hmem => ?_⟩
    rw [hpercent e hmem, hwidths e hmem]

end Entered

/-! ### Toggling -/

theorem toggle_leave (hw : t.getWorkspace con = some ws) (hsc : t.wsFindScrolling ws = some sc) :
    t.scrollingToggleLayout cfg con = (t.leaveScrolling ws sc).treeRender cfg := by
  rw [scrollingToggleLayout, hw]
  dsimp only
  rw [hsc]

theorem toggle_enter (hw : t.getWorkspace con = some ws) (hnone : t.wsFindScrolling ws = none) :
    t.scrollingToggleLayout cfg con = (t.conSetLayout cfg ws .scrolling).treeRender cfg := by
  rw [scrollingToggleLayout, hw]
  dsimp only
  rw [hnone]

/-- `con_set_layout` for the workspace, or for one of its children. -/
theorem conSetLayout_wrap {layout : Layout} (htype : (t.con ws).type = .workspace)
    (hne : (t.con ws).nodesHead ≠ [])
    (hcon : (if (t.con con).type = .workspace then some con else (t.con con).parent) = some ws) :
    t.conSetLayout cfg con layout = ((t.fillLastSplit ws).wrapChildren cfg ws layout).treeFlatten cfg
      ((t.fillLastSplit ws).wrapChildren cfg ws layout).croot := by
  have hfill : ((t.fillLastSplit ws).con ws).type = .workspace
      ∧ ((t.fillLastSplit ws).con ws).nodesHead = (t.con ws).nodesHead := by
    rw [fillLastSplit]
    split
    · simp [setLastSplitLayout, htype]
    · exact ⟨htype, rfl⟩
  have hnum : (t.fillLastSplit ws).numChildren ws ≠ 0 := by
    rw [numChildren, hfill.2]
    exact fun h => hne (List.length_eq_zero_iff.mp h)
  rw [conSetLayout, hcon]
  dsimp only
  rw [if_pos hfill.1, if_neg hnum]

/-- The layout of an empty workspace. -/
theorem conSetLayout_empty (htype : (t.con ws).type = .workspace) (hnil : (t.con ws).nodesHead = []) :
    ((t.conSetLayout cfg ws .scrolling).con ws).layout = .scrolling
      ∧ ((t.conSetLayout cfg ws .scrolling).con ws).nodesHead = []
      ∧ (t.conSetLayout cfg ws .scrolling).nextCon = t.nextCon := by
  have hfill : ((t.fillLastSplit ws).con ws).type = .workspace
      ∧ ((t.fillLastSplit ws).con ws).nodesHead = [] ∧ (t.fillLastSplit ws).nextCon = t.nextCon := by
    rw [fillLastSplit]
    split
    · exact ⟨by simp [setLastSplitLayout, htype], by simp [setLastSplitLayout, hnil], rfl⟩
    · exact ⟨htype, hnil, rfl⟩
  have hnum : (t.fillLastSplit ws).numChildren ws = 0 := by rw [numChildren, hfill.2.1, List.length_nil]
  rw [conSetLayout, if_pos htype]
  dsimp only
  rw [if_pos hfill.1, if_pos hnum]
  refine ⟨?_, ?_, hfill.2.2⟩
  · simp [assignLayout, setLayout]
  · simp [assignLayout, setLayout, setWorkspaceLayout, hfill.2.1]

theorem wsFindScrolling_congr (hlayout : ∀ x, (t'.con x).layout = (t.con x).layout)
    (hnodes : ∀ x, (t'.con x).nodesHead = (t.con x).nodesHead) (hnext : t'.nextCon = t.nextCon) :
    t'.wsFindScrolling ws = t.wsFindScrolling ws := by
  rw [wsFindScrolling, wsFindScrolling, hnext]
  exact wsFindScrollingN_congr hlayout hnodes _ ws

/-- Leaving is looked for in the tree with the other layout. -/
theorem Leaves.wsFindScrolling (h : Leaves t t' sc) :
    t'.wsFindScrolling ws = (t.setLayout sc .splith).wsFindScrolling ws := by
  have hl := links_setLayout (t := t) sc .splith
  refine wsFindScrolling_congr h.layout (fun x => ?_) ?_
  · rw [h.links.nodesHead, hl.nodesHead]
  · rw [h.links.nextCon, hl.nextCon]

/-- **Leaving twice**, where two containers of the workspace scroll. -/
theorem keepsColumns_leave {t'' : Tree} {sc₂ : ConId} (h : t.Scrolled con ws sc) (hl : Leaves t t' sc)
    (hl' : Leaves t' t'' sc₂) : t.KeepsColumns cfg t'' ws sc ↔ (t.con sc).nodesHead = []
      ∧ ∃ sc₃, ((t.setLayout sc .splith).setLayout sc₂ .splith).wsFindScrolling ws = some sc₃
        ∧ (t.con sc₃).nodesHead = [] := by
  have hfind : t''.wsFindScrolling ws = ((t.setLayout sc .splith).setLayout sc₂ .splith).wsFindScrolling ws := by
    have hl₁ := links_setLayout (t := t) sc .splith
    have hl₂ := links_setLayout (t := t.setLayout sc .splith) sc₂ .splith
    refine wsFindScrolling_congr (fun x => ?_) (fun x => ?_) ?_
    · rw [hl'.layout, setLayout_layout, setLayout_layout, hl.layout]
    · rw [hl'.links.nodesHead, hl.links.nodesHead, hl₂.nodesHead, hl₁.nodesHead]
    · rw [hl'.links.nextCon, hl.links.nextCon, hl₂.nextCon, hl₁.nextCon]
  have hnodes : ∀ x, (t''.con x).nodesHead = (t.con x).nodesHead := fun x => by
    rw [hl'.links.nodesHead, hl.links.nodesHead]
  have ht := h.healthy.rooted
  rw [KeepsColumns, hfind]
  constructor
  · rintro ⟨sc₃, hfound, hcolumns, -, -⟩
    rw [hnodes] at hcolumns
    have hnil : (t.con sc).nodesHead = [] := by
      cases hc : (t.con sc).nodesHead with
      | nil => rfl
      | cons d l =>
        -- a column has one parent, and neither of the two containers scrolls any more
        have hd : d ∈ (t.con sc).nodesHead := by simp [hc]
        obtain rfl : sc₃ = sc := Option.some_inj.mp ((ht.parent sc₃ d
          (List.mem_append_left _ (hcolumns ▸ hd))).symm.trans (ht.parent sc d (List.mem_append_left _ hd)))
        have hscrolls := (wsFindScrolling_spec hfound).1
        rw [setLayout_layout, setLayout_layout, if_pos rfl] at hscrolls
        split at hscrolls
        · cases hscrolls
        · cases hscrolls
    exact ⟨hnil, sc₃, hfound, hcolumns.trans hnil⟩
  · rintro ⟨hnil, sc₃, hfound, hnil₃⟩
    refine ⟨sc₃, hfound, by rw [hnodes, hnil₃, hnil], ?_, fun d hd => ?_⟩
    · simp [tilingOrder, hnodes, hnil, hnil₃]
    · rw [hnil] at hd
      cases hd

/-- **Toggling the scrolling layout twice** keeps the columns, their focus order and their widths exactly
where they survive. -/
theorem keepsColumns_toggle_iff (cfg : Config) (t : Tree) (con ws sc : ConId) (h : t.Scrolled con ws sc) :
    t.KeepsColumns cfg ((t.scrollingToggleLayout cfg con).scrollingToggleLayout cfg con) ws sc
      ↔ t.Survives cfg ws sc := by
  have ht := h.healthy.rooted
  have hl := leaves_leaveScrolling cfg t ws sc
  have hpercent : ∀ {d}, d ∈ (t.con sc).nodesHead → (((t.leaveScrolling ws sc).treeRender cfg).con d).percent
      = (t.con d).percent / t.percentSum (t.con sc).nodesHead :=
    percent_leaveScrolling ht fun e he => h.widths_pos he
  rw [toggle_leave h.workspace h.found]
  obtain ⟨t₁, ht₁⟩ : ∃ t₁, (t.leaveScrolling ws sc).treeRender cfg = t₁ := ⟨_, rfl⟩
  rw [ht₁] at hl hpercent ⊢
  have hw := h.getWorkspace hl
  have htype : (t₁.con ws).type = .workspace := by rw [hl.links.type, h.type]
  unfold Survives
  rw [← hl.wsFindScrolling]
  cases hfind : t₁.wsFindScrolling ws with
  | some sc₂ =>
    rw [toggle_leave hw hfind]
    exact keepsColumns_leave h hl (leaves_leaveScrolling cfg t₁ ws sc₂)
  | none =>
    rw [toggle_enter hw hfind]
    dsimp only
    by_cases hnil : (t.con ws).nodesHead = []
    · -- the workspace itself scrolls, and has no columns
      obtain rfl : sc = ws := by
        by_contra hne
        obtain ⟨d, hd, -⟩ := wsFindScrolling_tiling h.found hne
        rw [hnil] at hd
        cases hd
      obtain ⟨hlayout, hnodes, hnext⟩ := @conSetLayout_empty cfg _ _ htype (by rw [hl.links.nodesHead, hnil])
      have hrender := stirs_treeRender cfg (t₁.conSetLayout cfg sc .scrolling)
      refine iff_of_true ⟨sc, ?_, ?_, ?_, fun d hd => ?_⟩ (.inl ⟨rfl, .inl hnil⟩)
      · apply wsFindScrolling_self
        · rw [hrender.nextCon, hnext, hl.links.nextCon]
          exact Nat.zero_lt_of_lt ht.boundedRoot
        · rw [hrender.layout, hlayout]
      · rw [hrender.nodesHead, hnodes, hnil]
      · simp [tilingOrder, hrender.nodesHead, hnodes, hnil]
      · rw [hnil] at hd
        cases hd
    · rw [conSetLayout_wrap htype (by rwa [hl.links.nodesHead]) (if_pos htype)]
      have hl' := hl.fillLastSplit ws
      have hnone : (t₁.fillLastSplit ws).wsFindScrolling ws = none := by
        rw [hl'.wsFindScrolling, ← hl.wsFindScrolling, hfind]
      have hentered := @Scrolled.entered cfg _ _ _ _ _ h hl' hnone hnil
      by_cases hsc : sc = ws
      · subst hsc
        rw [hentered.whole_iff h fun d hd => by rw [fillLastSplit_percent, hpercent hd]]
        simp [SurvivesWhole, hnil]
      · rw [hentered.nested_iff h hsc]
        simp [hsc]

/-- A scrolling workspace with two columns, the first half as wide as the viewport. -/
def strip (p : ℚ) : Tree := ofList [
  { type := .root, nodesHead := [1], focusHead := [1] },
  { type := .output, layout := .output, parent := some 0, nodesHead := [2], focusHead := [2] },
  { layout := .splith, parent := some 1, nodesHead := [3], focusHead := [3] },
  { type := .workspace, layout := .scrolling, name := "1", fullscreenMode := .output, parent := some 2,
    rect := { width := 1000, height := 500 }, nodesHead := [4, 5], focusHead := [5, 4] },
  { layout := .splith, parent := some 3, percent := 1 / 2, window := some { id := 4 } },
  { layout := .splith, parent := some 3, percent := p, window := some { id := 5 } }] (some 5)

theorem rooted_strip (p : ℚ) (hp : p ∈ [1 / 2, 4 / 5]) : Rooted (strip p) := by
  refine rooted_ofList ?_ ?_
  · revert p
    decide +kernel
  · revert p
    decide +kernel

theorem scrolled_strip (p : ℚ) (hp : p ∈ [1 / 2, 4 / 5]) : (strip p).Scrolled 5 3 3 := by
  have ht := rooted_strip p hp
  have hall : ∀ p ∈ [1 / 2, 4 / 5], (∀ q < 6, ∀ c ∈ (strip p).children q, q < c)
      ∧ (∀ d ∈ [4, 5], (strip p).children d = [] ∧ ((strip p).con d).type = .con ∧ (strip p).isFloating d = false)
      ∧ List.IsChain (fun q c => c ∈ (strip p).children q) [0, 1, 2, 3, 5]
      ∧ List.IsChain (fun q c => c ∈ (strip p).heads q) [0, 1, 2, 3, 5]
      ∧ (strip p).getWorkspace 5 = some 3 ∧ (strip p).wsFindScrolling 3 = some 3
      ∧ ∀ d ∈ ((strip p).con 3).nodesHead, 1 / 20 ≤ ((strip p).con d).percent ∧ ((strip p).con d).percent ≤ 4 := by
    decide +kernel
  obtain ⟨hlist, hleaf, hchain, hheads, hworkspace, hfound, hwidths⟩ := hall p hp
  have hchildren : ∀ q, ∀ c ∈ (strip p).children q, q < c := by
    intro q c hc
    by_cases hq : q < 6
    · exact hlist q hq c hc
    · rw [strip, children, ofList_con hq] at hc
      cases hc
  refine ⟨healthy_ofList (3 < ·) ht ?_, stacked_ofList ?_, reach_of_isChain reach_croot hchain (by simp), hworkspace,
    hfound, fun a ha => ?_, rfl, fun d hd x hx => ?_, fun f hf => ?_, hwidths⟩
  · clear ht hchildren hlist hleaf hchain hheads hworkspace hfound hwidths
    revert p
    decide +kernel
  · clear ht hchildren hlist hleaf hchain hheads hworkspace hfound hwidths
    revert p
    decide +kernel
  · have hlt := Descent.lt_of_below hchildren ha
    rcases a with - | - | - | a
    · exact .inl rfl
    · exact .inr (.inl rfl)
    · exact .inr (.inr (.inr ⟨rfl, 1, rfl, rfl⟩))
    · exact absurd hlt (Nat.not_lt.mpr (Nat.le_add_left 3 a))
  · obtain ⟨hnil, hplain⟩ := hleaf d hd
    rcases Descent.within_iff.mp hx with rfl | hbelow
    · exact hplain
    · obtain ⟨c, hc, -⟩ := Descent.below_iff_head.mp hbelow
      rw [hnil] at hc
      cases hc
  · obtain rfl : 5 = f := Option.some_inj.mp hf
    simp only [List.isChain_cons_cons] at hheads
    obtain ⟨h₁, h₂, h₃, h₄, -⟩ := hheads
    exact .head h₁ (.head h₂ (.head h₃ (.head h₄ .refl)))

/-- Two columns that fill the viewport are the same after toggling twice. -/
theorem keepsColumns_strip :
    (strip (1 / 2)).KeepsColumns {} (((strip (1 / 2)).scrollingToggleLayout {} 5).scrollingToggleLayout {} 5) 3 3 := by
  refine (keepsColumns_toggle_iff {} (strip (1 / 2)) 5 3 3 (scrolled_strip _ (by decide +kernel))).mpr ?_
  have hnone : ((strip (1 / 2)).setLayout 3 .splith).wsFindScrolling 3 = none := by decide +kernel
  rw [Survives, hnone]
  exact .inl ⟨rfl, .inr ⟨by decide +kernel, by decide +kernel⟩⟩

/-- Two columns that are wider than the viewport are narrower afterwards. -/
theorem not_keepsColumns_strip : ¬ ∀ (t : Tree) (con ws sc : ConId), t.Scrolled con ws sc →
    t.KeepsColumns {} ((t.scrollingToggleLayout {} con).scrollingToggleLayout {} con) ws sc := by
  intro h
  obtain ⟨sc', -, -, -, hwidths⟩ := h (strip (4 / 5)) 5 3 3 (scrolled_strip _ (by decide +kernel))
  have hwidth := hwidths 4 (by decide +kernel)
  exact absurd hwidth (by decide +kernel)

end Tree

end I3
