import Mathlib.Algebra.Order.Ring.Rat
import I3Aiwr.Tree.Query
import I3Aiwr.Tree.Scrolling

/-!
# Editing the tree

The functions of `src/con.c` and `src/workspace.c` that make, attach, detach and free containers
and distribute the space among the children of one. A function that would follow a `NULL` pointer
in the source leaves the tree as it is.

## Main definitions

* `Tree.conNew`, `Tree.conFree`
* `Tree.conAttachAt`: `_con_attach`, with `Tree.conAttach` for `con_attach`
* `Tree.conDetach`
* `Tree.conFixPercent`
* `Tree.workspaceAttachTo`, `Tree.workspaceEncapsulate`, `Tree.wsForceOrientation`
-/

namespace I3

/-- `strcasecmp`. -/
def strcasecmp (a b : String) : Ordering := compare a.toLower b.toLower

/-- `strcasecmp_nullable`. -/
def strcasecmpNullable : Option String → Option String → Ordering
  | none, none => .eq
  | none, some _ => .lt
  | some _, none => .gt
  | some a, some b => strcasecmp a b

namespace Tree

variable (cfg : Config) (t : Tree)

/-! ### Making and freeing -/

/-- `con_new` without a parent. -/
def conNew (window : Option Window) : Tree × ConId :=
  ({ t with
      con := Function.update t.con t.nextCon { window, borderStyle := cfg.defaultBorder }
      allCons := t.allCons ++ [t.nextCon]
      nextCon := t.nextCon + 1 }, t.nextCon)

/-- `con_free`. Only the scroll of a workspace is forgotten. -/
def conFree (c : ConId) : Tree :=
  let t' := { t with allCons := t.allCons.erase c }
  if (t.con c).type = .workspace then t'.scrollingForget c else t'

/-! ### The percentages -/

def setPercent (c : ConId) (p : ℚ) : Tree := t.modify c fun d => { d with percent := p }

/-- The first loop: the sum of the positive percentages, and how many there are. -/
def percentTotal : List ConId → ℚ × ℕ → ℚ × ℕ
  | [], acc => acc
  | child :: rest, (total, n) =>
    percentTotal rest
      (if (t.con child).percent > 0 then (total + (t.con child).percent, n + 1) else (total, n))

/-- The second loop, over the children without a percentage. The total grows as it goes. -/
def percentFill (n : ℕ) : List ConId → Tree → ℚ → Tree × ℚ
  | [], t, total => (t, total)
  | child :: rest, t, total =>
    if (t.con child).percent ≤ 0 then
      let p := if n = 0 then 1 else total / n
      percentFill n rest (t.setPercent child p) (total + p)
    else percentFill n rest t total

/-- The last loop: equal shares where the total is zero, otherwise the shares of the total. -/
def percentScale (nodes : List ConId) : Tree × ℚ → Tree
  | (t, total) =>
    if total = 0 then nodes.foldl (fun t child => t.setPercent child (1 / nodes.length)) t
    else if total ≠ 1 then
      nodes.foldl (fun t child => t.setPercent child ((t.con child).percent / total)) t
    else t

/-- `con_fix_percent`: the percentages of the children sum up to 1 afterwards. In a scrolling
container they are independent. -/
def conFixPercent (c : ConId) : Tree :=
  if (t.con c).layout = .scrolling then t
  else
    let nodes := (t.con c).nodesHead
    let (total, n) := t.percentTotal nodes (0, 0)
    percentScale nodes (if n ≠ nodes.length then percentFill n nodes t total else (t, total))

/-! ### Attaching and detaching -/

def setParent (c p : ConId) : Tree := t.modify c fun d => { d with parent := some p }

/-- The queue of tiling children of `p`, edited. -/
def editNodes (p : ConId) (f : List ConId → List ConId) : Tree :=
  t.modify p fun d => { d with nodesHead := f d.nodesHead }

def editFloating (p : ConId) (f : List ConId → List ConId) : Tree :=
  t.modify p fun d => { d with floatingHead := f d.floatingHead }

def editFocus (p : ConId) (f : List ConId → List ConId) : Tree :=
  t.modify p fun d => { d with focusHead := f d.focusHead }

section Fields

variable (c p d : ConId) (f : List ConId → List ConId)

@[simp] theorem setParent_type : ((t.setParent c p).con d).type = (t.con d).type := by
  rw [setParent, modify_con]
  split <;> rfl
@[simp] theorem setParent_fullscreenMode :
    ((t.setParent c p).con d).fullscreenMode = (t.con d).fullscreenMode := by
  rw [setParent, modify_con]
  split <;> rfl
@[simp] theorem setParent_sticky : ((t.setParent c p).con d).sticky = (t.con d).sticky := by
  rw [setParent, modify_con]
  split <;> rfl
@[simp] theorem setParent_parent :
    ((t.setParent c p).con d).parent = if d = c then some p else (t.con d).parent := by
  rw [setParent, modify_con]
  split <;> rfl
@[simp] theorem setParent_nodesHead :
    ((t.setParent c p).con d).nodesHead = (t.con d).nodesHead := by
  rw [setParent, modify_con]
  split <;> rfl
@[simp] theorem setParent_floatingHead :
    ((t.setParent c p).con d).floatingHead = (t.con d).floatingHead := by
  rw [setParent, modify_con]
  split <;> rfl
@[simp] theorem setParent_focusHead :
    ((t.setParent c p).con d).focusHead = (t.con d).focusHead := by
  rw [setParent, modify_con]
  split <;> rfl

@[simp] theorem editNodes_type : ((t.editNodes p f).con d).type = (t.con d).type := by
  rw [editNodes, modify_con]
  split <;> rfl
@[simp] theorem editNodes_fullscreenMode :
    ((t.editNodes p f).con d).fullscreenMode = (t.con d).fullscreenMode := by
  rw [editNodes, modify_con]
  split <;> rfl
@[simp] theorem editNodes_sticky : ((t.editNodes p f).con d).sticky = (t.con d).sticky := by
  rw [editNodes, modify_con]
  split <;> rfl
@[simp] theorem editNodes_parent : ((t.editNodes p f).con d).parent = (t.con d).parent := by
  rw [editNodes, modify_con]
  split <;> rfl
@[simp] theorem editNodes_nodesHead :
    ((t.editNodes p f).con d).nodesHead =
      if d = p then f (t.con d).nodesHead else (t.con d).nodesHead := by
  rw [editNodes, modify_con]
  split <;> rfl
@[simp] theorem editNodes_floatingHead :
    ((t.editNodes p f).con d).floatingHead = (t.con d).floatingHead := by
  rw [editNodes, modify_con]
  split <;> rfl
@[simp] theorem editNodes_focusHead :
    ((t.editNodes p f).con d).focusHead = (t.con d).focusHead := by
  rw [editNodes, modify_con]
  split <;> rfl

@[simp] theorem editFloating_type : ((t.editFloating p f).con d).type = (t.con d).type := by
  rw [editFloating, modify_con]
  split <;> rfl
@[simp] theorem editFloating_fullscreenMode :
    ((t.editFloating p f).con d).fullscreenMode = (t.con d).fullscreenMode := by
  rw [editFloating, modify_con]
  split <;> rfl
@[simp] theorem editFloating_sticky : ((t.editFloating p f).con d).sticky = (t.con d).sticky := by
  rw [editFloating, modify_con]
  split <;> rfl
@[simp] theorem editFloating_parent : ((t.editFloating p f).con d).parent = (t.con d).parent := by
  rw [editFloating, modify_con]
  split <;> rfl
@[simp] theorem editFloating_nodesHead :
    ((t.editFloating p f).con d).nodesHead = (t.con d).nodesHead := by
  rw [editFloating, modify_con]
  split <;> rfl
@[simp] theorem editFloating_floatingHead :
    ((t.editFloating p f).con d).floatingHead =
      if d = p then f (t.con d).floatingHead else (t.con d).floatingHead := by
  rw [editFloating, modify_con]
  split <;> rfl
@[simp] theorem editFloating_focusHead :
    ((t.editFloating p f).con d).focusHead = (t.con d).focusHead := by
  rw [editFloating, modify_con]
  split <;> rfl

@[simp] theorem editFocus_type : ((t.editFocus p f).con d).type = (t.con d).type := by
  rw [editFocus, modify_con]
  split <;> rfl
@[simp] theorem editFocus_fullscreenMode :
    ((t.editFocus p f).con d).fullscreenMode = (t.con d).fullscreenMode := by
  rw [editFocus, modify_con]
  split <;> rfl
@[simp] theorem editFocus_sticky : ((t.editFocus p f).con d).sticky = (t.con d).sticky := by
  rw [editFocus, modify_con]
  split <;> rfl
@[simp] theorem editFocus_parent : ((t.editFocus p f).con d).parent = (t.con d).parent := by
  rw [editFocus, modify_con]
  split <;> rfl
@[simp] theorem editFocus_nodesHead :
    ((t.editFocus p f).con d).nodesHead = (t.con d).nodesHead := by
  rw [editFocus, modify_con]
  split <;> rfl
@[simp] theorem editFocus_floatingHead :
    ((t.editFocus p f).con d).floatingHead = (t.con d).floatingHead := by
  rw [editFocus, modify_con]
  split <;> rfl
@[simp] theorem editFocus_focusHead :
    ((t.editFocus p f).con d).focusHead =
      if d = p then f (t.con d).focusHead else (t.con d).focusHead := by
  rw [editFocus, modify_con]
  split <;> rfl

end Fields

/-- Where a workspace goes: numbered ones in order, before the named ones. -/
def insertWorkspace (c : ConId) (l : List ConId) : List ConId :=
  if (t.con c).num = -1 then l ++ [c]
  else
    let before := fun d => (t.con d).num ≠ -1 ∧ (t.con c).num ≥ (t.con d).num
    l.takeWhile before ++ c :: l.dropWhile before

/-- A dock client sorts before another by the class, then by the instance. -/
def dockBefore (c d : ConId) : Bool :=
  match (t.con c).window, (t.con d).window with
  | some v, some w =>
    (strcasecmpNullable v.classClass w.classClass).then
      (strcasecmpNullable v.classInstance w.classInstance) = .lt
  | _, _ => false

/-- Where a dock client goes. -/
def insertDock (c : ConId) (l : List ConId) : List ConId :=
  match l.find? (t.dockBefore c) with
  | some d => Queue.insertBefore d c l
  | none => l ++ [c]

/-- The first tiling container in the focus stack. -/
def focusedTiling (p : ConId) : Option ConId :=
  (t.con p).focusHead.find? fun d => (t.con d).type ≠ .floatingCon

/-- `_con_attach` but for the `workspace_layout` of its parent. -/
def attachPlain (c p : ConId) (previous : Option ConId) (ignoreFocus : Bool) : Tree :=
  let t := t.setParent c p
  let t :=
    if (t.con c).type = .workspace then t.editNodes p (t.insertWorkspace c)
    else if (t.con p).type = .dockarea then t.editNodes p (t.insertDock c)
    else if (t.con c).type = .floatingCon then t.editFloating p (· ++ [c])
    else
      let current := if ignoreFocus then previous else (t.focusedTiling p).or previous
      match current with
      | some d => if (t.con p).type = .output then t.editNodes p (· ++ [c])
        else t.editNodes p (Queue.insertAfter d c)
      | none => t.editNodes p (· ++ [c])
  t.editFocus p (· ++ [c])

def setLayout (c : ConId) (layout : Layout) : Tree := t.modify c fun d => { d with layout }

/-- `workspace_attach_to`: the workspace itself, or a new split container with the configured
layout. -/
def workspaceAttachTo (ws : ConId) : Tree × ConId :=
  if (t.con ws).workspaceLayout = .default then (t, ws)
  else
    let (t, new) := t.conNew cfg none
    let t := (t.setParent new ws).setLayout new (t.con ws).workspaceLayout
    ((t.attachPlain new ws none false).conFixPercent ws, new)

/-- `_con_attach` follows the `workspace_layout` of the parent: a tiling window goes to a workspace
that has one. -/
def followsWorkspaceLayout (c p : ConId) : Prop :=
  (t.con c).type ≠ .workspace ∧ (t.con p).type = .workspace ∧ (t.con c).type ≠ .floatingCon
    ∧ (t.con c).window.isSome ∧ (t.con p).workspaceLayout ≠ .default

instance (c p : ConId) : Decidable (t.followsWorkspaceLayout c p) :=
  inferInstanceAs (Decidable (_ ∧ _ ∧ _ ∧ _ ∧ _))

/-- `_con_attach`. In the new split container there is nothing to insert after. -/
def conAttachAt (c p : ConId) (previous : Option ConId) (ignoreFocus : Bool) : Tree :=
  if t.followsWorkspaceLayout c p then
    let (t, target) := (t.setParent c p).workspaceAttachTo cfg p
    ((t.setParent c target).editNodes target (· ++ [c])).editFocus target (· ++ [c])
  else t.attachPlain c p previous ignoreFocus

def conAttach (c p : ConId) (ignoreFocus : Bool) : Tree := t.conAttachAt cfg c p none ignoreFocus

def conDetach (c : ConId) : Tree :=
  match (t.con c).parent with
  | none => t
  | some p =>
    if (t.con c).type = .floatingCon then (t.editFloating p (·.erase c)).editFocus p (·.erase c)
    else (t.editNodes p (·.erase c)).editFocus p (·.erase c)

/-! ### New containers around old ones -/

/-- `set_focus_order`: as many of `order` as there were, but for a container other than a workspace
the floating ones are skipped. -/
def setFocusOrder (c : ConId) (order : List ConId) : Tree :=
  t.editFocus c fun l =>
    (order.filter fun d => (t.con c).type = .workspace ∨ t.insideFloating d = none).take l.length

/-- The loop that moves the tiling children of `ws` into `new`, and restores their focus order. -/
def moveChildren (ws new : ConId) : Tree :=
  ((t.con ws).nodesHead.foldl (fun t child => (t.conDetach child).conAttach cfg child new true) t)
    |>.setFocusOrder new (t.con ws).focusHead

/-- `workspace_encapsulate`. -/
def workspaceEncapsulate (ws : ConId) : Option (Tree × ConId) :=
  if t.isLeaf ws then none
  else
    let (t, new) := t.conNew cfg none
    let t := (t.setParent new ws).setLayout new (t.con ws).layout
    some ((t.moveChildren cfg ws new).conAttach cfg new ws true, new)

/-- `ws_force_orientation`. -/
def wsForceOrientation (ws : ConId) (o : Orientation) : Tree :=
  let (t, split) := t.conNew cfg none
  let t := (t.setParent split ws).setLayout split (t.con ws).layout
  let t := (t.moveChildren cfg ws split).setLayout ws (if o = .horiz then .splith else .splitv)
  (t.conAttach cfg split ws false).conFixPercent ws

end Tree

end I3
