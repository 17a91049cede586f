import I3Aiwr.Tree.Focus

/-!
# The next and the previous workspace

`workspace_next` and `workspace_prev` of `src/workspace.c`. Both look at the neighbour in the list of
the same output, or scan all workspaces output by output, keeping three candidates. The two
directions differ in the order of the scan and in the comparison of numbers; `Way` stands for both.

## Main definitions

* `Tree.namedLoop`, `Tree.numberedLoop`: the scans for a named and for a numbered workspace
* `Tree.workspaceNext`, `Tree.workspacePrev`
* `Tree.focusNext`: focus the next workspace
-/

namespace I3

/-- The direction of a scan over the workspaces. -/
inductive Way
  | next | prev
  deriving DecidableEq, Repr

namespace Way

/-- A list in the order of the scan. -/
def along {α : Type} : Way → List α → List α
  | next, l => l
  | prev, l => l.reverse

/-- The comparison by which a number is taken sooner than another one. -/
def sooner : Way → ℤ → ℤ → Bool
  | next, m, n => m < n
  | prev, m, n => n < m

end Way

/-- The candidates of a scan: `next` (or `prev`), `first` (or `last`) and `first_opposite`, and
whether the current workspace was passed. -/
structure Scan where
  candidate : Option ConId := none
  first : Option ConId := none
  opposite : Option ConId := none
  found : Bool := false

/-- A scan that returned early has its result; the others fall back on the candidates. -/
def Scan.result : Except ConId Scan → Option ConId
  | .error c => some c
  | .ok s => s.candidate.or (s.opposite.or s.first)

namespace Tree

variable (t : Tree) (way : Way) (current : ConId)

def isNamed (c : ConId) : Bool := (t.con c).num = -1

/-- `!o || (child->num != -1 && child->num < o->num)`. -/
def orSooner (o : Option ConId) (c : ConId) : Option ConId :=
  match o with
  | none => some c
  | some d =>
    if ¬ t.isNamed c ∧ way.sooner (t.con c).num (t.con d).num then some c else some d

/-- `!o && child->num == -1`. -/
def orNamed (o : Option ConId) (c : ConId) : Option ConId :=
  match o with
  | none => if t.isNamed c then some c else none
  | some d => some d

/-- `current->num < child->num && (!o || child->num < o->num)`. -/
def orBeyond (o : Option ConId) (c : ConId) : Option ConId :=
  if way.sooner (t.con current).num (t.con c).num
      ∧ o.all fun d => way.sooner (t.con c).num (t.con d).num then some c
  else o

/-- The scan from a named workspace: the next named one is taken at once. -/
def namedLoop : List ConId → Scan → Except ConId Scan
  | [], s => .ok s
  | c :: cs, s =>
    if (t.con c).type ≠ .workspace then namedLoop cs s
    else
      let s := { s with first := s.first.or (some c), opposite := t.orSooner way s.opposite c }
      if c = current then namedLoop cs { s with found := true }
      else if t.isNamed c ∧ s.found then .error c
      else namedLoop cs s

/-- The scan from a numbered workspace. At a named one it leaves the list or passes on (`stop`). -/
def numberedLoop (stop : Bool) : List ConId → Scan → Except ConId Scan
  | [], s => .ok s
  | c :: cs, s =>
    if (t.con c).type ≠ .workspace then numberedLoop stop cs s
    else
      let s := { s with first := t.orSooner way s.first c, opposite := t.orNamed s.opposite c }
      if t.isNamed c then if stop then .ok s else numberedLoop stop cs s
      else
        let s := { s with candidate := t.orBeyond way current s.candidate c }
        if c = current then numberedLoop stop cs { s with found := true }
        -- with the same number but another name, just take the next one
        else if s.found ∧ (t.con current).num = (t.con c).num then .error c
        else numberedLoop stop cs s

/-- A scan over the outputs, internal ones left out. -/
def overOutputs (scan : List ConId → Scan → Except ConId Scan) :
    List ConId → Scan → Except ConId Scan
  | [], s => .ok s
  | output :: outputs, s =>
    if t.isInternal output then overOutputs scan outputs s
    else match scan (way.along (t.workspacesOf output)) s with
      | .error c => .error c
      | .ok s => overOutputs scan outputs s

/-- The whole scan from the workspace `current`. Only `workspace_next` stops at named ones. -/
def scanFrom : Option ConId :=
  let scan :=
    if t.isNamed current then t.namedLoop way current else t.numberedLoop way current (way = .next)
  Scan.result (t.overOutputs way scan (way.along (t.con t.croot).nodesHead) {})

/-- The neighbour in the list of the same output. -/
def neighbour : Option ConId :=
  (t.con current).parent.bind fun p => Queue.next current (way.along (t.con p).nodesHead)

/-- `workspace_next` on the workspace `current`. -/
def workspaceNextFrom : Option ConId :=
  if t.isNamed current then (t.neighbour .next current).or (t.scanFrom .next current)
  else t.scanFrom .next current

/-- `workspace_prev` on the workspace `current`: a numbered neighbour of a named one is not
taken. -/
def workspacePrevFrom : Option ConId :=
  if t.isNamed current then
    ((t.neighbour .prev current).filter fun d => t.isNamed d).or (t.scanFrom .prev current)
  else t.scanFrom .prev current

/-- The workspace of the focused container. -/
def currentWorkspace : Option ConId := t.focused.bind t.getWorkspace

/-- `workspace_next`. -/
def workspaceNext : Option ConId := t.currentWorkspace.bind t.workspaceNextFrom

/-- `workspace_prev`. -/
def workspacePrev : Option ConId := t.currentWorkspace.bind t.workspacePrevFrom

/-- Focus the next workspace. -/
def focusNext (cfg : Config) : Tree :=
  match t.workspaceNext with
  | none => t
  | some ws => t.conFocus cfg ws

end Tree

end I3
