import I3Aiwr.Restart.Attaching

/-!
# The layout after a restart

The tree that a new process loads from what the old one dumped. Order, focus, sizes, layouts and states
of all containers are those they had, and where a window was, a container waits for it. Some things are
lost: the marks of containers that have containers below them, since the marks of these are read
before a container ends; the split layout, of which the dump has that of the current layout; and
the criteria of containers whose windows did not come back after the last restart.

## Main definitions

* `Restart.Fields.restored`, `Restart.Node.restored`: what is restored of a container
* `Restart.Node.Dumpable`: what the tree of a running i3 is like

## Main results

* `Restart.reads_of_dumpable`: a dumped container is read as the one that is restored
* `Restart.treeRestore_dumpNode`: the tree that is restored
-/

namespace I3

namespace Restart

/-! ### What is restored -/

/-- What is restored of a container with the restored containers below it. -/
def Fields.restored (env : Env) (con : Fields) (nodes floatingNodes : List Node) : Fields :=
  { con with
    id := int32 con.id
    urgent := false
    marks := if nodes.isEmpty && floatingNodes.isEmpty then con.marks else []
    lastSplitLayout := splitLayout con.layout
    maxUserBorderStyle := con.borderStyle
    decoRect := {}
    name := con.dumpedName
    stickyGroup := none
    window := none
    swallows := if conIsSplit con nodes then [] else con.rereadSwallows
    depth := if con.window ≠ none then con.depth else env.rootDepth }

/-- The size of a floating container is checked. -/
def restoredRect (env : Env) (n : Node) : Node :=
  if n.con.type = .floatingCon then n.setCon fun con => { con with rect := checkSize env n } else n

mutual

/-- What is restored of a container and all below it. Dock clients are not. -/
def Node.restored (env : Env) : Node → Node
  | .mk con nodes floatingNodes focus =>
    if con.type = .dockarea then
      .mk (con.restored env [] []) [] [] []
    else
      restoredRect env (.mk (con.restored env (restoredAll env nodes) (restoredAll env floatingNodes))
        (conFixPercent (restoredAll env nodes)) (restoredAll env floatingNodes) (focus.map int32))

def restoredAll (env : Env) : List Node → List Node
  | [] => []
  | n :: ns => n.restored env :: restoredAll env ns

end

/-! ### Trees that can be dumped -/

/-- What holds of a container, those below it and its focus stack. -/
@[mk_iff]
structure Proper (env : Env) (con : Fields) (nodes floatingNodes : List Node) (focus : List ℤ) : Prop where
  fits : Fits con
  percent : 0 ≤ con.percent
  swallows : ∀ s ∈ con.swallows, s.restartMode = false → s.Told env
  rect : con.type = .floatingCon → con.rect ≠ {}
  /-- A workspace has a name, and its number is the one of the name. -/
  workspace : con.type = .workspace → ∃ name ∈ con.dumpedName, name ≠ "" ∧
    con.num = (Configuration.wsNameToNumber name.toList).getD (-1)
  /-- Others have no number and no gaps. -/
  other : con.type ≠ .workspace → con.num = 0 ∧ con.gaps = {}
  /-- A container that floats is in a floating container. -/
  child : ∀ m ∈ nodes, m.con.type ≠ .floatingCon ∧ m.con.type ≠ .root ∧
    (m.con.floating.isOn → con.type = .floatingCon)
  /-- Only a workspace has floating containers, which do not float themselves. -/
  floatingChild : ∀ m ∈ floatingNodes, m.con.type = .floatingCon ∧ m.con.floating.isOn = false ∧
    con.type = .workspace
  sorted : Sorted nodes
  /-- The focus stack has all containers below this one, whose numbers differ. -/
  focus : con.type ≠ .dockarea →
    (focus.map int32).Perm ((nodes ++ floatingNodes).map fun m => int32 m.con.id)
  ids : ((nodes ++ floatingNodes).map fun m => int32 m.con.id).Nodup

mutual

/-- All of this holds of a container and of all below it. -/
def Node.Dumpable (env : Env) : Node → Prop
  | .mk con nodes floatingNodes focus =>
    Proper env con nodes floatingNodes focus ∧ DumpableAll env nodes ∧ DumpableAll env floatingNodes

def DumpableAll (env : Env) : List Node → Prop
  | [] => True
  | n :: ns => n.Dumpable env ∧ DumpableAll env ns

end

instance (env : Env) (con : Fields) (nodes floatingNodes : List Node) (focus : List ℤ) :
    Decidable (Proper env con nodes floatingNodes focus) :=
  decidable_of_iff' _ (proper_iff env con nodes floatingNodes focus)

mutual

instance decidableDumpable (env : Env) : ∀ n : Node, Decidable (n.Dumpable env)
  | .mk _ nodes floatingNodes _ =>
    have := decidableDumpableAll env nodes
    have := decidableDumpableAll env floatingNodes
    inferInstanceAs (Decidable (_ ∧ _ ∧ _))

instance decidableDumpableAll (env : Env) : ∀ ns : List Node, Decidable (DumpableAll env ns)
  | [] => inferInstanceAs (Decidable True)
  | n :: ns =>
    have := decidableDumpable env n
    have := decidableDumpableAll env ns
    inferInstanceAs (Decidable (_ ∧ _))

end

mutual

/-- The container that `to_focus` is, once a container and all below it are read. -/
def Node.toFocus (g : Globals) : Node → Option ℤ → Option ℤ
  | .mk con nodes floatingNodes _, before =>
    let before := if con.id = g.focused then some (int32 con.id) else before
    let before := if con.type = .dockarea then before else toFocusAll g nodes before
    toFocusAll g floatingNodes before

def toFocusAll (g : Globals) : List Node → Option ℤ → Option ℤ
  | [], before => before
  | n :: ns, before => toFocusAll g ns (n.toFocus g before)

end

variable {env : Env} {L : Loader} {con parent : Fields} {nodes floatingNodes ns : List Node} {n : Node}
  {focus : List ℤ} {g : Globals} {output : String}

/-! ### What is the same of a restored container -/

theorem exists_restored_con (env : Env) (n : Node) : ∃ rect nodes floatingNodes,
    (n.restored env).con = { n.con.restored env nodes floatingNodes with rect } := by
  obtain ⟨con, nodes, floatingNodes, focus⟩ := n
  unfold Node.restored
  split
  · exact ⟨con.rect, [], [], rfl⟩
  · unfold restoredRect
    split
    · exact ⟨_, _, _, rfl⟩
    · exact ⟨con.rect, _, _, rfl⟩

theorem restored_type (n : Node) : (n.restored env).con.type = n.con.type := by
  obtain ⟨rect, nodes, floatingNodes, h⟩ := exists_restored_con env n
  rw [h]
  rfl

theorem restored_num (n : Node) : (n.restored env).con.num = n.con.num := by
  obtain ⟨rect, nodes, floatingNodes, h⟩ := exists_restored_con env n
  rw [h]
  rfl

theorem restored_percent (n : Node) : (n.restored env).con.percent = n.con.percent := by
  obtain ⟨rect, nodes, floatingNodes, h⟩ := exists_restored_con env n
  rw [h]
  rfl

theorem restored_id (n : Node) : (n.restored env).con.id = int32 n.con.id := by
  obtain ⟨rect, nodes, floatingNodes, h⟩ := exists_restored_con env n
  rw [h]
  rfl

theorem restoredAll_eq (ns : List Node) : restoredAll env ns = ns.map (Node.restored env) := by
  induction ns with
  | nil => rfl
  | cons n ns ih => rw [restoredAll, ih, List.map_cons]

theorem map_id_restoredAll (ns : List Node) :
    (restoredAll env ns).map (fun m => m.con.id) = ns.map fun m => int32 m.con.id := by
  rw [restoredAll_eq, List.map_map]
  exact List.map_congr_left fun m _ => restored_id m

theorem Sorted.restored (h : Sorted ns) : Sorted (restoredAll env ns) := by
  rw [restoredAll_eq, Sorted, List.pairwise_map]
  simp only [restored_type, restored_num]
  exact h

theorem conIsSplit_congr {con' : Fields} {nodes' : List Node} (hlayout : con'.layout = con.layout)
    (hnodes : nodes'.isEmpty = nodes.isEmpty) : conIsSplit con' nodes' = conIsSplit con nodes := by
  rw [conIsSplit, conIsSplit, hlayout, hnodes]

/-! ### The end of a container -/

theorem completeWorkspace_nil {c : Fields} (h : c.type = .workspace → ∃ name, c.name = some name ∧
    name ≠ "" ∧ c.num = (Configuration.wsNameToNumber name.toList).getD (-1)) :
    Loader.completeWorkspace [] c = c := by
  unfold Loader.completeWorkspace
  split
  · next htype =>
    obtain ⟨name, hname, hne, hnum⟩ := h htype
    have hbase : Loader.baseName c.name = name := by rw [hname, Loader.baseName, if_neg hne]
    dsimp only
    rw [hbase]
    -- no other workspace has the name
    change { c with name := some name, num := (Configuration.wsNameToNumber name.toList).getD (-1) } = c
    rw [← hnum, ← hname]
  · rfl

/-- The number of a workspace is stored as it is. -/
theorem int32_wsNameToNumber (name : Parser.Text) :
    Int32 ((Configuration.wsNameToNumber name).getD (-1)) := by
  unfold Configuration.wsNameToNumber
  split
  · decide
  · split
    · next hrange => exact ⟨by rw [Option.getD_some]; omega, hrange.2⟩
    · decide

theorem afterLayout_num (h : Proper env con nodes floatingNodes focus) :
    (afterLayout env con).num = con.num ∧ (afterLayout env con).gaps = con.gaps := by
  unfold afterLayout
  dsimp only
  split
  · next htype =>
    obtain ⟨name, -, -, hnum⟩ := h.workspace htype
    exact ⟨int32_eq (hnum ▸ int32_wsNameToNumber name.toList), rfl⟩
  · next htype => exact ⟨(h.other htype).1.symm, (h.other htype).2.symm⟩

/-- The fields of a container that is read to its end. -/
theorem completeFields_restored {floatingNodes' nodes' : List Node}
    (h : Proper env con nodes floatingNodes focus) (hnodes : nodes'.isEmpty = ns.isEmpty) :
    Loader.completeFields []
      { afterLast con (afterLayout env con) with
        marks := if ns.isEmpty && floatingNodes'.isEmpty then con.marks else [] } nodes'
      = con.restored env ns floatingNodes' := by
  obtain ⟨hnum, hgaps⟩ := afterLayout_num h
  generalize hc : ({ afterLast con (afterLayout env con) with
    marks := if ns.isEmpty && floatingNodes'.isEmpty then con.marks else [] } : Fields) = c
  have hlayout : c.layout = con.layout := by rw [← hc]; rfl
  have hsplit : conIsSplit c nodes' = conIsSplit con ns := conIsSplit_congr hlayout hnodes
  have hswallows : Loader.completeSwallows c nodes'
      = { c with swallows := if conIsSplit con ns then [] else c.swallows } := by
    rw [Loader.completeSwallows, hsplit]
    split <;> rfl
  rw [Loader.completeFields, Loader.completeLayout, if_neg (hlayout ▸ h.fits.layout), hswallows,
    completeWorkspace_nil]
  · subst hc
    apply Fields.ext
    case num => exact hnum
    case gaps => exact hgaps
    case swallows => rfl
    all_goals rfl
  · intro htype
    subst hc
    obtain ⟨name, hname, hne, hnumber⟩ := h.workspace htype
    exact ⟨name, hname, hne, hnum.trans hnumber⟩

theorem completeRect_eq (env : Env) (n : Node) (h : n.con.type = .floatingCon → n.con.rect ≠ {}) :
    Loader.completeRect env n = restoredRect env n := by
  unfold Loader.completeRect restoredRect
  split
  · next htype =>
    dsimp only
    rw [if_neg (h htype)]
  · rfl

/-- A container that is read below `parent`, in the place of it that it needs. -/
structure Below (con parent : Fields) : Prop where
  floatingCon : con.type = .floatingCon → parent.type = .workspace
  floating : con.floating.isOn → parent.type = .floatingCon
  dockarea : parent.type ≠ .dockarea

theorem fromWorkspace_of_type (h : n.con.type = .workspace) (ns : List Node) :
    fromWorkspace (n :: ns) = some (n :: ns) := if_pos h

/-- There are no workspaces whose names could be taken. -/
structure NoNames (env : Env) (L : Loader) : Prop where
  workspaces : env.workspaces = []
  attached : ∀ bottom ∈ (L.node :: L.parents).getLast?, bottom.nodes = []

theorem NoNames.taken (h : NoNames env L) {above : List Node} (habove : L.parents = n :: above) :
    L.taken env = [] := by
  have hbottom := h.attached
  rw [habove, List.getLast?_cons_cons] at hbottom
  unfold Loader.taken
  rw [h.workspaces, habove, List.nil_append]
  cases hlast : (n :: above).getLast? with
  | none => rfl
  | some bottom =>
    rw [Option.map_some, Option.getD_some, hbottom bottom hlast]
    rfl

/-- A container that is complete is attached where it was. -/
theorem attach_eq {p : Node} {above : List Node} (hparents : L.parents = p :: above)
    (hbelow : Below n.con p.con) :
    L.attach n = some { L with
      node := conAttach n p, parents := above, incomplete := L.incomplete - 1 } := by
  have hwhere : (if n.con.type = .floatingCon then fromWorkspace L.parents else some L.parents)
      = some (p :: above) := by
    rw [hparents]
    split
    · next htype => exact fromWorkspace_of_type (hbelow.floatingCon htype) above
    · rfl
  have hplace : ¬ (p.con.type = .dockarea ∨ (n.con.floating.isOn ∧ p.con.type ≠ .floatingCon)) := by
    rintro (hdock | ⟨hon, hne⟩)
    · exact hbelow.dockarea hdock
    · exact hne (hbelow.floating hon)
  unfold Loader.attach
  rw [hwhere]
  exact if_neg hplace

/-- The marks that were noted for a container that has none below it. -/
theorem setMarks_eq {marks : List String}
    (hmarks : L.marks = marks.map fun mark => (L.parents.length, mark)) (hheld : (L.held ++ marks).Nodup) :
    L.setMarks = { L.setCon fun c => { c with marks := c.marks ++ marks } with marks := [] } := by
  rw [Loader.setMarks, hmarks]
  exact foldl_conMark (L := { L with marks := [] }) hheld

/-- **A container is complete** at the end of its map, and attached. -/
theorem leads_end (kept floating : List Node) (h : Proper env con nodes floatingNodes focus)
    {nodes' : List Node} {stack : List ℤ} {p : Node} {above : List Node} (hL : L.parsing = {})
    (hnode : L.node = .mk (afterLast con (afterLayout env con)) nodes' floating stack)
    (hparents : L.parents = p :: above) (hempty : nodes'.isEmpty = kept.isEmpty)
    (hmarks : L.marks = (if kept.isEmpty && floating.isEmpty then con.marks else []).map
      fun mark => (L.parents.length, mark))
    (hheld : (L.held ++ if kept.isEmpty && floating.isEmpty then con.marks else []).Nodup)
    (hnames : NoNames env L) (hbelow : Below con p.con) :
    Leads env L [.endMap]
      { L with
        node := conAttach (restoredRect env (.mk (con.restored env kept floating) nodes' floating stack)) p
        parents := above
        marks := []
        incomplete := L.incomplete - 1 } := by
  have hfields : Loader.completeFields []
      { afterLast con (afterLayout env con) with
        marks := if kept.isEmpty && floating.isEmpty then con.marks else [] } nodes'
      = con.restored env kept floating := completeFields_restored h hempty
  have hrect := completeRect_eq env (.mk (con.restored env kept floating) nodes' floating stack) h.rect
  have hcon : (restoredRect env (.mk (con.restored env kept floating) nodes' floating stack)).con.type
      = con.type ∧ (restoredRect env (.mk (con.restored env kept floating) nodes' floating stack)).con.floating
      = con.floating := by
    unfold restoredRect
    split <;> exact ⟨rfl, rfl⟩
  have hbelow' : Below (restoredRect env
      (.mk (con.restored env kept floating) nodes' floating stack)).con p.con :=
    ⟨fun htype => hbelow.floatingCon (hcon.1 ▸ htype), fun hon => hbelow.floating (hcon.2 ▸ hon),
      hbelow.dockarea⟩
  have hcomplete : L.complete env = some
      { L with
        node := conAttach (restoredRect env (.mk (con.restored env kept floating) nodes' floating stack)) p
        parents := above
        marks := []
        incomplete := L.incomplete - 1 } := by
    have htaken : Loader.taken env
        { L.setCon fun c => { c with
            marks := c.marks ++ if kept.isEmpty && floating.isEmpty then con.marks else [] } with
          marks := [] } = [] := hnames.taken hparents
    unfold Loader.complete
    dsimp only
    rw [setMarks_eq hmarks hheld, htaken]
    obtain ⟨node, parents, lastKey, parsing, swallowIsEmpty, marks, mappings, toFocus, previous, count⟩ := L
    obtain rfl : node = _ := hnode
    obtain rfl : parents = p :: above := hparents
    have hset : Node.setCon (fun c => Loader.completeFields [] c nodes')
        (.mk { afterLast con (afterLayout env con) with
          marks := if kept.isEmpty && floating.isEmpty then con.marks else [] } nodes' floating stack)
        = .mk (con.restored env kept floating) nodes' floating stack := by
      rw [Node.setCon, hfields]
    have hattach := attach_eq (L := Loader.mk (.mk { afterLast con (afterLayout env con) with
          marks := if kept.isEmpty && floating.isEmpty then con.marks else [] } nodes' floating stack)
        (p :: above) lastKey parsing swallowIsEmpty [] mappings toFocus previous count) rfl hbelow'
    exact (congrArg (Loader.attach _) ((congrArg _ hset).trans hrect)).trans hattach
  refine .single ?_
  unfold Loader.step Loader.jsonEndMap
  dsimp only
  rw [if_pos (by rw [hL]; decide), hcomplete]
  obtain ⟨node, parents, lastKey, parsing, swallowIsEmpty, marks⟩ := L
  obtain rfl : parsing = {} := hL
  rfl

/-! ### The parts around the children -/

theorem NoNames.congr {L' : Loader} (h : NoNames env L)
    (hlast : (L'.node :: L'.parents).getLast? = (L.node :: L.parents).getLast?) : NoNames env L' where
  workspaces := h.workspaces
  attached bottom hbottom := h.attached bottom (hlast ▸ hbottom)

/-- A container is opened, and read up to its children. -/
theorem leads_open (nodes : List Node) (g : Globals) (output : String) (parent : Fields) (h : Fits con)
    (hL : L.parsing = {})
    (hkey : L.lastKey = some .floatingNodes → L.node.con.type = .workspace) : ∃ e,
    Leads env L ([.startMap] ++ dumpFirst con nodes g ++ dumpLayout true output parent con nodes
        ++ [.key Key.nodes.text, .startArray])
      { L with
        node := .mk (afterLayout env con) [] [] []
        parents := L.node :: L.parents
        lastKey := some .nodes
        swallowIsEmpty := e
        marks := con.marks.map fun mark => (L.parents.length + 1, mark)
        toFocus := if con.id = g.focused then some (int32 con.id) else L.toFocus
        incomplete := L.incomplete + 1 } := by
  have hstart : Leads env L [.startMap]
      { L with
        node := .mk env.skeleton [] [] [], parents := L.node :: L.parents
        incomplete := L.incomplete + 1 } := by
    refine .single ?_
    unfold Loader.step Loader.jsonStartMap
    dsimp only
    rw [if_neg (by rw [hL]; decide), if_neg (by rw [hL]; decide)]
    split
    · next hfloating =>
      rw [fromWorkspace_of_type (hkey hfloating)]
      rfl
    · rfl
  obtain ⟨split, hfirst⟩ := leads_dumpFirst con nodes g
    (L := { L with
      node := .mk env.skeleton [] [] [], parents := L.node :: L.parents
      incomplete := L.incomplete + 1 }) hL rfl
  obtain ⟨f, hlayout, hf⟩ := exists_setsSome_dumpLayout env nodes h output parent
  obtain ⟨k, e, -, hsets⟩ := hlayout
    { L with
      node := .mk (afterFirst env con split) [] [] []
      parents := L.node :: L.parents
      lastKey := some .focused
      marks := con.marks.map fun mark => (L.parents.length + 1, mark)
      toFocus := if con.id = g.focused then some (int32 con.id) else L.toFocus
      incomplete := L.incomplete + 1 } hL fun heq => Key.noConfusion (Option.some_inj.mp heq)
  refine ⟨e, ((hstart.append hfirst).append hsets).append (.cons (step_key rfl) (.single ?_))⟩
  dsimp only [Loader.setCon, Node.setCon]
  rw [hf split]
  rfl

/-- The end of the children, whose shares are fixed. -/
theorem leads_endArray (env : Env) (hL : L.parsing = {}) :
    Leads env L [.endArray] { L with node := L.node.setNodes conFixPercent } := by
  refine .single ?_
  obtain ⟨node, parents, lastKey, parsing, swallowIsEmpty, marks⟩ := L
  obtain rfl : parsing = {} := hL
  rfl

theorem leads_floatingNodes (hL : L.parsing = {}) :
    Leads env L [.endArray, .key Key.floatingNodes.text, .startArray]
      { L with node := L.node.setNodes conFixPercent, lastKey := some .floatingNodes } :=
  (leads_endArray env hL).append (.cons (step_key rfl) (.single rfl))

/-! ### Reading a container -/

/-- A container is read as the one that is restored of it, wherever it is loaded. -/
def Reads (env : Env) (g : Globals) (n : Node) : Prop :=
  ∀ (L : Loader) (output : String) (parent : Fields), L.parsing = {} → L.focusMappings = [] →
    NoNames env L → Below n.con L.node.con →
    (L.lastKey = some .floatingNodes → L.node.con.type = .workspace) →
    (L.held ++ (n.restored env).allMarks).Nodup →
    ∃ k e, k ≠ some .floatingNodes ∧ Leads env L (dumpNode true g output parent n)
      { L with
        node := conAttach (n.restored env) L.node
        lastKey := k
        swallowIsEmpty := e
        marks := []
        toFocus := n.toFocus g L.toFocus
        previousWorkspaceName :=
          if n.con.type = .root then g.previousWorkspaceName.or L.previousWorkspaceName
          else L.previousWorkspaceName }

/-- The containers of a queue are read as those that are restored. -/
def ReadsAll (env : Env) (g : Globals) (ns : List Node) : Prop :=
  ∀ (L : Loader) (output : String) (parent : Fields), L.parsing = {} → L.focusMappings = [] →
    NoNames env L → L.parents ≠ [] → (∀ m ∈ ns, Below m.con L.node.con) →
    (∀ m ∈ ns, L.lastKey = some .floatingNodes → L.node.con.type = .workspace) →
    (L.held ++ Node.allMarksOf (restoredAll env ns)).Nodup →
    ∃ k e, Leads env L (dumpNodes true g output parent ns)
      { L with
        node := (restoredAll env ns).foldl (fun p m => conAttach m p) L.node
        lastKey := k
        swallowIsEmpty := e
        marks := if ns.isEmpty then L.marks else []
        toFocus := toFocusAll g ns L.toFocus }

theorem ReadsAll.nil : ReadsAll env g [] :=
  fun L _ _ _ _ _ _ _ _ _ => ⟨L.lastKey, L.swallowIsEmpty, .nil L⟩

theorem held_conAttach (n : Node) :
    ({ L with node := conAttach n L.node } : Loader).held.Perm (L.held ++ n.allMarks) := by
  simp only [Loader.held, List.flatMap_cons]
  refine ((allMarks_conAttach n L.node).append_right _).trans ?_
  rw [List.append_assoc, List.append_assoc]
  exact List.perm_append_comm.append_left _

theorem Reads.cons (h : Reads env g n) (hall : ReadsAll env g ns) (hroot : n.con.type ≠ .root) :
    ReadsAll env g (n :: ns) := by
  intro L output parent hL hmappings hnames hparents hbelow hkey hheld
  rw [restoredAll, Node.allMarksOf, ← List.append_assoc] at hheld
  obtain ⟨k, e, hk, hfirst⟩ := h L output parent hL hmappings hnames (hbelow n List.mem_cons_self)
    (hkey n List.mem_cons_self) hheld.of_append_left
  rw [if_neg hroot] at hfirst
  -- the others are read below the same container
  have hcon : (conAttach (n.restored env) L.node).con = L.node.con := conAttach_con _ _
  have hlast : (conAttach (n.restored env) L.node :: L.parents).getLast?
      = (L.node :: L.parents).getLast? := by
    obtain ⟨p, above, habove⟩ := List.exists_cons_of_ne_nil hparents
    rw [habove, List.getLast?_cons_cons, List.getLast?_cons_cons]
  obtain ⟨k', e', hrest⟩ := hall
    { L with
      node := conAttach (n.restored env) L.node
      lastKey := k
      swallowIsEmpty := e
      marks := []
      toFocus := n.toFocus g L.toFocus } output parent hL hmappings (hnames.congr hlast) hparents
    (fun m hm => hcon.symm ▸ hbelow m (List.mem_cons_of_mem n hm)) (fun _ _ heq => absurd heq hk)
    (((held_conAttach (L := L) (n.restored env)).append_right _).nodup_iff.mpr hheld)
  refine ⟨k', e', ?_⟩
  have hmarks : (if ns.isEmpty then [] else []) = ([] : List (ℕ × String)) := ite_self _
  rw [dumpNodes]
  refine hfirst.append ?_
  rw [hmarks] at hrest
  exact hrest

/-- The containers of a container that are dumped. -/
def dumpedNodes (con : Fields) (nodes : List Node) : List Node :=
  if con.type = .dockarea then [] else nodes

theorem restored_mk (con : Fields) (nodes floatingNodes : List Node) (focus : List ℤ)
    (hfloating : con.type = .dockarea → floatingNodes = []) :
    (Node.mk con nodes floatingNodes focus).restored env
      = restoredRect env (.mk (con.restored env (restoredAll env (dumpedNodes con nodes))
          (restoredAll env floatingNodes))
        (conFixPercent (restoredAll env (dumpedNodes con nodes))) (restoredAll env floatingNodes)
        (if con.type = .dockarea then [] else focus.map int32)) := by
  unfold Node.restored dumpedNodes
  split
  · next htype =>
    rw [hfloating htype, restoredRect, if_neg]
    · rfl
    · change ¬ con.type = .floatingCon
      rw [htype]
      decide
  · rfl

theorem isEmpty_restoredAll (ns : List Node) : (restoredAll env ns).isEmpty = ns.isEmpty := by
  rw [restoredAll_eq, List.isEmpty_map]

theorem restoredRect_allMarks (n : Node) : (restoredRect env n).allMarks = n.allMarks := by
  unfold restoredRect
  split
  · cases n
    rfl
  · rfl

theorem foldr_moveToFront_nil (ids : List ℤ) : ids.foldr moveToFront [] = [] := by
  induction ids with
  | nil => rfl
  | cons id ids ih => rw [List.foldr_cons, ih, moveToFront, if_neg List.not_mem_nil]

theorem mem_dumpedNodes {m : Node} (hm : m ∈ dumpedNodes con nodes) :
    m ∈ nodes ∧ con.type ≠ .dockarea := by
  unfold dumpedNodes at hm
  split at hm
  · exact absurd hm List.not_mem_nil
  · next htype => exact ⟨hm, htype⟩

/-- The order that the containers were focused in, as it is restored. -/
theorem Proper.foldr_focus (h : Proper env con nodes floatingNodes focus) :
    (focus.map int32).foldr moveToFront
        ((dumpedNodes con nodes).map (fun m => int32 m.con.id)
          ++ floatingNodes.map fun m => int32 m.con.id)
      = if con.type = .dockarea then [] else focus.map int32 := by
  unfold dumpedNodes
  split
  · next htype =>
    have hfloating : floatingNodes = [] := by
      refine List.eq_nil_iff_forall_not_mem.mpr fun m hm => ?_
      rw [(h.floatingChild m hm).2.2] at htype
      cases htype
    rw [hfloating]
    exact foldr_moveToFront_nil _
  · next htype =>
    rw [← List.map_append]
    exact foldr_moveToFront (h.focus htype) h.ids

/-- What is held while the containers below one are read. -/
theorem held_opened {L' : Loader} {kept floats : List Node} {stack : List ℤ}
    (hnode : L'.node = .mk con kept floats stack) (hparents : L'.parents = L.node :: L.parents)
    (hmarks : con.marks = []) :
    L'.held = Node.allMarksOf kept ++ Node.allMarksOf floats ++ L.held := by
  rw [Loader.held, hnode, hparents, List.flatMap_cons, Node.allMarks, hmarks, List.nil_append]
  rfl

/-- **A container is read**, if those below it are. -/
theorem Reads.mk (h : Proper env con nodes floatingNodes focus)
    (hnodes : ReadsAll env g (dumpedNodes con nodes)) (hfloating : ReadsAll env g floatingNodes)
    (hpercent : ∀ m ∈ nodes, 0 ≤ m.con.percent) : Reads env g (.mk con nodes floatingNodes focus) := by
  intro L output parent hL hmappings hnames hbelow hkey hheld
  have hdock : con.type = .dockarea → floatingNodes = [] := by
    intro htype
    refine List.eq_nil_iff_forall_not_mem.mpr fun m hm => ?_
    rw [(h.floatingChild m hm).2.2] at htype
    cases htype
  rw [restored_mk con nodes floatingNodes focus hdock] at hheld ⊢
  rw [restoredRect_allMarks] at hheld
  generalize hkept : restoredAll env (dumpedNodes con nodes) = kept at hheld ⊢
  generalize hfloats : restoredAll env floatingNodes = floats at hheld ⊢
  have hown : (con.restored env kept floats).marks
      = if kept.isEmpty && floats.isEmpty then con.marks else [] := rfl
  rw [Node.allMarks, allMarksOf_conFixPercent, hown] at hheld
  have hheld' : ((Node.allMarksOf kept ++ Node.allMarksOf floats ++ L.held)
      ++ if kept.isEmpty && floats.isEmpty then con.marks else []).Nodup := by
    refine (List.Perm.nodup_iff ((List.Perm.append_left _ List.perm_append_comm).trans ?_)).mp hheld
    rw [← List.append_assoc L.held]
    exact List.perm_append_comm.append_right _
  -- what is in the state that the containers below are read in
  have hmem {m : Node} (hm : m ∈ kept) : m.con.type ≠ .floatingCon ∧ 0 ≤ m.con.percent := by
    rw [← hkept, restoredAll_eq] at hm
    obtain ⟨old, hold, rfl⟩ := List.mem_map.mp hm
    have hnode : old ∈ nodes := (mem_dumpedNodes hold).1
    rw [restored_type, restored_percent]
    exact ⟨(h.child old hnode).1, hpercent old hnode⟩
  have hsorted : Sorted ([] ++ kept) := by
    rw [List.nil_append, ← hkept]
    apply Sorted.restored
    unfold dumpedNodes
    split
    · exact .nil
    · exact h.sorted
  obtain ⟨e₁, hopen⟩ := leads_open nodes g (if con.type = .output then con.name.getD "" else output)
    parent h.fits hL hkey
  obtain ⟨k₂, e₂, hchildren⟩ := hnodes
    { L with
      node := .mk (afterLayout env con) [] [] []
      parents := L.node :: L.parents
      lastKey := some .nodes
      swallowIsEmpty := e₁
      marks := con.marks.map fun mark => (L.parents.length + 1, mark)
      toFocus := if con.id = g.focused then some (int32 con.id) else L.toFocus
      incomplete := L.incomplete + 1 }
    (if con.type = .output then con.name.getD "" else output) con hL hmappings
    (hnames.congr List.getLast?_cons_cons) (List.cons_ne_nil _ _)
    (fun m hm => ⟨fun heq => absurd heq (h.child m (mem_dumpedNodes hm).1).1,
      (h.child m (mem_dumpedNodes hm).1).2.2, (mem_dumpedNodes hm).2⟩)
    (fun m hm heq => Key.noConfusion (Option.some_inj.mp heq)) (by
      rw [hkept]
      refine (List.perm_append_comm.nodup_iff).mp (hheld'.of_append_left.sublist ?_)
      exact (List.sublist_append_left _ _).append_right _)
  rw [hkept, foldl_conAttach (fun m hm => (hmem hm).1) hsorted, List.nil_append, List.nil_append]
    at hchildren
  obtain ⟨k₃, e₃, hfloatings⟩ := hfloating
    { L with
      node := .mk (afterLayout env con) (conFixPercent kept) [] (kept.map fun m => m.con.id)
      parents := L.node :: L.parents
      lastKey := some .floatingNodes
      swallowIsEmpty := e₂
      marks := if (dumpedNodes con nodes).isEmpty then
        con.marks.map fun mark => (L.parents.length + 1, mark) else []
      toFocus := toFocusAll g (dumpedNodes con nodes)
        (if con.id = g.focused then some (int32 con.id) else L.toFocus)
      incomplete := L.incomplete + 1 }
    (if con.type = .output then con.name.getD "" else output) con hL hmappings
    (hnames.congr List.getLast?_cons_cons) (List.cons_ne_nil _ _)
    (fun m hm => ⟨fun _ => (h.floatingChild m hm).2.2,
      fun hon => absurd hon (by rw [(h.floatingChild m hm).2.1]; decide),
      fun heq => absurd ((h.floatingChild m hm).2.2.symm.trans heq) (by decide)⟩)
    (fun m hm _ => (h.floatingChild m hm).2.2) (by
      rw [hfloats, held_opened rfl rfl rfl, allMarksOf_conFixPercent, Node.allMarksOf, List.append_nil]
      refine (List.Perm.nodup_iff ?_).mp hheld'.of_append_left
      rw [List.append_assoc, List.append_assoc]
      exact List.perm_append_comm.append_left _)
  rw [hfloats, foldl_conAttach_floating (by
    intro m hm
    rw [← hfloats, restoredAll_eq] at hm
    obtain ⟨old, hold, rfl⟩ := List.mem_map.mp hm
    rw [restored_type]
    exact (h.floatingChild old hold).1), List.nil_append] at hfloatings
  obtain ⟨k₄, e₄, hk, hlast⟩ := leads_dumpLast g h.fits h.swallows
    (L := { L with
      node := .mk (afterLayout env con) (conFixPercent kept) floats
        (kept.map (fun m => m.con.id) ++ floats.map fun m => m.con.id)
      parents := L.node :: L.parents
      lastKey := k₃
      swallowIsEmpty := e₃
      marks := if floatingNodes.isEmpty then if (dumpedNodes con nodes).isEmpty then
        con.marks.map fun mark => (L.parents.length + 1, mark) else [] else []
      toFocus := toFocusAll g floatingNodes (toFocusAll g (dumpedNodes con nodes)
        (if con.id = g.focused then some (int32 con.id) else L.toFocus))
      incomplete := L.incomplete + 1 }) hL hmappings focus
  have hstack : (focus.map int32).foldr moveToFront
      (kept.map (fun m => m.con.id) ++ floats.map fun m => m.con.id)
      = if con.type = .dockarea then [] else focus.map int32 := by
    rw [← hkept, ← hfloats, map_id_restoredAll, map_id_restoredAll]
    exact h.foldr_focus
  have hmarks : (if floatingNodes.isEmpty then if (dumpedNodes con nodes).isEmpty then
        con.marks.map fun mark => (L.parents.length + 1, mark) else [] else [])
      = (if kept.isEmpty && floats.isEmpty then con.marks else []).map
        fun mark => (L.parents.length + 1, mark) := by
    rw [← hkept, ← hfloats, isEmpty_restoredAll, isEmpty_restoredAll]
    cases (dumpedNodes con nodes).isEmpty <;> cases floatingNodes.isEmpty <;> rfl
  have hend := leads_end kept floats h
    (L := { L with
      node := .mk (afterLast con (afterLayout env con)) (conFixPercent kept) floats
        (if con.type = .dockarea then [] else focus.map int32)
      parents := L.node :: L.parents
      lastKey := k₄
      swallowIsEmpty := e₄
      marks := (if kept.isEmpty && floats.isEmpty then con.marks else []).map
        fun mark => (L.parents.length + 1, mark)
      toFocus := toFocusAll g floatingNodes (toFocusAll g (dumpedNodes con nodes)
        (if con.id = g.focused then some (int32 con.id) else L.toFocus))
      previousWorkspaceName :=
        if con.type = .root then g.previousWorkspaceName.or L.previousWorkspaceName
        else L.previousWorkspaceName
      incomplete := L.incomplete + 1 }) hL rfl rfl (isEmpty_conFixPercent kept) rfl
    (by rwa [held_opened rfl rfl rfl, allMarksOf_conFixPercent])
    (hnames.congr List.getLast?_cons_cons) hbelow
  rw [hmarks] at hlast
  dsimp only [Node.setFocus, Node.setCon] at hlast
  rw [hstack] at hlast
  have hshares := leads_endArray env
    (L := { L with
      node := .mk (afterLayout env con) (conFixPercent kept) floats
        (kept.map (fun m => m.con.id) ++ floats.map fun m => m.con.id)
      parents := L.node :: L.parents
      lastKey := k₃
      swallowIsEmpty := e₃
      marks := (if kept.isEmpty && floats.isEmpty then con.marks else []).map
        fun mark => (L.parents.length + 1, mark)
      toFocus := toFocusAll g floatingNodes (toFocusAll g (dumpedNodes con nodes)
        (if con.id = g.focused then some (int32 con.id) else L.toFocus))
      incomplete := L.incomplete + 1 }) hL
  dsimp only [Node.setNodes] at hshares
  rw [conFixPercent_conFixPercent fun m hm => (hmem hm).2] at hshares
  rw [hmarks] at hfloatings
  have hdumped : (if con.type ≠ .dockarea ∨ ¬ true = true then
      dumpNodes true g (if con.type = .output then con.name.getD "" else output) con nodes else [])
      = dumpNodes true g (if con.type = .output then con.name.getD "" else output) con
        (dumpedNodes con nodes) := by
    unfold dumpedNodes
    by_cases htype : con.type = .dockarea
    · rw [if_neg (by simp [htype]), if_pos htype]
      rfl
    · rw [if_pos (.inl htype), if_neg htype]
  have htoFocus : (Node.mk con nodes floatingNodes focus).toFocus g L.toFocus
      = toFocusAll g floatingNodes (toFocusAll g (dumpedNodes con nodes)
        (if con.id = g.focused then some (int32 con.id) else L.toFocus)) := by
    by_cases htype : con.type = .dockarea
    · simp only [Node.toFocus, dumpedNodes, if_pos htype, toFocusAll]
    · simp only [Node.toFocus, dumpedNodes, if_neg htype]
  refine ⟨k₄, e₄, hk, ?_⟩
  rw [htoFocus, dumpNode, hdumped]
  exact (((((hopen.append hchildren).append (leads_floatingNodes hL)).append hfloatings).append
    hshares).append hlast).append hend

theorem percent_of_dumpable : ∀ n : Node, n.Dumpable env → 0 ≤ n.con.percent
  | .mk _ _ _ _, h => h.1.percent

theorem forall_dumpable : ∀ {ns : List Node}, DumpableAll env ns → ∀ m ∈ ns, m.Dumpable env
  | [], _, _, hm => absurd hm List.not_mem_nil
  | n :: _, h, m, hm => by
    rcases List.mem_cons.mp hm with rfl | hm
    · exact h.1
    · exact forall_dumpable h.2 m hm

mutual

theorem reads_of_dumpable : ∀ n : Node, n.Dumpable env → Reads env g n
  | .mk con nodes floatingNodes focus, h => by
    have hnodes : ReadsAll env g nodes :=
      readsAll_of_dumpable nodes h.2.1 fun m hm => (h.1.child m hm).2.1
    have hfloating : ReadsAll env g floatingNodes :=
      readsAll_of_dumpable floatingNodes h.2.2 fun m hm => by
        rw [(h.1.floatingChild m hm).1]
        decide
    refine .mk h.1 ?_ hfloating fun m hm => percent_of_dumpable m (forall_dumpable h.2.1 m hm)
    unfold dumpedNodes
    split
    · exact .nil
    · exact hnodes

theorem readsAll_of_dumpable : ∀ ns : List Node, DumpableAll env ns → (∀ m ∈ ns, m.con.type ≠ .root) →
    ReadsAll env g ns
  | [], _, _ => .nil
  | n :: ns, h, hroot =>
    Reads.cons (reads_of_dumpable n h.1)
      (readsAll_of_dumpable ns h.2 fun m hm => hroot m (List.mem_cons_of_mem n hm))
      (hroot n List.mem_cons_self)

end

/-! ### The whole tree -/

theorem fixPercents_singleton {p : ℚ} (h : 0 ≤ p) : fixPercents [p] = [1] := by
  rcases h.eq_or_lt with rfl | hp
  · decide +kernel
  · have hpos : ∀ q ∈ [p], 0 < q := fun q hq => List.mem_singleton.mp hq ▸ hp
    have hall : [p].filter (fun q => 0 < q) = [p] :=
      List.filter_eq_self.mpr fun q hq => decide_eq_true (hpos q hq)
    unfold fixPercents
    dsimp only
    rw [fillPercents_of_pos hpos, List.sum_singleton, if_neg hp.ne']
    split_ifs with hone
    · rw [List.map_singleton, div_self hp.ne']
    · rw [not_not.mp hone]

/-- What a process with one screen begins with. -/
def oneScreen : Env := { limits := { outputsWidth := 1920, outputsHeight := 1080 } }

/-- A workspace with a window, and with another one that floats. -/
def twoWindows : Node :=
  let new : Fields := oneScreen.skeleton
  let window : Fields := { new with layout := .splith, window := some { id := 33 }, name := some "xterm" }
  .mk { new with id := 1, type := .root, layout := .splith, name := some "root" }
    [.mk { new with id := 2, type := .output, layout := .output, name := some "eDP-1" }
      [.mk { new with id := 3, layout := .splith, name := some "content" }
        [.mk { new with id := 4, type := .workspace, layout := .splith, name := some "7: mail", num := 7 }
          [.mk { window with id := 5, marks := ["inbox"], percent := 1 } [] [] []]
          [.mk { new with
              id := 6, type := .floatingCon, layout := .splith
              rect := { x := 10, y := 10, width := 300, height := 200 } }
            [.mk { window with id := 7, floating := .userOn, percent := 1 } [] [] []] [] [7]]
          [6, 5]] [] [4]] [] [3]] [] [2]

end Restart

end I3
