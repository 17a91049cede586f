import I3Aiwr.Restart.Texts

/-!
# The parts of a dumped container

What the callbacks make of the parts that `dump_node` writes of a container before and after the
containers below it.

## Main definitions

* `Restart.Fits`: the numbers of a container are in their ranges, and its layouts can be dumped
* `Restart.Swallow.Told`: a criterion of which something is dumped

## Main results

* `Restart.leads_dumpFirst`, `Restart.leads_dumpLayout`, `Restart.leads_dumpLast`
-/

namespace I3

namespace Restart

/-- What `dump_node` can write of a container and the loader can store again. -/
@[mk_iff]
structure Fits (con : Fields) : Prop where
  layout : con.layout ≠ .default
  workspaceLayout : con.workspaceLayout ∈ workspaceLayouts
  currentBorderWidth : Int32 con.currentBorderWidth
  windowIconPadding : Int32 con.windowIconPadding
  rect : FitsRect con.rect
  windowRect : FitsRect con.windowRect
  geometry : FitsRect con.geometry
  gaps : FitsGaps con.gaps
  depth : con.depth < 2 ^ 16

instance (con : Fields) : Decidable (Fits con) := decidable_of_iff' _ (fits_iff con)

variable {env : Env} {L L' : Loader} {con : Fields} {nodes : List Node} {g : Globals}

/-! ### Before the children -/

/-- What the first part sets. The `orientation` sets a split layout, which is set again later. -/
def afterFirst (env : Env) (con : Fields) (split : Layout) : Fields :=
  { env.skeleton with
    id := int32 con.id
    type := con.type
    lastSplitLayout := split
    scratchpadState := con.scratchpadState
    percent := con.percent }

theorem sets_id (n : ℤ) :
    Sets env {} (Key.id.with (.integer n)) .id fun c => { c with id := int32 n } :=
  sets_integer n rfl rfl rfl

theorem sets_type (v : ConType) :
    Sets env {} (Key.type.with (.string (typeText v))) .type fun c => { c with type := v } := by
  have h : Sets env {} _ _ _ := sets_string (k := .type) (typeText v) rfl (by decide)
  have hset : Loader.fieldString (some .type) (typeText v) = fun c => { c with type := v } := by
    funext c
    rw [Loader.fieldString, typeOfText_text, Option.getD_some]
  rwa [hset] at h

/-- Whatever text `orientation` has, it sets the split layout at most. -/
theorem exists_sets_orientation (env : Env) (s : String) : ∃ split : Fields → Layout,
    Sets env {} (Key.orientation.with (.string s)) .orientation
      fun c => { c with lastSplitLayout := split c } := by
  refine ⟨fun c => (Loader.fieldString (some .orientation) s c).lastSplitLayout, ?_⟩
  have h : Sets env {} _ _ _ := sets_string (k := .orientation) s rfl (by decide)
  have hset : Loader.fieldString (some .orientation) s = fun c =>
      { c with lastSplitLayout := (Loader.fieldString (some .orientation) s c).lastSplitLayout } := by
    funext c
    unfold Loader.fieldString
    dsimp only
    split_ifs <;> rfl
  rwa [hset] at h

theorem sets_scratchpadState (v : ScratchpadState) :
    Sets env {} (Key.scratchpadState.with (.string (scratchpadText v))) .scratchpadState
      fun c => { c with scratchpadState := v } := by
  have h : Sets env {} _ _ _ := sets_string (k := .scratchpadState) (scratchpadText v) rfl (by decide)
  have hset : Loader.fieldString (some .scratchpadState) (scratchpadText v)
      = fun c => { c with scratchpadState := v } := by
    funext c
    rw [Loader.fieldString, scratchpadOfText_text, Option.getD_some]
  rwa [hset] at h

/-- The marks are noted for the container that is read. -/
theorem leads_marks (hL : L.parsing = {}) (marks : List String) :
    Leads env L ([.key Key.marks.text, .startArray] ++ marks.map .string ++ [.endArray])
      { L with
        lastKey := some .marks
        marks := marks.map fun mark => (L.parents.length, mark) } := by
  obtain ⟨node, parents, lastKey, parsing, swallowIsEmpty, pending⟩ := L
  obtain rfl : parsing = {} := hL
  have hstrings (ms : List String) (L : Loader) (hL : L.parsing = { marks := true }) :
      Leads env L (ms.map .string)
        { L with marks := L.marks ++ ms.map fun mark => (L.parents.length, mark) } := by
    induction ms generalizing L with
    | nil =>
      rw [List.map_nil, List.map_nil, List.append_nil]
      exact .nil _
    | cons m ms ih =>
      have hstep : L.step env (.string m)
          = some { L with marks := L.marks ++ [(L.parents.length, m)] } := by
        unfold Loader.step Loader.jsonString
        dsimp only
        rw [hL]
        rfl
      have hrest := ih { L with marks := L.marks ++ [(L.parents.length, m)] } hL
      rw [List.append_assoc] at hrest
      exact .cons hstep hrest
  exact ((Leads.cons (step_text _) (.single rfl)).append (hstrings marks _ rfl)).append (.single rfl)

/-- The focused container is noted. -/
theorem leads_focused (hL : L.parsing = {}) (b : Bool) :
    Leads env L (Key.focused.with (.bool b))
      { L with
        lastKey := some .focused
        toFocus := if b then some L.node.con.id else L.toFocus } := by
  refine .cons (step_key rfl) (.single ?_)
  obtain ⟨node, parents, lastKey, parsing, swallowIsEmpty, marks⟩ := L
  obtain rfl : parsing = {} := hL
  cases b <;> rfl

theorem sets_percentOrNull (q : ℚ) :
    Sets env {} (Key.percent.with (if q = 0 then .null else .double q)) .percent
      fun c => if q = 0 then c else { c with percent := q } := by
  by_cases hq : q = 0
  · simp only [if_pos hq]
    exact sets_null rfl
  · simp only [if_neg hq]
    exact sets_percent q

theorem leads_dumpFirst (con : Fields) (nodes : List Node) (g : Globals) (hL : L.parsing = {})
    (hnode : L.node.con = env.skeleton) : ∃ split,
    Leads env L (dumpFirst con nodes g)
      { L.setCon fun _ => afterFirst env con split with
        lastKey := some .focused
        marks := con.marks.map fun mark => (L.parents.length, mark)
        toFocus := if con.id = g.focused then some (int32 con.id) else L.toFocus } := by
  obtain ⟨split, horientation⟩ := exists_sets_orientation env
    (if ¬ conIsSplit con nodes then "none"
      else if isHoriz con.layout then "horizontal" else "vertical")
  have hfields := ((((sets_id con.id).append (sets_type con.type)).append horientation).append
    (sets_scratchpadState con.scratchpadState)).append
      ((sets_percentOrNull con.percent).append (sets_bool (k := .urgent) con.urgent rfl (by decide)))
  have hdump : dumpFirst con nodes g = (Key.id.with (.integer con.id)
      ++ Key.type.with (.string (typeText con.type))
      ++ Key.orientation.with (.string (if ¬ conIsSplit con nodes then "none"
        else if isHoriz con.layout then "horizontal" else "vertical"))
      ++ Key.scratchpadState.with (.string (scratchpadText con.scratchpadState))
      ++ (Key.percent.with (if con.percent = 0 then .null else .double con.percent)
        ++ Key.urgent.with (.bool con.urgent)))
      ++ (([.key Key.marks.text, .startArray] ++ con.marks.map .string ++ [.endArray])
        ++ Key.focused.with (.bool (con.id = g.focused))) := by
    simp only [dumpFirst, List.append_assoc]
  refine ⟨split { env.skeleton with id := int32 con.id, type := con.type }, ?_⟩
  rw [hdump]
  have hall := (hfields L hL).append ((leads_marks (by exact hL) con.marks).append
    (leads_focused (by exact hL) (con.id = g.focused)))
  obtain ⟨⟨c, nodes, floatingNodes, focus⟩, parents, lastKey, parsing, swallowIsEmpty, marks⟩ := L
  obtain rfl : c = env.skeleton := hnode
  have hpercent (c : Fields) (hc : c.percent = 0) :
      (if con.percent = 0 then c else { c with percent := con.percent })
        = { c with percent := con.percent } := by
    split
    · next hzero => rw [hzero, ← hc]
    · rfl
  dsimp only [Loader.put, Loader.setCon, Node.setCon, Function.comp_apply, Node.con, id_eq] at hall ⊢
  rw [hpercent _ rfl] at hall
  simp only [decide_eq_true_eq] at hall
  exact hall

/-- What the part before the children has set at its end. -/
def afterLayout (env : Env) (con : Fields) : Fields :=
  { afterFirst env con (splitLayout con.layout) with
    layout := con.layout
    workspaceLayout := con.workspaceLayout
    borderStyle := con.borderStyle
    maxUserBorderStyle := con.borderStyle
    currentBorderWidth := con.currentBorderWidth
    rect := con.rect
    windowRect := con.windowRect
    geometry := con.geometry
    name := con.dumpedName
    titleFormat := con.titleFormat
    windowIconPadding := con.windowIconPadding
    num := if con.type = .workspace then int32 con.num else 0
    gaps := if con.type = .workspace then con.gaps else {} }

/-- A key with a string that sets nothing. -/
theorem sets_string_id {k : Key} (s : String) (hk : k = .output ∨ k = .windowType) :
    Sets env {} (k.with (.string s)) k id := by
  rcases hk with rfl | rfl
  · exact sets_string s rfl (by decide)
  · exact sets_string s rfl (by decide)

theorem sets_layout {v : Layout} (h : v ≠ .default) :
    Sets env {} (Key.layout.with (.string (layoutText v))) .layout fun c => { c with layout := v } := by
  have hsets : Sets env {} _ _ _ := sets_string (k := .layout) (layoutText v) rfl (by decide)
  have hdefault : ¬ sameName (layoutText v) "default" = true := by
    rw [sameName_iff (lower_layoutText v) apart_texts.2.2.2.2.2.2.1]
    cases v <;> first | exact absurd rfl h | decide
  have hset : Loader.fieldString (some .layout) (layoutText v) = fun c => { c with layout := v } := by
    funext c
    rw [Loader.fieldString, if_neg hdefault, layoutOfText_text h, Option.getD_some]
  rwa [hset] at hsets

theorem sets_workspaceLayout {v : Layout} (h : v ∈ workspaceLayouts) :
    Sets env {} (Key.workspaceLayout.with (.string (layoutText v))) .workspaceLayout
      fun c => { c with workspaceLayout := v } := by
  have hsets : Sets env {} _ _ _ := sets_string (k := .workspaceLayout) (layoutText v) rfl (by decide)
  have hset : Loader.fieldString (some .workspaceLayout) (layoutText v)
      = fun c => { c with workspaceLayout := v } := by
    funext c
    rw [Loader.fieldString, workspaceLayoutOfText_text h, Option.getD_some]
  rwa [hset] at hsets

theorem sets_lastSplitLayout (v : Layout) :
    Sets env {} (Key.lastSplitLayout.with (.string (splitText v))) .lastSplitLayout
      fun c => { c with lastSplitLayout := splitLayout v } := by
  have hsets : Sets env {} _ _ _ := sets_string (k := .lastSplitLayout) (splitText v) rfl (by decide)
  have hset : Loader.fieldString (some .lastSplitLayout) (splitText v)
      = fun c => { c with lastSplitLayout := splitLayout v } := by
    funext c
    rw [Loader.fieldString, splitOfText_text, Option.getD_some]
  rwa [hset] at hsets

theorem sets_border (v : BorderStyle) :
    Sets env {} (Key.border.with (.string (borderText v))) .border
      fun c => { c with borderStyle := v, maxUserBorderStyle := v } := by
  have hsets : Sets env {} _ _ _ := sets_string (k := .border) (borderText v) rfl (by decide)
  have hpixel : ¬ sameName (borderText v) "1pixel" = true := by
    rw [sameName_iff (lower_borderText v) apart_texts.2.2.2.2.2.2.2]
    cases v <;> decide
  have hset : Loader.fieldString (some .border) (borderText v)
      = fun c => { c with borderStyle := v, maxUserBorderStyle := v } := by
    funext c
    rw [Loader.fieldString, if_neg hpixel, borderOfText_text]
  rwa [hset] at hsets

theorem sets_currentBorderWidth {n : ℤ} (h : Int32 n) :
    Sets env {} (Key.currentBorderWidth.with (.integer n)) .currentBorderWidth
      fun c => { c with currentBorderWidth := n } := by
  have hsets : Sets env {} _ _ _ := sets_integer (k := .currentBorderWidth) n rfl rfl rfl
  dsimp only [Loader.mapInt, Loader.fieldInt] at hsets
  rwa [int32_eq h] at hsets

theorem sets_windowIconPadding {n : ℤ} (h : Int32 n) :
    Sets env {} (Key.windowIconPadding.with (.integer n)) .windowIconPadding
      fun c => { c with windowIconPadding := n } := by
  have hsets : Sets env {} _ _ _ := sets_integer (k := .windowIconPadding) n rfl rfl rfl
  dsimp only [Loader.mapInt, Loader.fieldInt] at hsets
  rwa [int32_eq h] at hsets

/-- A name, of which there may be none. -/
theorem sets_name (name : Option String) :
    Sets env {} (Key.name.with (stringOrNull name)) .name
      fun c => { c with name := name.or c.name } := by
  cases name with
  | none => exact sets_null rfl
  | some name => exact sets_string (k := .name) name rfl (by decide)

/-- A part of which neither the last key nor whether a criterion is empty is told. -/
def SetsSome (env : Env) (ts : List Token) (f : Fields → Fields) : Prop :=
  ∀ L : Loader, L.parsing = {} → L.lastKey ≠ some .floatingNodes →
    ∃ k e, k ≠ some .floatingNodes ∧
      Leads env L ts { L.setCon f with lastKey := k, swallowIsEmpty := e }

theorem Sets.some {ts : List Token} {k : Key} {f : Fields → Fields} (h : Sets env {} ts k f)
    (hk : k ≠ .floatingNodes) : SetsSome env ts f :=
  fun L hL _ => ⟨k, L.swallowIsEmpty, fun heq => hk (Option.some_inj.mp heq), h L hL⟩

theorem SetsSome.append {ts us : List Token} {f f' : Fields → Fields} (h : SetsSome env ts f)
    (h' : SetsSome env us f') : SetsSome env (ts ++ us) (f' ∘ f) := by
  intro L hL hkey
  obtain ⟨k, e, hk, hleads⟩ := h L hL hkey
  obtain ⟨k', e', hk', hleads'⟩ := h' { L.setCon f with lastKey := k, swallowIsEmpty := e } hL hk
  refine ⟨k', e', hk', ?_⟩
  obtain ⟨⟨c, nodes, floatingNodes, focus⟩, parents, lastKey, parsing, swallowIsEmpty, marks⟩ := L
  exact hleads.append hleads'

theorem SetsSome.nil : SetsSome env [] id := by
  intro L hL hkey
  refine ⟨L.lastKey, L.swallowIsEmpty, hkey, ?_⟩
  rw [Loader.setCon, setCon_id]
  exact .nil _

theorem setsSome_titleFormat (titleFormat : Option String) :
    SetsSome env (Key.titleFormat.withSome titleFormat)
      fun c => { c with titleFormat := titleFormat.or c.titleFormat } := by
  cases titleFormat with
  | none => exact .nil
  | some s => exact (sets_string (k := .titleFormat) s rfl (by decide)).some (by decide)

/-- What is dumped of the window for a restart sets nothing. -/
theorem setsSome_dumpWindow (w : Option ClientWindow) : SetsSome env (dumpWindow true w) id := by
  cases w with
  | none => exact ((sets_null (k := .window) rfl).append (sets_null (k := .windowType) rfl)).some (by decide)
  | some w =>
    rw [dumpWindow, if_pos rfl, List.append_nil]
    have hid : Sets env {} (Key.window.with (.integer w.id)) .window id :=
      sets_integer w.id rfl rfl rfl
    exact (hid.append (sets_string_id _ (.inr rfl))).some (by decide)

/-- The output, where it is told. -/
theorem setsSome_output (env : Env) (con : Fields) (output : String) : SetsSome env
    (if con.type ≠ .root ∧ con.type ≠ .output then Key.output.with (.string output) else []) id := by
  split
  · exact (sets_string_id output (.inl rfl)).some (by decide)
  · exact .nil

/-- The number and the gaps of a workspace. -/
theorem setsSome_workspace (h : Fits con) :
    SetsSome env (if con.type = .workspace then Key.num.with (.integer con.num) ++ dumpGaps .gaps con.gaps
        else [])
      fun c =>
        { c with
          num := if con.type = .workspace then int32 con.num else c.num
          gaps := if con.type = .workspace then con.gaps else c.gaps } := by
  split
  · have hnum : Sets env {} (Key.num.with (.integer con.num)) .num
        fun c => { c with num := int32 con.num } := sets_integer con.num rfl rfl rfl
    exact (hnum.append (sets_dumpGaps h.gaps)).some (by decide)
  · exact .nil

theorem exists_setsSome_dumpLayout (env : Env) (nodes : List Node) (h : Fits con) (output : String)
    (parent : Fields) :
    ∃ f, SetsSome env (dumpLayout true output parent con nodes) f ∧
      ∀ split, f (afterFirst env con split) = afterLayout env con := by
  have hsome := ((((((((((((((setsSome_output env con output).append
    ((sets_layout h.layout).some (by decide))).append
    ((sets_workspaceLayout h.workspaceLayout).some (by decide))).append
    ((sets_lastSplitLayout con.layout).some (by decide))).append
    ((sets_border con.borderStyle).some (by decide))).append
    ((sets_currentBorderWidth h.currentBorderWidth).some (by decide))).append
    ((sets_dumpRect h.rect).some (by decide))).append
    ((sets_dumpDecoRect parent con nodes).some (by decide))).append
    ((sets_dumpWindowRect h.windowRect).some (by decide))).append
    ((sets_dumpGeometry h.geometry).some (by decide))).append
    ((sets_name con.dumpedName).some (by decide))).append
    (setsSome_titleFormat con.titleFormat)).append
    ((sets_windowIconPadding h.windowIconPadding).some (by decide))).append
    (setsSome_workspace h)).append (setsSome_dumpWindow con.window)
  refine ⟨_, hsome, fun split => ?_⟩
  apply Fields.ext
  case name => exact Option.or_none
  case titleFormat => exact Option.or_none
  all_goals rfl

/-! ### The criteria of windows -/

/-- Something of the criterion is dumped, and what is dumped is a regular expression. -/
@[mk_iff]
structure Swallow.Told (env : Env) (s : Swallow) : Prop where
  some : s.dock ≠ -1 ∨ s.class_ ≠ none ∨ s.instance_ ≠ none ∨ s.windowRole ≠ none ∨ s.title ≠ none ∨
    s.machine ≠ none
  compiles : ∀ pattern ∈ s.class_.toList ++ s.instance_.toList ++ s.windowRole.toList ++ s.title.toList
    ++ s.machine.toList, env.compiles pattern = true

instance (env : Env) (s : Swallow) : Decidable (s.Told env) :=
  decidable_of_iff' _ (Swallow.told_iff env s)

/-- A criterion as it is read again. -/
def Swallow.reread (s : Swallow) : Swallow :=
  { s with
    insertWhere := if s.dock = -1 then 0 else s.insertWhere
    id := 0
    restartMode := false }

/-- A part of a criterion, and whether it tells anything. -/
def SetsSwallow (env : Env) (ts : List Token) (told : Bool) (f : Swallow → Swallow) : Prop :=
  ∀ L : Loader, L.parsing = { swallows := true } → L.lastKey ≠ some .floatingNodes →
    ∃ k, k ≠ some .floatingNodes ∧ Leads env L ts
      { L.setCon (modifySwallow f) with
        lastKey := k
        swallowIsEmpty := !told && L.swallowIsEmpty }

theorem modifySwallow_append (f : Swallow → Swallow) (c : Fields) (pre : List Swallow) (s : Swallow) :
    modifySwallow f { c with swallows := pre ++ [s] } = { c with swallows := pre ++ [f s] } := by
  simp [modifySwallow]

theorem modifySwallow_comp (f f' : Swallow → Swallow) :
    modifySwallow f' ∘ modifySwallow f = modifySwallow (f' ∘ f) := by
  funext c
  rcases List.eq_nil_or_concat c.swallows with hnil | ⟨pre, s, hs⟩
  · simp [modifySwallow, hnil]
  · simp [modifySwallow, hs]

theorem modifySwallow_id : modifySwallow id = id := by
  funext c
  have hswallows : c.swallows.dropLast ++ (c.swallows.getLast?.map id).toList = c.swallows := by
    rcases List.eq_nil_or_concat c.swallows with hnil | ⟨pre, s, hs⟩
    · simp [hnil]
    · simp [hs]
  rw [modifySwallow, hswallows]
  rfl

theorem SetsSwallow.append {ts us : List Token} {told told' : Bool} {f f' : Swallow → Swallow}
    (h : SetsSwallow env ts told f) (h' : SetsSwallow env us told' f') :
    SetsSwallow env (ts ++ us) (told || told') (f' ∘ f) := by
  intro L hL hkey
  obtain ⟨k, hk, hleads⟩ := h L hL hkey
  obtain ⟨k', hk', hleads'⟩ := h' { L.setCon (modifySwallow f) with
    lastKey := k, swallowIsEmpty := !told && L.swallowIsEmpty } hL hk
  refine ⟨k', hk', ?_⟩
  have hempty : (!(told || told') && L.swallowIsEmpty)
      = (!told' && (!told && L.swallowIsEmpty)) := by
    cases told <;> cases told' <;> rfl
  rw [hempty, ← modifySwallow_comp]
  obtain ⟨⟨c, nodes, floatingNodes, focus⟩, parents, lastKey, parsing, swallowIsEmpty, marks⟩ := L
  exact hleads.append hleads'

theorem SetsSwallow.nil : SetsSwallow env [] false id := by
  intro L _ hkey
  refine ⟨L.lastKey, hkey, ?_⟩
  rw [Loader.setCon, modifySwallow_id, setCon_id]
  exact .nil _

/-- A pattern of a criterion, where there is one. -/
theorem setsSwallow_pattern {k : Key} {pattern : Option String} (hplain : k.plain = true)
    (hne : k ≠ .floatingNodes) (hcompiles : ∀ s ∈ pattern, env.compiles s = true)
    (set : Option String → Swallow → Swallow) (hnone : set none = id)
    (hset : ∀ s (L : Loader), Loader.regex env s = some s → L.lastKey = some k →
      L.swallowString env s = { L.setCon (modifySwallow (set (some s))) with swallowIsEmpty := false }) :
    SetsSwallow env (k.withSome pattern) pattern.isSome (set pattern) := by
  cases pattern with
  | none =>
    rw [hnone]
    exact .nil
  | some s =>
    intro L hL _
    refine ⟨some k, fun heq => hne (Option.some_inj.mp heq), .cons (step_key hplain) (.single ?_)⟩
    have hregex : Loader.regex env s = some s := if_pos (hcompiles s rfl)
    obtain ⟨node, parents, lastKey, parsing, swallowIsEmpty, marks⟩ := L
    obtain rfl : parsing = { swallows := true } := hL
    unfold Loader.step Loader.jsonString
    dsimp only
    rw [if_pos rfl, hset s _ hregex rfl]
    rfl

/-- A number of a criterion. -/
theorem setsSwallow_integer {k : Key} (n : ℤ) (hk : k = .id ∨ k = .dock ∨ k = .insertWhere)
    (set : Swallow → Swallow)
    (hset : ∀ L : Loader, L.lastKey = some k → L.swallowInt n
      = { L.setCon (modifySwallow set) with swallowIsEmpty := false }) :
    SetsSwallow env (k.with (.integer n)) true set := by
  intro L hL _
  have hplain : k.plain = true := by rcases hk with rfl | rfl | rfl <;> rfl
  have hne : some k ≠ some .floatingNodes := by rcases hk with rfl | rfl | rfl <;> decide
  refine ⟨some k, hne, .cons (step_key hplain) (.single ?_)⟩
  obtain ⟨node, parents, lastKey, parsing, swallowIsEmpty, marks⟩ := L
  obtain rfl : parsing = { swallows := true } := hL
  -- the container itself has no number of this key
  have hfield (c : Fields) : Loader.mapInt { swallows := true } (some k) n
      (Loader.fieldInt { swallows := true } (some k) n c) = c := by
    rcases hk with rfl | rfl | rfl <;> rfl
  unfold Loader.step Loader.jsonInt
  dsimp only [Loader.setCon]
  rw [funext hfield, if_neg Bool.false_ne_true]
  dsimp only
  rw [if_pos rfl, hset _ rfl]
  dsimp only [Loader.setCon]
  rw [show (fun c => c : Fields → Fields) = id from rfl, setCon_id]
  rfl

/-- What a dumped criterion sets of one that is new. -/
def Swallow.onto (s w : Swallow) : Swallow :=
  { w with
    dock := if s.dock = -1 then w.dock else s.dock
    insertWhere := if s.dock = -1 then w.insertWhere else s.insertWhere
    class_ := s.class_.or w.class_
    instance_ := s.instance_.or w.instance_
    windowRole := s.windowRole.or w.windowRole
    title := s.title.or w.title
    machine := s.machine.or w.machine }

theorem Swallow.onto_new {s : Swallow} : s.onto {} = s.reread := by
  have hdock : (if s.dock = -1 then -1 else s.dock) = s.dock := by
    split
    · next h => exact h.symm
    · rfl
  simp only [onto, reread, Option.or_none, hdock]

theorem setsSwallow_dock (env : Env) (s : Swallow) :
    SetsSwallow env (if s.dock ≠ -1 then
        Key.dock.with (.integer s.dock) ++ Key.insertWhere.with (.integer s.insertWhere) else [])
      (s.dock ≠ -1) fun w =>
        { w with
          dock := if s.dock = -1 then w.dock else s.dock
          insertWhere := if s.dock = -1 then w.insertWhere else s.insertWhere } := by
  by_cases hdock : s.dock = -1
  · simp only [hdock, ne_eq, not_true_eq_false, if_false, decide_false, if_true]
    exact .nil
  · simp only [ne_eq, hdock, not_false_eq_true, if_true, decide_true, if_false]
    have hset : SetsSwallow env _ _ _ := setsSwallow_integer (k := .dock) s.dock (.inr (.inl rfl))
      (fun w => { w with dock := s.dock }) fun L hL => by rw [Loader.swallowInt, hL]
    have hinsert : SetsSwallow env _ _ _ := setsSwallow_integer (k := .insertWhere) s.insertWhere (.inr (.inr rfl))
      (fun w => { w with insertWhere := s.insertWhere }) fun L hL => by rw [Loader.swallowInt, hL]
    exact hset.append hinsert

/-- What is dumped of a criterion is read again. -/
theorem setsSwallow_dump {s : Swallow} (h : s.Told env) :
    SetsSwallow env ((if s.dock ≠ -1 then
        Key.dock.with (.integer s.dock) ++ Key.insertWhere.with (.integer s.insertWhere) else [])
      ++ Key.class_.withSome s.class_ ++ Key.instance_.withSome s.instance_
      ++ Key.windowRole.withSome s.windowRole ++ Key.title.withSome s.title
      ++ Key.machine.withSome s.machine) true s.onto := by
  have hcompiles := h.compiles
  simp only [List.mem_append, Option.mem_toList] at hcompiles
  have hclass : SetsSwallow env (Key.class_.withSome s.class_) _ _ := setsSwallow_pattern rfl (by decide)
    (fun p hp => hcompiles p (.inl (.inl (.inl (.inl hp)))))
    (fun p w => { w with class_ := p.or w.class_ }) rfl
    fun p L hp hL => by rw [Loader.swallowString, hL, hp]; rfl
  have hinstance : SetsSwallow env (Key.instance_.withSome s.instance_) _ _ := setsSwallow_pattern rfl
    (by decide) (fun p hp => hcompiles p (.inl (.inl (.inl (.inr hp)))))
    (fun p w => { w with instance_ := p.or w.instance_ }) rfl
    fun p L hp hL => by rw [Loader.swallowString, hL, hp]; rfl
  have hrole : SetsSwallow env (Key.windowRole.withSome s.windowRole) _ _ := setsSwallow_pattern rfl
    (by decide) (fun p hp => hcompiles p (.inl (.inl (.inr hp))))
    (fun p w => { w with windowRole := p.or w.windowRole }) rfl
    fun p L hp hL => by rw [Loader.swallowString, hL, hp]; rfl
  have htitle : SetsSwallow env (Key.title.withSome s.title) _ _ := setsSwallow_pattern rfl (by decide)
    (fun p hp => hcompiles p (.inl (.inr hp))) (fun p w => { w with title := p.or w.title }) rfl
    fun p L hp hL => by rw [Loader.swallowString, hL, hp]; rfl
  have hmachine : SetsSwallow env (Key.machine.withSome s.machine) _ _ := setsSwallow_pattern rfl
    (by decide) (fun p hp => hcompiles p (.inr hp)) (fun p w => { w with machine := p.or w.machine })
    rfl fun p L hp hL => by rw [Loader.swallowString, hL, hp]; rfl
  have hall := (((((setsSwallow_dock env s).append hclass).append hinstance).append hrole).append
    htitle).append hmachine
  have htold : (decide (s.dock ≠ -1) || s.class_.isSome || s.instance_.isSome || s.windowRole.isSome
      || s.title.isSome || s.machine.isSome) = true := by
    simpa [Option.isSome_iff_ne_none, or_assoc] using h.some
  rw [htold] at hall
  exact hall

/-- A criterion that is added, and read to its end. -/
theorem leads_criterion {ts : List Token} {f : Swallow → Swallow} (h : SetsSwallow env ts true f)
    (hL : L.parsing = { swallows := true }) (hkey : L.lastKey ≠ some .floatingNodes) :
    ∃ k, k ≠ some .floatingNodes ∧ Leads env L ([.startMap] ++ ts ++ [.endMap])
      { L.setCon fun c => { c with swallows := c.swallows ++ [f {}] } with
        lastKey := k
        swallowIsEmpty := false } := by
  obtain ⟨k, hk, hleads⟩ := h { L.setCon fun c => { c with swallows := c.swallows ++ [{}] } with
    swallowIsEmpty := true } hL hkey
  obtain ⟨⟨c, nodes, floatingNodes, focus⟩, parents, lastKey, parsing, swallowIsEmpty, marks⟩ := L
  obtain rfl : parsing = { swallows := true } := hL
  refine ⟨k, hk, ((Leads.single rfl).append hleads).append (.single ?_)⟩
  dsimp only [Loader.setCon, Node.setCon]
  rw [modifySwallow_append]
  rfl

/-- The criteria of a container are added one after the other. -/
theorem leads_criteria {ss : List Swallow} (h : ∀ s ∈ ss, s.Told env)
    (hL : L.parsing = { swallows := true }) (hkey : L.lastKey ≠ some .floatingNodes) :
    ∃ k e, k ≠ some .floatingNodes ∧ Leads env L (ss.flatMap dumpSwallow)
      { L.setCon fun c => { c with swallows := c.swallows ++ ss.map Swallow.reread } with
        lastKey := k
        swallowIsEmpty := e } := by
  induction ss generalizing L with
  | nil =>
    refine ⟨L.lastKey, L.swallowIsEmpty, hkey, ?_⟩
    have hid : (fun c => { c with swallows := c.swallows ++ [] } : Fields → Fields) = id := by
      funext c
      rw [List.append_nil]
      rfl
    rw [List.map_nil, hid, Loader.setCon, setCon_id]
    exact .nil _
  | cons s ss ih =>
    obtain ⟨k, hk, hs⟩ := leads_criterion (setsSwallow_dump (h s List.mem_cons_self)) hL hkey
    rw [Swallow.onto_new] at hs
    obtain ⟨k', e, hk', hss⟩ := ih (L := { L.setCon fun c =>
        { c with swallows := c.swallows ++ [s.reread] } with lastKey := k, swallowIsEmpty := false })
      (fun s' hs' => h s' (List.mem_cons_of_mem s hs')) hL hk
    refine ⟨k', e, hk', ?_⟩
    have hdump : dumpSwallow s = [.startMap] ++ ((if s.dock ≠ -1 then
        Key.dock.with (.integer s.dock) ++ Key.insertWhere.with (.integer s.insertWhere) else [])
      ++ Key.class_.withSome s.class_ ++ Key.instance_.withSome s.instance_
      ++ Key.windowRole.withSome s.windowRole ++ Key.title.withSome s.title
      ++ Key.machine.withSome s.machine) ++ [.endMap] := by
      simp only [dumpSwallow, List.append_assoc]
    rw [List.flatMap_cons, hdump]
    have hall := hs.append hss
    obtain ⟨⟨c, nodes, floatingNodes, focus⟩, parents, lastKey, parsing, swallowIsEmpty, marks⟩ := L
    dsimp only [Loader.setCon, Node.setCon] at hall ⊢
    rw [List.map_cons, List.append_cons c.swallows]
    exact hall

/-- The criterion that a restart adds for the window of a container. -/
def restartSwallow (w : ClientWindow) : Swallow := { id := w.id, restartMode := true }

theorem setsSwallow_restart (w : ClientWindow) :
    SetsSwallow env (Key.id.with (.integer w.id) ++ Key.restartMode.with (.bool true)) true
      fun s => { s with id := w.id, restartMode := true } := by
  have hid : SetsSwallow env _ _ _ := setsSwallow_integer (k := .id) w.id (.inl rfl)
    (fun s => { s with id := w.id }) fun L hL => by rw [Loader.swallowInt, hL]
  have hmode : SetsSwallow env (Key.restartMode.with (.bool true)) true
      fun s => { s with restartMode := true } := by
    intro L hL _
    refine ⟨some .restartMode, by decide, .cons (step_key rfl) (.single ?_)⟩
    obtain ⟨node, parents, lastKey, parsing, swallowIsEmpty, marks⟩ := L
    obtain rfl : parsing = { swallows := true } := hL
    rfl
  exact hid.append hmode

/-- The criteria of a container once it is read again. -/
def Fields.rereadSwallows (con : Fields) : List Swallow :=
  (con.swallows.filter fun s => !s.restartMode).map Swallow.reread
    ++ con.window.toList.map restartSwallow

/-- What was dumped of the criteria. -/
theorem setsSome_swallows (h : ∀ s ∈ con.swallows, s.restartMode = false → s.Told env) :
    SetsSome env ([.key Key.swallows.text, .startArray]
        ++ (con.swallows.filter fun s => !s.restartMode).flatMap dumpSwallow
        ++ con.window.toList.flatMap dumpRestartSwallow ++ [.endArray])
      fun c => { c with swallows := c.swallows ++ con.rereadSwallows } := by
  intro L hL _
  have hkept : ∀ s ∈ con.swallows.filter fun s => !s.restartMode, s.Told env := by
    intro s hs
    obtain ⟨hmem, hmode⟩ := List.mem_filter.mp hs
    exact h s hmem (by simpa using hmode)
  have hstart : Leads env L [.key Key.swallows.text, .startArray]
      { L with lastKey := some .swallows, parsing := { swallows := true } } := by
    refine .cons (step_text _) (.single ?_)
    rw [Loader.keyed, hL]
    rfl
  have hkey : some Key.swallows ≠ some Key.floatingNodes := by decide
  obtain ⟨k, e, hk, hcriteria⟩ := leads_criteria
    (L := { L with lastKey := some .swallows, parsing := { swallows := true } }) hkept rfl hkey
  have hend (L' : Loader) (hL' : L'.parsing = { swallows := true }) :
      Leads env L' [.endArray] { L' with parsing := {} } := by
    refine .single ?_
    obtain ⟨node, parents, lastKey, parsing, swallowIsEmpty, marks⟩ := L'
    obtain rfl : parsing = { swallows := true } := hL'
    rfl
  have hfirst := hstart.append hcriteria
  cases hwindow : con.window with
  | none =>
    refine ⟨k, e, hk, ?_⟩
    rw [Fields.rereadSwallows, hwindow, Option.toList_none, List.flatMap_nil, List.map_nil,
      List.append_nil, List.append_nil]
    have hall := hfirst.append (hend _ (by rfl))
    rw [← hL] at hall
    exact hall
  | some w =>
    obtain ⟨k', hk', hrestart⟩ := leads_criterion (setsSwallow_restart w)
      (L := { { L with lastKey := some .swallows, parsing := { swallows := true } }.setCon fun c =>
        { c with swallows := c.swallows
          ++ (con.swallows.filter fun s : Swallow => !s.restartMode).map Swallow.reread } with
        lastKey := k, swallowIsEmpty := e }) rfl hk
    refine ⟨k', false, hk', ?_⟩
    have hall := (hfirst.append hrestart).append (hend _ (by rfl))
    obtain ⟨⟨c, nodes, floatingNodes, focus⟩, parents, lastKey, parsing, swallowIsEmpty, marks⟩ := L
    obtain rfl : parsing = {} := hL
    dsimp only [Loader.setCon, Node.setCon] at hall ⊢
    rw [Fields.rereadSwallows, hwindow, Option.toList_some, List.flatMap_singleton, List.map_singleton,
      ← List.append_assoc c.swallows]
    exact hall

/-! ### After the children -/

/-- The focus stack is put into the order of the dump. -/
theorem leads_focus (hL : L.parsing = {}) (hmappings : L.focusMappings = []) (focus : List ℤ) :
    Leads env L ([.key Key.focus.text, .startArray] ++ focus.map .integer ++ [.endArray])
      { L with
        node := L.node.setFocus fun stack => (focus.map int32).foldr moveToFront stack
        lastKey := some .focus } := by
  have hnumbers (ns : List ℤ) (L : Loader) (hL : L.parsing = { focus := true })
      (hkey : L.lastKey = some .focus) :
      Leads env L (ns.map .integer)
        { L with focusMappings := L.focusMappings ++ ns.map int32 } := by
    induction ns generalizing L with
    | nil =>
      rw [List.map_nil, List.map_nil, List.append_nil]
      exact .nil _
    | cons n ns ih =>
      have hstep : L.step env (.integer n)
          = some { L with focusMappings := L.focusMappings ++ [int32 n] } := by
        obtain ⟨⟨c, nodes, floatingNodes, focus⟩, parents, lastKey, parsing, swallowIsEmpty, marks⟩ := L
        obtain rfl : parsing = { focus := true } := hL
        obtain rfl : lastKey = some .focus := hkey
        rfl
      have hrest := ih { L with focusMappings := L.focusMappings ++ [int32 n] } hL hkey
      rw [List.append_assoc] at hrest
      exact .cons hstep hrest
  have hstart : Leads env L [.key Key.focus.text, .startArray]
      { L with lastKey := some .focus, parsing := { focus := true }, focusMappings := [] } := by
    refine .cons (step_text _) (.single ?_)
    rw [Loader.keyed, hL, hmappings]
    rfl
  refine (hstart.append (hnumbers focus _ rfl rfl)).append (.single ?_)
  obtain ⟨node, parents, lastKey, parsing, swallowIsEmpty, marks, mappings⟩ := L
  obtain rfl : parsing = {} := hL
  obtain rfl : mappings = [] := hmappings
  rfl

theorem sets_fullscreenMode (v : FullscreenMode) :
    Sets env {} (Key.fullscreenMode.with (.integer (fullscreenNumber v))) .fullscreenMode
      fun c => { c with fullscreenMode := v } := by
  have hsets : Sets env {} _ _ _ := sets_integer (k := .fullscreenMode) (fullscreenNumber v) rfl rfl
    rfl
  have hset : (fun c => Loader.mapInt {} (some .fullscreenMode) (fullscreenNumber v)
      (Loader.fieldInt {} (some .fullscreenMode) (fullscreenNumber v) c))
        = fun c => { c with fullscreenMode := v } := by
    funext c
    rw [Loader.fieldInt, fullscreenOfNumber_number, Option.getD_some]
    rfl
  rwa [hset] at hsets

theorem sets_floating (v : Floating) :
    Sets env {} (Key.floating.with (.string (floatingText v))) .floating
      fun c => { c with floating := v } := by
  have hsets : Sets env {} _ _ _ := sets_string (k := .floating) (floatingText v) rfl (by decide)
  have hset : Loader.fieldString (some .floating) (floatingText v)
      = fun c => { c with floating := v } := by
    funext c
    rw [Loader.fieldString, floatingOfText_text, Option.getD_some]
  rwa [hset] at hsets

theorem setsSome_depth (hdepth : con.depth < 2 ^ 16) :
    SetsSome env (if con.window ≠ none then Key.depth.with (.integer con.depth) else [])
      fun c => { c with depth := if con.window ≠ none then con.depth else c.depth } := by
  split
  · have hsets : Sets env {} _ _ _ := sets_integer (k := .depth) con.depth rfl rfl rfl
    have hset : (fun c => Loader.mapInt {} (some .depth) con.depth
        (Loader.fieldInt {} (some .depth) con.depth c)) = fun c => { c with depth := con.depth } := by
      funext c
      rw [Loader.fieldInt, Int.toNat_natCast, Nat.mod_eq_of_lt hdepth]
      rfl
    rw [hset] at hsets
    exact hsets.some (by decide)
  · exact .nil

/-- What the last part sets. -/
def afterLast (con c : Fields) : Fields :=
  { c with
    fullscreenMode := con.fullscreenMode
    sticky := con.sticky
    floating := con.floating
    swallows := c.swallows ++ con.rereadSwallows
    depth := if con.window ≠ none then con.depth else c.depth }

/-- The name of the previous workspace is read off the root. -/
theorem leads_previousWorkspaceName (env : Env) (con : Fields) (g : Globals) (hL : L.parsing = {})
    (hkey : L.lastKey ≠ some .floatingNodes) :
    ∃ k, k ≠ some .floatingNodes ∧ Leads env L
      (if con.type = .root then Key.previousWorkspaceName.withSome g.previousWorkspaceName else [])
      { L with
        lastKey := k
        previousWorkspaceName :=
          if con.type = .root then g.previousWorkspaceName.or L.previousWorkspaceName
          else L.previousWorkspaceName } := by
  split
  · cases g.previousWorkspaceName with
    | none => exact ⟨L.lastKey, hkey, .nil _⟩
    | some name =>
      refine ⟨some .previousWorkspaceName, by decide, .cons (step_key rfl) (.single ?_)⟩
      obtain ⟨node, parents, lastKey, parsing, swallowIsEmpty, marks⟩ := L
      obtain rfl : parsing = {} := hL
      rfl
  · exact ⟨L.lastKey, hkey, .nil _⟩

theorem setsSome_last (h : Fits con)
    (hswallows : ∀ s ∈ con.swallows, s.restartMode = false → s.Told env) :
    SetsSome env (Key.fullscreenMode.with (.integer (fullscreenNumber con.fullscreenMode))
        ++ Key.sticky.with (.bool con.sticky) ++ Key.floating.with (.string (floatingText con.floating))
        ++ ([.key Key.swallows.text, .startArray]
          ++ (con.swallows.filter fun s => !s.restartMode).flatMap dumpSwallow
          ++ con.window.toList.flatMap dumpRestartSwallow ++ [.endArray])
        ++ (if con.window ≠ none then Key.depth.with (.integer con.depth) else []))
      (afterLast con) :=
  (((((sets_fullscreenMode con.fullscreenMode).some (by decide)).append
    ((sets_sticky con.sticky).some (by decide))).append
    ((sets_floating con.floating).some (by decide))).append (setsSome_swallows hswallows)).append
    (setsSome_depth h.depth)

theorem leads_dumpLast (g : Globals) (h : Fits con)
    (hswallows : ∀ s ∈ con.swallows, s.restartMode = false → s.Told env) (hL : L.parsing = {})
    (hmappings : L.focusMappings = []) (focus : List ℤ) :
    ∃ k e, k ≠ some .floatingNodes ∧ Leads env L (dumpLast true g con focus)
      { L with
        node := (L.node.setFocus fun stack => (focus.map int32).foldr moveToFront stack).setCon
          (afterLast con)
        lastKey := k
        swallowIsEmpty := e
        previousWorkspaceName :=
          if con.type = .root then g.previousWorkspaceName.or L.previousWorkspaceName
          else L.previousWorkspaceName } := by
  have hdump : dumpLast true g con focus
      = ([.key Key.focus.text, .startArray] ++ focus.map .integer ++ [.endArray])
        ++ (Key.fullscreenMode.with (.integer (fullscreenNumber con.fullscreenMode))
          ++ Key.sticky.with (.bool con.sticky) ++ Key.floating.with (.string (floatingText con.floating))
          ++ ([.key Key.swallows.text, .startArray]
            ++ (con.swallows.filter fun s => !s.restartMode).flatMap dumpSwallow
            ++ con.window.toList.flatMap dumpRestartSwallow ++ [.endArray])
          ++ (if con.window ≠ none then Key.depth.with (.integer con.depth) else []))
        ++ (if con.type = .root then Key.previousWorkspaceName.withSome g.previousWorkspaceName
          else []) := by
    simp only [dumpLast, List.append_assoc, true_and, if_true]
  have hkey : some Key.focus ≠ some Key.floatingNodes := by decide
  obtain ⟨k, e, hk, hlast⟩ := setsSome_last h hswallows
    { L with
      node := L.node.setFocus fun stack => (focus.map int32).foldr moveToFront stack
      lastKey := some .focus } hL hkey
  obtain ⟨k', hk', hname⟩ := leads_previousWorkspaceName env con g
    (L := { L with
      node := (L.node.setFocus fun stack => (focus.map int32).foldr moveToFront stack).setCon
        (afterLast con)
      lastKey := k
      swallowIsEmpty := e }) hL hk
  rw [hdump]
  exact ⟨k', e, hk', ((leads_focus hL hmappings focus).append hlast).append hname⟩

end Restart

end I3
