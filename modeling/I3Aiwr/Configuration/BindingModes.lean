import I3Aiwr.Configuration.Reload

/-!
# The modes that bindings end up in

A configuration is bindings and blocks with bindings. A block has the name of a mode; the name `default`
is rejected, but the bindings in its block are read all the same, and `cfg_mode_binding` drops them "when
using an invalid mode name". It knows that by the variable `current_mode`, which is not set then: it is
`NULL` until a block is accepted, and after that it is the name of that block, also when the
configuration is loaded again.

## Main definitions

* `Item`: a binding or a block
* `expected`: the bindings that a mode is to get
* `Placed`: each mode has got its bindings
* `NoStray`: no rejected block has a binding once a block was accepted

## Main results

* `bindingsOf_run`: what a mode gets
* `placed_iff`: when each binding ends up in its mode
-/

namespace I3.Configuration

open I3.Parser (Text)

/-- A part of a configuration. -/
inductive Item
  | binding (a : BindingArgs)
  | block (pangoMarkup : Option Text) (modename : Text) (bindings : List BindingArgs)
  deriving DecidableEq, Repr

namespace Item

/-- What the parser calls for it. It reads the bindings of a block whether its name is accepted or not. -/
def directives : Item → List ModeDirective
  | binding a => [.binding a]
  | block pangoMarkup modename bindings =>
    .enterMode pangoMarkup modename :: bindings.map .modeBinding

/-- The bindings that the mode `name` is to get. -/
def expected (name : Text) : Item → List Binding
  | binding a => if name = defaultBindingMode then a.binding.toList else []
  | block _ modename bindings =>
    if modename ≠ defaultBindingMode ∧ name = modename then bindings.filterMap BindingArgs.binding
    else []

/-- A block whose name is accepted. -/
def accepted : Item → Bool
  | binding _ => false
  | block _ modename _ => modename ≠ defaultBindingMode

/-- The bindings of a block whose name is rejected. -/
def rejected : Item → List Binding
  | binding _ => []
  | block _ modename bindings =>
    if modename = defaultBindingMode then bindings.filterMap BindingArgs.binding else []

end Item

/-- The bindings of the first mode with a name. -/
def bindingsOf (name : Text) (modes : Modes) : List Binding :=
  ((modes.find? fun m => m.name = name).map Mode.bindings).getD []

/-- **Each binding is in the mode of its block**, in some order: `reorder_bindings` sorts them. There is
one mode of each name. -/
structure Placed (items : List Item) (modes : Modes) : Prop where
  nodup : (modes.map Mode.name).Nodup
  perm : ∀ name, (bindingsOf name modes).Perm (items.flatMap (Item.expected name))

/-- Where a block was accepted before, no rejected block has a binding. -/
def NoStray : Bool → List Item → Prop
  | _, [] => True
  | entered, item :: items =>
    (entered = true → item.rejected = []) ∧ NoStray (entered || item.accepted) items

instance NoStray.instDecidable : ∀ (entered : Bool) (items : List Item), Decidable (NoStray entered items)
  | _, [] => inferInstanceAs (Decidable True)
  | entered, item :: items =>
    have := NoStray.instDecidable (entered || item.accepted) items
    inferInstanceAs (Decidable ((_ → _) ∧ _))

/-- A configuration is loaded. -/
def loadItems (env : Env) (type : LoadType) (items : List Item) (g : Globals) : Globals :=
  loadConfiguration env type ((items.flatMap Item.directives).map .mode) g

/-- Configurations are loaded one after another, from the start of i3. -/
def loadAll (env : Env) (previous : List (LoadType × List Item)) : Globals :=
  previous.foldl (fun g p => loadItems env p.1 p.2 g) {}

variable {a : BindingArgs} {b : Binding} {name name' : Text} {pango : Bool} {modes : Modes}
  {item : Item} {items : List Item} {s : ModeState}

/-! ### The modes -/

theorem names_appendTo : (appendTo name b modes).map Mode.name = modes.map Mode.name := by
  induction modes with
  | nil => rfl
  | cons m ms ih =>
    unfold appendTo
    split
    · rfl
    · rw [List.map_cons, List.map_cons, ih]

theorem nodup_configureBinding (h : (modes.map Mode.name).Nodup) :
    ((configureBinding a name pango modes).map Mode.name).Nodup := by
  unfold configureBinding
  split
  · exact h
  · rw [names_appendTo, modeFromName]
    split
    · exact h
    · next hnone =>
      refine List.nodup_cons.mpr ⟨fun hmem => hnone ?_, h⟩
      simpa using hmem

/-- A binding is added to its mode and to no other. -/
theorem bindingsOf_appendTo (h : modes.any (·.name = name) = true) :
    bindingsOf name' (appendTo name b modes)
      = bindingsOf name' modes ++ if name' = name then [b] else [] := by
  unfold bindingsOf
  induction modes with
  | nil => cases h
  | cons m ms ih =>
    rw [appendTo]
    by_cases hm : m.name = name
    · rw [if_pos hm]
      by_cases hname : name' = name
      · simp [hm, hname]
      · have hne : ¬ m.name = name' := fun heq => hname (heq.symm.trans hm)
        simp [hname, hne]
    · rw [if_neg hm]
      have hms : ms.any (·.name = name) = true := by simpa [hm] using h
      by_cases hname : m.name = name'
      · have hne : ¬ name' = name := fun heq => hm (hname.trans heq)
        simp [hname, hne]
      · simpa [hname] using ih hms

theorem bindingsOf_modeFromName :
    bindingsOf name' (modeFromName name pango modes) = bindingsOf name' modes := by
  unfold modeFromName
  split
  · rfl
  · next hnone =>
    by_cases hname : name = name'
    · subst hname
      have hfind : modes.find? (fun m => m.name = name) = none := by
        simpa using hnone
      simp [bindingsOf, hfind]
    · simp [bindingsOf, hname]

theorem bindingsOf_configureBinding : bindingsOf name' (configureBinding a name pango modes) =
    bindingsOf name' modes ++ if name' = name then a.binding.toList else [] := by
  unfold configureBinding
  cases a.binding with
  | none => simp
  | some b => rw [bindingsOf_appendTo any_modeFromName, bindingsOf_modeFromName]; rfl

theorem bindingsOf_reorderBindings :
    (bindingsOf name (reorderBindings modes)).Perm (bindingsOf name modes) := by
  unfold bindingsOf reorderBindings
  rw [List.find?_map, Function.comp_def]
  cases modes.find? fun m => m.name = name with
  | none => exact .refl _
  | some m => exact List.mergeSort_perm _ _

theorem names_reorderBindings : (reorderBindings modes).map Mode.name = modes.map Mode.name := by
  rw [reorderBindings, List.map_map]
  rfl

/-! ### What a configuration does -/

namespace Item

/-- The mode that is current behind an item. -/
def current (cur : Option Text) : Item → Option Text
  | binding _ => cur
  | block _ modename _ => if modename = defaultBindingMode then cur else some modename

/-- The bindings that the mode `name` gets, where `cur` is current before. -/
def placed (name : Text) (cur : Option Text) : Item → List Binding
  | binding a => if name = defaultBindingMode then a.binding.toList else []
  | block pangoMarkup modename bindings =>
    if (block pangoMarkup modename bindings).current cur = some name then
      bindings.filterMap BindingArgs.binding
    else []

variable {cur : Option Text}

theorem isSome_current : (item.current cur).isSome = (cur.isSome || item.accepted) := by
  cases item with
  | binding a => simp [current, accepted]
  | block pangoMarkup modename bindings =>
    by_cases hname : modename = defaultBindingMode <;> simp [current, accepted, hname]

variable {pangoMarkup : Option Text} {modename : Text} {bindings : List BindingArgs}

theorem placed_of_rejected (h : modename = defaultBindingMode) :
    (block pangoMarkup modename bindings).placed name cur
      = if cur = some name then (block pangoMarkup modename bindings).rejected else [] := by
  simp only [placed, current, rejected, h, if_true]

theorem placed_of_accepted (h : modename ≠ defaultBindingMode) :
    (block pangoMarkup modename bindings).placed name cur
      = (block pangoMarkup modename bindings).expected name := by
  simp only [placed, current, expected, h, if_false, Option.some.injEq, ne_eq, not_false_eq_true, true_and]
  simp only [eq_comm]

theorem expected_of_rejected (h : modename = defaultBindingMode) :
    (block pangoMarkup modename bindings).expected name = [] :=
  if_neg fun hand => hand.1 h

/-- Where no binding strays, each goes to its mode. -/
theorem placed_eq (h : cur.isSome = true → item.rejected = []) :
    item.placed name cur = item.expected name := by
  cases item with
  | binding a => rfl
  | block pangoMarkup modename bindings =>
    by_cases hname : modename = defaultBindingMode
    · rw [placed_of_rejected hname, expected_of_rejected hname]
      split
      · next heq => exact h (by rw [heq]; rfl)
      · rfl
    · exact placed_of_accepted hname

/-- No mode gets less than its bindings. -/
theorem length_expected_le : (item.expected name).length ≤ (item.placed name cur).length := by
  cases item with
  | binding a => exact le_rfl
  | block pangoMarkup modename bindings =>
    by_cases hname : modename = defaultBindingMode
    · rw [expected_of_rejected hname]
      exact Nat.zero_le _
    · rw [placed_of_accepted hname]

/-- The current mode gets the bindings of a rejected block. -/
theorem rejected_of_length (hcur : cur = some name)
    (h : (item.placed name cur).length = (item.expected name).length) : item.rejected = [] := by
  cases item with
  | binding a => rfl
  | block pangoMarkup modename bindings =>
    by_cases hname : modename = defaultBindingMode
    · rw [placed_of_rejected hname, if_pos hcur, expected_of_rejected hname] at h
      exact List.eq_nil_of_length_eq_zero h
    · exact if_neg hname

end Item

/-- The bindings of a block are read. -/
theorem run_modeBinding (as : List BindingArgs) (s : ModeState) :
    (ModeDirective.run (as.map .modeBinding) s).currentMode = s.currentMode
      ∧ ((s.modes.map Mode.name).Nodup →
        ((ModeDirective.run (as.map .modeBinding) s).modes.map Mode.name).Nodup)
      ∧ ∀ name, bindingsOf name (ModeDirective.run (as.map .modeBinding) s).modes
        = bindingsOf name s.modes
          ++ if s.currentMode = some name then as.filterMap BindingArgs.binding else [] := by
  induction as generalizing s with
  | nil => exact ⟨rfl, id, fun name => by simp [ModeDirective.run]⟩
  | cons a as ih =>
    rw [List.map_cons, ModeDirective.run, List.foldl_cons, ← ModeDirective.run]
    obtain ⟨hcurrent, hnodup, hbindings⟩ := ih (ModeDirective.modeBinding a |>.apply s)
    have hsame : ((ModeDirective.modeBinding a).apply s).currentMode = s.currentMode := by
      cases hmode : s.currentMode <;> simp [ModeDirective.apply, hmode]
    refine ⟨hcurrent.trans hsame, fun h => hnodup ?_, fun name => ?_⟩
    · cases hmode : s.currentMode with
      | none => simpa only [ModeDirective.apply, hmode] using h
      | some mode => simpa only [ModeDirective.apply, hmode] using nodup_configureBinding h
    · rw [hbindings, hsame]
      cases hmode : s.currentMode with
      | none => simp [ModeDirective.apply, hmode]
      | some mode =>
        simp only [ModeDirective.apply, hmode, bindingsOf_configureBinding, Option.some.injEq]
        by_cases hname : mode = name
        · subst hname
          cases hb : a.binding <;> simp [hb]
        · have hne : ¬ name = mode := fun heq => hname heq.symm
          simp [hname, hne]

/-- **An item is read.** -/
theorem run_directives (item : Item) (s : ModeState) :
    (ModeDirective.run item.directives s).currentMode = item.current s.currentMode
      ∧ ((s.modes.map Mode.name).Nodup →
        ((ModeDirective.run item.directives s).modes.map Mode.name).Nodup)
      ∧ ∀ name, bindingsOf name (ModeDirective.run item.directives s).modes
        = bindingsOf name s.modes ++ item.placed name s.currentMode := by
  cases item with
  | binding a =>
    exact ⟨rfl, nodup_configureBinding, fun name => bindingsOf_configureBinding⟩
  | block pangoMarkup modename bindings =>
    obtain ⟨hcurrent, hnodup, hbindings⟩ :=
      run_modeBinding bindings ((ModeDirective.enterMode pangoMarkup modename).apply s)
    have hmodes : ((ModeDirective.enterMode pangoMarkup modename).apply s).modes = s.modes := by
      unfold ModeDirective.apply
      dsimp only
      split <;> rfl
    have hcur : ((ModeDirective.enterMode pangoMarkup modename).apply s).currentMode
        = (Item.block pangoMarkup modename bindings).current s.currentMode := by
      unfold ModeDirective.apply Item.current
      dsimp only
      split <;> rfl
    rw [hmodes] at hnodup hbindings
    rw [hcur] at hcurrent hbindings
    exact ⟨hcurrent, hnodup, hbindings⟩

/-- What a mode gets of the items. -/
def placedAll (name : Text) : Option Text → List Item → List Binding
  | _, [] => []
  | cur, item :: items => item.placed name cur ++ placedAll name (item.current cur) items

/-- **What a mode gets** when the items are read, and which mode is current then. -/
theorem bindingsOf_run (items : List Item) (s : ModeState) :
    (ModeDirective.run (items.flatMap Item.directives) s).currentMode
        = items.foldl (fun cur item => item.current cur) s.currentMode
      ∧ ((s.modes.map Mode.name).Nodup →
        ((ModeDirective.run (items.flatMap Item.directives) s).modes.map Mode.name).Nodup)
      ∧ ∀ name, bindingsOf name (ModeDirective.run (items.flatMap Item.directives) s).modes
        = bindingsOf name s.modes ++ placedAll name s.currentMode items := by
  induction items generalizing s with
  | nil => exact ⟨rfl, id, fun name => (List.append_nil _).symm⟩
  | cons item items ih =>
    rw [List.flatMap_cons, ModeDirective.run, List.foldl_append, ← ModeDirective.run, ← ModeDirective.run]
    obtain ⟨hcurrent, hnodup, hbindings⟩ := ih (ModeDirective.run item.directives s)
    obtain ⟨hcurrent', hnodup', hbindings'⟩ := run_directives item s
    rw [hcurrent'] at hcurrent hbindings
    refine ⟨hcurrent, fun h => hnodup (hnodup' h), fun name => ?_⟩
    rw [hbindings, hbindings', List.append_assoc, placedAll]

/-! ### Bindings that stray -/

variable {cur : Option Text}

theorem placedAll_eq (h : NoStray cur.isSome items) :
    placedAll name cur items = items.flatMap (Item.expected name) := by
  induction items generalizing cur with
  | nil => rfl
  | cons item items ih =>
    obtain ⟨hitem, hrest⟩ := h
    rw [← Item.isSome_current] at hrest
    rw [placedAll, List.flatMap_cons, Item.placed_eq hitem, ih hrest]

theorem length_expected_le : (items.flatMap (Item.expected name)).length ≤ (placedAll name cur items).length := by
  induction items generalizing cur with
  | nil => exact le_rfl
  | cons item items ih =>
    rw [placedAll, List.flatMap_cons, List.length_append, List.length_append]
    exact Nat.add_le_add Item.length_expected_le ih

/-- If no mode gets more than its bindings, none strays. -/
theorem noStray_of_length
    (h : ∀ name, (placedAll name cur items).length = (items.flatMap (Item.expected name)).length) :
    NoStray cur.isSome items := by
  induction items generalizing cur with
  | nil => trivial
  | cons item items ih =>
    -- both parts of the list have at least the bindings that they are to have
    have hparts : ∀ name, (item.placed name cur).length = (item.expected name).length
        ∧ (placedAll name (item.current cur) items).length
          = (items.flatMap (Item.expected name)).length := by
      intro name
      have hsum := h name
      rw [placedAll, List.flatMap_cons, List.length_append, List.length_append] at hsum
      have hitem : (item.expected name).length ≤ (item.placed name cur).length :=
        Item.length_expected_le
      have hrest : (items.flatMap (Item.expected name)).length
          ≤ (placedAll name (item.current cur) items).length := length_expected_le
      omega
    refine ⟨fun hsome => ?_, ?_⟩
    · obtain ⟨mode, hmode⟩ := Option.isSome_iff_exists.mp hsome
      exact Item.rejected_of_length hmode (hparts mode).1
    · rw [← Item.isSome_current]
      exact ih fun name => (hparts name).2

/-! ### Loading -/

variable {env : Env} {type : LoadType} {g : Globals}

theorem filterMap_mode (ds : List ModeDirective) :
    (ds.map Directive.mode).filterMap Directive.mode? = ds := by
  rw [List.filterMap_map]
  exact List.filterMap_some

theorem currentMode_loadItems : (loadItems env type items g).modeState.currentMode
    = items.foldl (fun cur item => item.current cur) g.modeState.currentMode := by
  rw [loadItems, currentMode_load, filterMap_mode]
  exact (bindingsOf_run items _).1

theorem isSome_foldl_current (items : List Item) :
    (items.foldl (fun cur item => item.current cur) cur).isSome
      = (cur.isSome || items.any Item.accepted) := by
  induction items generalizing cur with
  | nil => simp
  | cons item items ih => rw [List.foldl_cons, ih, Item.isSome_current, List.any_cons, Bool.or_assoc]

/-- Which mode is current after some configurations were loaded. -/
theorem currentMode_loadAll (env : Env) (previous : List (LoadType × List Item)) :
    (loadAll env previous).modeState.currentMode.isSome
      = previous.any fun p => p.2.any Item.accepted := by
  induction previous using List.reverseRecOn with
  | nil => rfl
  | append_singleton previous p ih =>
    rw [loadAll, List.foldl_append, ← loadAll, List.foldl_cons, List.foldl_nil, currentMode_loadItems,
      isSome_foldl_current, ih]
    simp

/-- **When each binding ends up in its mode**, in any load of a configuration after any others: exactly
when no rejected block has a binding once a block was accepted, in this load or in one before. -/
theorem placed_iff (env : Env) (previous : List (LoadType × List Item)) (type : LoadType)
    (items : List Item) :
    Placed items (loadItems env type items (loadAll env previous)).modeState.modes
      ↔ NoStray (previous.any fun p => p.2.any Item.accepted) items := by
  rw [← currentMode_loadAll env previous, loadItems, modes_load, filterMap_mode]
  generalize (loadAll env previous).modeState = s
  obtain ⟨-, hnodup, hbindings⟩ :=
    bindingsOf_run items { s with modes := [{ name := defaultBindingMode }] }
  have hempty : ∀ name, bindingsOf name [{ name := defaultBindingMode }] = [] := by
    intro name
    by_cases hname : defaultBindingMode = name <;> simp [bindingsOf, hname]
  simp only [hempty, List.nil_append] at hbindings
  constructor
  · intro h
    apply noStray_of_length
    intro name
    rw [← hbindings, ← bindingsOf_reorderBindings.length_eq]
    exact (h.perm name).length_eq
  · intro h
    refine ⟨?_, fun name => ?_⟩
    · rw [names_reorderBindings]
      exact hnodup (List.nodup_singleton _)
    · rw [← placedAll_eq h, ← hbindings]
      exact bindingsOf_reorderBindings

/-- A binding of the block `default` goes to the block before it. -/
theorem not_placed_resize : ¬ ∀ (env : Env) (previous : List (LoadType × List Item)) (type : LoadType)
    (items : List Item),
    Placed items (loadItems env type items (loadAll env previous)).modeState.modes := by
  intro h
  let env : Env :=
    { logicalPx := id
      getColorpixel := fun _ => 0
      loadFont := fun pattern => { type := .pango, pattern }
      resolveTilde := id
      compiles := fun _ => true
      focused := none
      strtod := fun _ => 0.0
      scanDouble := fun _ => none }
  let a : BindingArgs := ⟨lit "bindsym", none, lit "x", none, none, none, none, lit "kill"⟩
  have hperm := (h env [] .load [.block none (lit "resize") [], .block none (lit "default") [a]]).perm
    (lit "resize")
  rw [loadItems, modes_load, filterMap_mode] at hperm
  exact absurd (bindingsOf_reorderBindings.symm.trans hperm).length_eq (by decide)

end I3.Configuration
