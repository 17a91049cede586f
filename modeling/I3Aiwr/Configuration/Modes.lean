import I3Aiwr.Configuration.Values

/-!
# Bindings and modes

`configure_binding` and `mode_from_name` of `src/bindings.c`: a binding goes to the end of the mode
of a name, which is created in front of the others where there is none. The directives `mode` and
`bindsym` inside it hand the name over in the variables `current_mode` and
`current_mode_pango_markup` of `src/config_directives.c`.

## Main definitions

* `BindingArgs`, `BindingArgs.binding`: a binding from its arguments
* `Modes`, `configureBinding`, `reorderBindings`
* `ModeDirective`: `cfg_binding`, `cfg_enter_mode`, `cfg_mode_binding`
* `strays`: the bindings for a mode that has no name of its own

## Main results

* `bindingCount_run`: how many bindings a list of directives adds
* `run_eq_iff`: when a mode entered before makes no difference
-/

namespace I3.Configuration

open I3.Parser (Text)

inductive InputType
  | keyboard | mouse
  deriving DecidableEq, Repr

/-- `Binding`, before its symbol is translated to keycodes. -/
structure Binding where
  inputType : InputType := .keyboard
  onRelease : Bool
  border : Bool
  wholeWindow : Bool
  excludeTitlebar : Bool
  keycode : ℕ := 0
  eventStateMask : ℕ
  symbol : Option Text := none
  command : Text
  deriving DecidableEq, Repr

/-- The arguments of a binding. -/
structure BindingArgs where
  bindtype : Text
  modifiers : Option Text
  inputCode : Text
  release : Option Text
  border : Option Text
  wholeWindow : Option Text
  excludeTitlebar : Option Text
  command : Text
  deriving DecidableEq, Repr

/-- `struct Mode`. -/
structure Mode where
  name : Text
  pangoMarkup : Bool := false
  bindings : List Binding := []
  deriving DecidableEq, Repr

/-- `DEFAULT_BINDING_MODE`. -/
def defaultBindingMode : Text := lit "default"

/-- The binding of the arguments, unless its keycode is no number. -/
def BindingArgs.binding (a : BindingArgs) : Option Binding :=
  let b : Binding :=
    { onRelease := a.release.isSome
      border := a.border.isSome
      wholeWindow := a.wholeWindow.isSome
      excludeTitlebar := a.excludeTitlebar.isSome
      eventStateMask := eventStateFromStr a.modifiers
      command := a.command }
  if a.bindtype = lit "bindsym" then
    some { b with
      inputType := if Parser.sameCase (a.inputCode.take 6) (lit "button") then .mouse else .keyboard
      symbol := some a.inputCode }
  else (parseLong Parser.strtol a.inputCode).map fun keycode =>
    { b with keycode := toUInt32 keycode }

/-- The modes, the one created last in front. -/
abbrev Modes := List Mode

/-- A binding at the end of the first mode of a name. -/
def appendTo (name : Text) (b : Binding) : Modes → Modes
  | [] => []
  | m :: ms =>
    if m.name = name then { m with bindings := m.bindings ++ [b] } :: ms else m :: appendTo name b ms

/-- `mode_from_name`. -/
def modeFromName (name : Text) (pangoMarkup : Bool) (modes : Modes) : Modes :=
  if modes.any (·.name = name) then modes else { name, pangoMarkup } :: modes

/-- `configure_binding`. -/
def configureBinding (a : BindingArgs) (modename : Text) (pangoMarkup : Bool) (modes : Modes) :
    Modes :=
  match a.binding with
  | none => modes
  | some b => appendTo modename b (modeFromName modename pangoMarkup modes)

/-- `reorder_bindings`: those with the larger masks first. -/
def reorderBindings (modes : Modes) : Modes :=
  modes.map fun m =>
    { m with bindings := m.bindings.mergeSort fun a b => b.eventStateMask ≤ a.eventStateMask }

/-- The modes, and the variables of the directive `mode`. -/
structure ModeState where
  modes : Modes
  currentMode : Option Text := none
  currentModePangoMarkup : Bool := false
  deriving DecidableEq, Repr

/-- The directives on bindings. -/
inductive ModeDirective
  | binding (a : BindingArgs)
  | enterMode (pangoMarkup : Option Text) (modename : Text)
  | modeBinding (a : BindingArgs)
  deriving DecidableEq, Repr

namespace ModeDirective

/-- `cfg_binding`, `cfg_enter_mode` and `cfg_mode_binding`. -/
def apply : ModeDirective → ModeState → ModeState
  | .binding a, s => { s with modes := configureBinding a defaultBindingMode false s.modes }
  | .enterMode pangoMarkup modename, s =>
    -- the mode that was current stays so
    if modename = defaultBindingMode then s
    else
      { s with currentMode := some modename, currentModePangoMarkup := pangoMarkup.isSome }
  | .modeBinding a, s =>
    match s.currentMode with
    | none => s
    | some mode =>
      { s with modes := configureBinding a mode s.currentModePangoMarkup s.modes }

/-- A list of directives. -/
def run (ds : List ModeDirective) (s : ModeState) : ModeState := ds.foldl (fun s d => d.apply s) s

/-- A mode is entered under a name of its own. -/
def enters : ModeDirective → Bool
  | .enterMode _ modename => modename ≠ defaultBindingMode
  | _ => false

/-- The directive is a binding inside `mode` that can be parsed. -/
def strayBinding : ModeDirective → Bool
  | .modeBinding a => a.binding.isSome
  | _ => false

/-- The bindings inside a `mode` ahead of the first mode that is entered under a name of its own. -/
def strays (ds : List ModeDirective) : List ModeDirective :=
  (ds.takeWhile fun d => !d.enters).filter strayBinding

end ModeDirective

/-! ### Counting bindings -/

/-- The number of bindings in all modes. -/
def bindingCount (modes : Modes) : ℕ := (modes.map (·.bindings.length)).sum

variable {a : BindingArgs} {b : Binding} {name : Text} {pango : Bool} {modes : Modes}
  {ds : List ModeDirective} {s : ModeState}

theorem bindingCount_appendTo (h : modes.any (·.name = name) = true) :
    bindingCount (appendTo name b modes) = bindingCount modes + 1 := by
  unfold bindingCount
  induction modes with
  | nil => cases h
  | cons m ms ih =>
    rw [appendTo]
    by_cases hm : m.name = name
    · rw [if_pos hm]
      simp only [List.map_cons, List.sum_cons, List.length_append, List.length_singleton]
      omega
    · rw [if_neg hm]
      have hms : ms.any (·.name = name) = true := by simpa [hm] using h
      simp only [List.map_cons, List.sum_cons, ih hms]
      omega

theorem bindingCount_modeFromName :
    bindingCount (modeFromName name pango modes) = bindingCount modes := by
  unfold modeFromName
  split
  · rfl
  · simp [bindingCount]

theorem any_modeFromName : (modeFromName name pango modes).any (·.name = name) = true := by
  unfold modeFromName
  split
  · assumption
  · simp

theorem bindingCount_configureBinding : bindingCount (configureBinding a name pango modes) =
    bindingCount modes + if a.binding.isSome then 1 else 0 := by
  unfold configureBinding
  cases a.binding with
  | none => rfl
  | some b =>
    rw [bindingCount_appendTo any_modeFromName, bindingCount_modeFromName]
    rfl

theorem bindingCount_reorderBindings : bindingCount (reorderBindings modes) = bindingCount modes := by
  unfold bindingCount reorderBindings
  rw [List.map_map]
  congr 1
  apply List.map_congr_left
  intro m _
  exact List.length_mergeSort _

namespace ModeDirective

/-- How many bindings a directive adds, where a mode has been entered or not. -/
def added (entered : Bool) : ModeDirective → ℕ
  | .binding a => if a.binding.isSome then 1 else 0
  | .enterMode _ _ => 0
  | .modeBinding a => if entered && a.binding.isSome then 1 else 0

theorem bindingCount_apply (d : ModeDirective) :
    bindingCount (d.apply s).modes = bindingCount s.modes + d.added s.currentMode.isSome := by
  cases d with
  | binding a => exact bindingCount_configureBinding
  | enterMode pango name =>
    by_cases hname : name = defaultBindingMode
    · simp only [apply, if_pos hname, added, Nat.add_zero]
    · simp only [apply, if_neg hname, added, Nat.add_zero]
  | modeBinding a =>
    cases h : s.currentMode with
    | none => simp [apply, added, h]
    | some mode =>
      simp only [apply, added, h, Option.isSome_some, Bool.true_and]
      apply bindingCount_configureBinding

theorem isSome_apply (d : ModeDirective) :
    (d.apply s).currentMode.isSome = (s.currentMode.isSome || d.enters) := by
  cases d with
  | binding a => simp [apply, enters]
  | enterMode pango name =>
    by_cases h : name = defaultBindingMode <;> simp [apply, enters, h]
  | modeBinding a =>
    cases h : s.currentMode <;> simp [apply, enters, h]

/-- A mode that has been entered stays current until the next one. -/
theorem isSome_run (h : ∃ d ∈ ds, d.enters = true) : (run ds s).currentMode.isSome = true := by
  induction ds using List.reverseRecOn with
  | nil => simp at h
  | append_singleton ds d ih =>
    rw [run, List.foldl_append, List.foldl_cons, List.foldl_nil, ← run, isSome_apply, Bool.or_eq_true]
    obtain ⟨e, he, henters⟩ := h
    rcases List.mem_append.mp he with he | he
    · exact .inl (ih ⟨e, he, henters⟩)
    · exact .inr (List.mem_singleton.mp he ▸ henters)

theorem run_of_not_enters (h : ∀ d ∈ ds, d.enters = false) (hcurrent : s.currentMode = none)
    (hpango : s.currentModePangoMarkup = false) :
    (run ds s).currentMode = none ∧ (run ds s).currentModePangoMarkup = false := by
  induction ds generalizing s with
  | nil => exact ⟨hcurrent, hpango⟩
  | cons d ds ih =>
    have hd := h d (by simp)
    rw [run, List.foldl_cons, ← run]
    have hs : (d.apply s).currentMode = none ∧ (d.apply s).currentModePangoMarkup = false := by
      cases d with
      | binding a => exact ⟨hcurrent, hpango⟩
      | enterMode pango name =>
        have hname : name = defaultBindingMode := by simpa [enters] using hd
        simp only [apply, if_pos hname, hcurrent, hpango, and_self]
      | modeBinding a => simp only [apply, hcurrent, hpango, and_self]
    exact ih (fun e he => h e (List.mem_cons_of_mem d he)) hs.1 hs.2

/-- How many bindings the directives add. -/
def addedAll : Bool → List ModeDirective → ℕ
  | _, [] => 0
  | entered, d :: ds => d.added entered + addedAll (entered || d.enters) ds

/-- **How many bindings a list of directives adds** depends on whether a mode was entered before. -/
theorem bindingCount_run : bindingCount (run ds s).modes =
    bindingCount s.modes + addedAll s.currentMode.isSome ds := by
  induction ds generalizing s with
  | nil => rfl
  | cons d ds ih =>
    rw [run, List.foldl_cons, ← run, ih, bindingCount_apply, isSome_apply, addedAll]
    omega

/-- The difference it makes are the bindings that have no mode of their own. -/
theorem addedAll_true : addedAll true ds = addedAll false ds + (strays ds).length := by
  induction ds with
  | nil => rfl
  | cons d ds ih =>
    rw [addedAll, addedAll, Bool.true_or, Bool.false_or, strays, List.takeWhile_cons]
    by_cases hd : d.enters = true
    · -- from here on a mode has been entered either way
      cases d with
      | enterMode pango name => simp [hd, added]
      | binding a => cases hd
      | modeBinding a => cases hd
    · rw [Bool.not_eq_true] at hd
      simp only [hd, Bool.not_false, if_true]
      rw [ih, List.filter_cons, ← strays]
      cases d with
      | modeBinding a =>
        cases ha : a.binding.isSome
        · simp [added, strayBinding, ha]
        · simp [added, strayBinding, ha]
          omega
      | binding a =>
        simp only [added, strayBinding, if_false, Bool.false_eq_true]
        omega
      | enterMode pango name =>
        simp only [added, strayBinding, if_false, Bool.false_eq_true]
        omega

/-! ### A mode entered before -/

variable {s' : ModeState}

/-- Where no binding strays, the modes come out the same whatever the current mode was. -/
theorem run_modes_eq (hs : strays ds = []) (h : s.modes = s'.modes) :
    (run ds s).modes = (run ds s').modes := by
  induction ds generalizing s s' with
  | nil => exact h
  | cons d ds ih =>
    rw [run, run, List.foldl_cons, List.foldl_cons, ← run, ← run]
    by_cases hd : d.enters = true
    · -- entering a mode makes the two states the same
      cases d with
      | binding a => cases hd
      | modeBinding a => cases hd
      | enterMode pango name =>
        have hname : name ≠ defaultBindingMode := by simpa [enters] using hd
        simp only [apply, if_neg hname, h]
    · rw [Bool.not_eq_true] at hd
      rw [strays, List.takeWhile_cons, hd, Bool.not_false, if_pos rfl, List.filter_cons] at hs
      cases hstray : d.strayBinding with
      | true => simp [hstray] at hs
      | false =>
        rw [hstray, if_neg (by simp), ← strays] at hs
        apply ih hs
        cases d with
        | binding a => simp only [apply, h]
        | enterMode pango name =>
          have hname : name = defaultBindingMode := by simpa [enters] using hd
          simp only [apply, if_pos hname, h]
        | modeBinding a =>
          have ha : a.binding = none := by simpa [strayBinding] using hstray
          -- whether there is a mode or not, nothing is added
          cases hm : s.currentMode <;> cases hm' : s'.currentMode <;>
            simp only [apply, hm, hm', configureBinding, ha, h]

/-- **A mode entered before makes no difference** exactly where no binding strays. -/
theorem run_eq_iff (hs : s.currentMode.isSome = true) (hs' : s'.currentMode = none)
    (h : s.modes = s'.modes) :
    reorderBindings (run ds s).modes = reorderBindings (run ds s').modes ↔ strays ds = [] := by
  constructor
  · intro heq
    have hcount := congrArg bindingCount heq
    rw [bindingCount_reorderBindings, bindingCount_reorderBindings, bindingCount_run,
      bindingCount_run, h, hs, hs', Option.isSome_none, addedAll_true] at hcount
    apply List.eq_nil_of_length_eq_zero
    omega
  · intro hstray
    rw [run_modes_eq hstray h]

end ModeDirective

end I3.Configuration
