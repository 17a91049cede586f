import I3Aiwr.Configuration.Directives

/-!
# Reloading the configuration

What is looked up of the configuration after it was loaded and then loaded again from another file,
against loading the other file alone. `load_configuration` sets the variables of every module before
it parses the file, except for three: the gradient borders, the table of curves, and the mode that
the directive `mode` entered last.

## Main definitions

* `Globals.observed`: what later lookups find
* `Forgotten env ds ds'`: nothing of the configuration `ds` is left once `ds'` is loaded

## Main results

* `reload_eq_iff`: when reloading equals loading
-/

namespace I3.Configuration

open I3.Parser (Text)

/-- What later lookups find: the modes and their bindings, what `load_configuration` sets, the
gradient borders, and the named curves with the order of their names. -/
structure Observed where
  modes : Modes
  loaded : Loaded
  gradient : Gradient.View
  curveNames : List Text
  curve : Text → Option Curve

def Globals.observed (g : Globals) : Observed :=
  { modes := g.modeState.modes
    loaded := g.loaded
    gradient := g.gradient.view
    curveNames := g.curves.aiwrCurveNames
    curve := g.curves.aiwrCurveGet }

namespace Directive

/-! ### The directives of one module -/

def mode? : Directive → Option ModeDirective
  | .mode d => some d
  | _ => none

def gradient? : Directive → Option GradientDirective
  | .gradientBorder d => some d
  | _ => none

/-- The curve a directive defines. -/
def curve? (env : Env) : Directive → Option (Text × Curve)
  | .bezier spec => bezierSpec env spec
  | .spring spec => springSpec env spec
  | _ => none

variable {env : Env} {d : Directive} {ds : List Directive} {g g' : Globals}

/-- What a bar leaves alone. -/
theorem runBar_spec (lines : List BarDirective) (finished : Bool) :
    (runBar lines finished g).modeState = g.modeState ∧
      (runBar lines finished g).gradient = g.gradient ∧
      (runBar lines finished g).curves = g.curves := by
  unfold runBar
  cases finished <;> exact ⟨rfl, rfl, rfl⟩

theorem runWorkspaces_spec (name : Text) (outputs : List Text) :
    (runWorkspaces name outputs g).modeState = g.modeState ∧
      (runWorkspaces name outputs g).gradient = g.gradient ∧
      (runWorkspaces name outputs g).curves = g.curves := by
  cases outputs with
  | nil => exact ⟨rfl, rfl, rfl⟩
  | cons output outputs =>
    rw [runWorkspaces]
    -- each output of the line sets the assignments alone
    have hrest : ∀ (g : Globals),
        (outputs.foldl (fun g output => runWorkspace none output g) g).modeState = g.modeState ∧
        (outputs.foldl (fun g output => runWorkspace none output g) g).gradient = g.gradient ∧
        (outputs.foldl (fun g output => runWorkspace none output g) g).curves = g.curves := by
      induction outputs with
      | nil => exact fun g => ⟨rfl, rfl, rfl⟩
      | cons o outputs ih => exact fun g => ih (runWorkspace none o g)
    exact hrest (runWorkspace (some name) output g)

theorem run_modeState :
    (d.run env g).modeState = ModeDirective.run (mode? d).toList g.modeState := by
  cases d with
  | bar lines finished => exact (runBar_spec lines finished).1
  | workspace name outputs => exact (runWorkspaces_spec name outputs).1
  | exec exectype noStartupId command =>
    unfold run
    dsimp only
    split <;> rfl
  | _ => rfl

theorem run_gradient : (d.run env g).gradient = Gradient.run env (gradient? d).toList g.gradient := by
  cases d with
  | bar lines finished => exact (runBar_spec lines finished).2.1
  | workspace name outputs => exact (runWorkspaces_spec name outputs).2.1
  | exec exectype noStartupId command =>
    unfold run
    dsimp only
    split <;> rfl
  | _ => rfl

theorem run_curves : (d.run env g).curves.init =
    Settings.defineAll curveKey g.curves.init (curve? env d).toList := by
  cases d with
  | bar lines finished => exact congrArg Curves.init (runBar_spec lines finished).2.2
  | workspace name outputs => exact congrArg Curves.init (runWorkspaces_spec name outputs).2.2
  | exec exectype noStartupId command =>
    unfold run
    dsimp only
    split <;> rfl
  | bezier spec => exact Curves.init_define
  | spring spec => exact Curves.init_define
  | _ => rfl

/-! ### What the variables that are not set do -/

/-- The variable `current_workspace` does not outlast its line. -/
theorem runWorkspaces_loaded (name : Text) (outputs : List Text) (h : g.loaded = g'.loaded) :
    (runWorkspaces name outputs g).loaded = (runWorkspaces name outputs g').loaded := by
  cases outputs with
  | nil => exact h
  | cons output outputs =>
    rw [runWorkspaces, runWorkspaces]
    -- the first output of a line sets the variable, whatever it was
    have hfirst : (runWorkspace (some name) output g).loaded =
          (runWorkspace (some name) output g').loaded ∧
        (runWorkspace (some name) output g).currentWorkspace =
          (runWorkspace (some name) output g').currentWorkspace := by
      simp only [runWorkspace, cfgWorkspace, h, and_self]
    revert hfirst
    generalize runWorkspace (some name) output g = k
    generalize runWorkspace (some name) output g' = k'
    induction outputs generalizing k k' with
    | nil => exact fun hk => hk.1
    | cons o outputs ih =>
      rintro ⟨hl, hw⟩
      apply ih
      simp only [runWorkspace, hl, hw, and_self]

/-- What `load_configuration` sets comes out the same, whatever it has left alone. -/
theorem run_loaded (h : g.loaded = g'.loaded) : (d.run env g).loaded = (d.run env g').loaded := by
  cases d with
  | bar lines finished =>
    cases finished
    · exact h
    · simp only [run, runBar, barFinish, if_true, h]
  | workspace name outputs => exact runWorkspaces_loaded name outputs h
  | criteria cs use => simp only [run, runCriteria, h]
  | exec exectype noStartupId command =>
    unfold run
    dsimp only
    split <;> exact h
  | mode d => exact h
  | gradientBorder d => exact h
  | bezier spec => exact h
  | spring spec => exact h
  | ipcKillTimeout timeoutMs => exact h
  | _ => simp only [run, h]

/-! ### Whole configurations -/

theorem runAll_loaded (h : g.loaded = g'.loaded) :
    (runAll env ds g).loaded = (runAll env ds g').loaded := by
  unfold runAll
  induction ds generalizing g g' with
  | nil => exact h
  | cons d ds ih => exact ih (run_loaded h)

theorem runAll_modeState :
    (runAll env ds g).modeState = ModeDirective.run (ds.filterMap mode?) g.modeState := by
  unfold runAll
  induction ds generalizing g with
  | nil => rfl
  | cons d ds ih =>
    rw [List.foldl_cons, ih, run_modeState, List.filterMap_cons]
    cases mode? d <;> rfl

theorem runAll_gradient :
    (runAll env ds g).gradient = Gradient.run env (ds.filterMap gradient?) g.gradient := by
  unfold runAll
  induction ds generalizing g with
  | nil => rfl
  | cons d ds ih =>
    rw [List.foldl_cons, ih, run_gradient, List.filterMap_cons]
    cases gradient? d <;> rfl

theorem runAll_curves : (runAll env ds g).curves.init =
    Settings.defineAll curveKey g.curves.init (ds.filterMap (curve? env)) := by
  unfold runAll
  induction ds generalizing g with
  | nil => rfl
  | cons d ds ih =>
    rw [List.foldl_cons, ih, run_curves, List.filterMap_cons]
    cases curve? env d <;> rfl

end Directive

/-! ### Loading -/

variable {env : Env} {type : LoadType} {ds ds' : List Directive} {g g' : Globals}

theorem modes_load : (loadConfiguration env type ds g).modeState.modes =
    reorderBindings (ModeDirective.run (ds.filterMap Directive.mode?)
      { g.modeState with modes := [{ name := defaultBindingMode }] }).modes := by
  unfold loadConfiguration
  dsimp only
  rw [Directive.runAll_modeState]
  unfold startLoading
  split <;> rfl

theorem currentMode_load : (loadConfiguration env type ds g).modeState.currentMode =
    (ModeDirective.run (ds.filterMap Directive.mode?)
      { g.modeState with modes := [{ name := defaultBindingMode }] }).currentMode := by
  unfold loadConfiguration
  dsimp only
  rw [Directive.runAll_modeState]
  unfold startLoading
  split <;> rfl

theorem pango_load : (loadConfiguration env type ds g).modeState.currentModePangoMarkup =
    (ModeDirective.run (ds.filterMap Directive.mode?)
      { g.modeState with modes := [{ name := defaultBindingMode }] }).currentModePangoMarkup := by
  unfold loadConfiguration
  dsimp only
  rw [Directive.runAll_modeState]
  unfold startLoading
  split <;> rfl

theorem gradient_load : (loadConfiguration env type ds g).gradient =
    Gradient.run env (ds.filterMap Directive.gradient?) g.gradient := by
  unfold loadConfiguration
  dsimp only
  rw [Directive.runAll_gradient]
  unfold startLoading
  split <;> rfl

theorem curves_load : (loadConfiguration env type ds g).curves.init =
    Settings.defineAll curveKey g.curves.init (ds.filterMap (Directive.curve? env)) := by
  unfold loadConfiguration
  dsimp only
  rw [Directive.runAll_curves]
  unfold startLoading
  split <;> rfl

/-- What `load_configuration` sets is the same on reloading as at the start. -/
theorem loaded_reload : (loadConfiguration env .reload ds g).loaded =
    (loadConfiguration env .load ds {}).loaded := by
  unfold loadConfiguration
  dsimp only
  -- before the file is parsed nothing is left of what there was
  have hstart : (startLoading env .reload g).loaded = (startLoading env .load {}).loaded := rfl
  rw [Directive.runAll_loaded hstart]
  rfl

/-! ### What is left of a configuration -/

/-- Nothing of the configuration `ds` is left once `ds'` is loaded. -/
structure Forgotten (env : Env) (ds ds' : List Directive) : Prop where
  /-- what is looked up of the gradient borders is set by `ds'`, or `ds` left it as it was -/
  gradient : Gradient.Unseen env (ds.filterMap Directive.gradient?)
    (ds'.filterMap Directive.gradient?)
  /-- the new names of curves in `ds` are the first new ones in `ds'` -/
  curveNames :
    Settings.fresh curveKey (Curves.aiwrCurveNames none) (ds.filterMap (Directive.curve? env)) <+:
      Settings.fresh curveKey (Curves.aiwrCurveNames none) (ds'.filterMap (Directive.curve? env))
  /-- a curve that `ds` defines is defined by `ds'`, or the built-in one of its name -/
  curve : ∀ name,
    Settings.last (Settings.entry curveKey (curveKey name))
        (ds'.filterMap (Directive.curve? env)) ≠ none ∨
      ∀ c, Settings.last (Settings.entry curveKey (curveKey name))
        (ds.filterMap (Directive.curve? env)) = some c → Curves.aiwrCurveGet none name = some c
  /-- `ds` enters no mode under a name of its own, or `ds'` has no binding in a mode that has none
  ahead of those that do -/
  mode : (∀ d ∈ ds.filterMap Directive.mode?, d.enters = false) ∨
    ModeDirective.strays (ds'.filterMap Directive.mode?) = []

/-- The gradient borders. -/
theorem gradient_reload : (loadConfiguration env .reload ds'
        (loadConfiguration env .load ds {})).gradient.view =
      (loadConfiguration env .load ds' {}).gradient.view ↔
    Gradient.Unseen env (ds.filterMap Directive.gradient?) (ds'.filterMap Directive.gradient?) := by
  rw [gradient_load, gradient_load, gradient_load]
  exact Gradient.view_eq_iff

/-- The names of the curves. -/
theorem curveNames_reload : (loadConfiguration env .reload ds'
        (loadConfiguration env .load ds {})).curves.aiwrCurveNames =
      (loadConfiguration env .load ds' {}).curves.aiwrCurveNames ↔
    Settings.fresh curveKey (Curves.aiwrCurveNames none) (ds.filterMap (Directive.curve? env)) <+:
      Settings.fresh curveKey (Curves.aiwrCurveNames none)
        (ds'.filterMap (Directive.curve? env)) := by
  rw [Curves.names_of_defined curves_load, Curves.names_of_defined curves_load,
    Curves.names_of_defined curves_load, List.append_assoc, List.append_cancel_left_eq]
  exact Settings.fresh_append_eq

/-- The curve of a name. -/
theorem curve_reload (name : Text) : (loadConfiguration env .reload ds'
        (loadConfiguration env .load ds {})).curves.aiwrCurveGet name =
      (loadConfiguration env .load ds' {}).curves.aiwrCurveGet name ↔
    Settings.last (Settings.entry curveKey (curveKey name))
        (ds'.filterMap (Directive.curve? env)) ≠ none ∨
      ∀ c, Settings.last (Settings.entry curveKey (curveKey name))
        (ds.filterMap (Directive.curve? env)) = some c →
        Curves.aiwrCurveGet none name = some c := by
  rw [Curves.get_of_defined curves_load, Curves.get_of_defined curves_load,
    Curves.get_of_defined curves_load]
  cases Settings.last (Settings.entry curveKey (curveKey name))
      (ds'.filterMap (Directive.curve? env)) with
  | some c => simp
  | none =>
    cases Settings.last (Settings.entry curveKey (curveKey name))
        (ds.filterMap (Directive.curve? env)) with
    | none => simp
    | some c => simpa using eq_comm

/-- The mode that is current after the first configuration, where it enters none. -/
theorem modeState_load (env : Env) (type : LoadType)
    (h : ∀ d ∈ ds.filterMap Directive.mode?, d.enters = false) :
    (loadConfiguration env type ds {}).modeState.currentMode = none ∧
      (loadConfiguration env type ds {}).modeState.currentModePangoMarkup = false := by
  rw [currentMode_load, pango_load]
  exact ModeDirective.run_of_not_enters h rfl rfl

/-- The modes and their bindings. -/
theorem modes_reload : (loadConfiguration env .reload ds'
        (loadConfiguration env .load ds {})).modeState.modes =
      (loadConfiguration env .load ds' {}).modeState.modes ↔
    (∀ d ∈ ds.filterMap Directive.mode?, d.enters = false) ∨
      ModeDirective.strays (ds'.filterMap Directive.mode?) = [] := by
  rw [modes_load, modes_load]
  by_cases henters : ∀ d ∈ ds.filterMap Directive.mode?, d.enters = false
  · -- the variables of the directive are as at the start
    obtain ⟨hcurrent, hpango⟩ := modeState_load env .load henters
    simp only [hcurrent, hpango]
    exact iff_of_true trivial (.inl henters)
  · rw [or_iff_right henters]
    apply ModeDirective.run_eq_iff
    · -- a mode has been entered, and is current still
      rw [currentMode_load]
      apply ModeDirective.isSome_run
      push Not at henters
      obtain ⟨d, hd, henters⟩ := henters
      exact ⟨d, hd, by simpa using henters⟩
    · rfl
    · rfl

/-- **Reloading equals loading** exactly where nothing of the first configuration is left. -/
theorem reload_eq_iff (env : Env) (ds ds' : List Directive) :
    (loadConfiguration env .reload ds' (loadConfiguration env .load ds {})).observed =
      (loadConfiguration env .load ds' {}).observed ↔ Forgotten env ds ds' := by
  unfold Globals.observed
  rw [Observed.mk.injEq, modes_reload, gradient_reload, curveNames_reload, funext_iff]
  simp only [curve_reload, loaded_reload, true_and]
  constructor
  · rintro ⟨hmodes, hgradient, hnames, hcurve⟩
    exact ⟨hgradient, hnames, hcurve, hmodes⟩
  · rintro ⟨hgradient, hnames, hcurve, hmodes⟩
    exact ⟨hmodes, hgradient, hnames, hcurve⟩

/-- Gradient borders stay enabled when the line is taken out of the file. -/
theorem reload_ne_load_gradient :
    ¬ ∀ (env : Env) (ds ds' : List Directive),
      (loadConfiguration env .reload ds' (loadConfiguration env .load ds {})).observed =
        (loadConfiguration env .load ds' {}).observed := by
  intro h
  let env : Env :=
    { logicalPx := id
      getColorpixel := fun _ => 0
      loadFont := fun pattern => { type := .pango, pattern }
      resolveTilde := id
      compiles := fun _ => true
      focused := none
      strtod := fun _ => 0.0
      scanDouble := fun _ => none }
  have hgradient := congrArg (fun o => o.gradient.enabled)
    (h env [.gradientBorder (.toggle (lit "enabled"))] [])
  exact absurd hgradient (by decide)

end I3.Configuration
