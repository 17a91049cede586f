import I3Aiwr.Tree.Container
import I3Aiwr.Configuration.Assignments
import I3Aiwr.Configuration.Bars
import I3Aiwr.Configuration.Curves
import I3Aiwr.Configuration.Modes
import I3Aiwr.Configuration.Modules

/-!
# Loading the configuration

`free_configuration` and `load_configuration` of `src/config.c` with the directives of
`src/config_directives.c`. A configuration is the list of the directives the parser finds in the
file, one of an `include` being replaced by those of the included files. What comes with a block of
the grammar is one directive: the lines of a bar, the outputs of a `workspace` line, the criteria in
front of what they are for.

Left out are the fields of `Config` that no directive sets, the keycodes the symbols of bindings are
translated to, and what reloading does to windows and grabs.

## Main definitions

* `Config`: `struct Config`; `ConfigDirective`, `cfgConfig`: the directives that set its fields
* `Globals`: the variables of all modules
* `Directive`, `Directive.run`: the directives on them
* `loadConfiguration`: loading, for the first time or again
-/

namespace I3.Configuration

open I3.Parser (Text)

/-! ### The struct -/

inductive Warping
  | output | none
  deriving DecidableEq, Repr

/-- `hide_edge_borders_mode_t`. -/
inductive HideEdgeBorders
  | none | vertical | horizontal | both | smart | smartNoGaps
  deriving DecidableEq, Repr

inductive FocusWrapping
  | off | on | force | workspace
  deriving DecidableEq, Repr

/-- `FOWA_*`. -/
inductive FocusOnWindowActivation
  | smart | urgent | focus | none
  deriving DecidableEq, Repr

inductive TitleAlign
  | left | center | right
  deriving DecidableEq, Repr

/-- `PDF_*`. -/
inductive PopupDuringFullscreen
  | smart | leaveFullscreen | ignore | all
  deriving DecidableEq, Repr

inductive TilingDrag
  | off | modifier | titlebar | modifierOrTitlebar
  deriving DecidableEq, Repr

inductive SmartGaps
  | off | on | inverseOuter
  deriving DecidableEq, Repr

/-- `struct Colortriple`. -/
structure Colortriple where
  border : Color := {}
  background : Color := {}
  text : Color := {}
  indicator : Color := {}
  childBorder : Color := {}

/-- `struct config_client`. -/
structure ConfigClient where
  background : Color := {}
  focused : Colortriple := {}
  focusedInactive : Colortriple := {}
  focusedTabTitle : Colortriple := {}
  unfocused : Colortriple := {}
  urgent : Colortriple := {}
  placeholder : Colortriple := {}
  gotFocusedTabTitle : Bool := false

/-- `struct Config`, with the values `load_configuration` sets, or zeroes. -/
structure Config where
  font : Font := {}
  ipcSocketPath : Option Text := none
  restartStatePath : Option Text := none
  defaultLayout : Layout := .default
  defaultBorderWidth : ℤ := 0
  defaultFloatingBorderWidth : ℤ := 0
  defaultOrientation : Orientation := .none
  disableFocusFollowsMouse : Bool := false
  mouseWarping : Warping := .output
  hideEdgeBorders : HideEdgeBorders := .none
  focusWrapping : FocusWrapping := .on
  forceXinerama : Bool := false
  disableRandr15 : Bool := false
  fakeOutputs : Option Text := none
  workspaceAutoBackAndForth : Bool := false
  workspaceUrgencyTimer : Float := 0.5
  focusOnWindowActivation : FocusOnWindowActivation := .smart
  showMarks : Bool := true
  titleAlign : TitleAlign := .left
  defaultBorder : BorderStyle := .normal
  defaultFloatingBorder : BorderStyle := .normal
  floatingModifier : ℕ := 0
  /-- `XCB_KEY_BUT_MASK_SHIFT`, unless set -/
  swapModifier : ℕ := 1
  floatingMaximumWidth : ℤ := 0
  floatingMaximumHeight : ℤ := 0
  floatingMinimumWidth : ℤ := 0
  floatingMinimumHeight : ℤ := 0
  client : ConfigClient := {}
  popupDuringFullscreen : PopupDuringFullscreen := .smart
  numberBarconfigs : ℕ := 0
  tilingDrag : TilingDrag := .modifier
  gaps : Gaps := {}
  smartGaps : SmartGaps := .off
  roundedCorners : RoundedCornersConfig := {}

/-- `INIT_COLOR`. -/
def initColor (env : Env) (border background text indicator : String) : Colortriple :=
  let color (s : String) := drawUtilHexToColor env (lit s)
  { border := color border
    background := color background
    text := color text
    indicator := color indicator
    childBorder := color background }

/-- The default colours of `load_configuration`. -/
def ConfigClient.default (env : Env) : ConfigClient :=
  { background := drawUtilHexToColor env (lit "#000000")
    focused := initColor env "#4c7899" "#285577" "#ffffff" "#2e9ef4"
    focusedInactive := initColor env "#333333" "#5f676a" "#ffffff" "#484e50"
    unfocused := initColor env "#333333" "#222222" "#888888" "#292d2e"
    urgent := initColor env "#2f343a" "#900000" "#ffffff" "#900000"
    placeholder := initColor env "#000000" "#0c0c0c" "#ffffff" "#000000" }

/-- The defaults of `load_configuration`. -/
def Config.default (env : Env) : Config :=
  { defaultBorderWidth := env.logicalPx 2
    defaultFloatingBorderWidth := env.logicalPx 2
    client := .default env }

/-- The directives that set fields of `Config`, under the names of their functions. -/
inductive ConfigDirective
  | font (font : Text)
  | smartBorders (enable : Text)
  | smartGaps (enable : Text)
  | floatingMinimumSize (width height : ℤ)
  | floatingMaximumSize (width height : ℤ)
  | floatingModifier (modifiers : Option Text)
  | tilingDragSwapModifier (modifiers : Option Text)
  | defaultOrientation (orientation : Text)
  | workspaceLayout (layout : Text)
  | defaultBorder (windowtype border : Text) (width : ℤ)
  | hideEdgeBorders (borders : Text)
  | focusFollowsMouse (value : Text)
  | mouseWarping (value : Text)
  | forceXinerama (value : Text)
  | disableRandr15 (value : Text)
  | focusWrapping (value : Text)
  | forceFocusWrapping (value : Text)
  | workspaceBackAndForth (value : Text)
  | fakeOutputs (outputs : Text)
  | forceDisplayUrgencyHint (durationMs : ℤ)
  | focusOnWindowActivation (mode : Text)
  | titleAlign (alignment : Text)
  | showMarks (value : Text)
  | ipcSocket (path : Text)
  | restartState (path : Text)
  | popupDuringFullscreen (value : Text)
  | colorSingle (color : Text)
  | color (colorclass border background text : Text) (indicator childBorder : Option Text)
  | tilingDrag (value : Text)
  | roundedCorners (d : RoundedCornersDirective)
  deriving DecidableEq, Repr

/-- `cfg_default_border`: the style and the width. -/
def borderOf (border : Text) (width : ℤ) : BorderStyle × ℤ :=
  if border = lit "1pixel" then (.pixel, 1)
  else if border = lit "none" then (.none, 0)
  else if border = lit "pixel" then (.pixel, toInt width)
  else (.normal, toInt width)

/-- `cfg_hide_edge_borders`. -/
def hideEdgeBordersOf (borders : Text) : HideEdgeBorders :=
  if borders = lit "smart_no_gaps" then .smartNoGaps
  else if borders = lit "smart" then .smart
  else if borders = lit "vertical" then .vertical
  else if borders = lit "horizontal" then .horizontal
  else if borders = lit "both" then .both
  else if borders = lit "none" then .none
  else if boolstr borders then .vertical
  else .none

/-- `cfg_smart_borders`. -/
def smartBordersOf (enable : Text) (h : HideEdgeBorders) : HideEdgeBorders :=
  if enable = lit "no_gaps" then .smartNoGaps
  -- `hide_edge_borders` takes precedence
  else if boolstr enable ∧ h = .none then .smart
  else h

/-- `cfg_focus_wrapping`. -/
def focusWrappingOf (value : Text) : FocusWrapping :=
  if value = lit "force" then .force
  else if value = lit "workspace" then .workspace
  else if boolstr value then .on
  else .off

/-- `cfg_force_focus_wrapping`. -/
def forceFocusWrappingOf (value : Text) (w : FocusWrapping) : FocusWrapping :=
  if boolstr value then .force else if w = .force then .on else w

/-- `cfg_workspace_layout`. -/
def workspaceLayoutOf (layout : Text) : Layout :=
  if layout = lit "default" then .default
  else if layout = lit "stacking" ∨ layout = lit "stacked" then .stacked
  else if layout = lit "scrolling" then .scrolling
  else .tabbed

/-- `cfg_focus_on_window_activation`; an unknown mode is ignored. -/
def focusOnWindowActivationOf (mode : Text) (f : FocusOnWindowActivation) :
    FocusOnWindowActivation :=
  if mode = lit "smart" then .smart
  else if mode = lit "urgent" then .urgent
  else if mode = lit "focus" then .focus
  else if mode = lit "none" then .none
  else f

/-- `cfg_tiling_drag`. -/
def tilingDragOf (value : Text) : TilingDrag :=
  if value = lit "modifier" then .modifier
  else if value = lit "titlebar" then .titlebar
  else if value = lit "modifier,titlebar" ∨ value = lit "titlebar,modifier" then .modifierOrTitlebar
  else .off

/-- `APPLY_COLORS` of `cfg_color`. -/
def applyColors (env : Env) (border background text : Text) (indicator childBorder : Option Text)
    (c : Colortriple) : Colortriple :=
  let color := drawUtilHexToColor env
  { border := color border
    background := color background
    text := color text
    indicator := (indicator.map color).getD c.indicator
    childBorder := (childBorder.map color).getD (color background) }

/-- `cfg_color`. -/
def cfgColor (env : Env) (colorclass border background text : Text)
    (indicator childBorder : Option Text) (c : ConfigClient) : ConfigClient :=
  let apply := applyColors env border background text indicator childBorder
  if colorclass = lit "client.focused_inactive" then
    { c with focusedInactive := apply c.focusedInactive }
  else if colorclass = lit "client.focused_tab_title" then
    { c with focusedTabTitle := apply c.focusedTabTitle, gotFocusedTabTitle := true }
  else if colorclass = lit "client.focused" then { c with focused := apply c.focused }
  else if colorclass = lit "client.unfocused" then { c with unfocused := apply c.unfocused }
  else if colorclass = lit "client.urgent" then { c with urgent := apply c.urgent }
  else if colorclass = lit "client.placeholder" then { c with placeholder := apply c.placeholder }
  else c

/-- The functions of the directives that set fields of `Config`. -/
def cfgConfig (env : Env) : ConfigDirective → Config → Config
  | .font font, c => { c with font := env.loadFont font }
  | .smartBorders enable, c =>
    { c with hideEdgeBorders := smartBordersOf enable c.hideEdgeBorders }
  | .smartGaps enable, c =>
    { c with
      smartGaps :=
        if enable = lit "inverse_outer" then .inverseOuter else if boolstr enable then .on else .off }
  | .floatingMinimumSize width height, c =>
    { c with floatingMinimumWidth := toInt width, floatingMinimumHeight := toInt height }
  | .floatingMaximumSize width height, c =>
    { c with floatingMaximumWidth := toInt width, floatingMaximumHeight := toInt height }
  | .floatingModifier modifiers, c => { c with floatingModifier := eventStateFromStr modifiers }
  | .tilingDragSwapModifier modifiers, c => { c with swapModifier := eventStateFromStr modifiers }
  | .defaultOrientation orientation, c =>
    { c with
      defaultOrientation :=
        if orientation = lit "horizontal" then .horiz
        else if orientation = lit "vertical" then .vert
        else .none }
  | .workspaceLayout layout, c => { c with defaultLayout := workspaceLayoutOf layout }
  | .defaultBorder windowtype border width, c =>
    let b := borderOf border width
    if windowtype = lit "default_border" ∨ windowtype = lit "new_window" then
      { c with defaultBorder := b.1, defaultBorderWidth := env.logicalPx b.2 }
    else { c with defaultFloatingBorder := b.1, defaultFloatingBorderWidth := env.logicalPx b.2 }
  | .hideEdgeBorders borders, c => { c with hideEdgeBorders := hideEdgeBordersOf borders }
  | .focusFollowsMouse value, c => { c with disableFocusFollowsMouse := !boolstr value }
  | .mouseWarping value, c =>
    { c with
      mouseWarping :=
        if value = lit "none" then .none
        else if value = lit "output" then .output
        else c.mouseWarping }
  | .forceXinerama value, c => { c with forceXinerama := boolstr value }
  | .disableRandr15 value, c => { c with disableRandr15 := boolstr value }
  | .focusWrapping value, c => { c with focusWrapping := focusWrappingOf value }
  | .forceFocusWrapping value, c =>
    { c with focusWrapping := forceFocusWrappingOf value c.focusWrapping }
  | .workspaceBackAndForth value, c => { c with workspaceAutoBackAndForth := boolstr value }
  | .fakeOutputs outputs, c => { c with fakeOutputs := some outputs }
  | .forceDisplayUrgencyHint durationMs, c =>
    { c with workspaceUrgencyTimer := Float.ofInt durationMs / 1000.0 }
  | .focusOnWindowActivation mode, c =>
    { c with focusOnWindowActivation := focusOnWindowActivationOf mode c.focusOnWindowActivation }
  | .titleAlign alignment, c =>
    { c with
      titleAlign :=
        if alignment = lit "left" then .left
        else if alignment = lit "center" then .center
        else if alignment = lit "right" then .right
        else c.titleAlign }
  | .showMarks value, c => { c with showMarks := boolstr value }
  | .ipcSocket path, c => { c with ipcSocketPath := some path }
  | .restartState path, c => { c with restartStatePath := some path }
  | .popupDuringFullscreen value, c =>
    { c with
      popupDuringFullscreen :=
        if value = lit "ignore" then .ignore
        else if value = lit "leave_fullscreen" then .leaveFullscreen
        else if value = lit "all" then .all
        else .smart }
  | .colorSingle color, c =>
    { c with client := { c.client with background := drawUtilHexToColor env color } }
  | .color colorclass border background text indicator childBorder, c =>
    { c with
      client := cfgColor env colorclass border background text indicator childBorder c.client }
  | .tilingDrag value, c => { c with tilingDrag := tilingDragOf value }
  | .roundedCorners d, c => { c with roundedCorners := cfgRoundedCorners d c.roundedCorners }

/-! ### The variables of all modules -/

/-- `struct Autostart`. -/
structure Autostart where
  command : Text
  noStartupId : Bool
  deriving DecidableEq, Repr

/-- What `free_configuration` frees or `load_configuration` sets, beside the modes. -/
structure Loaded where
  /-- `current_binding_mode` -/
  currentBindingMode : Text := defaultBindingMode
  assignments : List Assignment := []
  wsAssignments : List WorkspaceAssignment := []
  barconfigs : List Barconfig := []
  config : Config := {}
  overview : OverviewConfig := {}
  workspaceTransition : TransitionConfig := {}
  windowAnimation : WindowAnimationConfig := {}
  scrolling : ScrollingConfig := {}
  switcher : SwitcherConfig := {}
  liveResize : LiveResizeConfig := {}

/-- The variables the directives set, with the values at the start of i3. -/
structure Globals where
  modeState : ModeState := { modes := [] }
  loaded : Loaded := {}
  gradient : Gradient := {}
  curves : Curves := none
  currentWorkspace : Option Text := none
  currentBar : Option Barconfig := none
  currentMatch : Match := {}
  killTimeout : Float := 10.0
  autostarts : List Autostart := []
  autostartsAlways : List Autostart := []

/-! ### The directives -/

/-- A directive of the configuration. -/
inductive Directive
  | mode (d : ModeDirective)
  | bar (lines : List BarDirective) (finished : Bool)
  | workspace (name : Text) (outputs : List Text)
  | criteria (criteria : List (Text × Option Text)) (use : CriteriaUse)
  | gaps (workspace : Option Text) (scope : Text) (value : ℤ)
  | config (d : ConfigDirective)
  | overview (d : OverviewDirective)
  | workspaceTransition (d : TransitionDirective)
  | windowAnimation (d : WindowAnimationDirective)
  | resizeLive (d : LiveResizeDirective)
  | scrolling (d : ScrollingDirective)
  | switcher (d : SwitcherDirective)
  | gradientBorder (d : GradientDirective)
  | bezier (spec : Text)
  | spring (spec : Text)
  | exec (exectype : Text) (noStartupId : Option Text) (command : Text)
  | ipcKillTimeout (timeoutMs : ℤ)
  deriving DecidableEq, Repr

namespace Directive

/-- `cfg_bar_finish`. -/
def barFinish (g : Globals) : Globals :=
  match g.currentBar with
  | none => g
  | some current =>
    let number := g.loaded.config.numberBarconfigs
    let id := current.id.getD (lit "bar-" ++ (toString number).toList)
    { g with
      loaded :=
        { g.loaded with
          config := { g.loaded.config with numberBarconfigs := number + 1 }
          barconfigs := g.loaded.barconfigs ++ [{ current with id := some id }] }
      currentBar := none }

/-- `cfg_bar_start`, the lines of the bar, and `cfg_bar_finish` where the bar is closed. -/
def runBar (lines : List BarDirective) (finished : Bool) (g : Globals) : Globals :=
  let current := lines.foldl (fun c d => cfgBar d c) {}
  let g := { g with currentBar := some current }
  if finished then barFinish g else g

/-- `cfg_workspace` for an output of a line. -/
def runWorkspace (name : Option Text) (output : Text) (g : Globals) : Globals :=
  let r := cfgWorkspace name output g.currentWorkspace g.loaded.wsAssignments
  { g with currentWorkspace := r.1, loaded := { g.loaded with wsAssignments := r.2 } }

/-- A `workspace` line: the name comes with the first output. -/
def runWorkspaces (name : Text) (outputs : List Text) (g : Globals) : Globals :=
  match outputs with
  | [] => g
  | output :: outputs =>
    outputs.foldl (fun g output => runWorkspace none output g) (runWorkspace (some name) output g)

/-- `cfg_criteria_init`, `cfg_criteria_add` for each criterion, and what they are for. -/
def runCriteria (env : Env) (criteria : List (Text × Option Text)) (use : CriteriaUse)
    (g : Globals) : Globals :=
  let m := criteria.foldl (fun m c => m.parseProperty env c.1 c.2) ({} : Match)
  { g with
    currentMatch := m
    loaded := { g.loaded with
      assignments := g.loaded.assignments ++ (use.assignment env m).toList } }

/-- `cfg_gaps`. -/
def runGaps (env : Env) (workspace : Option Text) (scope : Text) (value : ℤ) (l : Loaded) :
    Loaded :=
  let pixels := env.logicalPx (toInt value)
  let mask := gapsScopeToMask scope
  match workspace with
  | none => { l with config := { l.config with gaps := applyGaps l.config.gaps mask pixels } }
  | some workspace =>
    if mask = {} then l
    else { l with wsAssignments := createGapsAssignment workspace mask pixels l.wsAssignments }

/-- The functions of the directives. -/
def run (env : Env) : Directive → Globals → Globals
  | .mode d, g => { g with modeState := d.apply g.modeState }
  | .bar lines finished, g => runBar lines finished g
  | .workspace name outputs, g => runWorkspaces name outputs g
  | .criteria cs use, g => runCriteria env cs use g
  | .gaps name scope value, g => { g with loaded := runGaps env name scope value g.loaded }
  | .config d, g =>
    { g with loaded := { g.loaded with config := cfgConfig env d g.loaded.config } }
  | .overview d, g =>
    { g with loaded := { g.loaded with overview := cfgOverview env d g.loaded.overview } }
  | .workspaceTransition d, g =>
    { g with
      loaded := { g.loaded with
        workspaceTransition := cfgWorkspaceTransition d g.loaded.workspaceTransition } }
  | .windowAnimation d, g =>
    { g with
      loaded := { g.loaded with
        windowAnimation := cfgWindowAnimation d g.loaded.windowAnimation } }
  | .resizeLive d, g =>
    { g with loaded := { g.loaded with liveResize := cfgResizeLive d g.loaded.liveResize } }
  | .scrolling d, g =>
    { g with loaded := { g.loaded with scrolling := cfgScrolling d g.loaded.scrolling } }
  | .switcher d, g =>
    { g with loaded := { g.loaded with switcher := cfgSwitcher d g.loaded.switcher } }
  | .gradientBorder d, g => { g with gradient := cfgGradientBorder env d g.gradient }
  | .bezier spec, g => { g with curves := g.curves.define (bezierSpec env spec) }
  | .spring spec, g => { g with curves := g.curves.define (springSpec env spec) }
  | .exec exectype noStartupId command, g =>
    let new : Autostart := ⟨command, noStartupId.isSome⟩
    if exectype = lit "exec" then { g with autostarts := g.autostarts ++ [new] }
    else { g with autostartsAlways := g.autostartsAlways ++ [new] }
  | .ipcKillTimeout timeoutMs, g => { g with killTimeout := Float.ofInt timeoutMs / 1000.0 }

/-- The directives of a configuration, one after the other. -/
def runAll (env : Env) (ds : List Directive) (g : Globals) : Globals :=
  ds.foldl (fun g d => d.run env g) g

end Directive

/-! ### Loading -/

/-- `config_load_t`. -/
inductive LoadType
  | validate | load | reload
  deriving DecidableEq, Repr

/-- `free_configuration`. -/
def freeConfiguration (g : Globals) : Globals :=
  { g with
    modeState := { g.modeState with modes := [] }
    loaded := { g.loaded with
      currentBindingMode := defaultBindingMode
      assignments := []
      wsAssignments := []
      barconfigs := [] } }

/-- `load_configuration` before the file is parsed. -/
def startLoading (env : Env) (type : LoadType) (g : Globals) : Globals :=
  let g := if type = .reload then freeConfiguration g else g
  { g with
    modeState := { g.modeState with modes := [{ name := defaultBindingMode }] }
    loaded := { g.loaded with
      currentBindingMode := defaultBindingMode
      config := .default env
      overview := {}
      workspaceTransition := {}
      windowAnimation := {}
      scrolling := {}
      switcher := {}
      liveResize := {} } }

/-- `load_configuration` after the file is parsed: the fonts that were left open. -/
def fillFonts (env : Env) (type : LoadType) (l : Loaded) : Loaded :=
  if type = .validate then l
  else
    let config :=
      if l.config.font.type = .none then { l.config with font := env.loadFont (lit "fixed") }
      else l.config
    { l with
      config
      barconfigs := l.barconfigs.map fun bar =>
        { bar with font := some (bar.font.getD config.font.pattern) } }

/-- `load_configuration`. -/
def loadConfiguration (env : Env) (type : LoadType) (ds : List Directive) (g : Globals) : Globals :=
  let g := Directive.runAll env ds (startLoading env type g)
  { g with
    modeState := { g.modeState with modes := reorderBindings g.modeState.modes }
    loaded := fillFonts env type g.loaded }

end I3.Configuration
