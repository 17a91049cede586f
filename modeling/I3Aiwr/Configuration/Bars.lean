import I3Aiwr.Configuration.Values

/-!
# Bar configurations

The directives inside `bar` of `src/config_directives.c`: each changes the bar configuration
`current_bar`, which `cfg_bar_start` creates and `cfg_bar_finish` puts behind the others.

## Main definitions

* `Barconfig`: `struct Barconfig`
* `cfgBar`: the functions `cfg_bar_*` on the current bar configuration
-/

namespace I3.Configuration

open I3.Parser (Text)

inductive BarMode
  | dock | hide | invisible
  deriving DecidableEq, Repr

inductive HiddenState
  | hide | show
  deriving DecidableEq, Repr

inductive BarPosition
  | bottom | top
  deriving DecidableEq, Repr

/-- `struct Barbinding`. -/
structure Barbinding where
  inputCode : ℤ
  command : Text
  release : Bool
  deriving DecidableEq, Repr

/-- The colours of one kind of workspace button, or of the binding mode. -/
structure ButtonColors where
  border : Option Text := none
  bg : Option Text := none
  text : Option Text := none
  deriving DecidableEq, Repr

/-- `struct bar_colors`. -/
structure BarColors where
  background : Option Text := none
  statusline : Option Text := none
  separator : Option Text := none
  focusedBackground : Option Text := none
  focusedStatusline : Option Text := none
  focusedSeparator : Option Text := none
  focusedWorkspace : ButtonColors := {}
  activeWorkspace : ButtonColors := {}
  inactiveWorkspace : ButtonColors := {}
  urgentWorkspace : ButtonColors := {}
  bindingMode : ButtonColors := {}
  deriving DecidableEq, Repr

/-- `Rect`, as the padding of a bar. -/
structure Padding where
  x : ℕ := 0
  y : ℕ := 0
  width : ℕ := 0
  height : ℕ := 0
  deriving DecidableEq, Repr

/-- `struct Barconfig`, with what `cfg_bar_start` sets; the rest is zeroed. -/
structure Barconfig where
  id : Option Text := none
  outputs : List Text := []
  trayOutputs : List Text := []
  trayPadding : ℤ := 2
  socketPath : Option Text := none
  mode : BarMode := .dock
  hiddenState : HiddenState := .hide
  /-- `XCB_KEY_BUT_MASK_MOD_4`, unless set -/
  modifier : ℕ := 64
  barBindings : List Barbinding := []
  position : BarPosition := .bottom
  i3barCommand : Option Text := none
  statusCommand : Option Text := none
  workspaceCommand : Option Text := none
  font : Option Text := none
  separatorSymbol : Option Text := none
  hideWorkspaceButtons : Bool := false
  workspaceMinWidth : ℤ := 0
  stripWorkspaceNumbers : Bool := false
  stripWorkspaceName : Bool := false
  hideBindingModeIndicator : Bool := false
  verbose : Bool := false
  barHeight : ℕ := 0
  padding : Padding := {}
  colors : BarColors := {}
  deriving DecidableEq, Repr

/-- The directives inside `bar`, under the names of the functions `cfg_bar_*`. -/
inductive BarDirective
  | font (font : Text)
  | separatorSymbol (separator : Text)
  | mode (mode : Text)
  | hiddenState (hiddenState : Text)
  | id (barId : Text)
  | output (output : Text)
  | verbose (verbose : Text)
  | height (height : ℤ)
  | paddingOne (all : ℤ)
  | paddingTwo (topAndBottom rightAndLeft : ℤ)
  | paddingThree (top rightAndLeft bottom : ℤ)
  | paddingFour (top right bottom left : ℤ)
  | modifier (modifiers : Option Text)
  | wheelUpCmd (command : Text)
  | wheelDownCmd (command : Text)
  | bindsym (button : Text) (release : Option Text) (command : Text)
  | position (position : Text)
  | i3barCommand (i3barCommand : Text)
  | color (colorclass border background : Text) (text : Option Text)
  | socketPath (socketPath : Text)
  | trayOutput (output : Text)
  | trayPadding (paddingPx : ℤ)
  | colorSingle (colorclass color : Text)
  | statusCommand (command : Text)
  | workspaceCommand (command : Text)
  | bindingModeIndicator (value : Text)
  | workspaceButtons (value : Text)
  | workspaceMinWidth (width : ℤ)
  | stripWorkspaceNumbers (value : Text)
  | stripWorkspaceName (value : Text)
  deriving DecidableEq, Repr

namespace Barconfig

/-- `bar_configure_binding`. -/
def configureBinding (bar : Barconfig) (button : Text) (release : Option Text) (command : Text) :
    Barconfig :=
  if ¬ Parser.sameCase (button.take 6) (lit "button") then bar
  else
    let inputCode := toInt (atol (button.drop 6))
    if inputCode < 1 then bar
    -- the first binding of a button stays
    else if bar.barBindings.any fun b => b.inputCode = inputCode ∧ b.release = release.isSome then bar
    else
      { bar with
        barBindings := bar.barBindings ++ [⟨inputCode, command, release.isSome⟩] }

/-- `APPLY_COLORS` of `cfg_bar_color`; without a third colour the first one is that of the text. -/
def applyColors (border background : Text) (text : Option Text) (c : ButtonColors) : ButtonColors :=
  match text with
  | some text => { border := some border, bg := some background, text := some text }
  | none => { c with bg := some background, text := some border }

/-- `cfg_bar_color`. -/
def color (colorclass border background : Text) (text : Option Text) (c : BarColors) : BarColors :=
  let apply := applyColors border background text
  if colorclass = lit "focused_workspace" then
    { c with focusedWorkspace := apply c.focusedWorkspace }
  else if colorclass = lit "active_workspace" then
    { c with activeWorkspace := apply c.activeWorkspace }
  else if colorclass = lit "inactive_workspace" then
    { c with inactiveWorkspace := apply c.inactiveWorkspace }
  else if colorclass = lit "urgent_workspace" then
    { c with urgentWorkspace := apply c.urgentWorkspace }
  else if colorclass = lit "binding_mode" then { c with bindingMode := apply c.bindingMode }
  else c

/-- `cfg_bar_color_single`. -/
def colorSingle (colorclass color : Text) (c : BarColors) : BarColors :=
  if colorclass = lit "background" then { c with background := some color }
  else if colorclass = lit "separator" then { c with separator := some color }
  else if colorclass = lit "statusline" then { c with statusline := some color }
  else if colorclass = lit "focused_background" then { c with focusedBackground := some color }
  else if colorclass = lit "focused_separator" then { c with focusedSeparator := some color }
  else { c with focusedStatusline := some color }

/-- A padding, from its four sides. -/
def setPadding (bar : Barconfig) (top right bottom left : ℤ) : Barconfig :=
  { bar with
    padding :=
      { x := toUInt32 left
        y := toUInt32 top
        width := toUInt32 right
        height := toUInt32 bottom } }

end Barconfig

/-- The functions `cfg_bar_*` on `current_bar`. -/
def cfgBar : BarDirective → Barconfig → Barconfig
  | .font font, bar => { bar with font := some font }
  | .separatorSymbol separator, bar => { bar with separatorSymbol := some separator }
  | .mode mode, bar =>
    { bar with
      mode := if mode = lit "dock" then .dock else if mode = lit "hide" then .hide else .invisible }
  | .hiddenState hiddenState, bar =>
    { bar with hiddenState := if hiddenState = lit "hide" then .hide else .show }
  | .id barId, bar => { bar with id := some barId }
  | .output output, bar => { bar with outputs := bar.outputs ++ [output] }
  | .verbose verbose, bar => { bar with verbose := boolstr verbose }
  | .height height, bar => { bar with barHeight := toUInt32 height }
  | .paddingOne all, bar => bar.setPadding all all all all
  | .paddingTwo topAndBottom rightAndLeft, bar =>
    bar.setPadding topAndBottom rightAndLeft topAndBottom rightAndLeft
  | .paddingThree top rightAndLeft bottom, bar =>
    bar.setPadding top rightAndLeft bottom rightAndLeft
  | .paddingFour top right bottom left, bar => bar.setPadding top right bottom left
  | .modifier none, bar => { bar with modifier := 0 }
  | .modifier (some modifiers), bar => { bar with modifier := eventStateFromStr (some modifiers) }
  | .wheelUpCmd command, bar => bar.configureBinding (lit "button4") none command
  | .wheelDownCmd command, bar => bar.configureBinding (lit "button5") none command
  | .bindsym button release command, bar => bar.configureBinding button release command
  | .position position, bar =>
    { bar with position := if position = lit "top" then .top else .bottom }
  | .i3barCommand i3barCommand, bar => { bar with i3barCommand := some i3barCommand }
  | .color colorclass border background text, bar =>
    { bar with colors := Barconfig.color colorclass border background text bar.colors }
  | .socketPath socketPath, bar => { bar with socketPath := some socketPath }
  | .trayOutput output, bar => { bar with trayOutputs := bar.trayOutputs ++ [output] }
  | .trayPadding paddingPx, bar => { bar with trayPadding := toInt paddingPx }
  | .colorSingle colorclass color, bar =>
    { bar with colors := Barconfig.colorSingle colorclass color bar.colors }
  | .statusCommand command, bar => { bar with statusCommand := some command }
  | .workspaceCommand command, bar => { bar with workspaceCommand := some command }
  | .bindingModeIndicator value, bar => { bar with hideBindingModeIndicator := !boolstr value }
  | .workspaceButtons value, bar => { bar with hideWorkspaceButtons := !boolstr value }
  | .workspaceMinWidth width, bar => { bar with workspaceMinWidth := toInt width }
  | .stripWorkspaceNumbers value, bar => { bar with stripWorkspaceNumbers := boolstr value }
  | .stripWorkspaceName value, bar => { bar with stripWorkspaceName := boolstr value }

end I3.Configuration
