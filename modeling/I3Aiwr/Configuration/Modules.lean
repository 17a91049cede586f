import I3Aiwr.Configuration.Values
import I3Aiwr.Lib.Settings

/-!
# The modules of i3-aiwr

The configurations of the overview, the workspace transitions, the window animations, live resizing,
the scrolling layout, the window switcher, the rounded corners and the gradient borders, with the
directives of `src/config_directives.c` that set them. The values of a structure's fields are the
defaults of `load_configuration`, those of `Gradient` the initial ones of `src/gradient_border.c`.

## Main definitions

* `OverviewConfig`, `cfgOverview`, and so on for the other modules
* `Gradient`, `cfgGradientBorder`: the gradient borders
* `Gradient.View`: what is looked up of them

## Main results

* `Gradient.view_eq_iff`: when settings that came before are seen
-/

namespace I3.Configuration

open I3.Parser (Text)

/-! ### Overview -/

/-- `overview_config_t`. -/
structure OverviewConfig where
  enabled : Bool := false
  thumbnailScale : ℤ := 45
  spacing : ℤ := 28
  animationDurationMs : ℤ := 240
  showWorkspaceNames : Bool := true
  backgroundOpacity : ℤ := 55
  livePreviews : Bool := true
  particles : ℤ := 0
  fps : ℤ := 60
  borderStart : Color := { red := 0.298, green := 0.471, blue := 0.600, alpha := 1.0 }
  borderEnd : Color := { red := 0.157, green := 0.333, blue := 0.467, alpha := 1.0 }
  borderInactive : Color := { red := 1.0, green := 1.0, blue := 1.0, alpha := 0.18 }
  borderWidth : ℤ := 3
  borderSpeed : ℤ := 45
  wallpaperPath : Option Text := none
  backgroundBlur : ℤ := 0
  dynamicWorkspaces : Bool := false
  thumbnailBlur : ℤ := 0

/-- The directives of the overview, under the names of the functions `cfg_overview_*`. -/
inductive OverviewDirective
  | toggleConfig (value : Text)
  | thumbnailScale (scale : Text)
  | thumbnailBlur (blur : ℤ)
  | spacing (spacing : Text)
  | animationDuration (duration : Text)
  | backgroundOpacity (opacity : Text)
  | backgroundBlur (blur : Text)
  | wallpaperPath (path : Text)
  | livePreviews (value : Text)
  | particles (count : ℤ)
  | fps (fps : ℤ)
  | borderColor (color : Text)
  | borderColorEnd (color : Text)
  | borderInactive (color : Text)
  | borderWidth (width : ℤ)
  | borderSpeed (speed : ℤ)
  | dynamicWorkspaces (value : Text)
  deriving DecidableEq, Repr

/-- The functions `cfg_overview_*`, and `cfg_dynamic_workspaces`. -/
def cfgOverview (env : Env) : OverviewDirective → OverviewConfig → OverviewConfig
  | .toggleConfig value, c => { c with enabled := aiwrBool value }
  | .thumbnailScale scale, c => { c with thumbnailScale := aiwrClamp (atol scale) 10 100 }
  | .thumbnailBlur blur, c => { c with thumbnailBlur := aiwrClamp blur 0 100 }
  | .spacing spacing, c => { c with spacing := aiwrClamp (atol spacing) 0 500 }
  | .animationDuration duration, c =>
    { c with animationDurationMs := aiwrClamp (atol duration) 0 2000 }
  | .backgroundOpacity opacity, c => { c with backgroundOpacity := aiwrClamp (atol opacity) 0 100 }
  | .backgroundBlur blur, c => { c with backgroundBlur := aiwrClamp (atol blur) 0 100 }
  | .wallpaperPath path, c => { c with wallpaperPath := some (env.resolveTilde path) }
  | .livePreviews value, c => { c with livePreviews := aiwrBool value }
  | .particles count, c => { c with particles := aiwrClamp count 0 256 }
  | .fps fps, c => { c with fps := aiwrClamp fps 15 240 }
  | .borderColor color, c => { c with borderStart := drawUtilHexToColor env color }
  | .borderColorEnd color, c => { c with borderEnd := drawUtilHexToColor env color }
  | .borderInactive color, c => { c with borderInactive := drawUtilHexToColor env color }
  | .borderWidth width, c => { c with borderWidth := aiwrClamp width 1 12 }
  | .borderSpeed speed, c => { c with borderSpeed := toInt (if speed < 0 then 0 else speed) }
  | .dynamicWorkspaces value, c => { c with dynamicWorkspaces := aiwrBool value }

/-! ### Workspace transitions -/

inductive TransitionDirection
  | horizontal | vertical
  deriving DecidableEq, Repr

inductive TransitionType
  | slide | fade | zoom
  deriving DecidableEq, Repr

/-- `workspace_transition_config_t`. -/
structure TransitionConfig where
  enabled : Bool := false
  durationMs : ℤ := 220
  direction : TransitionDirection := .horizontal
  fps : ℤ := 60
  type : TransitionType := .slide
  curve : Option Text := none
  deriving DecidableEq, Repr

/-- The directives of `workspace_transition`. -/
inductive TransitionDirective
  | toggle (value : Text)
  | duration (durationMs : ℤ)
  | direction (direction : Text)
  | type (type : Text)
  | curve (name : Text)
  | fps (fps : ℤ)
  deriving DecidableEq, Repr

/-- `cfg_workspace_transition` and the functions `cfg_workspace_transition_*`. -/
def cfgWorkspaceTransition : TransitionDirective → TransitionConfig → TransitionConfig
  | .toggle value, c => { c with enabled := aiwrBool value }
  | .duration durationMs, c => { c with durationMs := aiwrClamp durationMs 0 2000 }
  | .direction direction, c =>
    { c with direction := if direction = lit "vertical" then .vertical else .horizontal }
  | .type type, c =>
    { c with
      type := if type = lit "fade" then .fade else if type = lit "zoom" then .zoom else .slide }
  | .curve name, c => { c with curve := some name }
  | .fps fps, c => { c with fps := aiwrClamp fps 15 240 }

/-! ### Window animations -/

/-- `window_animation_config_t`. -/
structure WindowAnimationConfig where
  enabled : Bool := false
  durationMs : ℤ := 160
  startScale : ℤ := 88
  fps : ℤ := 60
  curve : Option Text := none
  closeEnabled : Bool := false
  closeDurationMs : ℤ := 140
  closeScale : ℤ := 60
  closeCurve : Option Text := none
  opacity : Bool := true
  startOpacity : ℤ := 0
  closeOpacity : ℤ := 0
  deriving DecidableEq, Repr

/-- The directives of `window_animation`. -/
inductive WindowAnimationDirective
  | toggle (value : Text)
  | duration (durationMs : ℤ)
  | scale (scale : ℤ)
  | curve (name : Text)
  | fps (fps : ℤ)
  | opacity (value : Text)
  | startOpacity (pct : ℤ)
  | close (value : Text)
  | closeDuration (durationMs : ℤ)
  | closeScale (scale : ℤ)
  | closeCurve (name : Text)
  | closeOpacity (pct : ℤ)
  deriving DecidableEq, Repr

/-- `cfg_window_animation` and the functions `cfg_window_animation_*`. -/
def cfgWindowAnimation : WindowAnimationDirective → WindowAnimationConfig → WindowAnimationConfig
  | .toggle value, c => { c with enabled := aiwrBool value }
  | .duration durationMs, c => { c with durationMs := aiwrClamp durationMs 0 2000 }
  | .scale scale, c => { c with startScale := aiwrClamp scale 10 100 }
  | .curve name, c => { c with curve := some name }
  | .fps fps, c => { c with fps := aiwrClamp fps 15 240 }
  | .opacity value, c => { c with opacity := aiwrBool value }
  | .startOpacity pct, c => { c with startOpacity := aiwrClamp pct 0 100 }
  | .close value, c => { c with closeEnabled := aiwrBool value }
  | .closeDuration durationMs, c => { c with closeDurationMs := aiwrClamp durationMs 0 2000 }
  | .closeScale scale, c => { c with closeScale := aiwrClamp scale 10 100 }
  | .closeCurve name, c => { c with closeCurve := some name }
  | .closeOpacity pct, c => { c with closeOpacity := aiwrClamp pct 0 100 }

/-! ### Live resizing -/

/-- `live_resize_config_t`. -/
structure LiveResizeConfig where
  enabled : Bool := false
  fps : ℤ := 60
  deriving DecidableEq, Repr

inductive LiveResizeDirective
  | toggle (value : Text)
  | fps (fps : ℤ)
  deriving DecidableEq, Repr

/-- `cfg_resize_live` and `cfg_resize_live_fps`. -/
def cfgResizeLive : LiveResizeDirective → LiveResizeConfig → LiveResizeConfig
  | .toggle value, c => { c with enabled := aiwrBool value }
  | .fps fps, c => { c with fps := aiwrClamp fps 15 240 }

/-! ### Scrolling layout -/

/-- `scrolling_config_t`. -/
structure ScrollingConfig where
  defaultWidth : ℤ := 50
  durationMs : ℤ := 200
  curve : Option Text := none
  centerFocus : Bool := false
  deriving DecidableEq, Repr

inductive ScrollingDirective
  | defaultWidth (pct : ℤ)
  | duration (ms : ℤ)
  | curve (name : Text)
  | centerFocus (value : Text)
  deriving DecidableEq, Repr

/-- The functions `cfg_scrolling_*`. -/
def cfgScrolling : ScrollingDirective → ScrollingConfig → ScrollingConfig
  | .defaultWidth pct, c => { c with defaultWidth := aiwrClamp pct 5 400 }
  | .duration ms, c => { c with durationMs := aiwrClamp ms 0 2000 }
  | .curve name, c => { c with curve := some name }
  | .centerFocus value, c => { c with centerFocus := aiwrBool value }

/-! ### Window switcher -/

/-- `switcher_config_t`. -/
structure SwitcherConfig where
  enabled : Bool := false
  maxItems : ℤ := 8
  cellWidth : ℤ := 220
  cellHeight : ℤ := 140
  showPreview : Bool := true
  deriving DecidableEq, Repr

inductive SwitcherDirective
  | toggle (value : Text)
  | maxItems (n : ℤ)
  | preview (value : Text)
  deriving DecidableEq, Repr

/-- `cfg_switcher`, `cfg_switcher_max_items` and `cfg_switcher_preview`. -/
def cfgSwitcher : SwitcherDirective → SwitcherConfig → SwitcherConfig
  | .toggle value, c => { c with enabled := aiwrBool value }
  | .maxItems n, c => { c with maxItems := aiwrClamp n 2 32 }
  | .preview value, c => { c with showPreview := aiwrBool value }

/-! ### Rounded corners -/

/-- `rounded_corners_config_t`. -/
structure RoundedCornersConfig where
  enabled : Bool := false
  radius : ℤ := 8
  applyToFloating : Bool := true
  applyToTiling : Bool := true
  deriving DecidableEq, Repr

inductive RoundedCornersDirective
  | toggle (value : Text)
  | radius (radius : ℤ)
  | floating (value : Text)
  | tiling (value : Text)
  deriving DecidableEq, Repr

/-- The functions `cfg_rounded_corners_*`. -/
def cfgRoundedCorners : RoundedCornersDirective → RoundedCornersConfig → RoundedCornersConfig
  | .toggle value, c => { c with enabled := aiwrBool value }
  | .radius radius, c => if radius < 0 then c else { c with radius := toInt radius }
  | .floating value, c => { c with applyToFloating := aiwrBool value }
  | .tiling value, c => { c with applyToTiling := aiwrBool value }

/-! ### Gradient borders -/

/-- `aiwr_gradient_t`, with the initial values of `aiwr_gradient`. -/
structure Gradient where
  enabled : Bool := false
  activeStart : Color := { red := 0.2, green := 0.6, blue := 1.0, alpha := 1.0 }
  activeEnd : Color := { red := 0.8, green := 0.3, blue := 0.9, alpha := 1.0 }
  inactiveStart : Color := {}
  inactiveEnd : Color := {}
  inactiveSet : Bool := false
  angle : ℤ := 45
  speed : ℤ := 60
  fps : ℤ := 30
  animateInactive : Bool := true

/-- The directives of `gradient_border`, under the names of the functions `cfg_gradient_border_*`. -/
inductive GradientDirective
  | toggle (value : Text)
  | colorStart (color : Text)
  | colorEnd (color : Text)
  | inactiveStart (color : Text)
  | inactiveEnd (color : Text)
  | direction (direction : Text)
  | angle (angle : ℤ)
  | speed (speed : ℤ)
  | fps (fps : ℤ)
  deriving DecidableEq, Repr

/-- The angle of a direction. -/
def directionAngle (direction : Text) : ℤ :=
  if direction = lit "horizontal" then 0 else if direction = lit "vertical" then 90 else 45

/-- The functions `cfg_gradient_border_*`. -/
def cfgGradientBorder (env : Env) : GradientDirective → Gradient → Gradient
  | .toggle value, c => { c with enabled := aiwrBool value }
  | .colorStart color, c => { c with activeStart := drawUtilHexToColor env color }
  | .colorEnd color, c => { c with activeEnd := drawUtilHexToColor env color }
  | .inactiveStart color, c =>
    { c with inactiveStart := drawUtilHexToColor env color, inactiveSet := true }
  | .inactiveEnd color, c =>
    { c with inactiveEnd := drawUtilHexToColor env color, inactiveSet := true }
  | .direction direction, c => { c with angle := directionAngle direction }
  | .angle angle, c => { c with angle := (angle.tmod 360 + 360).tmod 360 }
  | .speed speed, c => { c with speed := toInt (if speed < 0 then 0 else speed) }
  | .fps fps, c => { c with fps := aiwrClamp fps 1 120 }

namespace GradientDirective

variable (env : Env)

/-- What a directive sets `enabled` to; so for the other fields below. -/
def enabled? : GradientDirective → Option Bool
  | .toggle value => some (aiwrBool value)
  | _ => none

def activeStart? : GradientDirective → Option Color
  | .colorStart color => some (drawUtilHexToColor env color)
  | _ => none

def activeEnd? : GradientDirective → Option Color
  | .colorEnd color => some (drawUtilHexToColor env color)
  | _ => none

def inactiveStart? : GradientDirective → Option Color
  | .inactiveStart color => some (drawUtilHexToColor env color)
  | _ => none

def inactiveEnd? : GradientDirective → Option Color
  | .inactiveEnd color => some (drawUtilHexToColor env color)
  | _ => none

def inactiveSet? : GradientDirective → Option Bool
  | .inactiveStart _ => some true
  | .inactiveEnd _ => some true
  | _ => none

def angle? : GradientDirective → Option ℤ
  | .direction d => some (directionAngle d)
  | .angle a => some ((a.tmod 360 + 360).tmod 360)
  | _ => none

def speed? : GradientDirective → Option ℤ
  | .speed v => some (toInt (if v < 0 then 0 else v))
  | _ => none

def fps? : GradientDirective → Option ℤ
  | .fps v => some (aiwrClamp v 1 120)
  | _ => none

end GradientDirective

namespace Gradient

/-- The gradient borders after a list of directives. -/
def run (env : Env) (ds : List GradientDirective) (c : Gradient) : Gradient :=
  ds.foldl (fun c d => cfgGradientBorder env d c) c

/-- The colours `gradient_border_pattern` runs between, for a border that has a size. -/
def stops (c : Gradient) (active : Bool) :
    Option ((Float × Float × Float × Float) × Float × Float × Float × Float) :=
  if !c.enabled then none
  else if !active && !c.inactiveSet then none
  else if active then some (c.activeStart.rgba, c.activeEnd.rgba)
  else some (c.inactiveStart.rgba, c.inactiveEnd.rgba)

/-- What is looked up of the gradient borders: what `src/ipc.c` reports, and what is painted. -/
structure View where
  enabled : Bool
  angle : ℤ
  speed : ℤ
  fps : ℤ
  inactiveSet : Bool
  animateInactive : Bool
  stops : Bool → Option ((Float × Float × Float × Float) × Float × Float × Float × Float)

def view (c : Gradient) : View :=
  { enabled := c.enabled
    angle := c.angle
    speed := c.speed
    fps := c.fps
    inactiveSet := c.inactiveSet
    animateInactive := c.animateInactive
    stops := c.stops }

/-! ### Settings that came before -/

open Settings GradientDirective

variable {env : Env} {c c' : Gradient} {ds ds' : List GradientDirective}

theorem enabled_run : (run env ds c).enabled = (last enabled? ds).getD c.enabled := by
  apply foldl_field
  intro d c
  cases d <;> rfl

theorem angle_run : (run env ds c).angle = (last angle? ds).getD c.angle := by
  apply foldl_field
  intro d c
  cases d <;> rfl

theorem speed_run : (run env ds c).speed = (last speed? ds).getD c.speed := by
  apply foldl_field
  intro d c
  cases d <;> rfl

theorem fps_run : (run env ds c).fps = (last fps? ds).getD c.fps := by
  apply foldl_field
  intro d c
  cases d <;> rfl

theorem inactiveSet_run : (run env ds c).inactiveSet = (last inactiveSet? ds).getD c.inactiveSet := by
  apply foldl_field
  intro d c
  cases d <;> rfl

/-- No directive sets `animate_inactive`. -/
theorem animateInactive_run : (run env ds c).animateInactive = c.animateInactive := by
  unfold run
  induction ds generalizing c with
  | nil => rfl
  | cons d ds ih =>
    rw [List.foldl_cons, ih]
    cases d <;> rfl

/-- The components of a colour the directives set. -/
def shades (f : GradientDirective → Option Color) (d : GradientDirective) :
    Option (Float × Float × Float × Float) := (f d).map Color.rgba

theorem activeStart_run : (run env ds c).activeStart.rgba =
    (last (shades (activeStart? env)) ds).getD c.activeStart.rgba := by
  apply foldl_field (p := fun c : Gradient => c.activeStart.rgba)
  intro d c
  cases d <;> rfl

theorem activeEnd_run : (run env ds c).activeEnd.rgba =
    (last (shades (activeEnd? env)) ds).getD c.activeEnd.rgba := by
  apply foldl_field (p := fun c : Gradient => c.activeEnd.rgba)
  intro d c
  cases d <;> rfl

theorem inactiveStart_run : (run env ds c).inactiveStart.rgba =
    (last (shades (inactiveStart? env)) ds).getD c.inactiveStart.rgba := by
  apply foldl_field (p := fun c : Gradient => c.inactiveStart.rgba)
  intro d c
  cases d <;> rfl

theorem inactiveEnd_run : (run env ds c).inactiveEnd.rgba =
    (last (shades (inactiveEnd? env)) ds).getD c.inactiveEnd.rgba := by
  apply foldl_field (p := fun c : Gradient => c.inactiveEnd.rgba)
  intro d c
  cases d <;> rfl

/-- The directives of `ds` are not seen after those of `ds'`: a field that is looked up is set again
or was left at its initial value. -/
structure Unseen (env : Env) (ds ds' : List GradientDirective) : Prop where
  enabled : Kept enabled? false ds ds'
  angle : Kept angle? 45 ds ds'
  speed : Kept speed? 60 ds ds'
  fps : Kept fps? 30 ds ds'
  inactiveSet : Kept inactiveSet? false ds ds'
  /-- the colours are looked up where the borders are enabled -/
  active : last enabled? ds' = some true →
    Kept (shades (activeStart? env)) ({} : Gradient).activeStart.rgba ds ds' ∧
      Kept (shades (activeEnd? env)) ({} : Gradient).activeEnd.rgba ds ds'
  inactive : last enabled? ds' = some true → last inactiveSet? ds' = some true →
    Kept (shades (inactiveStart? env)) ({} : Gradient).inactiveStart.rgba ds ds' ∧
      Kept (shades (inactiveEnd? env)) ({} : Gradient).inactiveEnd.rgba ds ds'

/-- The colours the borders run between, where the two flags agree. -/
theorem stops_eq_iff (he : c.enabled = c'.enabled) (hi : c.inactiveSet = c'.inactiveSet) :
    c.stops = c'.stops ↔
      (c'.enabled = true →
        c.activeStart.rgba = c'.activeStart.rgba ∧ c.activeEnd.rgba = c'.activeEnd.rgba) ∧
      (c'.enabled = true → c'.inactiveSet = true →
        c.inactiveStart.rgba = c'.inactiveStart.rgba ∧
          c.inactiveEnd.rgba = c'.inactiveEnd.rgba) := by
  rw [funext_iff, Bool.forall_bool, and_comm]
  unfold stops
  rw [he, hi]
  cases c'.enabled
  · simp
  · cases c'.inactiveSet <;> simp

/-- **Settings that came before** are seen in a lookup unless they were overwritten, or had no
effect. -/
theorem view_eq_iff :
    (run env ds' (run env ds {})).view = (run env ds' {}).view ↔ Unseen env ds ds' := by
  -- each field, after one list and after both
  have henabled : (run env ds' {}).enabled = true ↔ last enabled? ds' = some true := by
    rw [enabled_run]
    cases last enabled? ds' <;> simp
  have hinactive : (run env ds' {}).inactiveSet = true ↔ last inactiveSet? ds' = some true := by
    rw [inactiveSet_run]
    cases last inactiveSet? ds' <;> simp
  unfold view
  simp only [View.mk.injEq]
  constructor
  · rintro ⟨he, ha, hs, hf, hi, -, hstops⟩
    rw [stops_eq_iff he hi, henabled, hinactive] at hstops
    simp only [enabled_run, angle_run, speed_run, fps_run, inactiveSet_run, activeStart_run,
      activeEnd_run, inactiveStart_run, inactiveEnd_run, getD_getD_eq_iff] at he ha hs hf hi hstops
    exact ⟨he, ha, hs, hf, hi, hstops.1, hstops.2⟩
  · intro h
    have he : (run env ds' (run env ds {})).enabled = (run env ds' {}).enabled := by
      rw [enabled_run, enabled_run, enabled_run]
      exact getD_getD_eq_iff.mpr h.enabled
    have hi : (run env ds' (run env ds {})).inactiveSet = (run env ds' {}).inactiveSet := by
      rw [inactiveSet_run, inactiveSet_run, inactiveSet_run]
      exact getD_getD_eq_iff.mpr h.inactiveSet
    refine ⟨he, ?_, ?_, ?_, hi, ?_, ?_⟩
    · rw [angle_run, angle_run, angle_run]
      exact getD_getD_eq_iff.mpr h.angle
    · rw [speed_run, speed_run, speed_run]
      exact getD_getD_eq_iff.mpr h.speed
    · rw [fps_run, fps_run, fps_run]
      exact getD_getD_eq_iff.mpr h.fps
    · rw [animateInactive_run, animateInactive_run, animateInactive_run]
    · rw [stops_eq_iff he hi, henabled, hinactive]
      simp only [activeStart_run, activeEnd_run, inactiveStart_run, inactiveEnd_run,
        getD_getD_eq_iff]
      exact ⟨h.active, h.inactive⟩

end Gradient

end I3.Configuration
