import I3Aiwr.Configuration.Values
import I3Aiwr.Lib.Settings

/-!
# The table of named curves

`src/aiwr_bezier.c`: Bézier curves and springs by name. The table is filled with the built-in ones
when it is first used; a curve defined by the configuration takes the place of the one of that name,
up to the case of letters, or comes last.

## Main definitions

* `Curve`, `aiwrCurveDefine`, `aiwrCurveDefineSpring`: what a definition puts in the table
* `bezierSpec`, `springSpec`: the definitions of the configuration
* `Curves`: the table; `aiwrCurveGet`, `aiwrCurveNames`: looking it up

## Main results

* `Curves.get_of_defined`, `Curves.names_of_defined`: the table after a list of definitions
-/

namespace I3.Configuration

open I3.Parser (Text)

/-- `aiwr_curve_t`, without its name. -/
inductive Curve
  | bezier (x1 y1 x2 y2 : Float)
  | spring (dampingRatio stiffness mass epsilon settleMs : Float)

/-- `clamp01`. -/
def clamp01 (v : Float) : Float := if v < 0 then 0 else if v > 1 then 1 else v

/-- `spring_at`: where a spring is after `t` seconds. -/
def springAt (dampingRatio stiffness mass t : Float) : Float :=
  let m := if mass > 0.0 then mass else 1.0
  let k := stiffness
  let damping := dampingRatio * 2.0 * Float.sqrt (m * k)
  let b := damping / (2.0 * m)
  let omega0 := Float.sqrt (k / m)
  let x0 : Float := -1.0
  let envelope := Float.exp (-b * t)
  if Float.abs (dampingRatio - 1.0) < 1e-9 then 1.0 + envelope * (x0 + b * x0 * t)
  else if dampingRatio > 1.0 then
    let omega1 := Float.sqrt (b * b - omega0 * omega0)
    1.0 + envelope * (x0 * Float.cosh (omega1 * t) + (b * x0 / omega1) * Float.sinh (omega1 * t))
  else
    let omega2 := Float.sqrt (omega0 * omega0 - b * b)
    1.0 + envelope * (x0 * Float.cos (omega2 * t) + (b * x0 / omega2) * Float.sin (omega2 * t))

/-- The loop of `spring_settle_ms`, from `t` on; `last` is where the spring was outside `eps`. -/
def settleFrom (position : Float → Float) (eps : Float) : ℕ → Float → Float → Float
  | 0, _, last => last
  | fuel + 1, t, last =>
    if t < 10.0 then
      settleFrom position eps fuel (t + 0.001)
        (if Float.abs (position t - 1.0) > eps then t else last)
    else last

/-- `spring_settle_ms`; ten seconds are some ten thousand steps. -/
def springSettleMs (dampingRatio stiffness mass epsilon : Float) : Float :=
  let eps := if epsilon > 0.0 then epsilon else 0.0001
  (settleFrom (springAt dampingRatio stiffness mass) eps 20000 0.0 0.0 + 0.001) * 1000.0

/-- `aiwr_curve_define`. -/
def aiwrCurveDefine (name : Text) (x1 y1 x2 y2 : Float) : Option (Text × Curve) :=
  if name = [] then none else some (name, .bezier (clamp01 x1) y1 (clamp01 x2) y2)

/-- `aiwr_curve_define_spring`; the speed is checked and not used. -/
def aiwrCurveDefineSpring (name : Text) (dampingRatio stiffness mass epsilon : Float) :
    Option (Text × Curve) :=
  if name = [] then none
  else if stiffness <= 0.0 then none
  else
    let dampingRatio := if dampingRatio <= 0.0 then 1.0 else dampingRatio
    let mass := if mass <= 0.0 then 1.0 else mass
    let epsilon := if epsilon <= 0.0 then 0.0001 else epsilon
    some (name, .spring dampingRatio stiffness mass epsilon
      (springSettleMs dampingRatio stiffness mass epsilon))

/-! ### Specifications -/

/-- `spec_normalize`, into a buffer of 256 bytes. -/
def specNormalize (spec : Text) : Text := (spec.take 255).map fun c => if c = ',' then ' ' else c

/-- Numbers one after the other, as `sscanf` reads them. -/
def scanDoubles (env : Env) : ℕ → Text → Option (List Float)
  | 0, _ => some []
  | n + 1, s => do
    let (v, rest) ← env.scanDouble s
    let vs ← scanDoubles env n rest
    return v :: vs

/-- `aiwr_curve_define_spec`: a name of at most 63 bytes and four numbers. -/
def bezierSpec (env : Env) (spec : Text) : Option (Text × Curve) :=
  let buf := (specNormalize spec).dropWhile Parser.isSpace
  let word := (buf.takeWhile fun c => !Parser.isSpace c).take 63
  match scanDoubles env 4 (buf.drop word.length) with
  | some [x1, y1, x2, y2] => aiwrCurveDefine word x1 y1 x2 y2
  | _ => none

/-- What the keys of a spring have been set to. -/
structure SpringKeys where
  dampingRatio : Float := 1.0
  stiffness : Float := 1000.0
  mass : Float := 1.0
  epsilon : Float := 0.0001
  speed : Float := 1.0

/-- A `key=value` of a spring. -/
def SpringKeys.set (env : Env) (k : SpringKeys) (tok : Text) : Option SpringKeys :=
  match tok.dropWhile (· ≠ '=') with
  | [] => none
  | _ :: value =>
    let key := tok.takeWhile (· ≠ '=')
    let v := env.strtod value
    if Parser.sameCase key (lit "damping-ratio") ∨ Parser.sameCase key (lit "damping_ratio") then
      some { k with dampingRatio := v }
    else if Parser.sameCase key (lit "stiffness") then some { k with stiffness := v }
    else if Parser.sameCase key (lit "epsilon") then some { k with epsilon := v }
    else if Parser.sameCase key (lit "mass") then some { k with mass := v }
    else if Parser.sameCase key (lit "speed") then some { k with speed := v }
    else none

/-- The pieces between blanks, as `strtok_r` finds them. -/
def blankPieces (s : Text) : List Text :=
  (s.splitOnP fun c => c = ' ' || c = '\t').filter (· ≠ [])

/-- `aiwr_curve_define_spring_spec`. -/
def springSpec (env : Env) (spec : Text) : Option (Text × Curve) :=
  match blankPieces (specNormalize spec) with
  | [] => none
  | name :: toks => do
    let k ← toks.foldlM (SpringKeys.set env) {}
    aiwrCurveDefineSpring (name.take 63) k.dampingRatio k.stiffness k.mass k.epsilon

/-! ### The table -/

/-- The key of a name: `strcasecmp`. -/
def curveKey (name : Text) : Text := name.map Char.toLower

/-- `builtin_bezier` and `builtin_spring`, as `aiwr_curves_init` defines them. -/
def builtinCurves : List (Text × Curve) :=
  List.filterMap id
    [aiwrCurveDefine (lit "default") 0.05 0.7 0.1 1.0,
      aiwrCurveDefine (lit "linear") 0.0 0.0 1.0 1.0,
      aiwrCurveDefine (lit "md3_standard") 0.2 0.0 0.0 1.0,
      aiwrCurveDefine (lit "md3_decel") 0.05 0.7 0.1 1.0,
      aiwrCurveDefine (lit "md3_accel") 0.3 0.0 0.8 0.15,
      aiwrCurveDefine (lit "overshot") 0.05 0.9 0.1 1.1,
      aiwrCurveDefine (lit "crazyshot") 0.1 1.5 0.76 0.92,
      aiwrCurveDefine (lit "hyprnostretch") 0.05 0.9 0.1 1.0,
      aiwrCurveDefine (lit "menu_decel") 0.1 1.0 0.0 1.0,
      aiwrCurveDefine (lit "menu_accel") 0.38 0.04 1.0 0.07,
      aiwrCurveDefine (lit "easeInOutCirc") 0.85 0.0 0.15 1.0,
      aiwrCurveDefine (lit "easeOutCirc") 0.0 0.55 0.45 1.0,
      aiwrCurveDefine (lit "easeOutExpo") 0.16 1.0 0.3 1.0,
      aiwrCurveDefine (lit "softAcDecel") 0.26 0.26 0.15 1.0,
      aiwrCurveDefine (lit "md2") 0.4 0.0 0.2 1.0,
      aiwrCurveDefineSpring (lit "spring") 1.0 1000.0 1.0 0.0001,
      aiwrCurveDefineSpring (lit "spring_snappy") 1.0 1600.0 1.0 0.0001,
      aiwrCurveDefineSpring (lit "spring_soft") 1.0 500.0 1.0 0.0001,
      aiwrCurveDefineSpring (lit "spring_bouncy") 0.7 1000.0 1.0 0.0001,
      aiwrCurveDefineSpring (lit "spring_wobbly") 0.5 800.0 1.0 0.0001]

/-- `curves`, once `aiwr_curves_init` has run (`curves_ready`). -/
abbrev Curves := Option (List (Text × Curve))

namespace Curves

/-- `aiwr_curves_init`. -/
def init (c : Curves) : List (Text × Curve) :=
  c.getD (Settings.defineAll curveKey [] builtinCurves)

/-- A definition of the configuration; one that is refused defines nothing. Filling the table before
refusing a spring makes no difference: every lookup fills it first. -/
def define (c : Curves) : Option (Text × Curve) → Curves
  | none => c
  | some d => some (Settings.define curveKey c.init d)

/-- `aiwr_curve_get`. -/
def aiwrCurveGet (c : Curves) (name : Text) : Option Curve :=
  Settings.get curveKey c.init (curveKey name)

/-- The names `aiwr_curve_name_at` gives, in order; their number is `aiwr_curve_count`. -/
def aiwrCurveNames (c : Curves) : List Text := c.init.map (·.1)

variable {c c' : Curves} {ds : List (Text × Curve)} {d : Option (Text × Curve)}

theorem init_define : (c.define d).init = Settings.defineAll curveKey c.init d.toList := by
  cases d <;> rfl

/-- The curve of a name after a list of definitions: the last one of that name. -/
theorem get_of_defined (h : c'.init = Settings.defineAll curveKey c.init ds) (name : Text) :
    c'.aiwrCurveGet name =
      (Settings.last (Settings.entry curveKey (curveKey name)) ds).or (c.aiwrCurveGet name) := by
  unfold aiwrCurveGet
  rw [h, Settings.get_defineAll]

/-- The names after a list of definitions: the new ones come last. -/
theorem names_of_defined (h : c'.init = Settings.defineAll curveKey c.init ds) :
    c'.aiwrCurveNames = c.aiwrCurveNames ++ Settings.fresh curveKey c.aiwrCurveNames ds := by
  unfold aiwrCurveNames
  rw [h, Settings.names_defineAll]

end Curves

end I3.Configuration
