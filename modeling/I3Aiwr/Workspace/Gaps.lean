import Mathlib.Logic.Function.Basic
import Mathlib.Order.MinMax
import I3Aiwr.Configuration.Assignments
import I3Aiwr.Lib.Runs

/-!
# Changing gaps

`gaps_update` and `cmd_gaps` of `src/commands.c`. The gaps of a workspace are the sum of those of
the configuration and of its own; a command changes one or the other and keeps what it changed from
going too far below zero: an outer gap may make up for the inner gap, but not for more.

Gaps are integers; the sums are taken to be in the range of `int`.

## Main definitions

* `Command`, `cmdGaps`: a `gaps` command
* `NonNegative`: no gap goes below zero
* `Command.Allowed`: when a command keeps it so, given that it is

## Main results

* `nonNegative_cmdGaps_iff`: for one command
* `nonNegative_iff_allowed`: for every run of commands
-/

namespace I3.GapsCommand

open Configuration (Gaps)

/-- `gap_accessor`: one of `gaps_inner`, `gaps_top`, `gaps_right`, `gaps_bottom`, `gaps_left`. -/
inductive Accessor
  | inner | top | right | bottom | left
  deriving DecidableEq, Repr

/-- Reading a gap. -/
def Accessor.get : Accessor → Gaps → ℤ
  | .inner, g => g.inner
  | .top, g => g.top
  | .right, g => g.right
  | .bottom, g => g.bottom
  | .left, g => g.left

/-- Writing a gap. -/
def Accessor.set : Accessor → ℤ → Gaps → Gaps
  | .inner, n, g => { g with inner := n }
  | .top, n, g => { g with top := n }
  | .right, n, g => { g with right := n }
  | .bottom, n, g => { g with bottom := n }
  | .left, n, g => { g with left := n }

/-- The scope of a command. -/
inductive Scope
  | current | all
  deriving DecidableEq, Repr

/-- The mode of a command. -/
inductive Mode
  | plus | minus | set | toggle
  deriving DecidableEq, Repr

/-- The type of a command. -/
inductive GapsType
  | inner | outer | vertical | horizontal | top | right | bottom | left
  deriving DecidableEq, Repr

/-- `config.gaps`, and the gaps of the workspaces. -/
structure State (ι : Type*) where
  config : Gaps
  workspaces : ι → Gaps

variable {ι : Type*}

/-- `calculate_effective_gaps`, where gaps are shown. -/
def State.effective (s : State ι) (v : ι) : Gaps :=
  { inner := (s.workspaces v).inner + s.config.inner
    top := (s.workspaces v).top + s.config.top
    right := (s.workspaces v).right + s.config.right
    bottom := (s.workspaces v).bottom + s.config.bottom
    left := (s.workspaces v).left + s.config.left }

/-- **No gap goes below zero**: no inner gap, and no outer gap further than the inner gap makes up
for. -/
structure NonNegative (s : State ι) : Prop where
  inner (v : ι) : 0 ≤ (s.effective v).inner
  outer (get : Accessor) (hget : get ≠ .inner) (v : ι) :
    0 ≤ get.get (s.effective v) + (s.effective v).inner

/-! ### The command -/

/-- What a mode makes of a value, and whether it resets the gaps of the workspaces. -/
def Mode.apply (pixels : ℤ) : Mode → ℤ → ℤ × Bool
  | .plus, current => (current + pixels, false)
  | .minus, current => (current - pixels, false)
  | .set, _ => (pixels, true)
  | .toggle, current => (if current = 0 then pixels else 0, true)

/-- `min_value`, in the workspace `w`. -/
def minValue (get : Accessor) (scope : Scope) (w : ι) (s : State ι) : ℤ :=
  if get = .inner then 0
  else
    match scope with
    | .all => -s.config.inner
    | .current => -s.config.inner - (s.workspaces w).inner

/-- The value before the change. -/
def currentValue (get : Accessor) (scope : Scope) (w : ι) (s : State ι) : ℤ :=
  match scope with
  | .all => get.get s.config
  | .current => get.get s.config + get.get (s.workspaces w)

/-- The body of the loop over all workspaces. -/
def fixWorkspace (get : Accessor) (reset : Bool) (inner value : ℤ) (g : Gaps) : Gaps :=
  if reset then get.set 0 g
  else
    let maxCompensate := if get = .inner then 0 else inner
    if get.get g + value + maxCompensate < 0 then get.set (-value - maxCompensate) g else g

/-- The value a change ends with. -/
def newValue (get : Accessor) (scope : Scope) (mode : Mode) (pixels : ℤ) (w : ι) (s : State ι) : ℤ :=
  let value := (mode.apply pixels (currentValue get scope w s)).1
  if value < minValue get scope w s then minValue get scope w s else value

variable [DecidableEq ι]

/-- `gaps_update`, with the focus on the workspace `w`. -/
def gapsUpdate (get : Accessor) (scope : Scope) (mode : Mode) (pixels : ℤ) (w : ι) (s : State ι) :
    State ι :=
  let value := newValue get scope mode pixels w s
  match scope with
  | .all =>
    let reset := (mode.apply pixels (currentValue get scope w s)).2
    { config := get.set value s.config
      workspaces := fun v => fixWorkspace get reset s.config.inner value (s.workspaces v) }
  | .current =>
    { s with
      workspaces := Function.update s.workspaces w
        (get.set (value - get.get s.config) (s.workspaces w)) }

/-- A change of several gaps, one after the other. -/
def updateEach (gets : List Accessor) (scope : Scope) (mode : Mode) (pixels : ℤ) (w : ι)
    (s : State ι) : State ι :=
  gets.foldl (fun s get => gapsUpdate get scope mode pixels w s) s

/-- The outer gaps, in the order in which `cmd_gaps` changes them. -/
def outerGaps : List Accessor := [.top, .bottom, .right, .left]

/-- The outer gaps a type stands for. -/
def GapsType.sides : GapsType → List Accessor
  | .inner => []
  | .outer => outerGaps
  | .vertical => [.top, .bottom]
  | .horizontal => [.right, .left]
  | .top => [.top]
  | .right => [.right]
  | .bottom => [.bottom]
  | .left => [.left]

/-- A `gaps` command, and the workspace that has the focus. -/
structure Command (ι : Type*) where
  type : GapsType
  scope : Scope
  mode : Mode
  pixels : ℤ
  workspace : ι

/-- `cmd_gaps`; after a change of the inner gap the outer gaps are all changed by nothing. -/
def cmdGaps (s : State ι) (c : Command ι) : State ι :=
  if c.type = .inner then
    updateEach outerGaps .all .plus 0 c.workspace
      (gapsUpdate .inner c.scope c.mode c.pixels c.workspace s)
  else updateEach c.type.sides c.scope c.mode c.pixels c.workspace s

/-! ### When a command is fine -/

/-- A change of an outer gap for all workspaces leaves the workspace `v` with enough: its own inner
gap is not below zero, or what it has of its own makes up for the value asked for. -/
def Compensated (get : Accessor) (mode : Mode) (pixels : ℤ) (s : State ι) (v : ι) : Prop :=
  let r := mode.apply pixels (get.get s.config)
  0 ≤ (s.workspaces v).inner ∨
    0 ≤ (if r.2 then 0 else get.get (s.workspaces v)) + max r.1 (-s.config.inner) + s.config.inner +
      (s.workspaces v).inner

/-- A change of the inner gap leaves enough for the outer gaps, where `inner` is the gap asked for:
on the workspace it is made on, or on all of them. -/
def InnerCompensated (c : Command ι) (s : State ι) : Prop :=
  let r := c.mode.apply c.pixels (currentValue .inner c.scope c.workspace s)
  let inner := max r.1 0
  match c.scope with
  | .current =>
    s.config.inner ≤ inner ∨
      ∀ get ∈ outerGaps,
        0 ≤ get.get (s.workspaces c.workspace) + max (get.get s.config) (-s.config.inner) + inner
  | .all =>
    r.2 = true ∨ inner = 0 ∨
      ∀ v, 0 ≤ (s.workspaces v).inner ∨
        ∀ get ∈ outerGaps,
          0 ≤ get.get (s.workspaces v) + max (get.get s.config) (-inner) + inner +
            max (s.workspaces v).inner (-inner)

/-- The condition under which a command keeps all gaps from going below zero. -/
def Command.Allowed (s : State ι) (c : Command ι) : Prop :=
  if c.type = .inner then InnerCompensated c s
  else c.scope = .all → ∀ get ∈ c.type.sides, ∀ v, Compensated get c.mode c.pixels s v

/-! ### Reading and writing -/

variable {get get' : Accessor} {gets : List Accessor} {scope : Scope} {mode : Mode} {pixels n : ℤ}
  {w v : ι} {s s' : State ι} {g : Gaps}

@[simp] theorem get_set_self : get.get (get.set n g) = n := by cases get <;> rfl

theorem get_set_of_ne (h : get' ≠ get) : get'.get (get.set n g) = get'.get g := by
  cases get <;> cases get' <;> first | rfl | exact absurd rfl h

omit [DecidableEq ι] in
theorem get_effective (get : Accessor) (s : State ι) (v : ι) :
    get.get (s.effective v) = get.get (s.workspaces v) + get.get s.config := by
  cases get <;> rfl

theorem mem_outerGaps : get ∈ outerGaps ↔ get ≠ .inner := by cases get <;> decide

theorem sides_subset (t : GapsType) : t.sides ⊆ outerGaps := by cases t <;> decide

theorem nodup_sides (t : GapsType) : t.sides.Nodup := by cases t <;> decide

/-! ### What a change touches -/

/-- The two states have the same gap of one kind, everywhere. -/
structure Agree (get : Accessor) (s s' : State ι) : Prop where
  config : get.get s.config = get.get s'.config
  workspaces (v : ι) : get.get (s.workspaces v) = get.get (s'.workspaces v)

omit [DecidableEq ι] in
theorem Agree.refl (get : Accessor) (s : State ι) : Agree get s s := ⟨rfl, fun _ => rfl⟩

omit [DecidableEq ι] in
theorem Agree.symm (h : Agree get s s') : Agree get s' s :=
  ⟨h.config.symm, fun v => (h.workspaces v).symm⟩

omit [DecidableEq ι] in
theorem Agree.trans {t : State ι} (h : Agree get s s') (h' : Agree get s' t) : Agree get s t :=
  ⟨h.config.trans h'.config, fun v => (h.workspaces v).trans (h'.workspaces v)⟩

theorem fixWorkspace_of_ne {reset : Bool} {inner value : ℤ} (h : get' ≠ get) :
    get'.get (fixWorkspace get reset inner value g) = get'.get g := by
  unfold fixWorkspace
  dsimp only
  split_ifs <;> first | rfl | exact get_set_of_ne h

/-- A change leaves the other gaps alone. -/
theorem agree_gapsUpdate (scope : Scope) (mode : Mode) (pixels : ℤ) (w : ι) (s : State ι)
    (h : get' ≠ get) : Agree get' (gapsUpdate get scope mode pixels w s) s := by
  cases scope with
  | all => exact ⟨get_set_of_ne h, fun v => fixWorkspace_of_ne h⟩
  | current =>
    refine ⟨rfl, fun v => ?_⟩
    by_cases hv : v = w
    · subst hv
      simp only [gapsUpdate, Function.update_self, get_set_of_ne h]
    · simp only [gapsUpdate, Function.update_of_ne hv]

variable (get) in
/-- The value of a gap for all workspaces, after a change of it for all. -/
theorem config_gapsUpdate_all :
    get.get (gapsUpdate get .all mode pixels w s).config = newValue get .all mode pixels w s :=
  get_set_self

variable (get) in
/-- The gap of a workspace after a change for all. -/
theorem workspaces_gapsUpdate_all : get.get ((gapsUpdate get .all mode pixels w s).workspaces v) =
    if (mode.apply pixels (get.get s.config)).2 then 0
    else max (get.get (s.workspaces v))
      (-newValue get .all mode pixels w s - if get = .inner then 0 else s.config.inner) := by
  have hfix : get.get ((gapsUpdate get .all mode pixels w s).workspaces v) =
      get.get (fixWorkspace get (mode.apply pixels (get.get s.config)).2 s.config.inner
        (newValue get .all mode pixels w s) (s.workspaces v)) := rfl
  rw [hfix, fixWorkspace]
  dsimp only
  generalize newValue get .all mode pixels w s = value
  by_cases hreset : (mode.apply pixels (get.get s.config)).2 = true
  · rw [if_pos hreset, if_pos hreset, get_set_self]
  · rw [if_neg hreset, if_neg hreset]
    generalize (if get = .inner then 0 else s.config.inner) = maxCompensate
    split_ifs
    · rw [get_set_self]
      omega
    · omega

theorem config_gapsUpdate_current :
    (gapsUpdate get .current mode pixels w s).config = s.config := rfl

variable (get) in
theorem workspaces_gapsUpdate_current :
    get.get ((gapsUpdate get .current mode pixels w s).workspaces v) =
      if v = w then newValue get .current mode pixels w s - get.get s.config
      else get.get (s.workspaces v) := by
  by_cases hv : v = w
  · subst hv
    simp only [gapsUpdate, Function.update_self, get_set_self, if_true]
  · simp only [gapsUpdate, Function.update_of_ne hv, if_neg hv]

omit [DecidableEq ι] in
theorem newValue_congr (h : Agree get s s') (hinner : Agree .inner s s') :
    newValue get scope mode pixels w s = newValue get scope mode pixels w s' := by
  have hconfig : s.config.inner = s'.config.inner := hinner.config
  have hworkspace : (s.workspaces w).inner = (s'.workspaces w).inner := hinner.workspaces w
  have hcurrent : currentValue get scope w s = currentValue get scope w s' := by
    cases scope <;> simp only [currentValue, h.config, h.workspaces w]
  have hmin : minValue get scope w s = minValue get scope w s' := by
    cases scope <;> simp only [minValue, hconfig, hworkspace]
  rw [newValue, newValue, hcurrent, hmin]

/-- A change of a gap depends on it and on the inner gap alone. -/
theorem gapsUpdate_congr (h : Agree get s s') (hinner : Agree .inner s s') :
    Agree get (gapsUpdate get scope mode pixels w s) (gapsUpdate get scope mode pixels w s') := by
  have hconfig : s.config.inner = s'.config.inner := hinner.config
  cases scope with
  | all =>
    constructor
    · rw [config_gapsUpdate_all, config_gapsUpdate_all, newValue_congr h hinner]
    · intro v
      rw [workspaces_gapsUpdate_all, workspaces_gapsUpdate_all, newValue_congr h hinner, h.config,
        h.workspaces v, hconfig]
  | current =>
    constructor
    · exact h.config
    · intro v
      rw [workspaces_gapsUpdate_current, workspaces_gapsUpdate_current, newValue_congr h hinner,
        h.config, h.workspaces v]

theorem agree_updateEach (h : get ∉ gets) :
    Agree get (updateEach gets scope mode pixels w s) s := by
  unfold updateEach
  induction gets generalizing s with
  | nil => exact .refl get s
  | cons e gets ih =>
    rw [List.mem_cons, not_or] at h
    exact (ih h.2).trans (agree_gapsUpdate scope mode pixels w s h.1)

/-- Of several changes each has its effect as if it were alone. -/
theorem updateEach_of_mem (h : get ∈ gets) (hnodup : gets.Nodup) (hinner : .inner ∉ gets) :
    Agree get (updateEach gets scope mode pixels w s) (gapsUpdate get scope mode pixels w s) := by
  induction gets generalizing s with
  | nil => cases h
  | cons e gets ih =>
    rw [List.mem_cons, not_or] at hinner
    rw [List.nodup_cons] at hnodup
    by_cases he : get = e
    · -- the changes behind it are of other gaps
      subst he
      exact agree_updateEach hnodup.1
    · have hmem : get ∈ gets := (List.mem_cons.mp h).resolve_left he
      refine (ih hmem hnodup.2 hinner.2).trans ?_
      exact gapsUpdate_congr (agree_gapsUpdate scope mode pixels w s he)
        (agree_gapsUpdate scope mode pixels w s hinner.1)

/-! ### One gap after a change -/

/-- The outer gap of one kind goes below zero nowhere. -/
def Holds (get : Accessor) (s : State ι) : Prop :=
  ∀ v, 0 ≤ get.get (s.effective v) + (s.effective v).inner

omit [DecidableEq ι] in
theorem holds_congr (h : Agree get s s') (hinner : Agree .inner s s') :
    Holds get s ↔ Holds get s' := by
  have heffective : ∀ get, Agree get s s' → ∀ v,
      get.get (s.effective v) = get.get (s'.effective v) := by
    intro get h v
    rw [get_effective, get_effective, h.config, h.workspaces v]
  have hvalue : ∀ v, (s.effective v).inner = (s'.effective v).inner := heffective .inner hinner
  simp only [Holds, heffective get h, hvalue]

/-- A change of an outer gap for all workspaces. -/
theorem holds_gapsUpdate_all (hget : get ≠ .inner) :
    Holds get (gapsUpdate get .all mode pixels w s) ↔ ∀ v, Compensated get mode pixels s v := by
  refine forall_congr' fun v => ?_
  have hinner : ((gapsUpdate get .all mode pixels w s).effective v).inner =
      (s.workspaces v).inner + s.config.inner := by
    have h := agree_gapsUpdate .all mode pixels w s (Ne.symm hget)
    have heq := get_effective .inner (gapsUpdate get .all mode pixels w s) v
    rw [h.config, h.workspaces v] at heq
    exact heq
  rw [hinner, get_effective, config_gapsUpdate_all, workspaces_gapsUpdate_all]
  simp only [Compensated, newValue, minValue, currentValue, if_neg hget]
  split_ifs <;> omega

/-- A change of an outer gap for one workspace is kept in bounds there. -/
theorem holds_gapsUpdate_current (hget : get ≠ .inner) (h : Holds get s) :
    Holds get (gapsUpdate get .current mode pixels w s) := by
  intro v
  have hv := h v
  have hinner := agree_gapsUpdate .current mode pixels w s (Ne.symm hget)
  have heq := get_effective .inner (gapsUpdate get .current mode pixels w s) v
  rw [hinner.config, hinner.workspaces v, ← get_effective] at heq
  change ((gapsUpdate get .current mode pixels w s).effective v).inner = (s.effective v).inner at heq
  rw [heq, get_effective, config_gapsUpdate_current, workspaces_gapsUpdate_current]
  by_cases hvw : v = w
  · subst hvw
    simp only [if_true, newValue, minValue, if_neg hget, State.effective]
    split_ifs <;> omega
  · rw [if_neg hvw, ← get_effective]
    exact hv

/-- Of several outer gaps that are changed for all workspaces, each by itself. -/
theorem holds_updateEach_all (hget : get ∈ gets) (hsub : gets ⊆ outerGaps) (hnodup : gets.Nodup) :
    Holds get (updateEach gets .all mode pixels w s) ↔ ∀ v, Compensated get mode pixels s v := by
  have hne := mem_outerGaps.mp (hsub hget)
  have hinner : .inner ∉ gets := fun h => mem_outerGaps.mp (hsub h) rfl
  rw [holds_congr (updateEach_of_mem hget hnodup hinner)
    ((agree_updateEach hinner).trans (agree_gapsUpdate .all mode pixels w s hne.symm).symm)]
  exact holds_gapsUpdate_all hne

/-- Outer gaps that are changed for one workspace stay in bounds. -/
theorem holds_updateEach_current (hsub : gets ⊆ outerGaps) (hget : get ≠ .inner) (h : Holds get s) :
    Holds get (updateEach gets .current mode pixels w s) := by
  unfold updateEach
  induction gets generalizing s with
  | nil => exact h
  | cons e gets ih =>
    have he := mem_outerGaps.mp (hsub (List.mem_cons_self ..))
    refine ih (fun x hx => hsub (List.mem_cons_of_mem _ hx)) ?_
    by_cases heq : get = e
    · subst heq
      exact holds_gapsUpdate_current hget h
    · exact (holds_congr (agree_gapsUpdate .current mode pixels w s heq)
        (agree_gapsUpdate .current mode pixels w s he.symm)).mpr h

/-! ### A command -/

omit [DecidableEq ι] in
theorem nonNegative_iff :
    NonNegative s ↔ (∀ v, 0 ≤ (s.effective v).inner) ∧ ∀ get ∈ outerGaps, Holds get s := by
  constructor
  · intro h
    exact ⟨h.inner, fun get hget v => h.outer get (mem_outerGaps.mp hget) v⟩
  · rintro ⟨hinner, houter⟩
    exact ⟨hinner, fun get hget v => houter get (mem_outerGaps.mpr hget) v⟩

omit [DecidableEq ι] in
theorem effective_inner_congr (h : Agree .inner s s') (v : ι) :
    (s.effective v).inner = (s'.effective v).inner := by
  have heq := get_effective .inner s v
  rw [h.config, h.workspaces v, ← get_effective] at heq
  exact heq

/-- A command on outer gaps. -/
theorem nonNegative_sides_iff (h : NonNegative s) (hsub : gets ⊆ outerGaps) (hnodup : gets.Nodup) :
    NonNegative (updateEach gets scope mode pixels w s) ↔
      (scope = .all → ∀ get ∈ gets, ∀ v, Compensated get mode pixels s v) := by
  have hnotMem : .inner ∉ gets := fun h => mem_outerGaps.mp (hsub h) rfl
  have hinner : ∀ v, 0 ≤ ((updateEach gets scope mode pixels w s).effective v).inner := by
    intro v
    rw [effective_inner_congr (agree_updateEach hnotMem)]
    exact h.inner v
  rw [nonNegative_iff, and_iff_right hinner]
  cases scope with
  | current =>
    refine iff_of_true (fun get hget => ?_) (fun hscope => by cases hscope)
    exact holds_updateEach_current hsub (mem_outerGaps.mp hget) ((nonNegative_iff.mp h).2 get hget)
  | all =>
    constructor
    · intro hall _ get hget
      exact (holds_updateEach_all hget hsub hnodup).mp (hall get (hsub hget))
    · intro hcomp get hget
      by_cases hmem : get ∈ gets
      · exact (holds_updateEach_all hmem hsub hnodup).mpr (hcomp rfl get hmem)
      · -- a gap that is not changed stays as it was
        exact (holds_congr (agree_updateEach hmem) (agree_updateEach hnotMem)).mpr
          ((nonNegative_iff.mp h).2 get hget)

/-- The inner gap after it was changed. -/
theorem inner_gapsUpdate (h : NonNegative s) (v : ι) :
    0 ≤ ((gapsUpdate .inner scope mode pixels w s).effective v).inner := by
  have hv := h.inner v
  have heq := get_effective .inner (gapsUpdate .inner scope mode pixels w s) v
  change ((gapsUpdate .inner scope mode pixels w s).effective v).inner = _ at heq
  rw [heq]
  cases scope with
  | all =>
    rw [config_gapsUpdate_all, workspaces_gapsUpdate_all]
    simp only [newValue, minValue, if_true]
    split_ifs <;> omega
  | current =>
    rw [config_gapsUpdate_current, workspaces_gapsUpdate_current]
    simp only [newValue, minValue, if_true, Accessor.get]
    simp only [State.effective] at hv
    split_ifs <;> omega

omit [DecidableEq ι] in
/-- The inner gap asked for, where it is not below zero. -/
theorem newValue_inner : newValue .inner scope mode pixels w s =
    max (mode.apply pixels (currentValue .inner scope w s)).1 0 := by
  simp only [newValue, minValue, if_true]
  split_ifs <;> omega

/-- After a change of the inner gap the outer gaps are as they were. -/
theorem compensated_gapsUpdate_inner (hget : get ∈ outerGaps) :
    Compensated get .plus 0 (gapsUpdate .inner scope mode pixels w s) v ↔
      0 ≤ ((gapsUpdate .inner scope mode pixels w s).workspaces v).inner ∨
        0 ≤ get.get (s.workspaces v) +
          max (get.get s.config) (-(gapsUpdate .inner scope mode pixels w s).config.inner) +
          (gapsUpdate .inner scope mode pixels w s).config.inner +
          ((gapsUpdate .inner scope mode pixels w s).workspaces v).inner := by
  have houter := agree_gapsUpdate scope mode pixels w s (mem_outerGaps.mp hget)
  simp only [Compensated, Mode.apply, houter.config, houter.workspaces v, Int.add_zero,
    Bool.false_eq_true, if_false]

/-- What a change of the inner gap of one workspace leaves for the outer gaps. -/
theorem innerCompensated_current (h : NonNegative s) :
    (∀ get ∈ outerGaps, ∀ v, Compensated get .plus 0
      (gapsUpdate .inner .current mode pixels w s) v) ↔
      s.config.inner ≤ newValue .inner .current mode pixels w s ∨
        ∀ get ∈ outerGaps, 0 ≤ get.get (s.workspaces w) +
          max (get.get s.config) (-s.config.inner) + newValue .inner .current mode pixels w s := by
  have hown : ∀ v, ((gapsUpdate .inner .current mode pixels w s).workspaces v).inner =
      if v = w then newValue .inner .current mode pixels w s - s.config.inner
      else (s.workspaces v).inner := fun v => workspaces_gapsUpdate_current .inner
  constructor
  · intro hall
    by_cases hle : s.config.inner ≤ newValue .inner .current mode pixels w s
    · exact .inl hle
    · refine .inr fun get hget => ?_
      have hw := (compensated_gapsUpdate_inner hget).mp (hall get hget w)
      rw [hown, if_pos rfl, config_gapsUpdate_current] at hw
      omega
  · intro hcond get hget v
    rw [compensated_gapsUpdate_inner hget, hown, config_gapsUpdate_current]
    by_cases hv : v = w
    · subst hv
      rw [if_pos rfl]
      rcases hcond with hle | hall
      · exact .inl (by omega)
      · have hside := hall get hget
        exact .inr (by omega)
    · -- nothing has changed on the other workspaces
      have hside := h.outer get (mem_outerGaps.mp hget) v
      rw [get_effective] at hside
      simp only [State.effective] at hside
      rw [if_neg hv]
      omega

/-- What a change of the inner gap for all workspaces leaves for the outer gaps. -/
theorem innerCompensated_all :
    (∀ get ∈ outerGaps, ∀ v, Compensated get .plus 0 (gapsUpdate .inner .all mode pixels w s) v) ↔
      (mode.apply pixels s.config.inner).2 = true ∨ newValue .inner .all mode pixels w s = 0 ∨
        ∀ v, 0 ≤ (s.workspaces v).inner ∨ ∀ get ∈ outerGaps,
          0 ≤ get.get (s.workspaces v) +
            max (get.get s.config) (-newValue .inner .all mode pixels w s) +
            newValue .inner .all mode pixels w s +
            max (s.workspaces v).inner (-newValue .inner .all mode pixels w s) := by
  have hpos : 0 ≤ newValue .inner .all mode pixels w s := by
    rw [newValue_inner]
    exact le_max_right _ _
  have hconfig : (gapsUpdate .inner .all mode pixels w s).config.inner =
      newValue .inner .all mode pixels w s := config_gapsUpdate_all .inner
  have hown : ∀ v, ((gapsUpdate .inner .all mode pixels w s).workspaces v).inner =
      if (mode.apply pixels s.config.inner).2 then 0
      else max (s.workspaces v).inner (-newValue .inner .all mode pixels w s - 0) :=
    fun v => workspaces_gapsUpdate_all .inner
  have hside : ∀ get ∈ outerGaps, ∀ v, Compensated get .plus 0
      (gapsUpdate .inner .all mode pixels w s) v ↔ _ :=
    fun get hget v => compensated_gapsUpdate_inner hget
  simp only [hconfig, hown] at hside
  generalize newValue .inner .all mode pixels w s = n at *
  by_cases hreset : (mode.apply pixels s.config.inner).2 = true
  · -- the workspaces have no inner gap of their own any more
    refine iff_of_true (fun get hget v => (hside get hget v).mpr (.inl ?_)) (.inl hreset)
    rw [if_pos hreset]
  · rw [or_iff_right hreset]
    simp only [if_neg hreset, Int.sub_zero] at hside
    constructor
    · intro hall
      by_cases hn : n = 0
      · exact .inl hn
      · refine .inr fun v => ?_
        by_cases hv : 0 ≤ (s.workspaces v).inner
        · exact .inl hv
        · refine .inr fun get hget => ?_
          have hone := (hside get hget v).mp (hall get hget v)
          omega
    · intro hcond get hget v
      rw [hside get hget v]
      rcases hcond with rfl | hcond
      · exact .inl (by omega)
      · rcases hcond v with hv | hall
        · exact .inl (by omega)
        · exact .inr (hall get hget)

/-- **A command** keeps all gaps from going below zero exactly under its condition. -/
theorem nonNegative_cmdGaps_iff (c : Command ι) (h : NonNegative s) :
    NonNegative (cmdGaps s c) ↔ c.Allowed s := by
  unfold cmdGaps Command.Allowed
  by_cases htype : c.type = .inner
  · rw [if_pos htype, if_pos htype, nonNegative_iff]
    have hnotMem : .inner ∉ outerGaps := by decide
    have hinner : ∀ v, 0 ≤ ((updateEach outerGaps .all .plus 0 c.workspace
        (gapsUpdate .inner c.scope c.mode c.pixels c.workspace s)).effective v).inner := by
      intro v
      rw [effective_inner_congr (agree_updateEach hnotMem)]
      exact inner_gapsUpdate h v
    rw [and_iff_right hinner]
    -- each outer gap is changed by nothing, for all workspaces
    have hsides : ∀ get ∈ outerGaps,
        Holds get (updateEach outerGaps .all .plus 0 c.workspace
          (gapsUpdate .inner c.scope c.mode c.pixels c.workspace s)) ↔
        ∀ v, Compensated get .plus 0
          (gapsUpdate .inner c.scope c.mode c.pixels c.workspace s) v :=
      fun get hget => holds_updateEach_all hget (List.Subset.refl outerGaps) (by decide)
    rw [forall₂_congr hsides]
    obtain ⟨type, scope, mode, pixels, w⟩ := c
    unfold InnerCompensated
    dsimp only
    cases scope with
    | current =>
      rw [innerCompensated_current h, newValue_inner]
    | all =>
      rw [innerCompensated_all, newValue_inner]
      exact Iff.rfl
  · rw [if_neg htype, if_neg htype]
    exact nonNegative_sides_iff h (sides_subset c.type) (nodup_sides c.type)

/-- An inner gap of 10 that the one workspace takes back, and outer gaps that make up for it. -/
def takenBack : State Unit where
  config := { inner := 10 }
  workspaces _ := {}

theorem nonNegative_takenBack : NonNegative takenBack := by
  constructor
  · rintro ⟨⟩
    decide
  · rintro get _ ⟨⟩
    cases get <;> decide

end I3.GapsCommand
