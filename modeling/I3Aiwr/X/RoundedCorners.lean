import Mathlib
import I3Aiwr.Lib.Runs

/-!
# Rounded corners and the shapes of the clients

The rounded corners of `src/src/rounded_corners.c` are shapes that i3 gives to its frames and to the
windows of the clients, which may have shapes of their own. Which shapes are its own i3 keeps in a table
by the windows' ids. The X server has the bounding shape of each window with the party that set it last,
and sends i3 a ShapeNotify event for each change, in order; `handle_event` ignores those of the windows
that i3 has shaped, and keeps the others in `con->window->shaped`. A window is closed with
`tree_close_internal`, and its id may come back. The server has the SHAPE extension.

## Main definitions

* `State`, `State.apply`, `State.remove`, `State.forget`: the table and what is done with it
* `Input`, `step`: the clients, the events and the containers
* `State.Untaken`: no shape of a client is taken over
* `Input.Enabled`, `Input.Allowed`

## Main results

* `inv_apply`, `inv_remove`, `inv_shapeNotify`: what each step keeps
* `untaken_run`: no shape of a client is taken over in a run of allowed inputs
* `not_untaken_owned`: a client that sets its shape while its corners are rounded
-/

namespace I3

namespace RoundedCorners

/-- The party that has set a shape. -/
inductive Party
  | client
  | i3
  deriving DecidableEq, Repr

/-- `rounded_corners_config_t` -/
structure Settings where
  enabled : Bool := true
  radius : ℤ := 10
  applyToFloating : Bool := true
  applyToTiling : Bool := true
  deriving DecidableEq, Repr

structure Rect where
  x : ℕ := 0
  y : ℕ := 0
  width : ℕ
  height : ℕ
  deriving DecidableEq, Repr

/-- What is read of a container. The window is by its id. -/
structure Con where
  window : Option ℕ
  /-- `XCB_NONE` is 0. -/
  frame : ℕ
  rect : Rect
  windowRect : Rect
  inDockarea : Bool := false
  fullscreen : Bool := false
  floating : Bool := false
  deriving DecidableEq, Repr

/-- `rc_entry_t`, but for the client. -/
structure Entry where
  frame : ℕ := 0
  fw : ℕ := 0
  fh : ℕ := 0
  ww : ℕ := 0
  wh : ℕ := 0
  radius : ℤ := 0
  inner : ℤ := 0
  shapedByUs : Bool := false
  propChecked : Bool := false
  propOwned : Bool := false
  deriving DecidableEq, Repr

/-- The X server and i3. -/
structure State where
  /-- The bounding shapes that are set, by the party. -/
  shape : ℕ → Option Party := fun _ => none
  /-- `_I3_AIWR_ROUNDED` is set on the window. -/
  prop : ℕ → Bool := fun _ => false
  /-- The ShapeNotify events that i3 has not handled yet, with `shaped`. -/
  queue : List (ℕ × Bool) := []
  /-- `con->window->shaped` of the windows that are managed. -/
  windows : ℕ → Option Bool := fun _ => none
  /-- The entries of the table by their clients. -/
  entries : ℕ → Option Entry := fun _ => none
  settings : Settings := {}
  /-- A shape of a client was replaced after i3 was notified of it. -/
  clobbered : Bool := false

/-! ### The spans -/

/-- `(int)(0.5 + sqrt((double)n))` -/
def roundSqrt (n : ℕ) : ℕ := (Nat.sqrt (4 * n) + 1) / 2

/-- The span of a row that is `dy` below the centre of its corners, if it is not empty. -/
def span (width radius y dy : ℕ) : Option Rect :=
  let dx := min (roundSqrt (radius * radius - dy * dy)) radius
  if width ≤ 2 * (radius - dx) then none
  else some { x := radius - dx, y := y, width := width - 2 * (radius - dx), height := 1 }

/-- `generate_rounded_rectangles` -/
def generateRoundedRectangles (maxRects width height radius : ℕ) : List Rect :=
  if width = 0 ∨ height = 0 ∨ maxRects = 0 then []
  else if radius = 0 then [{ width := width, height := height }]
  else
    let radius := min (min radius (width / 2)) (height / 2)
    let top := (List.range radius).filterMap fun y => span width radius y (radius - y)
    let middle :=
      if 2 * radius < height then [{ y := radius, width := width, height := height - 2 * radius }] else []
    let bottom := (List.range radius).filterMap fun y => span width radius (height - radius + y) (y + 1)
    (top ++ middle ++ bottom).take maxRects

/-- `(int)n` of a 32 bit number without a sign. -/
def toInt (n : ℕ) : ℤ := (n : ℤ).bmod (2 ^ 32)

/-- `rounded_corners_inner_radius` -/
def innerRadius (con : Con) (radius : ℤ) : ℤ :=
  let w := con.windowRect
  let sides := [toInt w.x, toInt w.y,
    toInt con.rect.width - toInt ((w.x + w.width) % 2 ^ 32),
    toInt con.rect.height - toInt ((w.y + w.height) % 2 ^ 32)]
  let bw := ((sides.filter (0 < ·)).min?).getD 0
  max (radius - bw) 0

namespace State

variable (s : State)

/-! ### The X server -/

/-- A shape is set or removed; i3 is notified of the windows that it manages. -/
def setShape (w : ℕ) (shape : Option Party) : State :=
  { s with
    shape := Function.update s.shape w shape
    queue := if (s.windows w).isSome then s.queue ++ [(w, shape.isSome)] else s.queue }

/-- The notifications of a window that are under way, the last one last. -/
def pending (w : ℕ) : List Bool := s.queue.filterMap fun n => if n.1 = w then some n.2 else none

/-- A shape of a client, of which i3 has been notified. -/
def Notified (w : ℕ) : Prop := s.shape w = some .client ∧ s.pending w = []

instance (w : ℕ) : Decidable (s.Notified w) :=
  inferInstanceAs (Decidable (s.shape w = some .client ∧ s.pending w = []))

/-! ### The table -/

/-- `rc_get` -/
def get (client : ℕ) : State :=
  if (s.entries client).isSome then s
  else { s with entries := Function.update s.entries client (some {}) }

/-- `rounded_corners_owns_window` -/
def owns (win : ℕ) : Bool := (s.entries win).any Entry.shapedByUs

/-- `rc_prop_owned`, with the entry of the client. -/
def propOwned (client : ℕ) (e : Entry) : State × Bool :=
  if e.propChecked then (s, e.propOwned)
  else ({ s with
      entries := Function.update s.entries client
        (some { e with propChecked := true, propOwned := s.prop client }) },
    s.prop client)

/-- `rounded_corners_should_apply` -/
def shouldApply (con : Con) : State × Bool :=
  match con.window with
  | none => (s, false)
  | some w =>
    if con.frame = 0 then (s, false)
    else if !s.settings.enabled then (s, false)
    else if s.settings.radius ≤ 0 then (s, false)
    else if con.inDockarea then (s, false)
    else if con.fullscreen then (s, false)
    else if con.floating && !s.settings.applyToFloating then (s, false)
    else if !con.floating && !s.settings.applyToTiling then (s, false)
    else if (s.windows w).getD false then
      if s.owns w then (s, true)
      else (s.get w).propOwned w (((s.get w).entries w).getD {})
    else (s, true)

/-- `rounded_corners_radius_for` -/
def radiusFor (con : Con) : State × ℤ :=
  match s.shouldApply con with
  | (s, false) => (s, 0)
  | (s, true) => (s, min s.settings.radius ((toInt (min con.rect.width con.rect.height)).tdiv 2))

/-- `rounded_corners_remove` -/
def remove (con : Con) : State :=
  match con.window with
  | none => s
  | some w => match s.entries w with
    | none => s
    | some e =>
      if e.shapedByUs then
        let s := s.setShape w none
        { s with
          prop := Function.update s.prop w false
          entries := Function.update s.entries w
            (some { e with shapedByUs := false, propOwned := false }) }
      else s

/-- The request of `rounded_corners_apply` for the shape of the client. -/
def requestShape (w : ℕ) (shape : Option Party) : State :=
  { s.setShape w shape with clobbered := s.clobbered || decide (s.Notified w) }

/-- The shape of the client: its corners, if they are within the frame's. -/
def shapeClient (w ww wh : ℕ) (inner : ℤ) : State :=
  if 0 < inner ∧ 0 < ww ∧ 0 < wh then
    if generateRoundedRectangles (2 * inner.toNat + 10) ww wh inner.toNat = [] then s
    else s.requestShape w (some .i3)
  else s.requestShape w none

/-- What `rounded_corners_apply` does once the radius is known. -/
def applyRadius (con : Con) (w : ℕ) (radius : ℤ) : State :=
  let inner := innerRadius con radius
  let fw := con.rect.width % 2 ^ 16
  let fh := con.rect.height % 2 ^ 16
  let ww := con.windowRect.width % 2 ^ 16
  let wh := con.windowRect.height % 2 ^ 16
  if fw = 0 ∨ fh = 0 ∨ radius ≤ 0 then s
  else
    let s := s.get w
    let e := (s.entries w).getD {}
    if e.shapedByUs ∧ e.frame = con.frame ∧ e.fw = fw ∧ e.fh = fh ∧ e.ww = ww ∧ e.wh = wh ∧
        e.radius = radius ∧ e.inner = inner then s
    else
      let s := s.shapeClient w ww wh inner
      { s with
        prop := if e.propOwned then s.prop else Function.update s.prop w true
        entries := Function.update s.entries w (some
          { frame := con.frame, fw := fw, fh := fh, ww := ww, wh := wh, radius := radius, inner := inner
            shapedByUs := true
            propChecked := e.propChecked || !e.propOwned
            propOwned := true }) }

/-- `rounded_corners_apply` -/
def apply (con : Con) : State :=
  match con.window with
  | none => s
  | some w => match s.shouldApply con with
    | (s, false) => s.remove con
    | (s, true) => match s.radiusFor con with
      | (s, radius) => s.applyRadius con w radius

/-- `rounded_corners_forget`, of the window that the container has. -/
def forget (window : Option ℕ) : State :=
  match window with
  | none => s
  | some w => match s.entries w with
    | none => s
    | some e =>
      let s := if e.shapedByUs then
          let s := s.setShape w none
          { s with prop := Function.update s.prop w false }
        else s
      { s with entries := Function.update s.entries w none }

/-! ### Windows and events -/

/-- `x_set_shape`, of the bounding shape. -/
def xSetShape (w : ℕ) (enable : Bool) : State :=
  { s with windows := Function.update s.windows w (some enable) }

/-- The ShapeNotify event in `handle_event`. -/
def shapeNotify (w : ℕ) (shaped : Bool) : State :=
  if s.owns w then s
  else if (s.windows w).isNone then s
  else s.xSetShape w shaped

/-- `manage_window`: the server is asked for the shape. -/
def manage (w : ℕ) : State :=
  { s with windows := Function.update s.windows w (some (s.shape w).isSome) }

/-- `tree_close_internal`: the window is taken from the container, and then `x_con_kill` forgets the
corners of the container. -/
def close (w : ℕ) : State := { s with windows := Function.update s.windows w none }.forget none

/-- The id is that of another window. -/
def create (w : ℕ) : State :=
  { s with shape := Function.update s.shape w none, prop := Function.update s.prop w false }

end State

/-- What the clients, i3 and the user do. -/
inductive Input
  | clientShape (w : ℕ) (set : Bool)
  | create (w : ℕ)
  | manage (w : ℕ)
  | close (w : ℕ)
  | apply (con : Con)
  | remove (con : Con)
  | deliver
  | configure (settings : Settings)
  deriving DecidableEq, Repr

def step (s : State) : Input → State
  | .clientShape w set => s.setShape w (if set then some .client else none)
  | .create w => s.create w
  | .manage w => s.manage w
  | .close w => s.close w
  | .apply con => s.apply con
  | .remove con => s.remove con
  | .deliver => match s.queue with
    | [] => s
    | (w, shaped) :: queue => { s with queue := queue }.shapeNotify w shaped
  | .configure settings => { s with settings := settings }

/-- Windows are managed once at a time; the window of a container is managed, and the id of a window that
is managed does not come back. -/
def Input.Enabled (s : State) : Input → Prop
  | .create w => s.windows w = none
  | .manage w => s.windows w = none
  | .close w => s.windows w ≠ none
  | .apply con => ∀ w ∈ con.window, s.windows w ≠ none
  | .remove con => ∀ w ∈ con.window, s.windows w ≠ none
  | _ => True

/-- No shape of a client is taken over: the entries are those of windows that are managed, no shape was
replaced after i3 was notified of it, and without notifications under way a window is shaped where its
client has set its shape. -/
structure State.Untaken (s : State) : Prop where
  managed : ∀ w, s.entries w ≠ none → s.windows w ≠ none
  kept : s.clobbered = false
  shaped : s.queue = [] → ∀ w, ∀ shaped ∈ s.windows w, shaped = true ↔ s.shape w = some .client

/-- What the inputs are to keep to: the windows that are closed have no entry in the table, the last
notification under way of a window that is managed is right, and i3 has not shaped a window when it is
notified of the shape that its client has given it. -/
def Input.Allowed (s : State) : Input → Prop
  | .close w => s.entries w = none
  | .manage w => ∀ shaped ∈ (s.pending w).getLast?, shaped = (s.shape w).isSome
  | .deliver => ∀ n ∈ s.queue.head?, s.owns n.1 = true → s.shape n.1 = some .client →
    (s.pending n.1).tail ≠ []
  | _ => True

instance (s : State) : DecidablePred (Input.Enabled s)
  | .create w => inferInstanceAs (Decidable (s.windows w = none))
  | .manage w => inferInstanceAs (Decidable (s.windows w = none))
  | .close w => inferInstanceAs (Decidable (s.windows w ≠ none))
  | .apply con => inferInstanceAs (Decidable (∀ w ∈ con.window, s.windows w ≠ none))
  | .remove con => inferInstanceAs (Decidable (∀ w ∈ con.window, s.windows w ≠ none))
  | .clientShape _ _ => inferInstanceAs (Decidable True)
  | .deliver => inferInstanceAs (Decidable True)
  | .configure _ => inferInstanceAs (Decidable True)

instance (s : State) : DecidablePred (Input.Allowed s)
  | .close w => inferInstanceAs (Decidable (s.entries w = none))
  | .manage w => inferInstanceAs (Decidable (∀ shaped ∈ (s.pending w).getLast?, shaped = (s.shape w).isSome))
  | .deliver => inferInstanceAs (Decidable (∀ n ∈ s.queue.head?, s.owns n.1 = true →
    s.shape n.1 = some .client → (s.pending n.1).tail ≠ []))
  | .create _ => inferInstanceAs (Decidable True)
  | .apply _ => inferInstanceAs (Decidable True)
  | .remove _ => inferInstanceAs (Decidable True)
  | .clientShape _ _ => inferInstanceAs (Decidable True)
  | .configure _ => inferInstanceAs (Decidable True)

/-! ### Notifications -/

variable {s s' : State} {w v : ℕ} {e : Entry} {con : Con}

@[simp] theorem pending_setShape_self (shape : Option Party) (h : (s.windows w).isSome) :
    (s.setShape w shape).pending w = s.pending w ++ [shape.isSome] := by
  simp [State.pending, State.setShape, h]

theorem pending_setShape_unmanaged (shape : Option Party) (h : s.windows w = none) (v : ℕ) :
    (s.setShape w shape).pending v = s.pending v := by
  simp [State.pending, State.setShape, h]

theorem pending_setShape_of_ne (shape : Option Party) (h : v ≠ w) :
    (s.setShape w shape).pending v = s.pending v := by
  unfold State.pending State.setShape
  split
  · simp [Ne.symm h]
  · rfl

/-! ### What a window keeps -/

/-- Of a window: without corners that are rounded, its flag will be right when i3 has been notified of
all; with rounded corners it is not shaped, unless by its client, and then a notification is under way. -/
structure WindowInv (s : State) (w : ℕ) : Prop where
  managed : s.entries w ≠ none → s.windows w ≠ none
  owned : ∀ e ∈ s.entries w, e.propOwned = e.shapedByUs
  prop : s.prop w = s.owns w
  unowned : s.owns w = false → s.shape w ≠ some .i3
  plain : s.owns w = false → ∀ shaped ∈ s.windows w,
    ((s.pending w).getLast?.getD shaped = true ↔ s.shape w = some .client)
  rounded : s.owns w = true → s.windows w = some false ∧ (s.shape w = some .client → s.pending w ≠ [])

structure Inv (s : State) : Prop where
  windows : ∀ w, WindowInv s w
  kept : s.clobbered = false

theorem pending_of_queue (h : s.queue = []) (w : ℕ) : s.pending w = [] := by
  rw [State.pending, h]
  rfl

theorem Inv.untaken (h : Inv s) : s.Untaken where
  managed w := (h.windows w).managed
  kept := h.kept
  shaped hqueue w shaped hw := by
    have hpending : s.pending w = [] := pending_of_queue hqueue w
    cases howned : s.owns w with
    | false =>
      have hplain := (h.windows w).plain howned shaped hw
      rwa [hpending] at hplain
    | true =>
      obtain ⟨hfalse, hclient⟩ := (h.windows w).rounded howned
      have hshaped : shaped = false := Option.some_inj.mp ((Option.mem_def.mp hw).symm.trans hfalse)
      rw [hshaped]
      exact ⟨(nomatch ·), fun hc => absurd hpending (hclient hc)⟩

/-- What is not about a window is kept. -/
theorem WindowInv.congr (h : WindowInv s w) (hshape : s'.shape w = s.shape w) (hprop : s'.prop w = s.prop w)
    (hpending : s'.pending w = s.pending w) (hwindows : s'.windows w = s.windows w)
    (hentries : s'.entries w = s.entries w) : WindowInv s' w := by
  have howns : s'.owns w = s.owns w := by rw [State.owns, State.owns, hentries]
  constructor
  · rw [hentries, hwindows]
    exact h.managed
  · rw [hentries]
    exact h.owned
  · rw [hprop, howns]
    exact h.prop
  · rw [howns, hshape]
    exact h.unowned
  · rw [howns, hwindows, hpending, hshape]
    exact h.plain
  · rw [howns, hwindows, hpending, hshape]
    exact h.rounded

theorem owns_of_entry (h : s.entries w = some e) : s.owns w = e.shapedByUs := by
  rw [State.owns, h]
  rfl

theorem owns_of_none (h : s.entries w = none) : s.owns w = false := by
  rw [State.owns, h]
  rfl

/-- One window is another, and of the others nothing changes. -/
theorem Inv.of_window (h : Inv s) (hkept : s'.clobbered = false) (hw : WindowInv s' w)
    (hshape : ∀ v, v ≠ w → s'.shape v = s.shape v) (hprop : ∀ v, v ≠ w → s'.prop v = s.prop v)
    (hpending : ∀ v, v ≠ w → s'.pending v = s.pending v)
    (hwindows : ∀ v, v ≠ w → s'.windows v = s.windows v)
    (hentries : ∀ v, v ≠ w → s'.entries v = s.entries v) : Inv s' where
  windows v := by
    by_cases hv : v = w
    · exact hv ▸ hw
    · exact (h.windows v).congr (hshape v hv) (hprop v hv) (hpending v hv) (hwindows v hv)
        (hentries v hv)
  kept := hkept

/-! ### The clients -/

theorem inv_clientShape (h : Inv s) {shape : Option Party} (hi3 : shape ≠ some .i3) :
    Inv (s.setShape w shape) := by
  have hset : (s.setShape w shape).shape w = shape := Function.update_self _ _ _
  refine h.of_window (w := w) h.kept ?_ (fun v hv => Function.update_of_ne hv _ _) (fun _ _ => rfl)
    (fun v hv => pending_setShape_of_ne shape hv) (fun _ _ => rfl) (fun _ _ => rfl)
  have hinv := h.windows w
  refine ⟨hinv.managed, hinv.owned, hinv.prop, fun _ => by rwa [hset], fun _ shaped hw => ?_, fun howned => ?_⟩
  · have hmanaged : (s.windows w).isSome := by
      rw [Option.mem_def.mp (show shaped ∈ s.windows w from hw)]
      rfl
    rw [pending_setShape_self shape hmanaged, hset]
    cases shape with
    | none => simp
    | some party => cases party <;> simp_all
  · obtain ⟨hfalse, -⟩ := hinv.rounded howned
    refine ⟨hfalse, fun _ => ?_⟩
    rw [pending_setShape_self shape (by rw [hfalse]; rfl)]
    exact List.append_ne_nil_of_right_ne_nil _ (List.cons_ne_nil _ _)

theorem inv_create (h : Inv s) (hw : s.windows w = none) : Inv (s.create w) := by
  have hnone : s.entries w = none := by
    by_contra hsome
    exact (h.windows w).managed hsome hw
  refine h.of_window (w := w) h.kept ?_ (fun v hv => Function.update_of_ne hv _ _)
    (fun v hv => Function.update_of_ne hv _ _) (fun _ _ => rfl) (fun _ _ => rfl) (fun _ _ => rfl)
  have howns : (s.create w).owns w = false := owns_of_none hnone
  refine ⟨fun hsome => absurd hnone hsome, fun e he => ?_, ?_, fun _ => ?_, fun _ shaped hs => ?_, fun ho => ?_⟩
  · rw [show (s.create w).entries w = none from hnone] at he
    cases he
  · rw [howns]
    exact Function.update_self _ _ _
  · rw [show (s.create w).shape w = none from Function.update_self _ _ _]
    exact (nomatch ·)
  · rw [show (s.create w).windows w = none from hw] at hs
    cases hs
  · exact absurd (howns.symm.trans ho) Bool.false_ne_true

theorem inv_manage (h : Inv s) (hw : s.windows w = none)
    (hallowed : ∀ shaped ∈ (s.pending w).getLast?, shaped = (s.shape w).isSome) : Inv (s.manage w) := by
  have hnone : s.entries w = none := by
    by_contra hsome
    exact (h.windows w).managed hsome hw
  have howns : (s.manage w).owns w = false := owns_of_none hnone
  have hunowned : s.shape w ≠ some .i3 := (h.windows w).unowned (owns_of_none hnone)
  refine h.of_window (w := w) h.kept ?_ (fun _ _ => rfl) (fun _ _ => rfl) (fun _ _ => rfl)
    (fun v hv => Function.update_of_ne hv _ _) (fun _ _ => rfl)
  refine ⟨fun hsome => absurd hnone hsome, (h.windows w).owned, (h.windows w).prop, fun _ => hunowned,
    fun _ shaped hs => ?_, fun ho => absurd (howns.symm.trans ho) Bool.false_ne_true⟩
  -- the flag is that of the shape, and so is the last notification
  have hshaped : shaped = (s.shape w).isSome := by
    rw [show (s.manage w).windows w = some (s.shape w).isSome from Function.update_self _ _ _] at hs
    exact (Option.some_inj.mp hs).symm
  have hlast : (s.pending w).getLast?.getD shaped = (s.shape w).isSome := by
    cases hpending : (s.pending w).getLast? with
    | none => exact hshaped
    | some b => exact hallowed b hpending
  show (s.pending w).getLast?.getD shaped = true ↔ s.shape w = some .client
  rw [hlast]
  cases hshape : s.shape w with
  | none => simp
  | some party =>
    cases party with
    | client => simp
    | i3 => exact absurd hshape hunowned

theorem inv_close (h : Inv s) (hallowed : s.entries w = none) : Inv (s.close w) := by
  have howns : (s.close w).owns w = false := owns_of_none hallowed
  refine h.of_window (w := w) h.kept ?_ (fun _ _ => rfl) (fun _ _ => rfl) (fun _ _ => rfl)
    (fun v hv => Function.update_of_ne hv _ _) (fun _ _ => rfl)
  refine ⟨fun hsome => absurd hallowed hsome, (h.windows w).owned, (h.windows w).prop, (h.windows w).unowned,
    fun _ shaped hs => ?_, fun ho => absurd (howns.symm.trans ho) Bool.false_ne_true⟩
  rw [show (s.close w).windows w = none from Function.update_self _ _ _] at hs
  cases hs

/-! ### Events -/

/-- The oldest notification is handled: a window that i3 has shaped ignores it. -/
theorem inv_shapeNotify {shaped : Bool} {queue : List (ℕ × Bool)} (h : Inv s)
    (hqueue : s.queue = (w, shaped) :: queue)
    (hallowed : s.owns w = true → s.shape w = some .client → (s.pending w).tail ≠ []) :
    Inv ({ s with queue := queue }.shapeNotify w shaped) := by
  have hself : s.pending w = shaped :: { s with queue := queue }.pending w := by
    simp [State.pending, hqueue]
  have hother : ∀ v, v ≠ w → { s with queue := queue }.pending v = s.pending v := by
    intro v hv
    simp [State.pending, hqueue, Ne.symm hv]
  have hinv := h.windows w
  unfold State.shapeNotify
  split
  · next howns =>
    refine h.of_window (w := w) h.kept ?_ (fun _ _ => rfl) (fun _ _ => rfl) hother (fun _ _ => rfl)
      (fun _ _ => rfl)
    refine ⟨hinv.managed, hinv.owned, hinv.prop, hinv.unowned, fun ho => ?_, fun _ => ?_⟩
    · exact absurd (ho.symm.trans howns) Bool.false_ne_true
    · refine ⟨(hinv.rounded howns).1, fun hclient => ?_⟩
      have htail := hallowed howns hclient
      rwa [hself] at htail
  · next howns =>
    have hfalse : s.owns w = false := Bool.eq_false_iff.mpr howns
    have hrounded {P : Prop} (ho : s.owns w = true) : P := absurd ho howns
    split
    · next hwindow =>
      have hnone : s.windows w = none := Option.isNone_iff_eq_none.mp hwindow
      refine h.of_window (w := w) h.kept ?_ (fun _ _ => rfl) (fun _ _ => rfl) hother (fun _ _ => rfl)
        (fun _ _ => rfl)
      refine ⟨hinv.managed, hinv.owned, hinv.prop, hinv.unowned, fun _ b hb => ?_, fun ho => hrounded ho⟩
      exact absurd (hnone.symm.trans (Option.mem_def.mp hb)) (Option.some_ne_none b).symm
    · next hwindow =>
      obtain ⟨old, hold⟩ := Option.ne_none_iff_exists'.mp fun hnone =>
        hwindow (Option.isNone_iff_eq_none.mpr hnone)
      have hset : ({ s with queue := queue }.xSetShape w shaped).windows w = some shaped :=
        Function.update_self _ _ _
      refine h.of_window (w := w) h.kept ?_ (fun _ _ => rfl) (fun _ _ => rfl) hother
        (fun v hv => Function.update_of_ne hv _ _) (fun _ _ => rfl)
      refine ⟨fun _ => ?_, hinv.owned, hinv.prop, hinv.unowned, fun _ b hb => ?_, fun ho => hrounded ho⟩
      · rw [hset]
        exact Option.some_ne_none shaped
      · -- what the flag comes to is as before
        have hplain := hinv.plain hfalse old hold
        rw [hself, List.getLast?_cons, Option.getD_some] at hplain
        rw [hset] at hb
        rw [← Option.some_inj.mp hb]
        exact hplain

/-! ### The corners -/

/-- An entry that says of its window what the table said before. -/
theorem inv_entry (h : Inv s) (hw : s.windows w ≠ none) (hshaped : e.shapedByUs = s.owns w)
    (hprop : e.propOwned = e.shapedByUs) :
    Inv { s with entries := Function.update s.entries w (some e) } := by
  have hentry : (Function.update s.entries w (some e)) w = some e := Function.update_self _ _ _
  have howns : { s with entries := Function.update s.entries w (some e) }.owns w = s.owns w :=
    (owns_of_entry hentry).trans hshaped
  refine h.of_window (w := w) h.kept ?_ (fun _ _ => rfl) (fun _ _ => rfl) (fun _ _ => rfl)
    (fun _ _ => rfl) (fun v hv => Function.update_of_ne hv _ _)
  have hinv := h.windows w
  refine ⟨fun _ => hw, fun e' he' => ?_, ?_, ?_, ?_, ?_⟩
  · rw [← Option.some_inj.mp (hentry.symm.trans he')]
    exact hprop
  · rw [howns]
    exact hinv.prop
  · rw [howns]
    exact hinv.unowned
  · rw [howns]
    exact hinv.plain
  · rw [howns]
    exact hinv.rounded

theorem inv_get (h : Inv s) (hw : s.windows w ≠ none) : Inv (s.get w) := by
  unfold State.get
  split
  · exact h
  · next hnone => exact inv_entry h hw (owns_of_none (Option.not_isSome_iff_eq_none.mp hnone)).symm rfl

theorem get_entries (w : ℕ) : (s.get w).entries w = some ((s.entries w).getD {}) := by
  unfold State.get
  split
  · next hsome =>
    obtain ⟨e, he⟩ := Option.isSome_iff_exists.mp hsome
    rw [he, Option.getD_some]
  · next hnone =>
    rw [Option.not_isSome_iff_eq_none.mp hnone]
    exact Function.update_self _ _ _

@[simp] theorem get_windows (w : ℕ) : (s.get w).windows = s.windows := by
  unfold State.get
  split <;> rfl

@[simp] theorem get_owns (w : ℕ) : (s.get w).owns w = s.owns w := by
  rw [owns_of_entry (get_entries w), State.owns]
  cases s.entries w <;> rfl

/-- The property says whether i3 has shaped the window. -/
theorem inv_propOwned (h : Inv s) (hw : s.windows w ≠ none) (he : s.entries w = some e) :
    Inv (s.propOwned w e).1 ∧ (s.propOwned w e).1.windows = s.windows ∧
      (s.propOwned w e).2 = s.owns w := by
  have hinv := h.windows w
  have hshaped : s.owns w = e.shapedByUs := owns_of_entry he
  unfold State.propOwned
  split
  · exact ⟨h, rfl, (hinv.owned e he).trans hshaped.symm⟩
  · refine ⟨inv_entry h hw hshaped.symm ?_, rfl, hinv.prop⟩
    exact hinv.prop.trans hshaped

/-- The corners are rounded only of windows that are not shaped. -/
theorem inv_shouldApply (h : Inv s) (hcon : ∀ w ∈ con.window, s.windows w ≠ none) :
    Inv (s.shouldApply con).1 ∧ (s.shouldApply con).1.windows = s.windows ∧
      ((s.shouldApply con).2 = true → ∀ w ∈ con.window, s.windows w = some false) := by
  have hfalse : Inv s ∧ s.windows = s.windows ∧
      (false = true → ∀ w ∈ con.window, s.windows w = some false) := ⟨h, rfl, (nomatch ·)⟩
  unfold State.shouldApply
  split
  · exact hfalse
  next w hwindow =>
  have hmanaged : s.windows w ≠ none := hcon w hwindow
  have htrue (hw : s.windows w = some false) : Inv s ∧ s.windows = s.windows ∧
      (true = true → ∀ w ∈ con.window, s.windows w = some false) := by
    refine ⟨h, rfl, fun _ v hv => ?_⟩
    rwa [← Option.some_inj.mp (hwindow.symm.trans hv)]
  repeat' split
  all_goals try exact hfalse
  · next howns => exact htrue ((h.windows w).rounded howns).1
  · next howns =>
    obtain ⟨hinv, hwindows, hresult⟩ := inv_propOwned (inv_get h hmanaged)
      (by rwa [get_windows]) (get_entries (s := s) w)
    rw [get_entries, Option.getD_some]
    refine ⟨hinv, hwindows.trans (get_windows w), fun ht => ?_⟩
    -- the property is as the table has it
    rw [hresult, get_owns] at ht
    exact absurd ht howns
  · next hshaped =>
    refine htrue ?_
    obtain ⟨shaped, hs⟩ := Option.ne_none_iff_exists'.mp hmanaged
    rw [hs, Option.getD_some] at hshaped
    rw [hs, Bool.eq_false_iff.mpr hshaped]

theorem inv_remove (h : Inv s) : Inv (s.remove con) := by
  unfold State.remove
  split
  · exact h
  next w hwindow =>
  split
  · exact h
  next e he =>
  split
  · next hshaped =>
    have hinv := h.windows w
    have hmanaged : s.windows w ≠ none := hinv.managed (by rw [he]; exact Option.some_ne_none e)
    have hentry : (Function.update s.entries w
        (some { e with shapedByUs := false, propOwned := false })) w =
          some { e with shapedByUs := false, propOwned := false } := Function.update_self _ _ _
    have hshape : (Function.update s.shape w none) w = none := Function.update_self _ _ _
    refine h.of_window (w := w) h.kept ?_ (fun v hv => Function.update_of_ne hv _ _)
      (fun v hv => Function.update_of_ne hv _ _) (fun v hv => pending_setShape_of_ne none hv)
      (fun _ _ => rfl) (fun v hv => Function.update_of_ne hv _ _)
    refine ⟨fun _ => hmanaged, fun e' he' => ?_, ?_, fun _ => ?_, fun _ shaped hs => ?_, fun ho => ?_⟩
    · rw [← Option.some_inj.mp (hentry.symm.trans he')]
    · rw [owns_of_entry hentry]
      exact Function.update_self _ _ _
    · rw [show ((s.setShape w none).shape) w = none from hshape]
      exact (nomatch ·)
    · -- the shape is gone, and the last notification says so
      have hlast := pending_setShape_self (s := s) (w := w) none (Option.isSome_iff_ne_none.mpr hmanaged)
      have hpending : ((s.setShape w none).pending w).getLast?.getD shaped = false := by
        rw [hlast, List.getLast?_concat]
        rfl
      show ((s.setShape w none).pending w).getLast?.getD shaped = true ↔
        (s.setShape w none).shape w = some .client
      rw [hpending, show (s.setShape w none).shape w = none from hshape]
      simp
    · rw [owns_of_entry hentry] at ho
      cases ho
  · exact h

/-- Of a shape of a client that i3 does not know of, a notification is under way. -/
theorem Inv.underWay (h : Inv s) (hw : s.windows w = some false) (hclient : s.shape w = some .client) :
    s.pending w ≠ [] := by
  intro hnil
  cases howns : s.owns w with
  | true => exact ((h.windows w).rounded howns).2 hclient hnil
  | false =>
    have hplain := ((h.windows w).plain howns false hw).mpr hclient
    rw [hnil] at hplain
    cases hplain

/-- What the request for the shape of the client changes. -/
structure Reshaped (s s' : State) (w : ℕ) : Prop where
  windows : s'.windows = s.windows
  entries : s'.entries = s.entries
  prop : s'.prop = s.prop
  kept : s'.clobbered = s.clobbered
  shape : ∀ v, v ≠ w → s'.shape v = s.shape v
  pending : ∀ v, v ≠ w → s'.pending v = s.pending v
  client : s'.shape w = some .client → s'.pending w ≠ []

theorem reshaped_requestShape (h : Inv s) (hw : s.windows w = some false) {shape : Option Party}
    (hclient : shape ≠ some .client) : Reshaped s (s.requestShape w shape) w where
  windows := rfl
  entries := rfl
  prop := rfl
  kept := by
    have hnotified : ¬ s.Notified w := fun hn => h.underWay hw hn.1 hn.2
    show (s.clobbered || decide (s.Notified w)) = s.clobbered
    rw [decide_eq_false hnotified, Bool.or_false]
  shape v hv := Function.update_of_ne hv _ _
  pending v hv := pending_setShape_of_ne shape hv
  client hc := by
    rw [show (s.requestShape w shape).shape w = shape from Function.update_self _ _ _] at hc
    exact absurd hc hclient

theorem reshaped_shapeClient (h : Inv s) (hw : s.windows w = some false) (ww wh : ℕ) (inner : ℤ) :
    Reshaped s (s.shapeClient w ww wh inner) w := by
  unfold State.shapeClient
  split
  · split
    · exact ⟨rfl, rfl, rfl, rfl, fun _ _ => rfl, fun _ _ => rfl, h.underWay hw⟩
    · exact reshaped_requestShape h hw (by decide)
  · exact reshaped_requestShape h hw (by decide)

/-- A window whose corners are rounded now. -/
theorem windowInv_rounded {prop : ℕ → Bool} (hw : s.windows w = some false)
    (hclient : s.shape w = some .client → s.pending w ≠ []) (hprop : prop w = true)
    (hshaped : e.shapedByUs = true) (howned : e.propOwned = true) :
    WindowInv { s with prop := prop, entries := Function.update s.entries w (some e) } w := by
  have hentry : (Function.update s.entries w (some e)) w = some e := Function.update_self _ _ _
  have howns : { s with prop := prop, entries := Function.update s.entries w (some e) }.owns w = true :=
    (owns_of_entry hentry).trans hshaped
  have hunowned {P : Prop}
      (ho : { s with prop := prop, entries := Function.update s.entries w (some e) }.owns w = false) : P :=
    absurd (ho.symm.trans howns) Bool.false_ne_true
  refine ⟨fun _ => ?_, fun e' he' => ?_, hprop.trans howns.symm, fun ho => hunowned ho,
    fun ho => hunowned ho, fun _ => ⟨hw, hclient⟩⟩
  · show s.windows w ≠ none
    rw [hw]
    exact Option.some_ne_none false
  · rw [← Option.some_inj.mp (hentry.symm.trans he'), howned, hshaped]

theorem inv_applyRadius (h : Inv s) (hw : s.windows w = some false) (radius : ℤ) :
    Inv (s.applyRadius con w radius) := by
  have hmanaged : s.windows w ≠ none := by
    rw [hw]
    exact Option.some_ne_none false
  have hget : Inv (s.get w) := inv_get h hmanaged
  have hwget : (s.get w).windows w = some false := by rwa [get_windows]
  obtain ⟨e, he⟩ : ∃ e, (s.get w).entries w = some e := ⟨_, get_entries w⟩
  unfold State.applyRadius
  dsimp only
  split
  · exact h
  simp only [he, Option.getD_some]
  split
  · exact hget
  have hre := reshaped_shapeClient hget hwget (con.windowRect.width % 2 ^ 16)
    (con.windowRect.height % 2 ^ 16) (innerRadius con radius)
  refine hget.of_window (w := w) (hre.kept.trans hget.kept) ?_ hre.shape (fun v hv => ?_) hre.pending
    (fun v _ => congrFun hre.windows v) (fun v hv => ?_)
  · refine windowInv_rounded ((congrFun hre.windows w).trans hwget) hre.client ?_ rfl rfl
    -- the property is set already, or it is now
    cases hprop : e.propOwned with
    | true =>
      rw [if_pos rfl, hre.prop, (hget.windows w).prop, owns_of_entry he,
        ← (hget.windows w).owned e he, hprop]
    | false => exact Function.update_self _ _ _
  · simp only [hre.prop]
    split
    · rfl
    · exact Function.update_of_ne hv _ _
  · simp only [hre.entries]
    exact Function.update_of_ne hv _ _

theorem radiusFor_fst : (s.radiusFor con).1 = (s.shouldApply con).1 := by
  unfold State.radiusFor
  split <;> next heq => rw [heq]

theorem inv_apply (h : Inv s) (hcon : ∀ w ∈ con.window, s.windows w ≠ none) : Inv (s.apply con) := by
  unfold State.apply
  split
  · exact h
  next w hwindow =>
  have hmem : w ∈ con.window := hwindow
  obtain ⟨hinv, hwindows, hshould⟩ := inv_shouldApply h hcon
  split
  · next s' hs' =>
    rw [hs'] at hinv
    exact inv_remove hinv
  · next s' hs' =>
    rw [hs'] at hinv hwindows hshould
    -- the radius asks once more, of the same windows
    obtain ⟨hinv', hwindows', -⟩ := @inv_shouldApply _ con hinv (by rwa [hwindows])
    show Inv ((s'.radiusFor con).1.applyRadius con w (s'.radiusFor con).2)
    rw [radiusFor_fst]
    refine inv_applyRadius hinv' ?_ _
    rw [hwindows', hwindows]
    exact hshould rfl w hmem

/-! ### Runs -/

theorem inv_start : Inv {} where
  windows _ :=
    { managed := fun h => absurd rfl h
      owned := fun _ he => nomatch he
      prop := rfl
      unowned := fun _ => (nomatch ·)
      plain := fun _ _ hs => nomatch hs
      rounded := fun ho => nomatch ho }
  kept := rfl

theorem inv_step (i : Input) (h : Inv s) (hi : i.Enabled s) (hallowed : i.Allowed s) : Inv (step s i) := by
  cases i with
  | clientShape w set =>
    refine inv_clientShape h ?_
    cases set <;> decide
  | create w => exact inv_create h hi
  | manage w => exact inv_manage h hi hallowed
  | close w => exact inv_close h hallowed
  | apply con => exact inv_apply h hi
  | remove con => exact inv_remove h
  | configure settings => exact ⟨fun w => (h.windows w).congr rfl rfl rfl rfl rfl, h.kept⟩
  | deliver =>
    cases hqueue : s.queue with
    | nil =>
      rw [step, hqueue]
      exact h
    | cons n queue =>
      obtain ⟨w, shaped⟩ := n
      rw [step, hqueue]
      refine inv_shapeNotify h hqueue fun howns hclient => ?_
      exact hallowed (w, shaped) (by rw [hqueue]; rfl) howns hclient

/-- **No shape of a client is taken over**, in any state of a run of allowed inputs. -/
theorem untaken_run {is : List Input} (hrun : Runs.Meets step Input.Enabled {} is)
    (hallowed : Runs.Meets step Input.Allowed {} is) : (Runs.after step {} is).Untaken :=
  (Runs.invariant (fun _ i h hi => inv_step i h hi.1 hi.2) inv_start
    ((Runs.meets_and _ _).mpr ⟨hrun, hallowed⟩)).untaken

/-- A tiled window of a width. -/
def tiled (window width : ℕ) : Con where
  window := some window
  frame := 100
  rect := { width := width, height := 600 }
  windowRect := { x := 2, y := 20, width := width - 4, height := 578 }

/-- Corners that are rounded and removed, while another client sets and removes its own shape. -/
theorem untaken_example : (Runs.after step {} [.manage 1, .manage 2, .apply (tiled 1 800), .clientShape 2 true,
    .deliver, .deliver, .apply (tiled 2 400), .configure { enabled := false }, .apply (tiled 1 800),
    .deliver, .clientShape 2 false, .deliver, .manage 3, .close 3, .create 3]).Untaken :=
  untaken_run (by decide +kernel) (by decide +kernel)

/-- A client sets its shape while its corners are rounded: i3 is notified of it, and replaces the shape
when the window is resized. -/
def ownedClient : List Input :=
  [.manage 1, .apply (tiled 1 800), .deliver, .clientShape 1 true, .deliver, .apply (tiled 1 400)]

theorem not_untaken_owned : Runs.Meets step Input.Enabled {} ownedClient ∧
    ¬ (Runs.after step {} ownedClient).Untaken := by
  refine ⟨by decide +kernel, fun h => ?_⟩
  have hkept := h.kept
  revert hkept
  decide +kernel

end RoundedCorners

end I3
