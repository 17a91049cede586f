import Mathlib.Data.Rat.Floor
import I3Aiwr.Lib.Runs
import I3Aiwr.Tree.Container

/-!
# The opening animation

Two places configure the geometry of a frame: `x_push_node`, where the rect it has decided on is not the
one of `state->rect`, and the opening animation of `src/src/window_animation.c`, with each step. The
state is that of one frame, with what `x_push_node` and the callbacks of the animation read of its
container when it was pushed last. The numbers stay inside their C types, and a frame is pushed after
each change of its container.

## Main definitions

* `Con.frameRect`: the rect that `x_push_node` decides on
* `waApply`, `Frame.waStep`, `Frame.waFinished`, `Frame.onMap`, `Frame.xPushNode`
* `step`: the pushes and the ticks of the animation
* `Frame.Settled`: the geometry is that of `state->rect` where no animation runs
* `Con.Whole`, `Allowed`

## Main results

* `waApply_one`: what an animation ends with
* `inv_push`, `inv_tick`: what each step keeps
* `settled_run`: every run that ends its animation with a whole container
* `not_settled_stacked`: an animation of a stacked container
-/

namespace I3

namespace OpeningAnimation

/-- What is read of a container. -/
structure Con where
  type : ConType := .con
  layout : Layout := .splith
  /-- `con->window` is set. -/
  window : Bool := false
  /-- The result of `con_border_style`. -/
  borderStyle : BorderStyle := .normal
  rect : Rect := {}
  /-- `deco_rect.y` and `deco_rect.height` of the children. -/
  decoRects : List (ℕ × ℕ) := []
  deriving DecidableEq, Repr

namespace Con

variable (con : Con)

/-- The frame is only as high as the decorations. -/
def decorates : Bool := !con.window && (con.layout = .stacked || con.layout = .tabbed)

/-- The height of the decorations, `max_y + max_height`. -/
def decoHeight : ℕ :=
  let m := con.decoRects.foldl (fun m dr => if m.1 ≤ dr.1 ∧ m.2 ≤ dr.2 then dr else m) (0, 0)
  m.1 + m.2

/-- The rect that is pushed. -/
def frameRect : Rect :=
  if con.decorates then { con.rect with height := con.decoHeight } else con.rect

/-- `is_pixmap_needed` -/
def isPixmapNeeded : Bool :=
  ((con.decoRects.isEmpty && con.borderStyle ≠ .none) || con.layout = .stacked || con.layout = .tabbed) &&
    con.type ≠ .root && con.type ≠ .output

end Con

/-- The globals, and what is asked of other modules. -/
structure Env where
  /-- `window_animation_init` succeeds. -/
  initialized : Bool := true
  enabled : Bool := true
  durationMs : ℤ := 160
  startScale : ℤ := 88
  /-- Less than `WA_STARTUP_QUIET_MS` have passed. -/
  quiet : Bool := false
  /-- The overview is active, or a workspace transition. -/
  busy : Bool := false
  deriving DecidableEq, Repr

/-- A frame. -/
structure Frame where
  /-- The container, as it was pushed last. -/
  con : Con := {}
  /-- `state->rect` -/
  stateRect : Rect := {}
  /-- The last geometry configured. -/
  configured : Option Rect := none
  /-- `con->frame_buffer.id` is not `XCB_NONE`. -/
  frameBuffer : Bool := false
  seen : Bool
  /-- There is an item of the frame in `wa.items`. -/
  running : Bool := false
  deriving DecidableEq, Repr

/-- The geometry that `wa_apply` configures. -/
def waApply (t : Rect) (f : ℚ) : Rect :=
  let w := ⌊max 1 (t.width * f)⌋.toNat
  let h := ⌊max 1 (t.height * f)⌋.toNat
  { x := t.x + ((t.width : ℤ) - w).tdiv 2
    y := t.y + ((t.height : ℤ) - h).tdiv 2
    width := w
    height := h }

namespace Frame

variable (s : Frame)

/-- `wa_step` -/
def waStep (env : Env) (e : ℚ) : Frame :=
  let f0 := (env.startScale : ℚ) / 100
  { s with configured := some (waApply s.con.rect (f0 + (1 - f0) * e)) }

/-- `wa_finished` -/
def waFinished : Frame :=
  { s with configured := some (waApply s.con.rect 1), running := false }

/-- `window_animation_on_map` -/
def onMap (env : Env) : Frame :=
  if env.initialized then
    let t := { s with seen := true }
    if s.seen then t
    else if !env.enabled then t
    else if env.durationMs ≤ 0 then t
    else if 100 ≤ env.startScale then t
    else if env.quiet then t
    else if s.con.rect.width = 0 ∨ s.con.rect.height = 0 then t
    else if env.busy then t
    else if s.running then t
    -- the duration is positive, so that the animation is started
    else { t with configured := some (waApply s.con.rect (env.startScale / 100)), running := true }
  else s

/-- `x_push_node` -/
def xPushNode (con : Con) (env : Env) : Frame :=
  let rect := con.frameRect
  let needed := con.isPixmapNeeded
  let s := { s with con := con }
  if (needed ∧ ¬s.frameBuffer) ∨ (s.stateRect ≠ rect ∧ 0 < rect.height) then
    { ({ s with frameBuffer := needed, configured := some rect } : Frame).onMap env with stateRect := rect }
  else s

/-- One callback of the timer, with the value `e` of the curve. -/
def tick (env : Env) (e : ℚ) (last : Bool) : Frame :=
  if s.running then
    let t := s.waStep env e
    if last then t.waFinished else t
  else s

/-- No animation runs, and the geometry is not that of `state->rect`, never at once. -/
def Settled : Prop := s.running = false → ∀ g ∈ s.configured, g = s.stateRect

instance : Decidable s.Settled := inferInstanceAs (Decidable (_ → ∀ g ∈ s.configured, _))

end Frame

/-- What is done with a frame. -/
inductive Event
  | push (con : Con) (env : Env)
  | tick (env : Env) (e : ℚ) (last : Bool)

def step (s : Frame) : Event → Frame
  | .push con env => s.xPushNode con env
  | .tick env e last => s.tick env e last

/-- The container is not empty, and its frame is as high as it. -/
def Con.Whole (con : Con) : Prop :=
  0 < con.rect.width ∧ 0 < con.rect.height ∧ (con.decorates → con.decoHeight = con.rect.height)

instance (con : Con) : Decidable con.Whole := inferInstanceAs (Decidable (_ ∧ _ ∧ (_ → _)))

/-- An animation ends with a whole container. -/
def Allowed (s : Frame) : Event → Prop
  | .push .. => True
  | .tick _ _ last => s.running → last → s.con.Whole

instance (s : Frame) : ∀ e, Decidable (Allowed s e)
  | .push .. => inferInstanceAs (Decidable True)
  | .tick _ _ last => inferInstanceAs (Decidable (s.running → last → s.con.Whole))

/-! ### What is configured -/

/-- **The end of an animation**: the rect of the container, of at least one pixel. -/
theorem waApply_one (t : Rect) :
    waApply t 1 = { t with width := max 1 t.width, height := max 1 t.height } := by
  have hside (n : ℕ) : ⌊max 1 ((n : ℚ) * 1)⌋.toNat = max 1 n := by
    have hcast : max 1 ((n : ℚ) * 1) = ((max 1 n : ℕ) : ℚ) := by simp
    rw [hcast, Int.floor_natCast, Int.toNat_natCast]
  -- the position moves by half of what is missing, which is 0 towards zero
  have hhalf (n : ℕ) : ((n : ℤ) - (max 1 n : ℕ)).tdiv 2 = 0 := by
    rcases Nat.eq_zero_or_pos n with rfl | hn
    · rfl
    · rw [max_eq_right hn, sub_self, Int.zero_tdiv]
  simp only [waApply, hside, hhalf, add_zero]

namespace Con

variable {con : Con}

/-- A whole container has the rect of its frame, and the animation ends with it. -/
theorem Whole.frameRect_eq (h : con.Whole) : con.frameRect = con.rect := by
  unfold frameRect
  split
  · next hs => rw [h.2.2 hs]
  · rfl

theorem Whole.waApply_eq (h : con.Whole) : waApply con.rect 1 = con.frameRect := by
  rw [waApply_one, h.frameRect_eq, max_eq_right h.1, max_eq_right h.2.1]

theorem Whole.pos (h : con.Whole) : 0 < con.frameRect.height := by
  rw [h.frameRect_eq]
  exact h.2.1

end Con

namespace Frame

variable {s : Frame} {con : Con} {env : Env}

/-- `state->rect` is the rect decided on at the last push, if that was not empty. -/
structure Inv (s : Frame) : Prop where
  settled : s.Settled
  pushed : 0 < s.con.frameRect.height → s.stateRect = s.con.frameRect

theorem inv_fresh (seen : Bool) : ({ seen } : Frame).Inv :=
  ⟨fun _ => by simp, fun h => absurd h (lt_irrefl 0)⟩

@[simp] theorem onMap_con (s : Frame) (env : Env) : (s.onMap env).con = s.con := by
  unfold onMap
  split_ifs <;> rfl

/-- A frame whose animation does not run after the map keeps its geometry. -/
theorem onMap_configured (h : (s.onMap env).running = false) :
    (s.onMap env).configured = s.configured := by
  revert h
  unfold onMap
  split_ifs <;> simp

end Frame

/-! ### The steps -/

open Frame

variable {s : Frame}

/-- **A push**: what is configured, if anything, is kept in `state->rect`. -/
theorem inv_push (h : s.Inv) (con : Con) (env : Env) : (s.xPushNode con env).Inv := by
  unfold xPushNode
  dsimp only
  split
  · refine ⟨fun hrun => ?_, fun _ => by simp⟩
    -- the opening animation has not been started, so the frame has the rect that was pushed
    dsimp only at hrun ⊢
    rw [onMap_configured hrun]
    simp
  · next hcache =>
    refine ⟨h.settled, fun hpos => ?_⟩
    -- nothing was configured for a rect that is not empty: it is in the cache
    by_contra hne
    exact hcache (.inr ⟨hne, hpos⟩)

/-- **A tick**: an animation that ends leaves the rect of a whole container. -/
theorem inv_tick (h : s.Inv) (env : Env) (e : ℚ) (last : Bool)
    (hallowed : Allowed s (.tick env e last)) : (s.tick env e last).Inv := by
  unfold tick
  split
  · next hrun =>
    cases last with
    | false => exact ⟨fun hstop => absurd hstop (by simp [waStep, hrun]), h.pushed⟩
    | true =>
      have hwhole : s.con.Whole := hallowed hrun rfl
      refine ⟨fun _ g hg => ?_, h.pushed⟩
      obtain rfl : waApply s.con.rect 1 = g := by simpa [waFinished, waStep] using hg
      calc waApply s.con.rect 1
          = s.con.frameRect := hwhole.waApply_eq
        _ = s.stateRect := (h.pushed hwhole.pos).symm
  · exact h

theorem inv_step (s : Frame) (e : Event) (h : s.Inv) (hallowed : Allowed s e) : (step s e).Inv := by
  cases e with
  | push con env => exact inv_push h con env
  | tick env e last => exact inv_tick h env e last hallowed

/-! ### The runs -/

/-- **The frame is left where it was pushed**: in every state of a run whose animation ends with a
whole container, the last geometry is that of `state->rect` if no animation runs. -/
theorem settled_run (seen : Bool) {es fs : List Event}
    (h : Runs.Meets step Allowed { seen } fs) (hpre : es <+: fs) :
    (Runs.after step { seen } es).Settled :=
  (Runs.invariant_prefix inv_step (inv_fresh seen) h hpre).settled

/-- A window is opened, moved while it opens, and pushed again. -/
theorem settled_run_window :
    let window : Con := { window := true, rect := { x := 10, y := 20, width := 300, height := 200 } }
    let moved : Con := { window with rect := { x := 40, y := 20, width := 200, height := 200 } }
    let es : List Event := [.push window {}, .tick {} (1 / 2) false, .push moved {}, .tick {} 1 true]
    (Runs.after step { seen := false } es).running = false ∧
      (Runs.after step { seen := false } es).Settled :=
  ⟨rfl, settled_run false (by decide) (List.prefix_refl _)⟩

/-- The frame of a stacked container, as high as one title, is opened: it ends as high as the
container. -/
theorem not_settled_stacked :
    ¬ ∀ (seen : Bool) (es : List Event), (Runs.after step { seen } es).Settled := by
  intro h
  let stacked : Con :=
    { layout := .stacked, rect := { width := 300, height := 200 }, decoRects := [(0, 20)] }
  have hsettled := h false [.push stacked {}, .tick {} 1 true] rfl _ rfl
  rw [waApply_one] at hsettled
  revert hsettled
  decide

end OpeningAnimation

end I3
