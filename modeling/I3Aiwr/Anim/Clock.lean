import Mathlib.Algebra.Order.Field.Rat
import I3Aiwr.Lib.Runs

/-!
# The animation clock

`src/aiwr_anim.c`: one timer for all animations. Each has a slot in an array; a tick calls the step
callback of every one, and the done callback of those that have come to their end. Callbacks may
start, cancel and finish animations, so that calls are nested: the clock is a machine that goes from
one callback to the next, with a stack of the calls that wait for one to return.

The array grows by `realloc`, which may move it to another block of memory: a pointer to a slot is an
index together with the block it points into. What a pointer into an old block is used for is
undefined.

## Main definitions

* `Anim.Slot`, `Anim.State`: the slots, and the calls that wait
* `Anim.State.compact`, `Anim.State.tickOn`, `Anim.State.ret`
* `Anim.State.start`, `Anim.State.cancel`, `Anim.State.finish`
* `Anim.Entry`: what is observed of a run
* `Anim.step`: the machine
-/

namespace I3

namespace Anim

/-- `anim_slot_t`. The number of the animation stands for its callbacks and their data; a callback
that is `NULL` is one that does nothing. -/
structure Slot where
  id : ℤ
  active : Bool
  startMs : ℚ
  durationMs : ℚ
  curve : ℚ → ℚ
  animation : ℕ

/-- A pointer to a slot. -/
structure Ref where
  index : ℕ
  block : ℕ
  deriving DecidableEq, Repr

/-- Who calls a callback. -/
inductive Caller
  | tick
  /-- `aiwr_anim_start` without a duration. -/
  | start
  /-- `aiwr_anim_finish` for the animation. -/
  | finish (animation : ℕ)
  deriving DecidableEq, Repr

/-- What is observed: the calls of callbacks and of `aiwr_anim_cancel` and `aiwr_anim_finish` for an
animation that has not ended, and that a tick has come to the end of an animation. -/
inductive Entry
  | step (caller : Caller) (animation : ℕ) (p e : ℚ)
  | done (caller : Caller) (animation : ℕ)
  | cancel (animation : ℕ)
  | finish (animation : ℕ)
  | reach (animation : ℕ)
  deriving DecidableEq, Repr

/-- A call that waits for a callback to return. -/
inductive Frame
  /-- `anim_tick` at the position `i` of `n`, during the step callback. -/
  | tickStep (i n : ℕ) (now : ℚ) (slot : Ref) (animation : ℕ) (last : Bool)
  | tickDone (i n : ℕ) (now : ℚ)
  | finishStep (slot : Ref) (id : ℤ) (animation : ℕ)
  | finishDone
  | startStep (animation : ℕ)
  | startDone
  deriving DecidableEq, Repr

/-- The globals of the module, the calls that wait, and what was observed so far. -/
structure State where
  slots : List Slot := []
  count : ℕ := 0
  nextId : ℤ := 1
  timerRunning : Bool := false
  inTick : Bool := false
  /-- The block of memory of the array. -/
  block : ℕ := 0
  stack : List Frame := []
  log : List Entry := []
  /-- The number of animations so far. -/
  animations : ℕ := 0
  /-- A pointer into an old block was used. -/
  wild : Bool := false

namespace State

variable (s : State)

/-- The slots in use. -/
def used : List Slot := s.slots.take s.count

/-- The slots of the animations that are active. -/
def live : List Slot := s.used.filter Slot.active

def isActive (i : ℕ) : Bool := s.slots[i]?.any Slot.active

/-- `slot_by_id`, as a position. -/
def slotById (id : ℤ) : Option ℕ :=
  if id ≤ 0 then none
  else (List.range s.count).find? fun i => s.slots[i]?.any fun slot => slot.id = id ∧ slot.active

/-- The loop of `anim_compact`: the active slots move to the front. What is behind them stays. -/
def compact : State :=
  if s.inTick then s
  else { s with slots := s.live ++ s.slots.drop s.live.length, count := s.live.length }

/-- `anim_stop_timer_if_idle`. -/
def stopTimerIfIdle : State := if s.count > 0 then s else { s with timerRunning := false }

def deactivate (i : ℕ) : State :=
  { s with slots := s.slots.modify i fun slot => { slot with active := false } }

/-- A callback is called, and the frame waits for it. -/
def call (frame : Frame) (entries : List Entry) : State :=
  { s with stack := frame :: s.stack, log := s.log ++ entries }

/-- What is observed. -/
def note (entries : List Entry) : State := { s with log := s.log ++ entries }

/-! ### Ticks -/

/-- The progress of an animation, from 0 on. -/
def progress (slot : Slot) (now : ℚ) : ℚ :=
  if slot.durationMs ≤ 0 then 1 else max 0 ((now - slot.startMs) / slot.durationMs)

/-- The end of `anim_tick`. -/
def endTick : State := { s with inTick := false }.compact.stopTimerIfIdle

/-- The loop of `anim_tick` from the position `i` on, up to the next callback. -/
def tickOn (i n : ℕ) (now : ℚ) : State :=
  match (List.range' i (n - i)).find? s.isActive with
  | none => s.endTick
  | some j => match s.slots[j]? with
    | none => s.endTick
    | some slot =>
      let last : Bool := 1 ≤ progress slot now
      let p := min 1 (progress slot now)
      s.call (.tickStep j n now ⟨j, s.block⟩ slot.animation last)
        ((if last then [.reach slot.animation] else []) ++
          [.step .tick slot.animation p (slot.curve p)])

/-- `anim_tick`, up to the first callback. -/
def tick (now : ℚ) : State := { s with inTick := true }.tickOn 0 s.count now

/-! ### The functions of the module -/

/-- `aiwr_anim_start`, with the natural duration of the curve, if it has a positive one. The fresh
number stands for the callbacks. -/
def start (durationMs natural now : ℚ) (curve : ℚ → ℚ) : State :=
  let durationMs := if natural > 0 then natural else durationMs
  let a := s.animations
  let s := { s with animations := s.animations + 1 }
  if durationMs ≤ 0 then s.call (.startStep a) [.step .start a 1 1]
  else
    let slot : Slot := { id := s.nextId, active := true, startMs := now, durationMs, curve,
                         animation := a }
    { s with
      slots := s.used ++ [slot]
      count := s.count + 1
      nextId := if s.nextId + 1 < 2 ^ 31 then s.nextId + 1 else 1
      block := s.block + 1
      timerRunning := true }

/-- The animation whose `aiwr_anim_finish` waits for its step callback. -/
def finishing (id : ℤ) : Option ℕ := s.stack.findSome? fun
  | .finishStep _ id' a => if id' = id then some a else none
  | _ => none

/-- `aiwr_anim_cancel`. It has no effect on an animation that is being finished. -/
def cancel (id : ℤ) : State :=
  match s.slotById id with
  | none => match s.finishing id with
    | none => s
    | some a => s.note [.cancel a]
  | some i => match s.slots[i]? with
    | none => s
    | some slot => ((s.note [.cancel slot.animation]).deactivate i).compact.stopTimerIfIdle

/-- `aiwr_anim_finish`, up to the step callback. -/
def finish (id : ℤ) : State :=
  match s.slotById id with
  | none => s
  | some i => match s.slots[i]? with
    | none => s
    | some slot => (s.deactivate i).call (.finishStep ⟨i, s.block⟩ id slot.animation)
        [.finish slot.animation, .step (.finish slot.animation) slot.animation 1 1]

/-! ### Returning from a callback -/

/-- The pointer is used. -/
def deref (slot : Ref) : Option Slot := if slot.block = s.block then s.slots[slot.index]? else none

def goWild : State := { s with wild := true }

/-- The callback that was called last returns, and its caller goes on up to the next one. -/
def ret : State :=
  match s.stack with
  | [] => s
  | frame :: rest =>
    let s := { s with stack := rest }
    match frame with
    | .tickStep i n now ref _ last =>
      if ¬ last then s.tickOn (i + 1) n now
      else match s.deref ref with
        | none => s.goWild
        | some slot =>
          if ¬ slot.active then s.tickOn (i + 1) n now
          else (s.deactivate ref.index).call (.tickDone i n now) [.done .tick slot.animation]
    | .tickDone i n now => s.tickOn (i + 1) n now
    | .finishStep ref _ a => match s.deref ref with
      | none => s.goWild
      | some slot => s.call .finishDone [.done (.finish a) slot.animation]
    | .finishDone => s.compact.stopTimerIfIdle
    | .startStep a => s.call .startDone [.done .start a]
    | .startDone => s

end State

/-- What happens next: a tick of the timer, a call by the program or by the callback that runs, or
the return of that callback. -/
inductive Event
  | tick (now : ℚ)
  | start (durationMs natural now : ℚ) (curve : ℚ → ℚ)
  | cancel (id : ℤ)
  | finish (id : ℤ)
  | ret

/-- The machine. The timer does not fire while a callback runs. -/
def step (s : State) (e : Event) : State :=
  if s.wild then s
  else match e with
    | .tick now => if s.stack = [] ∧ s.timerRunning then s.tick now else s
    | .start durationMs natural now curve => s.start durationMs natural now curve
    | .cancel id => s.cancel id
    | .finish id => s.finish id
    | .ret => s.ret

end Anim

end I3
