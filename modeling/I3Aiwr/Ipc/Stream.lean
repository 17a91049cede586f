import Mathlib
import I3Aiwr.Lib.Runs

/-!
# The output stream of an IPC client

`ipc_send_client_message` and `ipc_push_pending` of `src/ipc.c`: a message is appended to the buffer
of the client, and what the socket does not take at once is written when it becomes writeable. A
client that takes nothing for too long is disconnected, by a timer that exists while something is
pending.

## Main definitions

* `Ipc.writeallNonblock`: the loop of `writeall_nonblock`
* `Ipc.Client`, `Ipc.pushPending`
* `Ipc.Event`, `Ipc.step`: messages sent, and the socket becoming writeable
* `Ipc.TakesNone`: a write that fails takes nothing from the buffer

## Main results

* `Ipc.pushed_iff`: a push loses and repeats nothing iff a failed write takes nothing
* `Ipc.stream_intact`: the socket and the buffer hold what was sent, and the watcher is active iff
  the timer exists
-/

namespace I3

namespace Ipc

/-- What a call of `write` does: take some bytes, or fail with `EAGAIN`, `EINTR` or another error. -/
inductive Write
  | takes (n : ℕ)
  | again
  | intr
  | error
  deriving DecidableEq, Repr

/-- `writeall_nonblock` for `count` bytes of which `written` are written: what it returns, with
`none` for an error, and the number of bytes the socket took. No more calls of `write` stand for a
socket that would block. -/
def writeallNonblock (count : ℕ) : List Write → ℕ → Option ℕ × ℕ
  | [], written => (some written, written)
  | w :: ws, written =>
    if written < count then
      match w with
      | .takes n => writeallNonblock count ws (written + min n (count - written))
      | .again => (some written, written)
      | .intr => writeallNonblock count ws written
      | .error => (none, written)
    else (some written, written)

variable {count written k : ℕ} {ws : List Write}

/-- What is returned was taken, and no more than there is. -/
theorem writeallNonblock_spec (h : written ≤ count) :
    (writeallNonblock count ws written).2 ≤ count
      ∧ ∀ n ∈ (writeallNonblock count ws written).1, n = (writeallNonblock count ws written).2 := by
  have hstop : written ≤ count ∧ ∀ n ∈ some written, n = written :=
    ⟨h, fun n hn => (Option.some_inj.mp hn).symm⟩
  induction ws generalizing written with
  | nil => exact hstop
  | cons w ws ih =>
    unfold writeallNonblock
    split
    · cases w with
      | takes n =>
        have hle : written + min n (count - written) ≤ count := by omega
        exact ih hle ⟨hle, fun n hn => (Option.some_inj.mp hn).symm⟩
      | again => exact hstop
      | intr => exact ih h hstop
      | error => exact ⟨h, fun n hn => by cases hn⟩
    · exact hstop

/-- The fields of `ipc_client` that have to do with writing. -/
structure Client where
  /-- `buffer`, with `buffer_size` its length. -/
  buffer : List UInt8 := []
  /-- `timeout` is not `NULL`. -/
  timeout : Bool := false
  /-- `write_callback` is active. -/
  watching : Bool := false
  deriving DecidableEq, Repr

/-- `ipc_push_pending`. When the timer expires is not modelled. -/
def pushPending (client : Client) (ws : List Write) : Client :=
  match (writeallNonblock client.buffer.length ws 0).1 with
  | none => client
  | some result =>
    if result = client.buffer.length then { buffer := [], timeout := false, watching := false }
    else
      let client := { client with watching := true, timeout := true }
      if result = 0 then client else { client with buffer := client.buffer.drop result }

/-- What the socket takes meanwhile. -/
def pushed (client : Client) (ws : List Write) : List UInt8 :=
  client.buffer.take (writeallNonblock client.buffer.length ws 0).2

/-- A write that fails takes nothing from the buffer. -/
def TakesNone (client : Client) (ws : List Write) : Prop :=
  (writeallNonblock client.buffer.length ws 0).1 = none →
    (writeallNonblock client.buffer.length ws 0).2 = 0

instance (client : Client) (ws : List Write) : Decidable (TakesNone client ws) :=
  inferInstanceAs (Decidable (_ → _))

/-- **A push loses and repeats nothing** iff a failed write takes nothing. -/
theorem pushed_iff (client : Client) (ws : List Write) :
    pushed client ws ++ (pushPending client ws).buffer = client.buffer ↔ TakesNone client ws := by
  obtain ⟨hle, hres⟩ := @writeallNonblock_spec client.buffer.length 0 ws (Nat.zero_le _)
  rw [pushed, pushPending, TakesNone]
  generalize writeallNonblock client.buffer.length ws 0 = r at hle hres ⊢
  obtain ⟨result, taken⟩ := r
  cases result with
  | none =>
    -- the buffer is kept, whatever was taken
    constructor
    · intro h _
      have hlen := congrArg List.length h
      rw [List.length_append, List.length_take, Nat.min_eq_left hle] at hlen
      dsimp only at hlen
      omega
    · intro h
      obtain rfl : taken = 0 := h rfl
      rfl
  | some n =>
    obtain rfl : n = taken := hres n rfl
    refine ⟨fun _ h => (by cases h), fun _ => ?_⟩
    dsimp only
    split
    · next hall => rw [hall, List.take_length, List.append_nil]
    · split
      · next hzero => rw [hzero, List.take_zero, List.nil_append]
      · exact List.take_append_drop n client.buffer

/-- The watcher is active and the timer exists together, whatever a push does. -/
theorem pushPending_watching (client : Client) (ws : List Write)
    (h : client.watching = client.timeout) :
    (pushPending client ws).watching = (pushPending client ws).timeout := by
  unfold pushPending
  split
  · exact h
  · split
    · rfl
    · dsimp only
      split <;> rfl

/-! ### Messages -/

/-- A message: its type and its payload. -/
structure Message where
  type : UInt32
  payload : List UInt8
  deriving DecidableEq, Repr

/-- The bytes of a `uint32_t` in the memory of a little-endian machine. -/
def bytes (n : UInt32) : List UInt8 :=
  [n.toUInt8, (n >>> 8).toUInt8, (n >>> 16).toUInt8, (n >>> 24).toUInt8]

/-- `i3_ipc_header_t`: the magic string, the size and the type. -/
def header (m : Message) : List UInt8 :=
  [105, 51, 45, 105, 112, 99] ++ bytes (UInt32.ofNat m.payload.length) ++ bytes m.type

/-- The header merged with the payload. -/
def Message.encode (m : Message) : List UInt8 := header m ++ m.payload

/-- `ipc_send_client_message`: the message is appended, and pushed if nothing else is pending. -/
def sendClientMessage (client : Client) (m : Message) (ws : List Write) : Client :=
  let pushNow : Bool := client.buffer.length = 0
  let client := { client with buffer := client.buffer ++ m.encode }
  if pushNow then pushPending client ws else client

/-! ### Runs -/

/-- A connection: the client, what its socket took so far, and whether the assertion of
`ipc_socket_writeable_cb` failed. -/
structure Connection where
  client : Client := {}
  socket : List UInt8 := []
  failed : Bool := false
  deriving DecidableEq, Repr

inductive Event
  /-- `ipc_send_client_message`. -/
  | send (m : Message) (ws : List Write)
  /-- The socket is writeable: `ipc_socket_writeable_cb` is called if its watcher is active. -/
  | writeable (ws : List Write)
  deriving DecidableEq, Repr

/-- The client whose buffer is pushed, if one is. -/
def pushes (s : Connection) : Event → Option (Client × List Write)
  | .send m ws =>
    if s.client.buffer.length = 0 then
      some ({ s.client with buffer := s.client.buffer ++ m.encode }, ws)
    else none
  | .writeable ws => if s.client.watching ∧ s.client.timeout then some (s.client, ws) else none

def step (s : Connection) (e : Event) : Connection :=
  let taken := match pushes s e with
    | none => []
    | some (client, ws) => pushed client ws
  match e with
  | .send m ws =>
    { s with client := sendClientMessage s.client m ws, socket := s.socket ++ taken }
  | .writeable ws =>
    if ¬ s.client.watching then s
    else if ¬ s.client.timeout then { s with failed := true }
    else { s with client := pushPending s.client ws, socket := s.socket ++ taken }

/-- An error of a write leaves the buffer alone: it does not come after a part was taken. -/
def Clean (s : Connection) (e : Event) : Prop := ∀ p ∈ pushes s e, TakesNone p.1 p.2

instance (s : Connection) (e : Event) : Decidable (Clean s e) :=
  match h : pushes s e with
  | none => .isTrue (by simp [Clean, h])
  | some p => decidable_of_iff (TakesNone p.1 p.2) (by simp [Clean, h])

/-- The messages sent in a run. -/
def messages : List Event → List Message := List.filterMap fun
  | .send m _ => some m
  | .writeable _ => none

/-- The socket and the buffer hold `stream`, and the watcher is active iff the timer exists. -/
structure Intact (stream : List UInt8) (s : Connection) : Prop where
  stream : s.socket ++ s.client.buffer = stream
  watching : s.client.watching = s.client.timeout
  failed : s.failed = false

theorem intact_step {stream : List UInt8} {s : Connection} (h : Intact stream s) {e : Event}
    (hclean : Clean s e) : Intact (stream ++ (messages [e]).flatMap Message.encode) (step s e) := by
  obtain ⟨hstream, hwatch, hfailed⟩ := h
  cases e with
  | send m ws =>
    have hm : stream ++ (messages [.send m ws]).flatMap Message.encode = stream ++ m.encode := by
      simp [messages]
    rw [hm]
    unfold step
    dsimp only
    by_cases hnow : s.client.buffer.length = 0
    · have hpush : pushes s (.send m ws)
          = some ({ s.client with buffer := s.client.buffer ++ m.encode }, ws) := if_pos hnow
      rw [hpush]
      rw [Clean, hpush] at hclean
      have hpushed := (pushed_iff _ ws).mpr (hclean _ rfl)
      rw [sendClientMessage, if_pos (by simpa using hnow)]
      refine ⟨?_, pushPending_watching _ ws hwatch, hfailed⟩
      rw [List.append_assoc, hpushed, ← hstream, List.append_assoc]
    · have hpush : pushes s (.send m ws) = none := if_neg hnow
      rw [hpush, sendClientMessage, if_neg (by simpa using hnow)]
      refine ⟨?_, hwatch, hfailed⟩
      rw [List.append_nil, ← hstream, List.append_assoc]
  | writeable ws =>
    have hm : stream ++ (messages [.writeable ws]).flatMap Message.encode = stream := by
      simp [messages]
    rw [hm]
    unfold step
    dsimp only
    split
    · exact ⟨hstream, hwatch, hfailed⟩
    · next hwatching =>
      rw [not_not] at hwatching
      -- the timer exists with the watcher, so that the assertion holds
      have htimeout : s.client.timeout = true := hwatch ▸ hwatching
      have hpush : pushes s (.writeable ws) = some (s.client, ws) := if_pos ⟨hwatching, htimeout⟩
      rw [if_neg (not_not.mpr htimeout), hpush]
      rw [Clean, hpush] at hclean
      refine ⟨?_, pushPending_watching _ ws hwatch, hfailed⟩
      rw [List.append_assoc, (pushed_iff _ ws).mpr (hclean _ rfl), hstream]

theorem messages_cons (e : Event) (es : List Event) :
    messages (e :: es) = messages [e] ++ messages es := by
  cases e <;> rfl

theorem intact_after {es : List Event} {stream : List UInt8} {s : Connection} (h : Intact stream s)
    (hclean : Runs.Meets step Clean s es) :
    Intact (stream ++ (messages es).flatMap Message.encode) (Runs.after step s es) := by
  induction es generalizing stream s with
  | nil => simpa [messages] using h
  | cons e es ih =>
    obtain ⟨he, hes⟩ := (Runs.meets_cons s e es).mp hclean
    have hrest := ih (intact_step h he) hes
    rwa [List.append_assoc, ← List.flatMap_append, ← messages_cons] at hrest

/-- **The output stream is intact** after every run: the bytes the socket took and those in the
buffer are the messages sent, in order, the watcher is active iff the timer exists, and the
assertion that it does when the socket becomes writeable has not failed. -/
theorem stream_intact (es : List Event) (h : Runs.Meets step Clean {} es) :
    Intact ((messages es).flatMap Message.encode) (Runs.after step {} es) := by
  have hnew : Intact [] {} := ⟨rfl, rfl, rfl⟩
  exact intact_after hnew h

/-- A message of which the socket takes ten bytes, another one behind it, and the rest of both after
an interruption. -/
def splitRun : List Event :=
  [.send ⟨0, [1, 2]⟩ [.takes 10, .again], .send ⟨4, [3]⟩ [], .writeable [.intr, .takes 100]]

theorem stream_intact_splitRun :
    Intact ((messages splitRun).flatMap Message.encode) (Runs.after step {} splitRun) :=
  stream_intact splitRun (by decide)

end Ipc

end I3
