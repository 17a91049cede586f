import Mathlib.Data.List.Basic
import I3Aiwr.Lib.Framing
import I3Aiwr.Ipc.Stream

/-!
# A connection from both ends

`ipc_recv_message` of `libi3` reads the messages off the other end of the socket that
`ipc_push_pending` writes to: the header until it is there, then the payload it tells, in pieces of
any size. The calls of `read` are taken one at a time, between whatever i3 does: messages sent, parts
of them written, the connection closed when a write takes too long.

A call that fails in the middle of a header returns, and what was read of the header is lost. In the
payload it is made again where `errno` is `EINTR` or `EAGAIN`.

## Main definitions

* `Ipc.format`: the header of the messages
* `Ipc.Receiver`, `Receiver.read`: `ipc_recv_message`, called again after every message
* `Ipc.Channel`, `Channel.act`: both ends
* `Ipc.Regular`: no call of `read` fails for now in the middle of a header

## Main results

* `Ipc.channel_delivers`: what is received is the first messages that were sent, however their bytes
  were cut, and all of them where all was written and read; a violation of the protocol is
  reported only of a message that the end of the connection cut off
-/

namespace I3

namespace Ipc

/-! ### The header -/

/-- The number whose bytes these are, on a little-endian machine. -/
def word : List UInt8 → UInt32
  | [a, b, c, d] =>
    UInt32.ofNat (a.toNat + 256 * (b.toNat + 256 * (c.toNat + 256 * d.toNat)))
  | _ => 0

theorem word_bytes (n : UInt32) : word (bytes n) = n := by
  apply UInt32.toNat_inj.mp
  have hn := n.toNat_lt
  simp only [word, bytes, UInt32.toNat_ofNat', UInt32.toNat_toUInt8, UInt32.toNat_shiftRight,
    UInt32.toNat_ofNat, Nat.shiftRight_eq_div_pow, Nat.reducePow, Nat.reduceMod]
  omega

theorem bytes_word {l : List UInt8} (h : l.length = 4) : bytes (word l) = l := by
  match l, h with
  | [a, b, c, d], _ =>
    have ha := a.toNat_lt
    have hb := b.toNat_lt
    have hc := c.toNat_lt
    have hd := d.toNat_lt
    simp only [word, bytes, List.cons.injEq, and_true, ← UInt8.toNat_inj, UInt32.toNat_toUInt8,
      UInt32.toNat_shiftRight, UInt32.toNat_ofNat', UInt32.toNat_ofNat, Nat.shiftRight_eq_div_pow,
      Nat.reducePow, Nat.reduceMod]
    omega

/-- `I3_IPC_MAGIC`. -/
def magic : List UInt8 := [105, 51, 45, 105, 112, 99]

/-- What `ipc_recv_message` copies out of a header: the type and the length. -/
def parse (walk : List UInt8) : Option (UInt32 × ℕ) :=
  if walk.take 6 = magic then
    some (word ((walk.drop 6).drop 4), (word ((walk.drop 6).take 4)).toNat)
  else none

/-- The format of the messages. -/
def format : Framing.Format UInt8 UInt32 where
  width := 14
  Fits n := n < 2 ^ 32
  header type size := magic ++ bytes (UInt32.ofNat size) ++ bytes type
  parse := parse
  width_pos := by decide
  length_header _ _ := rfl
  parse_header type size hsize := by
    have hmagic : (magic ++ bytes (UInt32.ofNat size) ++ bytes type).take 6 = magic := rfl
    have htype : ((magic ++ bytes (UInt32.ofNat size) ++ bytes type).drop 6).drop 4 = bytes type :=
      rfl
    have hbytes : ((magic ++ bytes (UInt32.ofNat size) ++ bytes type).drop 6).take 4
        = bytes (UInt32.ofNat size) := rfl
    rw [parse, if_pos hmagic, htype, hbytes, word_bytes, word_bytes, UInt32.toNat_ofNat',
      Nat.mod_eq_of_lt hsize]
  header_parse walk type size hlen hparse := by
    unfold parse at hparse
    split at hparse
    · next hmagic =>
      obtain ⟨rfl, rfl⟩ := Prod.mk.inj (Option.some_inj.mp hparse)
      refine ⟨UInt32.toNat_lt _, ?_⟩
      rw [UInt32.ofNat_toNat, bytes_word (by rw [List.length_take, List.length_drop]; omega),
        bytes_word (by rw [List.length_drop, List.length_drop]; omega), ← hmagic, List.append_assoc,
        List.take_append_drop, List.take_append_drop]
    · cases hparse

/-- A message as a frame. -/
def Message.frame (m : Message) : Framing.Frame UInt8 UInt32 := (m.type, m.payload)

theorem Message.encode_frame (m : Message) : format.encode m.frame = m.encode := rfl

theorem flatMap_encode_frame (ms : List Message) :
    (ms.map Message.frame).flatMap format.encode = ms.flatMap Message.encode := by
  rw [List.flatMap_map]
  rfl

/-! ### The receiver -/

/-- What a call of `read` does where something is there: take at most `n` bytes of what is wanted,
or fail with `EINTR` or `EAGAIN`, or with another error. -/
inductive Read
  | takes (n : ℕ)
  | again
  | error
  deriving DecidableEq, Repr

/-- What `ipc_recv_message` returns where it returns no message. -/
inductive Failure
  /-- `-1`: `read` failed. -/
  | failed
  /-- `-2`: the end of the stream. -/
  | eof
  /-- `-3`: the protocol is violated. -/
  | violated
  deriving DecidableEq, Repr

/-- The receiver: where its call of `ipc_recv_message` is, the messages of the calls before, and the
failure after which there are no more. -/
structure Receiver where
  reader : Framing.Reader UInt8 UInt32 := {}
  failure : Option Failure := none
  deriving DecidableEq, Repr

/-- The messages received. -/
def Receiver.received (r : Receiver) : List Message := r.reader.frames.map fun f => ⟨f.1, f.2⟩

/-- One call of `read` of `ipc_recv_message`, and how many bytes it takes of those that are
`available`. Where there are none, it waits until the other end is `closed`. After a failure for now
in the header, `ipc_recv_message` is called again. -/
def Receiver.read (r : Receiver) (available : List UInt8) (closed : Bool) (c : Read) :
    Receiver × ℕ :=
  if r.failure.isSome then (r, 0)
  else
    match c with
    | .again =>
      match r.reader.reading with
      | .header _ => ({ r with reader := { r.reader with reading := .header [] } }, 0)
      | .payload .. => (r, 0)
    | .error => ({ r with failure := some .failed }, 0)
    | .takes n =>
      if available = [] then
        if closed then
          match r.reader.reading with
          | .header [] => ({ r with failure := some .eof }, 0)
          | _ => ({ r with failure := some .violated }, 0)
        else (r, 0)
      else
        let piece := available.take (min n (r.reader.reading.wanted format))
        let reader := r.reader.feed format piece
        ({ reader, failure := if reader.invalid then some .violated else none }, piece.length)

/-! ### Both ends -/

/-- The connection of i3, whether i3 closed it, and the receiver with what it took of the socket. -/
structure Channel where
  connection : Connection := {}
  closed : Bool := false
  receiver : Receiver := {}
  consumed : ℕ := 0
  deriving DecidableEq, Repr

inductive Action
  /-- What happens to the client in i3. -/
  | server (e : Event)
  /-- `free_ipc_client`. -/
  | close
  /-- A call of `read` at the other end. -/
  | read (c : Read)
  deriving DecidableEq, Repr

/-- One action. -/
def Channel.act (s : Channel) : Action → Channel
  | .server e => { s with connection := step s.connection e }
  | .close => { s with closed := true }
  | .read c =>
    let r := s.receiver.read (s.connection.socket.drop s.consumed) s.closed c
    { s with receiver := r.1, consumed := s.consumed + r.2 }

/-- The messages sent in a run. -/
def sent (as : List Action) : List Message := messages (as.filterMap fun
  | .server e => some e
  | _ => none)

/-- A message whose length is a `uint32_t`. -/
def Event.Fits : Event → Prop
  | .send m _ => m.payload.length < 2 ^ 32
  | .writeable _ => True

instance : DecidablePred Event.Fits := fun
  | .send m _ => inferInstanceAs (Decidable (m.payload.length < 2 ^ 32))
  | .writeable _ => .isTrue trivial

/-- What i3 does is done to a client that it did not free, a write that fails takes nothing, and no
call of `read` fails for now in the middle of a header. -/
def Regular (s : Channel) : Action → Prop
  | .server e => s.closed = false ∧ Clean s.connection e ∧ e.Fits
  | .close => True
  | .read .again => ∀ got, s.receiver.reader.reading = .header got → got = []
  | .read _ => True

instance (s : Channel) : (a : Action) → Decidable (Regular s a)
  | .server e => inferInstanceAs (Decidable (s.closed = false ∧ Clean s.connection e ∧ e.Fits))
  | .close => .isTrue trivial
  | .read .again =>
    match h : s.receiver.reader.reading with
    | .header got => decidable_of_iff (got = []) (by simp [Regular, h])
    | .payload .. => .isTrue (by simp [Regular, h])
  | .read (.takes _) => .isTrue trivial
  | .read .error => .isTrue trivial

/-! ### What is received -/

/-- What holds of both ends once `ms` were sent. -/
structure Sound (ms : List Message) (s : Channel) : Prop where
  connection : Intact (ms.flatMap Message.encode) s.connection
  fits : ∀ m ∈ ms, m.payload.length < 2 ^ 32
  consumed : s.consumed ≤ s.connection.socket.length
  reads : Framing.Reads format s.receiver.reader (s.connection.socket.take s.consumed)
  /-- The receiver stops at the end of what was written. -/
  stops : ∀ f ∈ s.receiver.failure, f ≠ .failed → s.closed ∧
    s.consumed = s.connection.socket.length ∧ (f = .eof ↔ s.receiver.reader.reading = .header [])

variable {ms : List Message} {s : Channel}

/-- The socket only gets more. -/
theorem exists_socket_step (s : Connection) (e : Event) :
    ∃ taken, (step s e).socket = s.socket ++ taken := by
  cases e with
  | send m ws => exact ⟨_, rfl⟩
  | writeable ws =>
    unfold step
    dsimp only
    split
    · exact ⟨[], (List.append_nil _).symm⟩
    · split
      · exact ⟨[], (List.append_nil _).symm⟩
      · exact ⟨_, rfl⟩

theorem fits_messages {e : Event} (he : e.Fits) :
    ∀ m ∈ messages [e], m.payload.length < 2 ^ 32 := by
  intro m hm
  cases e with
  | send m' ws =>
    rw [messages, List.filterMap_cons, List.filterMap_nil, List.mem_singleton] at hm
    exact hm ▸ he
  | writeable ws => cases hm

namespace Sound

theorem server (h : Sound ms s) {e : Event} (hr : Regular s (.server e)) :
    Sound (ms ++ messages [e]) (s.act (.server e)) := by
  obtain ⟨hopen, hclean, he⟩ := hr
  obtain ⟨taken, hsocket⟩ := exists_socket_step s.connection e
  refine ⟨?_, ?_, ?_, ?_, ?_⟩
  · rw [List.flatMap_append]
    exact intact_step h.connection hclean
  · intro m hm
    rcases List.mem_append.mp hm with hm | hm
    · exact h.fits m hm
    · exact fits_messages he m hm
  · change s.consumed ≤ (step s.connection e).socket.length
    rw [hsocket, List.length_append]
    exact Nat.le_trans h.consumed (Nat.le_add_right _ _)
  · change Framing.Reads format s.receiver.reader ((step s.connection e).socket.take s.consumed)
    rw [hsocket, List.take_append_of_le_length h.consumed]
    exact h.reads
  · intro f hf hne
    -- the receiver has not come to the end, which is not there yet
    have hclosed := (h.stops f hf hne).1
    rw [hopen] at hclosed
    cases hclosed

theorem close (h : Sound ms s) : Sound ms (s.act .close) :=
  ⟨h.connection, h.fits, h.consumed, h.reads, fun f hf hne => ⟨rfl, (h.stops f hf hne).2⟩⟩

/-- The messages as the frames that were written. -/
theorem fits_frames (h : Sound ms s) : ∀ f ∈ ms.map Message.frame, format.Fits f.2.length := by
  intro f hf
  obtain ⟨m, hm, rfl⟩ := List.mem_map.mp hf
  exact h.fits m hm

/-- What was read, what was written after it, and what is still in the buffer. -/
theorem stream_eq (h : Sound ms s) : s.connection.socket.take s.consumed ++
    (s.connection.socket.drop s.consumed ++ s.connection.client.buffer)
      = (ms.map Message.frame).flatMap format.encode := by
  rw [flatMap_encode_frame, ← h.connection.stream, ← List.append_assoc, List.take_append_drop]

/-- A receiver that changes nothing but what it will return. -/
theorem of_failure (h : Sound ms s) {f : Option Failure}
    (hf : ∀ f' ∈ f, f' ≠ .failed → s.closed ∧ s.consumed = s.connection.socket.length ∧
      (f' = .eof ↔ s.receiver.reader.reading = .header [])) :
    Sound ms { s with receiver := { s.receiver with failure := f } } :=
  ⟨h.connection, h.fits, h.consumed, h.reads, hf⟩

/-- The bytes that a call of `read` takes. -/
theorem takes (h : Sound ms s) {n : ℕ} (hfailure : s.receiver.failure = none) :
    Sound ms (s.act (.read (.takes n))) := by
  have hsome : ¬ s.receiver.failure.isSome = true := by simp [hfailure]
  unfold Channel.act Receiver.read
  dsimp only
  rw [if_neg hsome]
  split
  · next hnone =>
    have hall : s.consumed = s.connection.socket.length :=
      Nat.le_antisymm h.consumed (List.drop_eq_nil_iff.mp hnone)
    split
    · next hclosed =>
      split
      · next hreading =>
        refine h.of_failure fun f hf _ => ⟨hclosed, hall, ?_⟩
        obtain rfl := Option.some_inj.mp hf
        exact iff_of_true rfl hreading
      · next hreading =>
        refine h.of_failure fun f hf _ => ⟨hclosed, hall, ?_⟩
        obtain rfl := Option.some_inj.mp hf
        exact iff_of_false (by decide) hreading
    · exact h
  · dsimp only
    generalize hpiece : (s.connection.socket.drop s.consumed).take
      (min n (s.receiver.reader.reading.wanted format)) = piece
    have hle : piece.length ≤ s.receiver.reader.reading.wanted format := by
      rw [← hpiece, List.length_take]
      omega
    have hmore : piece.length ≤ s.connection.socket.length - s.consumed := by
      rw [← hpiece, List.length_take, List.length_drop]
      omega
    have htake : s.connection.socket.take (s.consumed + piece.length)
        = s.connection.socket.take s.consumed ++ piece := by
      have hlen : piece = (s.connection.socket.drop s.consumed).take piece.length := by
        rw [← hpiece, List.length_take, List.take_eq_take_iff]
        omega
      rw [List.take_add, ← hlen]
    have hreads : Framing.Reads format (s.receiver.reader.feed format piece)
        (s.connection.socket.take s.consumed ++ piece) := by
      apply h.reads.feed h.fits_frames hle
        (z := s.connection.socket.drop (s.consumed + piece.length) ++ s.connection.client.buffer)
      rw [← htake, ← List.append_assoc, List.take_append_drop, flatMap_encode_frame,
        h.connection.stream]
    refine ⟨h.connection, h.fits, ?_, ?_, ?_⟩
    · have hconsumed := h.consumed
      dsimp only
      omega
    · dsimp only
      rw [htake]
      exact hreads
    · intro f hf
      dsimp only at hf
      rw [hreads.valid] at hf
      cases hf

theorem read (h : Sound ms s) {c : Read} (hr : Regular s (.read c)) :
    Sound ms (s.act (.read c)) := by
  cases hfailure : s.receiver.failure with
  | some f =>
    have hidle : s.act (.read c) = s := by
      simp [Channel.act, Receiver.read, hfailure]
    rw [hidle]
    exact h
  | none =>
    have hsome : ¬ s.receiver.failure.isSome = true := by simp [hfailure]
    cases c with
    | takes n => exact h.takes hfailure
    | error =>
      unfold Channel.act Receiver.read
      dsimp only
      rw [if_neg hsome]
      refine h.of_failure fun f hf hne => ?_
      exact absurd (Option.some_inj.mp hf).symm hne
    | again =>
      have hidle : s.act (.read .again) = s := by
        unfold Channel.act Receiver.read
        dsimp only
        rw [if_neg hsome]
        split
        · next got hreading =>
          -- nothing of a header was read, so that nothing is lost
          obtain rfl := hr got hreading
          rw [← hreading]
          rfl
        · rfl
      rw [hidle]
      exact h

end Sound

theorem sound_act (h : Sound ms s) {a : Action} (hr : Regular s a) :
    Sound (ms ++ sent [a]) (s.act a) := by
  cases a with
  | server e => exact h.server hr
  | close =>
    rw [show sent [.close] = [] from rfl, List.append_nil]
    exact h.close
  | read c =>
    rw [show sent [.read c] = [] from rfl, List.append_nil]
    exact h.read hr

theorem sent_cons (a : Action) (as : List Action) : sent (a :: as) = sent [a] ++ sent as := by
  cases a with
  | server e => exact messages_cons e _
  | close => rfl
  | read c => rfl

theorem sound_after {as : List Action} (h : Sound ms s)
    (hr : Runs.Meets Channel.act Regular s as) :
    Sound (ms ++ sent as) (Runs.after Channel.act s as) := by
  induction as generalizing ms s with
  | nil => simpa [sent, messages] using h
  | cons a as ih =>
    obtain ⟨ha, has⟩ := (Runs.meets_cons s a as).mp hr
    have hrest := ih (sound_act h ha) has
    rwa [List.append_assoc, ← sent_cons] at hrest

/-- What the receiver has of the messages `ms` that were sent. -/
structure Delivers (ms : List Message) (s : Channel) : Prop where
  /-- It received the first of them, in order. -/
  received : s.receiver.received <+: ms
  /-- It received all of them once all is written and read. -/
  all : s.connection.client.buffer = [] → s.consumed = s.connection.socket.length →
    s.receiver.received = ms
  /-- A violation of the protocol is the end of the connection before the end of a message. -/
  violated : s.receiver.failure = some .violated → s.closed ∧ s.connection.client.buffer ≠ []
  /-- At the end of the stream, nothing of a message was written that was not received. -/
  eof : s.receiver.failure = some .eof → s.closed ∧
    s.receiver.received.flatMap Message.encode = s.connection.socket

theorem Receiver.map_frame_received (r : Receiver) :
    r.received.map Message.frame = r.reader.frames := by
  rw [Receiver.received, List.map_map]
  exact List.map_id _

theorem map_frame_inj {as bs : List Message} (h : as.map Message.frame = bs.map Message.frame) :
    as = bs := by
  refine List.map_injective_iff.mpr (fun m m' hm => ?_) h
  obtain ⟨htype, hpayload⟩ := Prod.mk.inj hm
  cases m
  cases m'
  exact congrArg₂ Message.mk htype hpayload

theorem Sound.delivers (h : Sound ms s) : Delivers ms s := by
  have hall (hbuffer : s.connection.client.buffer = [])
      (hconsumed : s.consumed = s.connection.socket.length) :
      s.receiver.received = ms ∧ s.receiver.reader.reading = .header [] := by
    have hstream := h.stream_eq
    rw [hbuffer, hconsumed, List.drop_length, List.append_nil, List.append_nil,
      ← hconsumed] at hstream
    obtain ⟨hframes, hreading⟩ := h.reads.frames_eq h.fits_frames hstream
    rw [← Receiver.map_frame_received] at hframes
    exact ⟨map_frame_inj hframes, hreading⟩
  refine ⟨?_, fun hb hc => (hall hb hc).1, ?_, ?_⟩
  · obtain ⟨rest, hrest, -⟩ := h.reads.frames_prefix h.fits_frames h.stream_eq
    rw [← Receiver.map_frame_received, List.map_eq_append_iff] at hrest
    obtain ⟨ms₁, ms₂, rfl, hms, -⟩ := hrest
    rw [← map_frame_inj hms]
    exact List.prefix_append _ _
  · intro hviolated
    obtain ⟨hclosed, hconsumed, heof⟩ := h.stops .violated hviolated (by decide)
    refine ⟨hclosed, fun hbuffer => ?_⟩
    -- with an empty buffer, all messages are there
    cases heof.mpr (hall hbuffer hconsumed).2
  · intro hend
    obtain ⟨hclosed, hconsumed, heof⟩ := h.stops .eof hend (by decide)
    refine ⟨hclosed, ?_⟩
    have hstream := h.reads.stream
    rw [heof.mp rfl, hconsumed, List.take_length, ← Receiver.map_frame_received,
      flatMap_encode_frame] at hstream
    simpa [Framing.Reading.held] using hstream

/-- **The channel delivers**: in every run in which no call of `read` fails for now in the middle of a
header, the messages received are the first of those sent, whatever pieces they were written
and read in. -/
theorem channel_delivers (as : List Action) (h : Runs.Meets Channel.act Regular {} as) :
    Delivers (sent as) (Runs.after Channel.act {} as) := by
  have hnew : Sound [] {} :=
    ⟨⟨rfl, rfl, rfl⟩, by simp, Nat.zero_le _, Framing.reads_nil, by simp⟩
  exact (sound_after hnew h).delivers

/-- Two messages, the first cut in the middle of its header, the second by the end of the
connection. -/
def cutRun : List Action :=
  [.server (.send ⟨0, [1, 2]⟩ [.takes 10, .again]), .read (.takes 4), .server (.send ⟨4, [3]⟩ []),
    .read (.takes 100), .server (.writeable [.intr, .takes 20]), .read (.takes 100),
    .read (.takes 1), .read .again, .read (.takes 5), .close, .read (.takes 100),
    .read (.takes 100)]

theorem channel_delivers_cutRun : Delivers (sent cutRun) (Runs.after Channel.act {} cutRun) :=
  channel_delivers cutRun (by decide)

end Ipc

end I3
