import Mathlib.Algebra.Order.Ring.Int
import I3Aiwr.Lib.Runs

/-!
# The shared-memory log

The ring buffer of `src/log.c` and its reader `i3-dump-log`. The writer appends each message behind
the last one and starts over at the end of the header when a message does not fit; three fields of
the header tell the reader where the next message goes, where the last lap ended, and how often the
writer started over. Offsets stand for pointers into the buffer.

## Main definitions

* `Ring`: the buffer, its header, and the pointers of the writer
* `Ring.vlog r text`: the writer
* `Ring.dump r`: what `i3-dump-log` prints without `-f`, or `none` where it reads outside the buffer
* `Line`: a log message as `LOG` formats it
* `Shmlog`, `Shmlog.step`: logging, and opening and closing the buffer
-/

namespace I3.Log

/-- `'\n'`. -/
def newline : UInt8 := 10

/-- `sizeof(i3_shmlog_header)`. -/
def headerSize : ℕ := 16

/-- `i3_shmlog_header`: four 32-bit counters. -/
structure ShmlogHeader where
  offsetNextWrite : ℕ := 0
  offsetLastWrap : ℕ := 0
  size : ℕ := 0
  wrapCount : ℕ := 0
  deriving DecidableEq, Repr

/-- The log buffer behind its header, and the pointers `logwalk` and `loglastwrap` into it. -/
structure Ring where
  logbufferSize : ℕ
  mem : ℕ → UInt8
  logwalk : ℕ
  loglastwrap : ℕ
  header : ShmlogHeader

/-- The bytes from `a` up to `b`. -/
def slice (mem : ℕ → UInt8) (a b : ℕ) : List UInt8 := (List.range' a (b - a)).map mem

/-- `strncpy` of bytes without a NUL. -/
def strncpy (mem : ℕ → UInt8) (dest : ℕ) (bytes : List UInt8) : ℕ → UInt8 :=
  fun p => if p < dest then mem p else (bytes[p - dest]?).getD (mem p)

/-- The message of `vlog`, in a buffer of 4096 bytes: a longer text is cut, and ends with a newline
and the NUL of `vsnprintf`. -/
def formatted (text : List UInt8) : List UInt8 :=
  if text.length < 4096 then text else text.take 4094 ++ [newline, 0]

namespace Ring

variable (r : Ring)

def storeLogMarkers : Ring :=
  { r with header := { r.header with
      offsetNextWrite := r.logwalk % 2 ^ 32
      offsetLastWrap := r.loglastwrap % 2 ^ 32
      size := r.logbufferSize % 2 ^ 32 } }

/-- The buffer `open_logbuffer` maps and initialises. -/
def openLogbuffer (size : ℕ) : Ring :=
  storeLogMarkers ⟨size, fun _ => 0, headerSize, size, {}⟩

/-- The bytes left behind `logwalk`, as a `size_t`. -/
def space : ℕ := (((r.logbufferSize : ℤ) - r.logwalk) % 2 ^ 64).toNat

/-- Starting over behind the header. -/
def wrap : Ring :=
  let r := { r with loglastwrap := r.logwalk, logwalk := headerSize }.storeLogMarkers
  { r with header := { r.header with wrapCount := (r.header.wrapCount + 1) % 2 ^ 32 } }

/-- The buffer after the check for space, where a message of `len` bytes is written. -/
def makeRoom (len : ℕ) : Ring := if len ≥ r.space then r.wrap else r

/-- Copying the message and moving the write pointer behind it. -/
def append (message : List UInt8) : Ring :=
  { r with
    mem := strncpy r.mem r.logwalk message
    logwalk := r.logwalk + message.length }.storeLogMarkers

/-- `vlog`, with the log buffer open. -/
def vlog (text : List UInt8) : Ring :=
  (r.makeRoom (formatted text).length).append (formatted text)

/-- The loop of `i3-dump-log` skipping a line, within the next `n` bytes. -/
def skipLineN : ℕ → ℕ → Option ℕ
  | 0, _ => none
  | n + 1, walk => if r.mem walk = newline then some (walk + 1) else skipLineN n (walk + 1)

/-- Behind the next newline, unless it lies outside the buffer. -/
def skipLine (walk : ℕ) : Option ℕ := r.skipLineN (r.logbufferSize - walk) walk

/-- `swrite` of the bytes from `a` up to `b`, unless their number is negative or they lie outside
the buffer. -/
def swrite (a b : ℕ) : Option (List UInt8) :=
  if a ≤ b ∧ b ≤ r.logbufferSize then some (slice r.mem a b) else none

/-- Where `main` starts to print: at the next write, behind the line it may have cut. -/
def dumpStart : Option ℕ :=
  if r.header.offsetNextWrite ≥ r.logbufferSize then none
  else if r.mem r.header.offsetNextWrite ≠ 0 then r.skipLine r.header.offsetNextWrite
  else some r.header.offsetNextWrite

/-- `check_for_wrap`: the rest of the last lap, from `walk` on. -/
def checkForWrap (walk : ℕ) : Option (List UInt8) :=
  if r.header.wrapCount = 0 then some [] else r.swrite walk r.header.offsetLastWrap

/-- `main` of `i3-dump-log`, not following: the rest of the last lap, then this one. -/
def dump : Option (List UInt8) := do
  let walk ← r.dumpStart
  let old ← r.checkForWrap walk
  let new ← r.swrite headerSize r.header.offsetNextWrite
  return old ++ new

end Ring

/-- A log message: one line, formatted to fewer than 4096 bytes. -/
structure Line where
  body : List UInt8
  noNul : 0 ∉ body
  noNewline : newline ∉ body
  short : body.length + 1 < 4096

def Line.bytes (l : Line) : List UInt8 := l.body ++ [newline]

/-- The arguments of the command `shmlog`. -/
inductive ShmlogArgument
  | toggle | on | off
  | size (newSize : ℤ)
  deriving DecidableEq, Repr

/-- Logging: the log buffer, `NULL` when closed, and the messages written to one so far. -/
structure Shmlog where
  shmlogSize : ℤ
  physicalMemBytes : ℕ
  logbuffer : Option Ring := none
  written : List Line := []

inductive LogEvent
  | initLogging
  | cmdShmlog (argument : ShmlogArgument)
  | vlog (line : Line)

namespace Shmlog

/-- Before logging is initialised: `shmlog_size` is an `int`. -/
def start (shmlogSize : ℤ) (physicalMemBytes : ℕ) : Shmlog :=
  { shmlogSize := shmlogSize.bmod (2 ^ 32), physicalMemBytes }

/-- `default_shmlog_size`. -/
def defaultShmlogSize : ℤ := 25 * 1024 * 1024

variable (s : Shmlog)

/-- `logbuffer_size`: at most one percent of the memory. -/
def logbufferSize : ℕ :=
  if (s.physicalMemBytes : ℤ) < 100 * s.shmlogSize then s.physicalMemBytes / 100
  else s.shmlogSize.toNat

/-- `init_logging`; allocating no bytes fails and leaves the buffer closed. -/
def initLogging : Shmlog :=
  if s.shmlogSize > 0 ∧ s.logbuffer.isNone then
    if s.logbufferSize = 0 then s
    else { s with logbuffer := some (Ring.openLogbuffer s.logbufferSize) }
  else if s.shmlogSize ≤ 0 ∧ s.logbuffer.isSome then { s with logbuffer := none }
  else s

/-- The shmlog size `cmd_shmlog` sets, an `int`, and whether the buffer is closed before. -/
def cmdShmlogSize : ShmlogArgument → Shmlog
  | .toggle =>
    { s with shmlogSize := if s.shmlogSize ≠ 0 then -s.shmlogSize else defaultShmlogSize }
  | .on => { s with shmlogSize := defaultShmlogSize }
  | .off => { s with shmlogSize := 0 }
  | .size newSize =>
    { if s.shmlogSize > 0 then initLogging { s with shmlogSize := 0 } else s with
      shmlogSize := newSize.bmod (2 ^ 32) }

/-- `cmd_shmlog`, less the messages it logs: they come before it, or go to the closed buffer. -/
def cmdShmlog (argument : ShmlogArgument) : Shmlog := (s.cmdShmlogSize argument).initLogging

/-- What an event does. With the buffer closed a message goes to standard output only. -/
def step (s : Shmlog) : LogEvent → Shmlog
  | .initLogging => s.initLogging
  | .cmdShmlog argument => s.cmdShmlog argument
  | .vlog line => match s.logbuffer with
    | none => s
    | some r =>
      { s with logbuffer := some (r.vlog line.bytes), written := s.written ++ [line] }

end Shmlog

end I3.Log
