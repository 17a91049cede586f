import Mathlib.Data.List.Basic
import I3Aiwr.Log.Ring

/-!
# What the reader of the log prints

`i3-dump-log` reconstructs the order of the messages from the next write and the last wrap. It
prints a suffix of the messages written as long as the writer is still below the end of the last
lap; once a later lap is the longer one, the rest of the last lap it prints has a negative length.
The condition is exact, message by message, and so is the room a message needs.

## Main definitions

* `Ring.Readable r written`: the reader prints a suffix of the messages
* `Ring.WritesInside r len`: a message of `len` bytes is written behind the header, in the buffer
* `Ring.Fits r line`: the message fits, and the lap does not reach past the end of the last one
* `Ring.Laps r written`: what the buffer holds: this lap, and the rest of the last one

## Main results

* `Ring.readable_iff`: when the reader prints a suffix
* `Ring.Laps.vlog`: a message that fits keeps the laps
* `Shmlog.sound_iff_fits`: over any run, writes and reader are sound iff each message fits
-/

namespace I3.Log

/-- The bytes of a sequence of messages. -/
def bytesOf (ls : List Line) : List UInt8 := ls.flatMap Line.bytes

namespace Ring

/-- The reader prints a suffix of the messages written, each complete and in order. -/
def Readable (r : Ring) (written : List Line) : Prop :=
  ∃ ls, ls <:+ written ∧ r.dump = some (bytesOf ls)

/-- A message of `len` bytes is written behind the header, in the buffer. -/
def WritesInside (r : Ring) (len : ℕ) : Prop :=
  headerSize ≤ (r.makeRoom len).logwalk ∧ (r.makeRoom len).logwalk + len ≤ r.logbufferSize

/-- With the next write at `walk`, the last wrap at `lastWrap` and after `wrapCount` wraps, the rest
of the last lap lies behind the next write. -/
def BelowLastLap (r : Ring) (walk lastWrap wrapCount : ℕ) : Prop :=
  wrapCount % 2 ^ 32 = 0 ∨ walk < lastWrap ∨ (walk = lastWrap ∧ r.mem walk = 0)

/-- The message fits into the buffer, and its end stays below the end of the last lap. -/
def Fits (r : Ring) (line : Line) : Prop :=
  headerSize + line.bytes.length < r.logbufferSize ∧
    if line.bytes.length < r.space then
      r.BelowLastLap (r.logwalk + line.bytes.length) r.loglastwrap r.header.wrapCount
    else r.BelowLastLap (headerSize + line.bytes.length) r.logwalk (r.header.wrapCount + 1)

end Ring

/-! ### Slices of the memory -/

section Slice

variable {mem : ℕ → UInt8} {a b c d k : ℕ} {bs : List UInt8}

theorem slice_eq_nil (h : b ≤ a) : slice mem a b = [] := by
  rw [slice, Nat.sub_eq_zero_of_le h]
  rfl

theorem slice_cons (h : a < b) : slice mem a b = mem a :: slice mem (a + 1) b := by
  obtain ⟨n, rfl⟩ : ∃ n, b = a + (n + 1) := ⟨b - a - 1, by omega⟩
  rw [slice, slice, show a + (n + 1) - a = n + 1 by omega, show a + (n + 1) - (a + 1) = n by omega,
    List.range'_succ, List.map_cons]

theorem length_slice : (slice mem a b).length = b - a := by
  simp [slice]

theorem drop_slice : (slice mem a b).drop k = slice mem (a + k) b := by
  induction k generalizing a with
  | zero => rfl
  | succ k ih =>
    rcases Nat.lt_or_ge a b with h | h
    · rw [slice_cons h, List.drop_succ_cons, ih, Nat.add_right_comm, Nat.add_assoc]
    · rw [slice_eq_nil h, slice_eq_nil (by omega), List.drop_nil]

theorem mem_slice {x : UInt8} : x ∈ slice mem a b ↔ ∃ p, a ≤ p ∧ p < b ∧ mem p = x := by
  simp only [slice, List.mem_map, List.mem_range'_1]
  constructor
  · rintro ⟨p, hp, hx⟩
    exact ⟨p, hp.1, by omega, hx⟩
  · rintro ⟨p, hap, hpb, hx⟩
    exact ⟨p, ⟨hap, by omega⟩, hx⟩

theorem slice_congr {mem' : ℕ → UInt8} (h : ∀ p, a ≤ p → p < b → mem' p = mem p) :
    slice mem' a b = slice mem a b := by
  rw [slice, slice, List.map_inj_left]
  intro p hp
  rw [List.mem_range'_1] at hp
  exact h p hp.1 (by omega)

theorem slice_append (hab : a ≤ b) (hbc : b ≤ c) :
    slice mem a b ++ slice mem b c = slice mem a c := by
  rw [slice, slice, slice, ← List.map_append]
  congr 1
  have h := List.range'_append_1 (s := a) (m := b - a) (n := c - b)
  rw [show a + (b - a) = b by omega, show b - a + (c - b) = c - a by omega] at h
  exact h

@[simp] theorem strncpy_of_lt {p : ℕ} (h : p < d) : strncpy mem d bs p = mem p := if_pos h

@[simp] theorem strncpy_of_le {p : ℕ} (h : d + bs.length ≤ p) : strncpy mem d bs p = mem p := by
  rw [strncpy, if_neg (by omega), List.getElem?_eq_none (by omega), Option.getD_none]

theorem slice_strncpy : slice (strncpy mem d bs) d (d + bs.length) = bs := by
  apply List.ext_getElem
  · rw [length_slice]
    omega
  · intro i _ hi
    have hget : bs[i]? = some bs[i] := List.getElem?_eq_getElem hi
    have hge : ¬ d + i < d := by omega
    simp [slice, strncpy, hget, hge]

end Slice

/-! ### Lines -/

/-- The bytes behind the first newline. -/
def behindNewline (bs : List UInt8) : List UInt8 := (bs.dropWhile (· ≠ newline)).tail

theorem behindNewline_newline (bs : List UInt8) : behindNewline (newline :: bs) = bs := by
  simp [behindNewline]

theorem behindNewline_cons {b : UInt8} (h : b ≠ newline) (bs : List UInt8) :
    behindNewline (b :: bs) = behindNewline bs := by
  simp [behindNewline, h]

theorem behindNewline_append {bs : List UInt8} (h : newline ∉ bs) (cs : List UInt8) :
    behindNewline (bs ++ newline :: cs) = cs := by
  induction bs with
  | nil => exact behindNewline_newline cs
  | cons b bs ih =>
    rw [List.mem_cons, not_or] at h
    rw [List.cons_append, behindNewline_cons (Ne.symm h.1), ih h.2]

theorem bytesOf_cons (l : Line) (ls : List Line) : bytesOf (l :: ls) = l.bytes ++ bytesOf ls := by
  simp [bytesOf]

theorem bytesOf_append (ls ls' : List Line) : bytesOf (ls ++ ls') = bytesOf ls ++ bytesOf ls' := by
  simp [bytesOf]

theorem Line.length_bytes (l : Line) : l.bytes.length = l.body.length + 1 := by
  simp [Line.bytes]

theorem Line.formatted_bytes (l : Line) : formatted l.bytes = l.bytes := by
  rw [formatted, if_pos (by rw [l.length_bytes]; exact l.short)]

theorem Line.ne_zero {l : Line} {b : UInt8} (h : b ∈ l.bytes) : b ≠ 0 := by
  rw [Line.bytes, List.mem_append, List.mem_singleton] at h
  rintro rfl
  rcases h with h | h
  · exact l.noNul h
  · exact absurd h (by decide)

theorem ne_zero_of_mem_bytesOf {ls : List Line} {b : UInt8} (h : b ∈ bytesOf ls) : b ≠ 0 := by
  obtain ⟨l, -, hb⟩ := List.mem_flatMap.mp h
  exact l.ne_zero hb

/-- Cut anywhere, a sequence of messages continues behind the next newline with a message. -/
theorem behindNewline_drop_bytesOf (ls : List Line) (k : ℕ) (hk : k < (bytesOf ls).length) :
    newline ∈ (bytesOf ls).drop k ∧
      ∃ ls', ls' <:+ ls ∧ behindNewline ((bytesOf ls).drop k) = bytesOf ls' := by
  induction ls generalizing k with
  | nil => simp [bytesOf] at hk
  | cons l ls ih =>
    have hlen := l.length_bytes
    rw [bytesOf_cons] at hk ⊢
    rcases Nat.lt_or_ge k l.bytes.length with hlt | hge
    · -- the cut is in the first message
      have hdrop : (l.bytes ++ bytesOf ls).drop k = l.body.drop k ++ newline :: bytesOf ls := by
        rw [List.drop_append_of_le_length (by omega), Line.bytes,
          List.drop_append_of_le_length (by omega), List.append_assoc, List.singleton_append]
      have hbody : newline ∉ l.body.drop k := fun h => l.noNewline (List.mem_of_mem_drop h)
      rw [hdrop]
      exact ⟨by simp, ls, List.suffix_cons l ls, behindNewline_append hbody _⟩
    · rw [List.drop_append, List.drop_eq_nil_of_le hge, List.nil_append]
      rw [List.length_append] at hk
      obtain ⟨hnl, ls', hls', heq⟩ := ih (k - l.bytes.length) (by omega)
      exact ⟨hnl, ls', hls'.trans (List.suffix_cons l ls), heq⟩

namespace Ring

variable {r : Ring} {written : List Line}

/-! ### Skipping a line -/

theorem lt_of_skipLineN {n p q : ℕ} (h : r.skipLineN n p = some q) : p < q := by
  induction n generalizing p with
  | zero => cases h
  | succ n ih =>
    rw [skipLineN] at h
    split_ifs at h with hp
    · cases h
      omega
    · have := ih h
      omega

theorem skipLineN_eq {n p b : ℕ} (hb : b ≤ p + n) (h : newline ∈ slice r.mem p b) :
    ∃ q, r.skipLineN n p = some q ∧ q ≤ b ∧ slice r.mem q b = behindNewline (slice r.mem p b) := by
  induction n generalizing p with
  | zero => simp [slice_eq_nil (show b ≤ p by omega)] at h
  | succ n ih =>
    have hpb : p < b := by
      by_contra hge
      simp [slice_eq_nil (Nat.le_of_not_lt hge)] at h
    rw [slice_cons hpb] at h ⊢
    by_cases hp : r.mem p = newline
    · rw [hp, behindNewline_newline]
      exact ⟨p + 1, if_pos hp, hpb, rfl⟩
    · obtain ⟨q, hq, hqb, heq⟩ := ih (by omega) (List.mem_of_ne_of_mem (Ne.symm hp) h)
      rw [behindNewline_cons hp]
      exact ⟨q, by rw [skipLineN, if_neg hp, hq], hqb, heq⟩

/-! ### The laps in the buffer -/

/-- The messages of this lap lie in front of the next write, the rest of the last lap behind it, and
a newline behind everything written. -/
structure Laps (r : Ring) (written : List Line) : Prop where
  nextWrite : r.header.offsetNextWrite = r.logwalk
  lastWrap : r.header.offsetLastWrap = r.loglastwrap
  wrapCount_lt : r.header.wrapCount < 2 ^ 32
  size_lt : r.logbufferSize < 2 ^ 32
  logwalk_lt : r.logwalk < r.logbufferSize
  loglastwrap_le : r.loglastwrap ≤ r.logbufferSize
  newlineBehind : ∀ p, headerSize ≤ p → r.mem p ≠ 0 →
    ∃ q, p ≤ q ∧ q < r.logbufferSize ∧ r.mem q = newline
  laps : ∃ last this, last ++ this <:+ written ∧
    r.logwalk = headerSize + (bytesOf this).length ∧
    slice r.mem headerSize r.logwalk = bytesOf this ∧
    (r.header.wrapCount ≠ 0 → r.loglastwrap = headerSize + (bytesOf last).length ∧
      slice r.mem r.logwalk r.loglastwrap = (bytesOf last).drop (r.logwalk - headerSize))

theorem Laps.headerSize_le (h : r.Laps written) : headerSize ≤ r.logwalk := by
  obtain ⟨_, _, -, hwalk, -⟩ := h.laps
  omega

theorem Laps.space_eq (h : r.Laps written) : r.space = r.logbufferSize - r.logwalk := by
  have h₁ := h.logwalk_lt
  have h₂ := h.size_lt
  rw [space]
  omega

/-! ### What the reader prints -/

/-- With the next write at the end of the buffer, the reader starts behind the buffer. -/
theorem dump_eq_none (h : r.logbufferSize ≤ r.header.offsetNextWrite) : r.dump = none := by
  rw [dump, dumpStart, if_pos h]
  rfl

theorem Laps.dumpStart_eq (h : r.Laps written) :
    r.dumpStart = if r.mem r.logwalk ≠ 0 then r.skipLine r.logwalk else some r.logwalk := by
  have := h.logwalk_lt
  rw [dumpStart, h.nextWrite, if_neg (by omega)]

/-- The reader finds its start: at the next write, or behind the line cut there. -/
theorem Laps.dumpStart_some (h : r.Laps written) :
    ∃ walk, r.dumpStart = some walk ∧ r.logwalk ≤ walk ∧
      (r.mem r.logwalk ≠ 0 → r.logwalk < walk) := by
  rw [h.dumpStart_eq]
  by_cases hz : r.mem r.logwalk = 0
  · exact ⟨r.logwalk, if_neg (not_not_intro hz), Nat.le_refl _, fun hn => absurd hz hn⟩
  · obtain ⟨q, hq, hqs, hnl⟩ := h.newlineBehind r.logwalk h.headerSize_le hz
    obtain ⟨walk, hskip, -, -⟩ := skipLineN_eq
      (show r.logbufferSize ≤ r.logwalk + (r.logbufferSize - r.logwalk) by omega)
      (mem_slice.mpr ⟨q, hq, hqs, hnl⟩)
    have hw := lt_of_skipLineN hskip
    exact ⟨walk, by rw [if_pos hz, skipLine, hskip], Nat.le_of_lt hw, fun _ => hw⟩

theorem Laps.dump_eq (h : r.Laps written) {walk : ℕ} {this : List Line}
    (hwalk : r.dumpStart = some walk) (hthis : slice r.mem headerSize r.logwalk = bytesOf this) :
    r.dump = (if r.header.wrapCount = 0 then some [] else r.swrite walk r.loglastwrap).map
      (· ++ bytesOf this) := by
  have hnew : r.swrite headerSize r.header.offsetNextWrite = some (bytesOf this) := by
    rw [swrite, h.nextWrite, if_pos ⟨h.headerSize_le, Nat.le_of_lt h.logwalk_lt⟩, hthis]
  have hold : r.checkForWrap walk =
      if r.header.wrapCount = 0 then some [] else r.swrite walk r.loglastwrap := by
    rw [checkForWrap, h.lastWrap]
  rw [dump, hwalk, ← hold]
  cases hc : r.checkForWrap walk <;> simp [hc, hnew]

/-- Behind the last lap, the rest of it has a negative length. -/
theorem Laps.belowLastLap_of_dump (h : r.Laps written) (hwc : r.header.wrapCount ≠ 0)
    (hdump : r.dump ≠ none) : r.BelowLastLap r.logwalk r.loglastwrap r.header.wrapCount := by
  obtain ⟨last, this, -, -, hthis, -⟩ := h.laps
  obtain ⟨walk, hwalk, hle, hlt⟩ := h.dumpStart_some
  rw [h.dump_eq hwalk hthis, if_neg hwc] at hdump
  have hprint : walk ≤ r.loglastwrap := by
    by_contra hneg
    exact hdump (by rw [swrite, if_neg (fun hc => hneg hc.1)]; rfl)
  right
  rcases Nat.lt_or_ge r.logwalk r.loglastwrap with hbelow | hreach
  · exact Or.inl hbelow
  · refine Or.inr ⟨by omega, ?_⟩
    by_contra hz
    have := hlt hz
    omega

/-- In front of the end of the last lap, the reader prints the rest of it from the first message
that is complete. -/
theorem Laps.readable_of_lt (h : r.Laps written) (hwc : r.header.wrapCount ≠ 0)
    (hlt : r.logwalk < r.loglastwrap) : r.Readable written := by
  obtain ⟨last, this, hsuf, hwalk, hthis, hlast⟩ := h.laps
  obtain ⟨hwrap, hrest⟩ := hlast hwc
  have hcut := behindNewline_drop_bytesOf last (r.logwalk - headerSize) (by omega)
  rw [← hrest] at hcut
  obtain ⟨hnl, ls, hls, heq⟩ := hcut
  -- the next write lies inside a message of the last lap, so the line there is skipped
  have hz : r.mem r.logwalk ≠ 0 := by
    have hmem : r.mem r.logwalk ∈ (bytesOf last).drop (r.logwalk - headerSize) := by
      rw [← hrest, slice_cons hlt]
      exact List.mem_cons_self
    exact ne_zero_of_mem_bytesOf (List.mem_of_mem_drop hmem)
  have hsize := h.loglastwrap_le
  obtain ⟨q, hq, hqb, hqs⟩ := skipLineN_eq
    (show r.loglastwrap ≤ r.logwalk + (r.logbufferSize - r.logwalk) by omega) hnl
  have hstart : r.dumpStart = some q := by rw [h.dumpStart_eq, if_pos hz, skipLine, hq]
  refine ⟨ls ++ this, ?_, ?_⟩
  · obtain ⟨pre, rfl⟩ := hls
    rw [List.append_assoc] at hsuf
    exact (List.suffix_append pre (ls ++ this)).trans hsuf
  · rw [h.dump_eq hstart hthis, if_neg hwc, swrite, if_pos ⟨hqb, hsize⟩, hqs, heq, bytesOf_append]
    rfl

/-- **When the reader prints a suffix**: never wrapped, or still below the end of the last lap. -/
theorem readable_iff (h : r.Laps written) :
    r.Readable written ↔ r.BelowLastLap r.logwalk r.loglastwrap r.header.wrapCount := by
  obtain ⟨last, this, hsuf, -, hthis, -⟩ := h.laps
  have hthisSuf : this <:+ written := (List.suffix_append last this).trans hsuf
  constructor
  · rintro ⟨ls, -, hls⟩
    by_cases hwc : r.header.wrapCount = 0
    · exact Or.inl (by rw [hwc, Nat.zero_mod])
    · exact h.belowLastLap_of_dump hwc (by rw [hls]; exact Option.some_ne_none _)
  · rw [BelowLastLap, Nat.mod_eq_of_lt h.wrapCount_lt]
    intro hbelow
    by_cases hwc : r.header.wrapCount = 0
    · obtain ⟨walk, hwalk, -, -⟩ := h.dumpStart_some
      refine ⟨this, hthisSuf, ?_⟩
      rw [h.dump_eq hwalk hthis, if_pos hwc]
      rfl
    · rcases hbelow with h0 | hlt | ⟨hreach, hz⟩
      · exact absurd h0 hwc
      · exact h.readable_of_lt hwc hlt
      · have hstart : r.dumpStart = some r.logwalk := by
          rw [h.dumpStart_eq, if_neg (not_not_intro hz)]
        refine ⟨this, hthisSuf, ?_⟩
        rw [h.dump_eq hstart hthis, if_neg hwc, swrite,
          if_pos ⟨Nat.le_of_eq hreach, h.loglastwrap_le⟩, slice_eq_nil (Nat.le_of_eq hreach.symm)]
        rfl

/-! ### Writing a message -/

@[simp] theorem openLogbuffer_size (size : ℕ) : (openLogbuffer size).logbufferSize = size := rfl
@[simp] theorem wrap_logbufferSize (r : Ring) : r.wrap.logbufferSize = r.logbufferSize := rfl
@[simp] theorem wrap_mem (r : Ring) : r.wrap.mem = r.mem := rfl
@[simp] theorem wrap_logwalk (r : Ring) : r.wrap.logwalk = headerSize := rfl
@[simp] theorem wrap_loglastwrap (r : Ring) : r.wrap.loglastwrap = r.logwalk := rfl
@[simp] theorem wrap_wrapCount (r : Ring) :
    r.wrap.header.wrapCount = (r.header.wrapCount + 1) % 2 ^ 32 := rfl

variable {bs : List UInt8}

@[simp] theorem append_logbufferSize : (r.append bs).logbufferSize = r.logbufferSize := rfl
@[simp] theorem append_mem : (r.append bs).mem = strncpy r.mem r.logwalk bs := rfl
@[simp] theorem append_logwalk : (r.append bs).logwalk = r.logwalk + bs.length := rfl
@[simp] theorem append_loglastwrap : (r.append bs).loglastwrap = r.loglastwrap := rfl
@[simp] theorem append_wrapCount : (r.append bs).header.wrapCount = r.header.wrapCount := rfl

/-- A mapped buffer holds no lap, if there is room behind the header. -/
theorem laps_openLogbuffer {size : ℕ} (hroom : headerSize < size) (hsize : size < 2 ^ 32) :
    (openLogbuffer size).Laps written where
  nextWrite := rfl
  lastWrap := Nat.mod_eq_of_lt hsize
  wrapCount_lt := show 0 < 2 ^ 32 by decide
  size_lt := hsize
  logwalk_lt := hroom
  loglastwrap_le := Nat.le_refl size
  newlineBehind := fun _ _ h => absurd rfl h
  laps := ⟨[], [], List.nil_suffix, rfl, rfl, fun h => absurd rfl h⟩

/-- Starting over: this lap becomes the last one. -/
theorem Laps.wrap (h : r.Laps written) : r.wrap.Laps written where
  nextWrite := rfl
  lastWrap := Nat.mod_eq_of_lt (Nat.lt_trans h.logwalk_lt h.size_lt)
  wrapCount_lt := Nat.mod_lt _ (by decide)
  size_lt := h.size_lt
  logwalk_lt := Nat.lt_of_le_of_lt h.headerSize_le h.logwalk_lt
  loglastwrap_le := Nat.le_of_lt h.logwalk_lt
  newlineBehind := h.newlineBehind
  laps := by
    obtain ⟨last, this, hsuf, hwalk, hthis, -⟩ := h.laps
    refine ⟨this, [], ?_, rfl, slice_eq_nil (Nat.le_refl _), fun _ => ⟨hwalk, ?_⟩⟩
    · rw [List.append_nil]
      exact (List.suffix_append last this).trans hsuf
    · rw [wrap_mem, wrap_logwalk, wrap_loglastwrap, hthis, Nat.sub_self, List.drop_zero]

/-- Behind every byte written there is still a newline: its old one, or that of the message. -/
theorem Laps.newlineBehind_append (h : r.Laps written) (line : Line)
    (hroom : r.logwalk + line.bytes.length < r.logbufferSize) (p : ℕ) (hp : headerSize ≤ p)
    (hz : (r.append line.bytes).mem p ≠ 0) :
    ∃ q, p ≤ q ∧ q < r.logbufferSize ∧ (r.append line.bytes).mem q = newline := by
  have hlen := line.length_bytes
  rcases Nat.lt_or_ge p (r.logwalk + line.bytes.length) with hlt | hge
  · refine ⟨r.logwalk + line.body.length, by omega, by omega, ?_⟩
    have hge : ¬ r.logwalk + line.body.length < r.logwalk := by omega
    rw [append_mem, strncpy, if_neg hge, Nat.add_sub_cancel_left, Line.bytes,
      List.getElem?_concat_length, Option.getD_some]
  · rw [append_mem, strncpy_of_le hge] at hz
    obtain ⟨q, hpq, hq, hnl⟩ := h.newlineBehind p hp hz
    exact ⟨q, hpq, hq, by rw [append_mem, strncpy_of_le (by omega), hnl]⟩

/-- Writing a message behind the last one, in the buffer, extends this lap. -/
theorem Laps.append (h : r.Laps written) (line : Line)
    (hroom : r.logwalk + line.bytes.length < r.logbufferSize) :
    (r.append line.bytes).Laps (written ++ [line]) where
  nextWrite := Nat.mod_eq_of_lt (Nat.lt_trans hroom h.size_lt)
  lastWrap := Nat.mod_eq_of_lt (Nat.lt_of_le_of_lt h.loglastwrap_le h.size_lt)
  wrapCount_lt := h.wrapCount_lt
  size_lt := h.size_lt
  logwalk_lt := hroom
  loglastwrap_le := h.loglastwrap_le
  newlineBehind := h.newlineBehind_append line hroom
  laps := by
    obtain ⟨last, this, hsuf, hwalk, hthis, hlast⟩ := h.laps
    refine ⟨last, this ++ [line], ?_, ?_, ?_, fun hwc => ?_⟩
    · obtain ⟨pre, rfl⟩ := hsuf
      exact ⟨pre, by simp⟩
    · rw [append_logwalk, hwalk, bytesOf_append, List.length_append, Nat.add_assoc, bytesOf_cons]
      simp [bytesOf]
    · have hold : slice (r.append line.bytes).mem headerSize r.logwalk = bytesOf this := by
        rw [← hthis]
        exact slice_congr fun p _ hp => strncpy_of_lt hp
      have hnew : slice (r.append line.bytes).mem r.logwalk (r.logwalk + line.bytes.length) =
          line.bytes := slice_strncpy
      rw [append_logwalk, ← slice_append h.headerSize_le (Nat.le_add_right _ _), hold, hnew,
        bytesOf_append]
      simp [bytesOf]
    · obtain ⟨hwrap, hrest⟩ := hlast hwc
      refine ⟨hwrap, ?_⟩
      have hbehind : slice (r.append line.bytes).mem (r.logwalk + line.bytes.length) r.loglastwrap =
          slice r.mem (r.logwalk + line.bytes.length) r.loglastwrap :=
        slice_congr fun p hp _ => strncpy_of_le hp
      have hle := h.headerSize_le
      rw [append_logwalk, append_loglastwrap, hbehind, ← drop_slice, hrest, List.drop_drop]
      congr 1
      omega

theorem Laps.makeRoom (h : r.Laps written) (len : ℕ) : (r.makeRoom len).Laps written := by
  rw [Ring.makeRoom]
  split_ifs
  · exact h.wrap
  · exact h

theorem vlog_bytes (r : Ring) (line : Line) :
    r.vlog line.bytes = (r.makeRoom line.bytes.length).append line.bytes := by
  rw [vlog, line.formatted_bytes]

/-- Where a message that is shorter than the space behind the header goes. -/
theorem Laps.makeRoom_lt (h : r.Laps written) {len : ℕ} (hlen : headerSize + len < r.logbufferSize) :
    (r.makeRoom len).logwalk + len < r.logbufferSize := by
  rw [Ring.makeRoom, h.space_eq]
  split_ifs
  · exact hlen
  · omega

@[simp] theorem makeRoom_logbufferSize (len : ℕ) :
    (r.makeRoom len).logbufferSize = r.logbufferSize := by
  rw [makeRoom]
  split_ifs <;> rfl

/-- **What a message preserves**: with room behind the header, it extends this lap, or makes it the
last one and starts a new one. -/
theorem Laps.vlog (h : r.Laps written) (line : Line)
    (hlen : headerSize + line.bytes.length < r.logbufferSize) :
    (r.vlog line.bytes).Laps (written ++ [line]) := by
  rw [vlog_bytes]
  exact (h.makeRoom _).append line (by rw [makeRoom_logbufferSize]; exact h.makeRoom_lt hlen)

/-- The reader after a message: it must be below the end of the last lap. -/
theorem belowLastLap_vlog (r : Ring) (line : Line) :
    (r.vlog line.bytes).BelowLastLap (r.vlog line.bytes).logwalk (r.vlog line.bytes).loglastwrap
        (r.vlog line.bytes).header.wrapCount ↔
      if line.bytes.length < r.space then
        r.BelowLastLap (r.logwalk + line.bytes.length) r.loglastwrap r.header.wrapCount
      else r.BelowLastLap (headerSize + line.bytes.length) r.logwalk (r.header.wrapCount + 1) := by
  rw [vlog_bytes, makeRoom]
  by_cases hspace : line.bytes.length < r.space
  · rw [if_pos hspace, if_neg (Nat.not_le_of_lt hspace)]
    simp [BelowLastLap]
  · rw [if_neg hspace, if_pos (Nat.le_of_not_lt hspace)]
    simp [BelowLastLap]

/-- **One message**: it is written in the buffer and leaves it readable iff it fits. -/
theorem Laps.vlog_sound_iff (h : r.Laps written) (line : Line) :
    r.WritesInside line.bytes.length ∧ (r.vlog line.bytes).Readable (written ++ [line]) ↔
      r.Fits line := by
  rw [Fits, ← belowLastLap_vlog]
  constructor
  · rintro ⟨⟨-, hinside⟩, ls, hls, hdump⟩
    have hroom : headerSize + line.bytes.length < r.logbufferSize := by
      by_contra hge
      -- the message ends with the buffer, and the reader starts behind it
      have hspace : line.bytes.length ≥ r.space := by
        have := h.headerSize_le
        rw [h.space_eq]
        omega
      have hnext : (r.vlog line.bytes).header.offsetNextWrite =
          (headerSize + line.bytes.length) % 2 ^ 32 := by
        rw [vlog_bytes, Ring.makeRoom, if_pos hspace]
        rfl
      have hend : headerSize + line.bytes.length = r.logbufferSize := by
        rw [Ring.makeRoom, if_pos hspace, wrap_logwalk] at hinside
        omega
      have hsize : (r.vlog line.bytes).logbufferSize = r.logbufferSize := by
        rw [vlog_bytes, append_logbufferSize, makeRoom_logbufferSize]
      rw [hend, Nat.mod_eq_of_lt h.size_lt] at hnext
      rw [dump_eq_none (Nat.le_of_eq (hsize.trans hnext.symm))] at hdump
      cases hdump
    exact ⟨hroom, (readable_iff (h.vlog line hroom)).mp ⟨ls, hls, hdump⟩⟩
  · rintro ⟨hroom, hbelow⟩
    refine ⟨⟨(h.makeRoom _).headerSize_le, Nat.le_of_lt (h.makeRoom_lt hroom)⟩, ?_⟩
    exact (readable_iff (h.vlog line hroom)).mpr hbelow

end Ring

/-! ## Runs -/

namespace Shmlog

variable {s : Shmlog}

/-- The event writes inside the buffer only, and a reader that runs after it prints a suffix of the
messages written. -/
def Sound (s : Shmlog) (e : LogEvent) : Prop :=
  (∀ line, e = .vlog line → ∀ r ∈ s.logbuffer, r.WritesInside line.bytes.length) ∧
    ∀ r ∈ (s.step e).logbuffer, r.Readable (s.step e).written

/-- If the buffer is going to be opened, it is larger than the header. -/
def OpensWithRoom (s : Shmlog) : Prop :=
  s.shmlogSize > 0 → s.logbuffer = none → s.logbufferSize ≠ 0 → headerSize < s.logbufferSize

/-- The buffer that an event opens is larger than the header, and the message that it writes fits. -/
def Fits (s : Shmlog) : LogEvent → Prop
  | .initLogging => s.OpensWithRoom
  | .cmdShmlog argument => (s.cmdShmlogSize argument).OpensWithRoom
  | .vlog line => ∀ r ∈ s.logbuffer, r.Fits line

/-- The size stays that of an `int`, and the buffer holds its laps and is readable. -/
structure Inv (s : Shmlog) : Prop where
  size_le : s.shmlogSize ≤ 2 ^ 31
  neg_size_le : -s.shmlogSize ≤ 2 ^ 31
  laps : ∀ r ∈ s.logbuffer, r.Laps s.written ∧ r.Readable s.written

theorem inv_start (n : ℤ) (mem : ℕ) : (start n mem).Inv where
  size_le := by
    have hlt : n.bmod (2 ^ 32) < (2 ^ 32 + 1) / 2 := Int.bmod_lt (by decide)
    exact Int.le_of_lt (Int.lt_of_lt_of_le hlt (by decide))
  neg_size_le := by
    have hle : -(2 ^ 32 / 2) ≤ n.bmod (2 ^ 32) := Int.le_bmod (by decide)
    exact Int.neg_le_of_neg_le hle
  laps := fun _ h => by cases h

theorem logbufferSize_lt (h : s.Inv) : s.logbufferSize < 2 ^ 32 := by
  have := h.size_le
  rw [logbufferSize]
  split_ifs <;> omega

/-- **What `init_logging` does**: it opens a buffer, or closes the one there is, or nothing. -/
theorem initLogging_cases (s : Shmlog) :
    (s.shmlogSize > 0 ∧ s.logbuffer = none ∧ s.logbufferSize ≠ 0 ∧
      s.initLogging = { s with logbuffer := some (Ring.openLogbuffer s.logbufferSize) }) ∨
    (¬ (s.shmlogSize > 0 ∧ s.logbuffer = none ∧ s.logbufferSize ≠ 0) ∧
      (s.initLogging = { s with logbuffer := none } ∨ s.initLogging = s)) := by
  rw [initLogging, ← Option.isNone_iff_eq_none]
  split_ifs with hopen hzero hclose
  · exact Or.inr ⟨fun h => h.2.2 hzero, Or.inr rfl⟩
  · exact Or.inl ⟨hopen.1, hopen.2, hzero, rfl⟩
  · exact Or.inr ⟨fun h => hopen ⟨h.1, h.2.1⟩, Or.inl rfl⟩
  · exact Or.inr ⟨fun h => hopen ⟨h.1, h.2.1⟩, Or.inr rfl⟩

/-- Initialising logging leaves a readable log iff it opens no buffer smaller than the header. -/
theorem initLogging_readable (h : s.Inv) :
    (∀ r ∈ s.initLogging.logbuffer, r.Readable s.initLogging.written) ↔ s.OpensWithRoom := by
  rcases s.initLogging_cases with ⟨hpos, hnull, hsize, heq⟩ | ⟨hnot, heq⟩
  · rw [heq]
    constructor
    · intro hread _ _ _
      by_contra hsmall
      obtain ⟨ls, -, hdump⟩ := hread _ rfl
      rw [Ring.dump_eq_none (Nat.le_of_not_lt hsmall)] at hdump
      cases hdump
    · rintro hroom r ⟨⟩
      have hlaps : (Ring.openLogbuffer s.logbufferSize).Laps s.written :=
        Ring.laps_openLogbuffer (hroom hpos hnull hsize) (logbufferSize_lt h)
      exact (Ring.readable_iff hlaps).mpr (Or.inl rfl)
  · refine iff_of_true (fun r hr => ?_) (fun hpos hnull hsize => absurd ⟨hpos, hnull, hsize⟩ hnot)
    rcases heq with heq | heq
    · rw [heq] at hr
      cases hr
    · rw [heq] at hr ⊢
      exact (h.laps r hr).2

theorem inv_initLogging (h : s.Inv) (hroom : s.OpensWithRoom) : s.initLogging.Inv := by
  have hread := (initLogging_readable h).mpr hroom
  rcases s.initLogging_cases with ⟨hpos, hnull, hsize, heq⟩ | ⟨-, heq | heq⟩
  · rw [heq] at hread ⊢
    refine ⟨h.size_le, h.neg_size_le, ?_⟩
    rintro r ⟨⟩
    exact ⟨Ring.laps_openLogbuffer (hroom hpos hnull hsize) (logbufferSize_lt h), hread _ rfl⟩
  · rw [heq]
    exact ⟨h.size_le, h.neg_size_le, fun _ hr => by cases hr⟩
  · rw [heq]
    exact h

theorem Inv.setSize (h : s.Inv) {n : ℤ} (hle : n ≤ 2 ^ 31) (hneg : -n ≤ 2 ^ 31) :
    Inv { s with shmlogSize := n } :=
  ⟨hle, hneg, h.laps⟩

theorem inv_cmdShmlogSize (h : s.Inv) (argument : ShmlogArgument) :
    (s.cmdShmlogSize argument).Inv := by
  cases argument with
  | toggle =>
    have := h.size_le
    have := h.neg_size_le
    refine h.setSize ?_ ?_ <;> rw [defaultShmlogSize] <;> split_ifs <;> omega
  | on => exact h.setSize (by decide) (by decide)
  | off => exact h.setSize (by decide) (by decide)
  | size newSize =>
    have hlt : newSize.bmod (2 ^ 32) < (2 ^ 32 + 1) / 2 := Int.bmod_lt (by decide)
    have hle : -(2 ^ 32 / 2) ≤ newSize.bmod (2 ^ 32) := Int.le_bmod (by decide)
    have hrest : Inv (if s.shmlogSize > 0 then initLogging { s with shmlogSize := 0 } else s) := by
      split_ifs
      · exact inv_initLogging (h.setSize (by decide) (by decide)) fun hpos => absurd hpos (Int.lt_irrefl 0)
      · exact h
    exact hrest.setSize (Int.le_of_lt (Int.lt_of_lt_of_le hlt (by decide)))
      (Int.neg_le_of_neg_le hle)

/-- **One event** is sound iff what it opens has room and what it writes fits. -/
theorem sound_iff (h : s.Inv) (e : LogEvent) : s.Sound e ↔ s.Fits e := by
  cases e with
  | initLogging =>
    exact (and_iff_right fun _ he => by cases he).trans (initLogging_readable h)
  | cmdShmlog argument =>
    exact (and_iff_right fun _ he => by cases he).trans
      (initLogging_readable (inv_cmdShmlogSize h argument))
  | vlog line =>
    rw [Sound, Fits]
    cases hr : s.logbuffer with
    | none => simp [step, hr]
    | some r =>
      have hone := (h.laps r hr).1.vlog_sound_iff line
      have hstep : s.step (.vlog line) =
          { s with logbuffer := some (r.vlog line.bytes), written := s.written ++ [line] } := by
        rw [step, hr]
      rw [hstep]
      constructor
      · rintro ⟨hinside, hread⟩ _ ⟨⟩
        exact hone.mp ⟨hinside line rfl r rfl, hread _ rfl⟩
      · intro hfits
        obtain ⟨hinside, hread⟩ := hone.mpr (hfits r rfl)
        constructor
        · rintro _ ⟨⟩ _ ⟨⟩
          exact hinside
        · rintro _ ⟨⟩
          exact hread

theorem inv_step (h : s.Inv) (e : LogEvent) (hfits : s.Fits e) : (s.step e).Inv := by
  have hread := ((sound_iff h e).mpr hfits).2
  cases e with
  | initLogging => exact inv_initLogging h hfits
  | cmdShmlog argument => exact inv_initLogging (inv_cmdShmlogSize h argument) hfits
  | vlog line =>
    cases hbuf : s.logbuffer with
    | none =>
      rw [step, hbuf]
      exact h
    | some r =>
      have hstep : s.step (.vlog line) =
          { s with logbuffer := some (r.vlog line.bytes), written := s.written ++ [line] } := by
        rw [step, hbuf]
      rw [hstep] at hread ⊢
      refine ⟨h.size_le, h.neg_size_le, ?_⟩
      rintro _ ⟨⟩
      exact ⟨(h.laps r hbuf).1.vlog line (hfits r hbuf).1, hread _ rfl⟩

/-- **The log is safe and readable** after each event of a run iff each buffer opened is larger than
the header and each message fits. -/
theorem sound_iff_fits (n : ℤ) (mem : ℕ) (es : List LogEvent) :
    Runs.Meets step Sound (start n mem) es ↔ Runs.Meets step Fits (start n mem) es :=
  Runs.meets_congr (I := Inv) (fun _ e h => sound_iff h e)
    (fun _ e h hsound => inv_step h e ((sound_iff h e).mp hsound)) (inv_start n mem) es

/-- A message of `n + 1` bytes. -/
def lineOfLength (n : ℕ) (h : n + 1 < 4096) : Line where
  body := List.replicate n 97
  noNul := fun h => absurd (List.eq_of_mem_replicate h) (by decide)
  noNewline := fun h => absurd (List.eq_of_mem_replicate h) (by decide)
  short := by rwa [List.length_replicate]

/-- In a buffer of 100 bytes, a message of 30 bytes makes a lap and one of 54 bytes a longer one: the
rest of the last lap has the length -24. -/
theorem shmlog_not_sound : ¬ ∀ (n : ℤ) (mem : ℕ) (es : List LogEvent),
    Runs.Meets step Sound (start n mem) es := by
  intro h
  have hrun := h 100 1000000
    [.initLogging, .vlog (lineOfLength 29 (by decide)), .vlog (lineOfLength 53 (by decide))]
  obtain ⟨-, -, ⟨-, hread⟩, -⟩ := hrun
  obtain ⟨ls, -, hdump⟩ := hread _ rfl
  have hnone : (((Ring.openLogbuffer 100).vlog (lineOfLength 29 (by decide)).bytes).vlog
      (lineOfLength 53 (by decide)).bytes).dump = none := by decide +kernel
  exact absurd (hnone.symm.trans hdump) (by simp)

end Shmlog

end I3.Log
