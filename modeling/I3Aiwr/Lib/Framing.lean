import Mathlib.Data.List.Basic

/-!
# Frames with a header of a fixed width

A frame is a header of a fixed width, which tells the kind and the length of what follows, and a
payload of that length. A reader takes the stream in pieces of any size, none beyond the end of what
it reads now: the header first, the payload once the header is there. What it has read is always
the frames it completed followed by the part of the next one that it holds; and since a header
tells where its frame ends, these are the frames that were written.

## Main definitions

* `Framing.Format`, `Format.encode`
* `Framing.Reading`, `Framing.Reader`, `Reader.feed`
* `Framing.Reads`: what a reader has made of a stream

## Main results

* `Format.encode_append_inj`: a frame can be read off the stream it begins
* `Reads.feed`: a piece of what was written keeps the reader right
* `Reads.frames_prefix`, `Reads.frames_eq`: the frames read are the first of those written, and all of
  them once everything is read
-/

namespace Framing

variable {β κ : Type*}

/-- How headers are written and parsed. -/
structure Format (β κ : Type*) where
  /-- The length of every header. -/
  width : ℕ
  /-- The payload lengths a header can tell. -/
  Fits : ℕ → Prop
  header : κ → ℕ → List β
  parse : List β → Option (κ × ℕ)
  width_pos : 0 < width
  length_header : ∀ k n, (header k n).length = width
  parse_header : ∀ k n, Fits n → parse (header k n) = some (k, n)
  /-- A header that is parsed is the one that is written for what it tells. -/
  header_parse : ∀ l k n, l.length = width → parse l = some (k, n) → Fits n ∧ header k n = l

variable {F : Format β κ}

/-- A frame: its kind and its payload. -/
abbrev Frame (β κ : Type*) := κ × List β

namespace Format

def encode (F : Format β κ) (f : Frame β κ) : List β := F.header f.1 f.2.length ++ f.2

theorem width_le_length_encode (f : Frame β κ) : F.width ≤ (F.encode f).length := by
  rw [encode, List.length_append, F.length_header]
  exact Nat.le_add_right _ _

/-- Two streams that agree begin with the same header. -/
theorem header_append_inj {k k' : κ} {n n' : ℕ} {x y : List β} (hn : F.Fits n) (hn' : F.Fits n')
    (h : F.header k n ++ x = F.header k' n' ++ y) : (k = k' ∧ n = n') ∧ x = y := by
  have hlen : (F.header k n).length = (F.header k' n').length := by
    rw [F.length_header, F.length_header]
  obtain ⟨hheader, hrest⟩ := List.append_inj h hlen
  have hparse := congrArg F.parse hheader
  rw [F.parse_header k n hn, F.parse_header k' n' hn'] at hparse
  exact ⟨Prod.mk.inj (Option.some_inj.mp hparse), hrest⟩

/-- **A frame can be read off** the stream it begins. -/
theorem encode_append_inj {f g : Frame β κ} {x y : List β} (hf : F.Fits f.2.length)
    (hg : F.Fits g.2.length) (h : F.encode f ++ x = F.encode g ++ y) : f = g ∧ x = y := by
  rw [encode, encode, List.append_assoc, List.append_assoc] at h
  obtain ⟨⟨hkind, hlen⟩, hrest⟩ := header_append_inj hf hg h
  obtain ⟨hpayload, htail⟩ := List.append_inj hrest hlen
  exact ⟨Prod.ext hkind hpayload, htail⟩

end Format

/-! ### The reader -/

/-- Where a reader is: in a header of which it got a part, or in the payload that a header told. -/
inductive Reading (β κ : Type*)
  | header (got : List β)
  | payload (kind : κ) (length : ℕ) (got : List β)
  deriving DecidableEq, Repr

namespace Reading

/-- How much of the header or of the payload is missing. -/
def wanted (F : Format β κ) : Reading β κ → ℕ
  | header got => F.width - got.length
  | payload _ length got => length - got.length

/-- The part of the current frame that was read. -/
def held (F : Format β κ) : Reading β κ → List β
  | header got => got
  | payload kind length got => F.header kind length ++ got

/-- Something is missing, and the header told a length that it can tell. -/
def Partial (F : Format β κ) : Reading β κ → Prop
  | header got => got.length < F.width
  | payload _ length got => F.Fits length ∧ got.length < length

end Reading

/-- A reader: where it is, the frames it completed, and whether it met a header that is none. -/
structure Reader (β κ : Type*) where
  reading : Reading β κ := .header []
  frames : List (Frame β κ) := []
  invalid : Bool := false
  deriving DecidableEq, Repr

/-- The reader after the next piece of the stream. -/
def Reader.feed (F : Format β κ) (r : Reader β κ) (piece : List β) : Reader β κ :=
  match r.reading with
  | .header got =>
    if (got ++ piece).length < F.width then { r with reading := .header (got ++ piece) }
    else
      match F.parse (got ++ piece) with
      | none => { r with reading := .header (got ++ piece), invalid := true }
      | some (kind, length) =>
        if length = 0 then { r with reading := .header [], frames := r.frames ++ [(kind, [])] }
        else { r with reading := .payload kind length [] }
  | .payload kind length got =>
    if (got ++ piece).length < length then { r with reading := .payload kind length (got ++ piece) }
    else { r with reading := .header [], frames := r.frames ++ [(kind, got ++ piece)] }

/-- What the reader has made of `stream`: the frames it completed, and the part of one it holds. -/
structure Reads (F : Format β κ) (r : Reader β κ) (stream : List β) : Prop where
  stream : r.frames.flatMap F.encode ++ r.reading.held F = stream
  fits : ∀ f ∈ r.frames, F.Fits f.2.length
  part : r.reading.Partial F
  valid : r.invalid = false

theorem reads_nil : Reads F {} [] := ⟨rfl, by simp, F.width_pos, rfl⟩

/-- A reader that is in no frame holds nothing of one. -/
theorem Reading.eq_header_of_held {p : Reading β κ} (h : p.held F = []) : p = .header [] := by
  cases p with
  | header got => exact congrArg Reading.header h
  | payload kind length got =>
    have hlen := congrArg List.length h
    rw [Reading.held, List.length_append, F.length_header, List.length_nil] at hlen
    have hpos := F.width_pos
    omega

/-- What is held of a frame is not all of it. -/
theorem Reading.Partial.length_held_lt {p : Reading β κ} (hp : p.Partial F) {f : Frame β κ}
    (hf : F.Fits f.2.length) {x y : List β} (h : p.held F ++ x = F.encode f ++ y) :
    (p.held F).length < (F.encode f).length := by
  cases p with
  | header got => exact Nat.lt_of_lt_of_le hp (Format.width_le_length_encode f)
  | payload kind length got =>
    obtain ⟨hfits, hgot⟩ := hp
    rw [Reading.held, Format.encode, List.append_assoc, List.append_assoc] at h
    obtain ⟨⟨-, hlen⟩, -⟩ := Format.header_append_inj hfits hf h
    rw [Reading.held, Format.encode, List.length_append, List.length_append, F.length_header,
      F.length_header]
    omega

/-- Where the stream is one of frames, a part of one that is as long as a header is one. -/
theorem parse_of_prefix {fs : List (Frame β κ)} (hfs : ∀ f ∈ fs, F.Fits f.2.length) {l y : List β}
    (hl : l.length = F.width) (h : l ++ y = fs.flatMap F.encode) :
    ∃ k n, F.Fits n ∧ F.parse l = some (k, n) ∧ F.header k n = l := by
  cases fs with
  | nil =>
    have hlen := congrArg List.length h
    rw [List.length_append, List.flatMap_nil, List.length_nil] at hlen
    have hpos := F.width_pos
    omega
  | cons f fs =>
    rw [List.flatMap_cons, Format.encode, List.append_assoc] at h
    obtain ⟨rfl, -⟩ := List.append_inj h (hl.trans (F.length_header _ _).symm)
    have hf := hfs f List.mem_cons_self
    exact ⟨f.1, f.2.length, hf, F.parse_header _ _ hf, rfl⟩

/-- Frames at the beginning of a stream of frames are the first of them. -/
theorem exists_rest {fs gs : List (Frame β κ)} (hfs : ∀ f ∈ fs, F.Fits f.2.length)
    (hgs : ∀ g ∈ gs, F.Fits g.2.length) {x : List β}
    (h : fs.flatMap F.encode ++ x = gs.flatMap F.encode) :
    ∃ rest, gs = fs ++ rest ∧ x = rest.flatMap F.encode := by
  induction fs generalizing gs with
  | nil => exact ⟨gs, rfl, h⟩
  | cons f fs ih =>
    cases gs with
    | nil =>
      have hlen := congrArg List.length h
      rw [List.flatMap_cons, List.length_append, List.length_append, List.flatMap_nil,
        List.length_nil] at hlen
      have hw := Format.width_le_length_encode (F := F) f
      have hpos := F.width_pos
      omega
    | cons g gs =>
      rw [List.flatMap_cons, List.flatMap_cons, List.append_assoc] at h
      obtain ⟨rfl, htail⟩ := Format.encode_append_inj (hfs f List.mem_cons_self)
        (hgs g List.mem_cons_self) h
      obtain ⟨rest, rfl, hrest⟩ := ih (fun f hf => hfs f (List.mem_cons_of_mem _ hf))
        (fun g hg => hgs g (List.mem_cons_of_mem _ hg)) htail
      exact ⟨rest, rfl, hrest⟩

namespace Reads

variable {r : Reader β κ} {stream : List β}

/-- The frames read are the first of those written; what is held and what follows is the rest. -/
theorem frames_prefix (hr : Reads F r stream) {gs : List (Frame β κ)}
    (hgs : ∀ g ∈ gs, F.Fits g.2.length) {z : List β} (h : stream ++ z = gs.flatMap F.encode) :
    ∃ rest, gs = r.frames ++ rest ∧ r.reading.held F ++ z = rest.flatMap F.encode := by
  rw [← hr.stream, List.append_assoc] at h
  exact exists_rest hr.fits hgs h

/-- **Where everything is read**, the frames read are those written, and nothing is held. -/
theorem frames_eq (hr : Reads F r stream) {gs : List (Frame β κ)}
    (hgs : ∀ g ∈ gs, F.Fits g.2.length) (h : stream = gs.flatMap F.encode) :
    r.frames = gs ∧ r.reading = .header [] := by
  obtain ⟨rest, rfl, hheld⟩ := hr.frames_prefix hgs (z := []) (by rw [List.append_nil, h])
  cases rest with
  | nil =>
    rw [List.append_nil] at hheld
    exact ⟨(List.append_nil _).symm, Reading.eq_header_of_held hheld⟩
  | cons f rest =>
    rw [List.flatMap_cons] at hheld
    have hlt := hr.part.length_held_lt (hgs f (by simp)) hheld
    have hlen := congrArg List.length hheld
    rw [List.length_append, List.length_append, List.length_nil] at hlen
    omega

/-- **A piece of what was written** keeps the reader right, however the stream is cut. -/
theorem feed (hr : Reads F r stream) {gs : List (Frame β κ)} (hgs : ∀ g ∈ gs, F.Fits g.2.length)
    {piece z : List β} (hpiece : piece.length ≤ r.reading.wanted F)
    (h : stream ++ piece ++ z = gs.flatMap F.encode) :
    Reads F (r.feed F piece) (stream ++ piece) := by
  obtain ⟨rest, rfl, hheld⟩ := hr.frames_prefix hgs (z := piece ++ z) (by rw [← h, List.append_assoc])
  have hrest : ∀ f ∈ rest, F.Fits f.2.length := fun f hf => hgs f (List.mem_append_right _ hf)
  obtain ⟨hstream, hfits, hpart, hvalid⟩ := hr
  obtain ⟨reading, frames, invalid⟩ := r
  cases reading with
  | header got =>
    unfold Reader.feed
    dsimp only [Reading.wanted, Reading.held] at hpiece hheld hstream ⊢
    have hgot : got.length < F.width := hpart
    split
    · next hshort =>
      exact ⟨by rw [← hstream, List.append_assoc]; rfl, hfits, hshort, hvalid⟩
    · next hfull =>
      rw [List.length_append] at hfull
      have hwidth : (got ++ piece).length = F.width := by rw [List.length_append]; omega
      -- the header is there, and it is one that was written
      obtain ⟨k, n, hn, hparse, hheader⟩ := parse_of_prefix hrest hwidth (y := z)
        (by rw [← hheld, List.append_assoc])
      rw [hparse]
      dsimp only
      split
      · next hzero =>
        subst hzero
        refine ⟨?_, ?_, F.width_pos, hvalid⟩
        · rw [List.flatMap_append, List.flatMap_singleton, Format.encode, ← hstream]
          dsimp only [Reading.held, List.length_nil]
          rw [hheader, List.append_nil, List.append_nil, List.append_assoc]
        · intro f hf
          rcases List.mem_append.mp hf with hf | hf
          · exact hfits f hf
          · rw [List.mem_singleton.mp hf]
            exact hn
      · next hpos =>
        refine ⟨?_, hfits, ⟨hn, Nat.pos_of_ne_zero hpos⟩, hvalid⟩
        dsimp only [Reading.held]
        rw [hheader, List.append_nil, ← hstream, List.append_assoc]
  | payload k n got =>
    obtain ⟨hn, hgot⟩ := hpart
    unfold Reader.feed
    dsimp only [Reading.wanted, Reading.held] at hpiece hstream ⊢
    split
    · next hshort =>
      refine ⟨?_, hfits, ⟨hn, hshort⟩, hvalid⟩
      dsimp only [Reading.held]
      rw [← hstream, List.append_assoc, List.append_assoc]
    · next hfull =>
      rw [List.length_append] at hfull
      have hlen : (got ++ piece).length = n := by rw [List.length_append]; omega
      refine ⟨?_, ?_, F.width_pos, hvalid⟩
      · rw [List.flatMap_append, List.flatMap_singleton, Format.encode, ← hstream]
        dsimp only [Reading.held]
        rw [hlen, List.append_nil, List.append_assoc, List.append_assoc]
      · intro f hf
        rcases List.mem_append.mp hf with hf | hf
        · exact hfits f hf
        · rw [List.mem_singleton.mp hf]
          exact hlen ▸ hn

end Reads

end Framing
