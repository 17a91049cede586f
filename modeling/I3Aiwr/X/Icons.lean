import Mathlib.Data.List.Induction
import Mathlib.Tactic.Ring
import Mathlib.Tactic.NormNum

/-!
# The icon of a window

`window_update_icon` of `src/src/window.c` reads `_NET_WM_ICON`: icons one after another, each with its
width, its height and its pixels. It walks from icon to icon, keeps the one that suits the preferred size
best, and copies its pixels. The property is the client's, and the sizes in it may be anything; the length
of an icon is computed with 64 bits and compared with the rest of the property. The length of the largest
icons needs more bits than that.

## Main definitions

* `scan`: the loop over the icons
* `copyIcon`: the loop over the pixels
* `ReadsInside`: the function reads nothing outside of the property, and ends
* `met`: the icons met on the way through the property
* `IconsFit`: no length of an icon that the property seems to have is lost in 64 bits

## Main results

* `scan_eq`: what the loop chooses among the icons it meets
* `readsInside_iff`: when the function stays inside of the property
-/

namespace I3

namespace Icons

/-- The icon kept so far, with its place in the property. -/
structure Chosen where
  len : ℕ := 0
  width : ℕ := 0
  height : ℕ := 0
  data : Option ℕ := none
  deriving DecidableEq, Repr

/-- `cur_len`, of 64 bits. -/
def curLen (width height : ℕ) : ℕ := width * height % 2 ^ 64

/-- `expected_len`: the bytes of the icon, with its width and its height, of 64 bits. -/
def expectedLen (width height : ℕ) : ℕ := (curLen width height + 2) % 2 ^ 64 * 4 % 2 ^ 64

/-- The condition to keep an icon in place of the current one. -/
def Suits (prefSize : ℕ) (c : Chosen) (width height : ℕ) : Prop :=
  let atLeastPreferredSize := prefSize ≤ width ∧ prefSize ≤ height
  let smallerThanCurrent := width < c.width ∨ height < c.height
  let largerThanCurrent := c.width < width ∨ c.height < height
  let notYetAtPreferred := c.width < prefSize ∨ c.height < prefSize
  c.len = 0 ∨ (atLeastPreferredSize ∧ (smallerThanCurrent ∨ notYetAtPreferred))
    ∨ (¬ atLeastPreferredSize ∧ notYetAtPreferred ∧ largerThanCurrent)

instance (prefSize : ℕ) (c : Chosen) (width height : ℕ) :
    Decidable (Suits prefSize c width height) :=
  inferInstanceAs (Decidable (_ ∨ _ ∨ _))

/-- The icon at `data` is kept if it suits. -/
def consider (prefSize : ℕ) (c : Chosen) (data width height : ℕ) : Chosen :=
  if Suits prefSize c width height then ⟨curLen width height, width, height, some data⟩ else c

/-- The variables of the loop. The pointer is by its place in the property, in words; the length of what
is left is in bytes. -/
structure Scan where
  propValue : ℕ := 0
  propValueLen : ℕ
  chosen : Chosen := {}
  deriving DecidableEq, Repr

/-- What a round of the loop leads to. -/
inductive Turn
  /-- A word outside of the property is read. -/
  | outside
  | stop (s : Scan)
  | next (s : Scan)
  deriving DecidableEq, Repr

/-- What follows in a round once the width and the height are read. -/
def turnAt (prefSize : ℕ) (s : Scan) (width height : ℕ) : Turn :=
  if s.propValueLen < expectedLen width height then .stop s
  else
    let chosen := consider prefSize s.chosen s.propValue width height
    if chosen.width = prefSize ∧ chosen.height = prefSize then .stop { s with chosen }
    else .next
      { propValue := s.propValue + expectedLen width height / 4
        propValueLen := s.propValueLen - expectedLen width height
        chosen }

/-- A round of the loop over the icons. The height is read only where the width is not 0. -/
def turn (words : List UInt32) (prefSize : ℕ) (s : Scan) : Turn :=
  if 8 < s.propValueLen then
    match words[s.propValue]? with
    | none => .outside
    | some width =>
      if width = 0 then .stop s
      else
        match words[s.propValue + 1]? with
        | none => .outside
        | some height =>
          if height = 0 then .stop s else turnAt prefSize s width.toNat height.toNat
  else .stop s

/-- The loop over the icons, for at most `fuel` rounds. -/
def scan (words : List UInt32) (prefSize : ℕ) : ℕ → Scan → Turn
  | 0, s => .next s
  | fuel + 1, s =>
    match turn words prefSize s with
    | .next s' => scan words prefSize fuel s'
    | result => result

/-- The loop begins at the beginning. `prop_value_len` has 32 bits. -/
def start (words : List UInt32) : Scan := { propValueLen := 4 * words.length % 2 ^ 32 }

/-- A pixel for Cairo, with its colours multiplied by its alpha. -/
def premultiplied (pixel : UInt32) : UInt32 :=
  let a := (pixel >>> 24) &&& 0xff
  let r := (pixel >>> 16) &&& 0xff
  let g := (pixel >>> 8) &&& 0xff
  let b := pixel &&& 0xff
  (a <<< 24) ||| (((r * a) / 0xff) <<< 16) ||| (((g * a) / 0xff) <<< 8) ||| ((b * a) / 0xff)

/-- The loop over the pixels of the icon at `data`, `none` where one is outside of the property. -/
def copyIcon (words : List UInt32) (data len : ℕ) : Option (List UInt32) :=
  (List.range len).mapM fun i => (words[data + (2 + i)]?).map premultiplied

/-- **What the function is to do with any property**: the loop over the icons comes to its end, and all
pixels of the icon chosen are in the property. -/
def ReadsInside (words : List UInt32) (prefSize : ℕ) : Prop :=
  ∃ fuel s, scan words prefSize fuel (start words) = .stop s
    ∧ ∀ data ∈ s.chosen.data, (copyIcon words data s.chosen.len).isSome
      ∧ data + (2 + s.chosen.width * s.chosen.height) ≤ words.length

/-! ### The icons of a property -/

/-- An icon that the property seems to have, with its place. -/
structure Header where
  data : ℕ
  width : ℕ
  height : ℕ
  deriving DecidableEq, Repr

/-- The icon at a place, if there is something left of the property and the lengths agree. -/
def header (words : List UInt32) (propValue propValueLen : ℕ) : Option Header :=
  if 8 < propValueLen then
    match words[propValue]?, words[propValue + 1]? with
    | some width, some height =>
      if width ≠ 0 ∧ height ≠ 0 ∧ expectedLen width.toNat height.toNat ≤ propValueLen then
        some ⟨propValue, width.toNat, height.toNat⟩
      else none
    | _, _ => none
  else none

/-- The icons from a place on, to the first one of the preferred size. -/
def met (words : List UInt32) (prefSize : ℕ) : ℕ → ℕ → ℕ → List Header
  | 0, _, _ => []
  | fuel + 1, propValue, propValueLen =>
    match header words propValue propValueLen with
    | none => []
    | some x =>
      x :: if x.width = prefSize ∧ x.height = prefSize then [] else
        met words prefSize fuel (propValue + expectedLen x.width x.height / 4)
          (propValueLen - expectedLen x.width x.height)

/-- The icons of the property, of which none has less than a word. -/
def icons (words : List UInt32) (prefSize : ℕ) : List Header :=
  met words prefSize words.length 0 (start words).propValueLen

/-- The length of the icon has more than 64 bits. -/
def Header.Overflows (x : Header) : Prop := 2 ^ 64 ≤ (x.width * x.height + 2) * 4

instance (x : Header) : Decidable x.Overflows := inferInstanceAs (Decidable (_ ≤ _))

/-- The icon is at least of the preferred size. -/
def Header.AtLeast (prefSize : ℕ) (x : Header) : Prop := prefSize ≤ x.width ∧ prefSize ≤ x.height

instance (prefSize : ℕ) (x : Header) : Decidable (x.AtLeast prefSize) :=
  inferInstanceAs (Decidable (_ ∧ _))

/-- **No length is lost**: none becomes 0, and where one is too large for 64 bits there is also an icon
whose length is right and which has at least the preferred size. -/
def IconsFit (words : List UInt32) (prefSize : ℕ) : Prop :=
  (∀ x ∈ icons words prefSize, expectedLen x.width x.height ≠ 0)
    ∧ ((∃ x ∈ icons words prefSize, x.Overflows) →
      ∃ x ∈ icons words prefSize, ¬ x.Overflows ∧ x.AtLeast prefSize)

instance (words : List UInt32) (prefSize : ℕ) : Decidable (IconsFit words prefSize) :=
  inferInstanceAs (Decidable (_ ∧ (_ → _)))

/-! ### What is met -/

variable {words : List UInt32} {prefSize fuel propValue propValueLen : ℕ} {c : Chosen} {s : Scan}
  {x y : Header}

/-- What is left of the property is in it. -/
def Inside (words : List UInt32) (propValue propValueLen : ℕ) : Prop :=
  4 * propValue + propValueLen ≤ 4 * words.length ∧ propValueLen < 2 ^ 32

/-- What is known of an icon that is met. -/
structure Header.Sound (words : List UInt32) (x : Header) : Prop where
  width : 0 < x.width ∧ x.width < 2 ^ 32
  height : 0 < x.height ∧ x.height < 2 ^ 32
  fits : ¬ x.Overflows → x.data + (2 + x.width * x.height) ≤ words.length
  short : ¬ x.Overflows → (x.width * x.height + 2) * 4 < 2 ^ 32

theorem mul_lt_of_lt {w h : ℕ} (hw : w < 2 ^ 32) (hh : h < 2 ^ 32) :
    w * h ≤ (2 ^ 32 - 1) * (2 ^ 32 - 1) :=
  Nat.mul_le_mul (by omega) (by omega)

theorem curLen_eq {w h : ℕ} (hw : w < 2 ^ 32) (hh : h < 2 ^ 32) : curLen w h = w * h := by
  have := mul_lt_of_lt hw hh
  exact Nat.mod_eq_of_lt (by omega)

/-- The length is the right one but for what 64 bits do not hold. -/
theorem expectedLen_eq {w h : ℕ} (hw : w < 2 ^ 32) (hh : h < 2 ^ 32) :
    expectedLen w h = (w * h + 2) * 4 % 2 ^ 64 := by
  have := mul_lt_of_lt hw hh
  rw [expectedLen, curLen_eq hw hh, Nat.mod_eq_of_lt (by omega : w * h + 2 < 2 ^ 64)]

theorem four_dvd_expectedLen (w h : ℕ) : 4 ∣ expectedLen w h := by
  unfold expectedLen
  omega

theorem header_eq_some (h : header words propValue propValueLen = some x) :
    8 < propValueLen ∧ x.data = propValue
      ∧ (∃ w, words[propValue]? = some w ∧ w ≠ 0 ∧ x.width = w.toNat)
      ∧ (∃ w, words[propValue + 1]? = some w ∧ w ≠ 0 ∧ x.height = w.toNat)
      ∧ expectedLen x.width x.height ≤ propValueLen := by
  unfold header at h
  split at h
  · next hleft =>
    split at h
    · next width height hwidth hheight =>
      split at h
      · next hfits =>
        cases h
        exact ⟨hleft, rfl, ⟨width, hwidth, hfits.1, rfl⟩, ⟨height, hheight, hfits.2.1, rfl⟩, hfits.2.2⟩
      · cases h
    · cases h
  · cases h

theorem toNat_mem {w : UInt32} (h : w ≠ 0) : 0 < w.toNat ∧ w.toNat < 2 ^ 32 := by
  refine ⟨Nat.pos_of_ne_zero fun h0 => h (UInt32.toNat_inj.mp h0), w.toNat_lt⟩

/-- What is met is sound. -/
theorem Inside.sound (hin : Inside words propValue propValueLen)
    (h : header words propValue propValueLen = some x) : x.Sound words := by
  obtain ⟨-, rfl, ⟨w, -, hw, hwidth⟩, ⟨w', -, hw', hheight⟩, hfits⟩ := header_eq_some h
  have hwidth' : 0 < x.width ∧ x.width < 2 ^ 32 := hwidth ▸ toNat_mem hw
  have hheight' : 0 < x.height ∧ x.height < 2 ^ 32 := hheight ▸ toNat_mem hw'
  rw [expectedLen_eq hwidth'.2 hheight'.2] at hfits
  obtain ⟨hplace, hshort⟩ := hin
  refine ⟨hwidth', hheight', fun hlen => ?_, fun hlen => ?_⟩
  · rw [Nat.mod_eq_of_lt (not_le.mp hlen)] at hfits
    omega
  · rw [Nat.mod_eq_of_lt (not_le.mp hlen)] at hfits
    omega

/-- The next icon is in what is left too. -/
theorem Inside.next (hin : Inside words propValue propValueLen)
    (h : header words propValue propValueLen = some x) :
    Inside words (propValue + expectedLen x.width x.height / 4)
      (propValueLen - expectedLen x.width x.height) := by
  obtain ⟨-, -, -, -, hfits⟩ := header_eq_some h
  obtain ⟨hplace, hshort⟩ := hin
  obtain ⟨k, hk⟩ := four_dvd_expectedLen x.width x.height
  rw [hk] at hfits ⊢
  exact ⟨by omega, by omega⟩

theorem sound_of_mem_met (hin : Inside words propValue propValueLen)
    (hx : x ∈ met words prefSize fuel propValue propValueLen) : x.Sound words := by
  induction fuel generalizing propValue propValueLen with
  | zero => cases hx
  | succ fuel ih =>
    unfold met at hx
    split at hx
    · cases hx
    · next y hy =>
      rcases List.mem_cons.mp hx with rfl | hx
      · exact hin.sound hy
      · split at hx
        · cases hx
        · exact ih (hin.next hy) hx

/-! ### A round of the loop -/

/-- Where no icon is met, the loop ends. -/
theorem turn_of_none (hin : Inside words s.propValue s.propValueLen)
    (h : header words s.propValue s.propValueLen = none) : turn words prefSize s = .stop s := by
  unfold turn
  unfold header at h
  split
  · next hleft =>
    rw [if_pos hleft] at h
    have hwidth : s.propValue < words.length := by have := hin.1; omega
    have hheight : s.propValue + 1 < words.length := by have := hin.1; omega
    rw [List.getElem?_eq_getElem hwidth, List.getElem?_eq_getElem hheight] at h
    rw [List.getElem?_eq_getElem hwidth, List.getElem?_eq_getElem hheight]
    simp only [ite_eq_right_iff, reduceCtorEq, imp_false] at h
    dsimp only
    split
    · rfl
    · next hw =>
      split
      · rfl
      · next hh =>
        rw [turnAt, if_pos]
        by_contra hle
        exact h ⟨hw, hh, not_lt.mp hle⟩
  · rfl

/-- Where one is met, it is considered. -/
theorem turn_of_some (h : header words s.propValue s.propValueLen = some x) :
    turn words prefSize s =
      if (consider prefSize s.chosen x.data x.width x.height).width = prefSize
          ∧ (consider prefSize s.chosen x.data x.width x.height).height = prefSize then
        .stop { s with chosen := consider prefSize s.chosen x.data x.width x.height }
      else .next
        { propValue := s.propValue + expectedLen x.width x.height / 4
          propValueLen := s.propValueLen - expectedLen x.width x.height
          chosen := consider prefSize s.chosen x.data x.width x.height } := by
  obtain ⟨hleft, hdata, ⟨w, hw, hw0, hwidth⟩, ⟨w', hw', hw0', hheight⟩, hfits⟩ := header_eq_some h
  rw [turn, if_pos hleft, hw]
  dsimp only
  rw [if_neg hw0, hw']
  dsimp only
  rw [if_neg hw0', ← hwidth, ← hheight, turnAt, if_neg (not_lt.mpr hfits), hdata]

/-- No icon of the preferred size was kept so far. -/
def Open (prefSize : ℕ) (c : Chosen) : Prop :=
  c.len = 0 ∨ ¬ (c.width = prefSize ∧ c.height = prefSize)

/-- An icon of the preferred size is kept when it is met, and no other ends the loop. -/
theorem Open.consider_iff (hopen : Open prefSize c) :
    ((consider prefSize c x.data x.width x.height).width = prefSize
      ∧ (consider prefSize c x.data x.width x.height).height = prefSize)
      ↔ x.width = prefSize ∧ x.height = prefSize := by
  unfold consider
  split
  · rfl
  · next hsuits =>
    simp only [Suits, not_or] at hsuits
    obtain ⟨hlen, hat, -⟩ := hsuits
    have hopen := hopen.resolve_left hlen
    refine iff_of_false hopen ?_
    rintro ⟨rfl, hheight⟩
    refine hat ⟨⟨le_rfl, hheight.ge⟩, ?_⟩
    omega

theorem Open.consider (hopen : Open prefSize c)
    (hne : ¬ (x.width = prefSize ∧ x.height = prefSize)) :
    Open prefSize (consider prefSize c x.data x.width x.height) :=
  .inr fun h => hne ((hopen.consider_iff).mp h)

/-- A square whose length becomes 0 in 64 bits does not exist. -/
theorem not_square_of_expectedLen (prefSize : ℕ) (hx : x.Sound words) (h : expectedLen x.width x.height = 0) :
    ¬ (x.width = prefSize ∧ x.height = prefSize) := by
  rintro ⟨rfl, hheight⟩
  rw [expectedLen_eq hx.width.2 hx.height.2, hheight] at h
  have hmod : (x.width * x.width + 2) % 4 = 0 := by omega
  have hsq : x.width * x.width % 4 = (x.width % 4) * (x.width % 4) % 4 := Nat.mul_mod _ _ _
  have hcases : x.width % 4 = 0 ∨ x.width % 4 = 1 ∨ x.width % 4 = 2 ∨ x.width % 4 = 3 := by omega
  rcases hcases with hr | hr | hr | hr
  all_goals
    rw [hr] at hsq
    omega

/-! ### The loop -/

/-- **The loop over the icons** considers all that are met, where each of them takes it further. -/
theorem scan_eq (hin : Inside words s.propValue s.propValueLen) (hopen : Open prefSize s.chosen)
    (hfuel : s.propValueLen ≤ 4 * fuel)
    (hmove : ∀ x ∈ met words prefSize fuel s.propValue s.propValueLen,
      expectedLen x.width x.height ≠ 0) :
    ∃ s', scan words prefSize (fuel + 1) s = .stop s'
      ∧ s'.chosen = (met words prefSize fuel s.propValue s.propValueLen).foldl
        (fun c x => consider prefSize c x.data x.width x.height) s.chosen := by
  induction fuel generalizing s with
  | zero =>
    refine ⟨s, ?_, rfl⟩
    have hnone : header words s.propValue s.propValueLen = none := by
      rw [header, if_neg (by omega)]
    rw [scan, turn_of_none hin hnone]
  | succ fuel ih =>
    rw [scan]
    unfold met at hmove ⊢
    cases hx : header words s.propValue s.propValueLen with
    | none =>
      rw [turn_of_none hin hx]
      exact ⟨s, rfl, rfl⟩
    | some x =>
      rw [hx] at hmove
      have hmove' := hmove x List.mem_cons_self
      rw [turn_of_some hx]
      simp only [hopen.consider_iff] at hmove ⊢
      by_cases hexact : x.width = prefSize ∧ x.height = prefSize
      · rw [if_pos hexact, if_pos hexact]
        exact ⟨_, rfl, rfl⟩
      · rw [if_neg hexact] at hmove ⊢
        rw [if_neg hexact]
        have hfour := four_dvd_expectedLen x.width x.height
        exact ih (s := ⟨_, _, _⟩) (hin.next hx) (hopen.consider hexact) (by dsimp only; omega)
          fun y hy => hmove y (List.mem_cons_of_mem _ hy)

/-- An icon that does not take the loop further is met again and again. -/
theorem scan_ne_stop_of_header (hin : Inside words s.propValue s.propValueLen)
    (hopen : Open prefSize s.chosen) (hx : header words s.propValue s.propValueLen = some x)
    (hzero : expectedLen x.width x.height = 0) (s' : Scan) :
    scan words prefSize fuel s ≠ .stop s' := by
  have hsound := hin.sound hx
  have hexact := not_square_of_expectedLen prefSize hsound hzero
  induction fuel generalizing s with
  | zero => exact nofun
  | succ fuel ih =>
    rw [scan, turn_of_some hx, if_neg (mt (hopen.consider_iff).mp hexact), hzero]
    exact ih (s := ⟨_, _, _⟩) hin (hopen.consider hexact) hx

/-- **The loop does not end** where an icon is met that does not take it further. -/
theorem scan_ne_stop {n : ℕ} (hin : Inside words s.propValue s.propValueLen)
    (hopen : Open prefSize s.chosen)
    (hmet : ∃ x ∈ met words prefSize n s.propValue s.propValueLen, expectedLen x.width x.height = 0)
    (s' : Scan) : scan words prefSize fuel s ≠ .stop s' := by
  induction n generalizing s fuel with
  | zero =>
    obtain ⟨x, hx, -⟩ := hmet
    cases hx
  | succ n ih =>
    unfold met at hmet
    cases hy : header words s.propValue s.propValueLen with
    | none =>
      rw [hy] at hmet
      obtain ⟨x, hx, -⟩ := hmet
      cases hx
    | some y =>
      rw [hy] at hmet
      obtain ⟨x, hx, hzero⟩ := hmet
      rcases List.mem_cons.mp hx with rfl | hx
      · exact scan_ne_stop_of_header hin hopen hy hzero s'
      · split at hx
        · cases hx
        · next hexact =>
          cases fuel with
          | zero => exact nofun
          | succ fuel =>
            rw [scan, turn_of_some hy, if_neg (mt (hopen.consider_iff).mp hexact)]
            exact ih (s := ⟨_, _, _⟩) (hin.next hy) (hopen.consider hexact) ⟨x, hx, hzero⟩

/-! ### The choice -/

/-- What is kept of an icon. -/
def Header.chosen (x : Header) : Chosen := ⟨curLen x.width x.height, x.width, x.height, some x.data⟩

/-- The better one of two icons. -/
def pick (prefSize : ℕ) (x y : Header) : Header :=
  if Suits prefSize x.chosen y.width y.height then y else x

theorem consider_chosen : consider prefSize x.chosen y.data y.width y.height
    = (pick prefSize x y).chosen := by
  unfold consider pick
  split <;> rfl

/-- The first icon is kept, and then the better one of two. -/
theorem foldl_consider (x : Header) (xs : List Header) :
    (x :: xs).foldl (fun c x => consider prefSize c x.data x.width x.height) {}
      = (xs.foldl (pick prefSize) x).chosen := by
  have hfirst : consider prefSize {} x.data x.width x.height = x.chosen := by
    have hsuits : Suits prefSize {} x.width x.height := Or.inl rfl
    rw [consider, if_pos hsuits]
    rfl
  rw [List.foldl_cons, hfirst]
  clear hfirst
  induction xs generalizing x with
  | nil => rfl
  | cons y xs ih => rw [List.foldl_cons, List.foldl_cons, consider_chosen, ih]

/-- An icon whose length overflows is large in both directions, and no other is. -/
theorem Header.Sound.overflows (hx : x.Sound words) :
    if x.Overflows then 2 ^ 30 ≤ x.width ∧ 2 ^ 30 ≤ x.height
    else x.width < 2 ^ 30 ∧ x.height < 2 ^ 30 ∧ (x.width < 2 ^ 15 ∨ x.height < 2 ^ 15) := by
  have hw := hx.width
  have hh := hx.height
  split
  · next hover =>
    rw [Overflows] at hover
    constructor
    · by_contra hlt
      have : x.width * x.height ≤ (2 ^ 30 - 1) * (2 ^ 32 - 1) := Nat.mul_le_mul (by omega) (by omega)
      omega
    · by_contra hlt
      have : x.width * x.height ≤ (2 ^ 32 - 1) * (2 ^ 30 - 1) := Nat.mul_le_mul (by omega) (by omega)
      omega
  · next hover =>
    have hshort := hx.short hover
    have hwidth : x.width * 1 ≤ x.width * x.height := Nat.mul_le_mul_left _ hh.1
    have hheight : 1 * x.height ≤ x.width * x.height := Nat.mul_le_mul_right _ hw.1
    refine ⟨by omega, by omega, ?_⟩
    by_contra hlarge
    have : 2 ^ 15 * 2 ^ 15 ≤ x.width * x.height := Nat.mul_le_mul (by omega) (by omega)
    omega

/-- The icon is at least of the preferred size, and its length is right. -/
def Header.Good (prefSize : ℕ) (x : Header) : Prop := ¬ x.Overflows ∧ x.AtLeast prefSize

/-- What is known of the icon kept after some were considered. -/
structure Kept (prefSize : ℕ) (xs : List Header) (x : Header) : Prop where
  mem : x ∈ xs
  good : (∃ y ∈ xs, y.Good prefSize) → x.Good prefSize
  overflows : (¬ ∃ y ∈ xs, y.Good prefSize) → (∃ y ∈ xs, y.Overflows) → x.Overflows

/-- **One more icon** is considered. A good one is only given up for a smaller one, which is good too;
while there is none, one whose length overflows is not given up for one that is smaller. -/
theorem Kept.pick {xs : List Header} (h : Kept prefSize xs x) (hx : x.Sound words)
    (hy : y.Sound words) : Kept prefSize (xs ++ [y]) (pick prefSize x y) := by
  have hlen : curLen x.width x.height ≠ 0 := by
    rw [curLen_eq hx.width.2 hx.height.2]
    exact (Nat.mul_pos hx.width.1 hx.height.1).ne'
  have hsuits : Suits prefSize x.chosen y.width y.height ↔
      (y.AtLeast prefSize ∧ ((y.width < x.width ∨ y.height < x.height) ∨ ¬ x.AtLeast prefSize))
        ∨ (¬ y.AtLeast prefSize ∧ ¬ x.AtLeast prefSize ∧ (x.width < y.width ∨ x.height < y.height)) := by
    simp only [Suits, Header.chosen, Header.AtLeast, hlen, false_or, not_and_or, not_le]
  have hxsize := hx.overflows
  have hysize := hy.overflows
  have hgood : (∃ z ∈ xs ++ [y], z.Good prefSize)
      ↔ (∃ z ∈ xs, z.Good prefSize) ∨ y.Good prefSize := by
    simp [or_and_right, exists_or]
  have hover : (∃ z ∈ xs ++ [y], z.Overflows) ↔ (∃ z ∈ xs, z.Overflows) ∨ y.Overflows := by
    simp [or_and_right, exists_or]
  refine ⟨?_, ?_, ?_⟩
  · unfold Icons.pick
    split
    · simp
    · exact List.mem_append_left _ h.mem
  · rw [hgood]
    intro hex
    unfold Icons.pick
    split
    · next hs =>
      refine hex.elim (fun he => ?_) id
      -- the new one is smaller than a good one
      obtain ⟨hxover, hxat⟩ := h.good he
      rcases hsuits.mp hs with ⟨hyat, hsmaller | hnot⟩ | ⟨-, hnot, -⟩
      · refine ⟨fun hyover => ?_, hyat⟩
        rw [if_neg hxover] at hxsize
        rw [if_pos hyover] at hysize
        omega
      · exact absurd hxat hnot
      · exact absurd hxat hnot
    · next hs =>
      refine hex.elim h.good fun hygood => ?_
      -- a good one would have been taken in place of one that is not
      have hxat : x.AtLeast prefSize := by
        by_contra hnot
        exact hs (hsuits.mpr (Or.inl ⟨hygood.2, Or.inr hnot⟩))
      refine ⟨fun hxover => hs (hsuits.mpr (Or.inl ⟨hygood.2, Or.inl ?_⟩)), hxat⟩
      rw [if_pos hxover] at hxsize
      rw [if_neg hygood.1] at hysize
      omega
  · rw [hgood, hover]
    intro hnone hex
    have hkeeps : ¬ y.Overflows → x.Overflows := fun hn =>
      h.overflows (fun he => hnone (Or.inl he)) (hex.resolve_right hn)
    unfold Icons.pick
    split
    · next hs =>
      by_contra hyover
      -- it is smaller than the one kept, whose length overflows
      have hxover := hkeeps hyover
      have hynot : ¬ y.AtLeast prefSize := fun hat => hnone (Or.inr ⟨hyover, hat⟩)
      rcases hsuits.mp hs with ⟨hyat, -⟩ | ⟨-, -, hlarger⟩
      · exact hynot hyat
      · rw [if_pos hxover] at hxsize
        rw [if_neg hyover] at hysize
        omega
    · next hs =>
      by_contra hxover
      have hyover : y.Overflows := by
        by_contra hn
        exact hxover (hkeeps hn)
      have hxnot : ¬ x.AtLeast prefSize := fun hat => hnone (Or.inl ⟨x, h.mem, hxover, hat⟩)
      rw [if_neg hxover] at hxsize
      rw [if_pos hyover] at hysize
      refine hs (hsuits.mpr ?_)
      by_cases hyat : y.AtLeast prefSize
      · exact Or.inl ⟨hyat, Or.inr hxnot⟩
      · exact Or.inr ⟨hyat, hxnot, Or.inl (by omega)⟩

/-- What holds of the first icon, and with every icon more, holds of all. -/
theorem foldl_pick (prefSize : ℕ) (x : Header) (xs : List Header)
    {P : List Header → Header → Prop} (h : P [x] x)
    (hstep : ∀ ys, ∀ y ∈ xs, ∀ z, P (x :: ys) z → P (x :: (ys ++ [y])) (pick prefSize z y)) :
    P (x :: xs) (xs.foldl (pick prefSize) x) := by
  induction xs using List.reverseRecOn with
  | nil => exact h
  | append_singleton xs y ih =>
    rw [List.foldl_append]
    exact hstep xs y (by simp) _ (ih fun ys z hz => hstep ys z (List.mem_append_left _ hz))

/-- The icon kept of all that are considered. -/
theorem kept_foldl {xs : List Header} (hx : x.Sound words) (hxs : ∀ y ∈ xs, y.Sound words) :
    Kept prefSize (x :: xs) (xs.foldl (Icons.pick prefSize) x)
      ∧ (xs.foldl (Icons.pick prefSize) x).Sound words := by
  refine foldl_pick prefSize x xs (P := fun ys z => Kept prefSize ys z ∧ z.Sound words) ⟨⟨?_, ?_, ?_⟩, hx⟩ ?_
  · simp
  · simp
  · simp
  · rintro ys y hy z ⟨hkept, hz⟩
    refine ⟨hkept.pick hz (hxs y hy), ?_⟩
    unfold Icons.pick
    split
    · exact hxs y hy
    · exact hz

/-! ### Reading inside of the property -/

theorem inside_start : Inside words (start words).propValue (start words).propValueLen := by
  have := Nat.mod_le (4 * words.length) (2 ^ 32)
  exact ⟨by simp only [start]; omega, Nat.mod_lt _ (by omega)⟩

/-- The pixels of an icon that is in the property. -/
theorem isSome_copyIcon {data len : ℕ} (h : data + (2 + len) ≤ words.length) :
    (copyIcon words data len).isSome := by
  have hall : ∀ is : List ℕ, (∀ i ∈ is, i < len) →
      (is.mapM fun i => (words[data + (2 + i)]?).map premultiplied).isSome := by
    intro is his
    induction is with
    | nil => rfl
    | cons i is ih =>
      have hi := his i List.mem_cons_self
      have hrest := ih fun j hj => his j (List.mem_cons_of_mem _ hj)
      have hplace : data + (2 + i) < words.length := by omega
      obtain ⟨pixels, hpixels⟩ := Option.isSome_iff_exists.mp hrest
      rw [List.mapM_cons, hpixels, List.getElem?_eq_getElem hplace]
      rfl
  exact hall _ fun i hi => List.mem_range.mp hi

/-- The loop ends in one way. -/
theorem scan_unique {fuel' : ℕ} {s' s'' : Scan} (h : scan words prefSize fuel s = .stop s')
    (h' : scan words prefSize fuel' s = .stop s'') : s' = s'' := by
  induction fuel generalizing s fuel' with
  | zero => cases h
  | succ fuel ih =>
    cases fuel' with
    | zero => cases h'
    | succ fuel' =>
      rw [scan] at h h'
      cases hturn : turn words prefSize s with
      | outside =>
        rw [hturn] at h
        cases h
      | stop t =>
        rw [hturn] at h h'
        cases h
        cases h'
        rfl
      | next t =>
        rw [hturn] at h h'
        exact ih h h'

/-- What the whole loop chooses. -/
theorem scan_start (hmove : ∀ x ∈ icons words prefSize, expectedLen x.width x.height ≠ 0) :
    ∃ s', scan words prefSize (words.length + 1) (start words) = .stop s'
      ∧ s'.chosen = (icons words prefSize).foldl
        (fun c x => consider prefSize c x.data x.width x.height) {} :=
  scan_eq inside_start (Or.inl rfl) (Nat.mod_le _ _) hmove

/-- The icon chosen, if there is one. -/
theorem exists_kept {z : Header} {zs : List Header} (h : icons words prefSize = z :: zs) :
    ∃ x, (icons words prefSize).foldl (fun c x => consider prefSize c x.data x.width x.height) {}
        = x.chosen
      ∧ x.Sound words ∧ Kept prefSize (icons words prefSize) x := by
  have hsound : ∀ x ∈ icons words prefSize, x.Sound words := fun x hx =>
    sound_of_mem_met inside_start hx
  rw [h] at hsound ⊢
  obtain ⟨hkept, hx⟩ := kept_foldl (hsound z List.mem_cons_self)
    fun y hy => hsound y (List.mem_cons_of_mem _ hy)
  exact ⟨_, foldl_consider z zs, hx, hkept⟩

/-- **When the function reads nothing outside of the property**, and ends: exactly when no length of an
icon is lost in 64 bits. -/
theorem readsInside_iff (words : List UInt32) (prefSize : ℕ) (hwords : words.length < 2 ^ 32) :
    ReadsInside words prefSize ↔ IconsFit words prefSize := by
  constructor
  · rintro ⟨fuel, s, hscan, hread⟩
    have hmove : ∀ x ∈ icons words prefSize, expectedLen x.width x.height ≠ 0 := fun x hx hzero =>
      scan_ne_stop inside_start (Or.inl rfl) ⟨x, hx, hzero⟩ s hscan
    refine ⟨hmove, ?_⟩
    rintro ⟨y, hy, hover⟩
    obtain ⟨s', hscan', hchosen⟩ := scan_start hmove
    cases hicons : icons words prefSize with
    | nil =>
      rw [hicons] at hy
      cases hy
    | cons z zs =>
      obtain ⟨x, hx, -, hkept⟩ := exists_kept hicons
      rw [scan_unique hscan hscan', hchosen, hx] at hread
      obtain ⟨-, hbound⟩ := hread x.data rfl
      have hright : ¬ x.Overflows := by
        intro hover
        rw [Header.Overflows] at hover
        simp only [Header.chosen] at hbound
        omega
      by_contra hnone
      rw [← hicons] at hnone
      exact hright (hkept.overflows hnone ⟨y, hy, hover⟩)
  · rintro ⟨hmove, hfit⟩
    obtain ⟨s, hscan, hchosen⟩ := scan_start hmove
    refine ⟨words.length + 1, s, hscan, ?_⟩
    cases hicons : icons words prefSize with
    | nil =>
      rw [hchosen, hicons]
      exact nofun
    | cons z zs =>
      obtain ⟨x, hx, hsound, hkept⟩ := exists_kept hicons
      have hright : ¬ x.Overflows := fun hover =>
        (hkept.good (hfit ⟨x, hkept.mem, hover⟩)).1 hover
      rw [hchosen, hx]
      rintro data hdata
      cases hdata
      have hbound := hsound.fits hright
      refine ⟨isSome_copyIcon ?_, hbound⟩
      simp only [Header.chosen, curLen_eq hsound.width.2 hsound.height.2]
      exact hbound

/-- A client's icon of 2 ^ 31 pixels in each direction, of which it gives one: the length is 8 bytes in
64 bits. -/
theorem not_readsInside_huge : ¬ ∀ (words : List UInt32) (prefSize : ℕ), words.length < 2 ^ 32 →
    ReadsInside words prefSize := by
  intro h
  obtain ⟨fuel, s, hscan, hread⟩ := h [2147483648, 2147483648, 0] 16 (by decide)
  have hscan' : scan [2147483648, 2147483648, 0] 16 2 (start [2147483648, 2147483648, 0])
      = .stop ⟨2, 4, ⟨2 ^ 62, 2 ^ 31, 2 ^ 31, some 0⟩⟩ := by decide
  rw [scan_unique hscan hscan'] at hread
  have hbound := (hread 0 rfl).2
  simp at hbound

/-- An icon of two pixels. -/
theorem readsInside_iff_small : ReadsInside [2, 1, 0, 0] 16 ↔ IconsFit [2, 1, 0, 0] 16 :=
  readsInside_iff _ _ (by decide)

end Icons

end I3
