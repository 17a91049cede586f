import Mathlib.Data.List.Range
import I3Aiwr.X.RoundedCorners

/-!
# The rounded rectangle

What the rectangles of `generate_rounded_rectangles` in `src/src/rounded_corners.c` make together. A row
is set off by the same edge on both sides, and the edge depends only on how deep the row is, that is how
far from the nearer of the first and the last row.

## Main definitions

* `Rect.Contains`, `Covers`: a point is in a rectangle, and in one of some rectangles
* `edge`: what a row is set off by
* `Rounded`: the rectangles are one rounded rectangle

## Main results

* `covers_rows_iff`: a point is covered if it is not beyond the edges of its row
* `pairwise_rows`: each rectangle is above those that come later
* `rounded_generateRoundedRectangles`
-/

namespace I3

namespace RoundedCorners

/-! ### Points -/

def Rect.Contains (r : Rect) (x y : ℕ) : Prop :=
  (r.x ≤ x ∧ x < r.x + r.width) ∧ r.y ≤ y ∧ y < r.y + r.height

/-- The point is in one of the rectangles. -/
def Covers (rects : List Rect) (x y : ℕ) : Prop := ∃ r ∈ rects, r.Contains x y

/-- How far a row is from the nearer of the first and the last one. -/
def depth (height y : ℕ) : ℕ := min y (height - 1 - y)

/-- The radius that is drawn. -/
def drawnRadius (width height radius : ℕ) : ℕ := min (min radius (width / 2)) (height / 2)

/-- The point is in one of the squares of the corners. -/
def InCorner (width height radius x y : ℕ) : Prop :=
  (x < radius ∨ width - radius ≤ x) ∧ (y < radius ∨ height - radius ≤ y)

/-- The rectangles make one rounded rectangle whose corners have the radius. -/
structure Rounded (width height radius : ℕ) (rects : List Rect) : Prop where
  disjoint : rects.Pairwise fun r r' => ∀ x y, r.Contains x y → ¬ r'.Contains x y
  inside : ∀ r ∈ rects, r.x + r.width ≤ width ∧ r.y + r.height ≤ height
  /-- The fields are those of `xcb_rectangle_t`. -/
  fits : ∀ r ∈ rects, r.x < 2 ^ 15 ∧ r.y < 2 ^ 15 ∧ r.width < 2 ^ 16 ∧ r.height < 2 ^ 16
  /-- A scanline has at most one span. -/
  oneSpan : ∀ x x' y z, Covers rects x y → Covers rects x' y → x ≤ z → z ≤ x' → Covers rects z y
  mirrored : ∀ x y, x < width → (Covers rects (width - 1 - x) y ↔ Covers rects x y)
  flipped : ∀ x y, y < height → (Covers rects x (height - 1 - y) ↔ Covers rects x y)
  /-- No scanline between two others is empty. -/
  filled : ∀ x x' y y' z, Covers rects x y → Covers rects x' y' → y ≤ z → z ≤ y' →
    ∃ x'', Covers rects x'' z
  /-- A scanline that is nearer to the middle covers as much. -/
  grows : ∀ x y y', y' < height → depth height y ≤ depth height y' → Covers rects x y → Covers rects x y'
  full : ∀ x y, x < width → y < height → ¬ InCorner width height radius x y → Covers rects x y

/-! ### The edges of the rows -/

/-- What a row is set off by that is `dy` from the centre of its corners. -/
def inset (radius dy : ℕ) : ℕ := radius - min (roundSqrt (radius * radius - dy * dy)) radius

def edge (height radius y : ℕ) : ℕ :=
  if depth height y < radius then inset radius (radius - depth height y) else 0

theorem roundSqrt_mono {m n : ℕ} (h : m ≤ n) : roundSqrt m ≤ roundSqrt n := by
  have hsqrt : Nat.sqrt (4 * m) ≤ Nat.sqrt (4 * n) := Nat.sqrt_le_sqrt (by omega)
  rw [roundSqrt, roundSqrt]
  omega

theorem inset_mono {radius dy dy' : ℕ} (h : dy ≤ dy') : inset radius dy ≤ inset radius dy' := by
  have hsq : dy * dy ≤ dy' * dy' := Nat.mul_le_mul h h
  have hround := roundSqrt_mono (Nat.sub_le_sub_left hsq (radius * radius))
  rw [inset, inset]
  omega

theorem inset_le (radius dy : ℕ) : inset radius dy ≤ radius := Nat.sub_le _ _

theorem edge_le (height radius y : ℕ) : edge height radius y ≤ radius := by
  rw [edge]
  split
  · exact inset_le _ _
  · exact Nat.zero_le _

/-- The deeper a row is, the less it is set off. -/
theorem edge_anti {height radius y y' : ℕ} (h : depth height y ≤ depth height y') :
    edge height radius y' ≤ edge height radius y := by
  rw [edge, edge]
  by_cases hy' : depth height y' < radius
  · rw [if_pos hy', if_pos (by omega)]
    exact inset_mono (by omega)
  · rw [if_neg hy']
    exact Nat.zero_le _

theorem depth_flip {height y : ℕ} (h : y < height) : depth height (height - 1 - y) = depth height y := by
  rw [depth, depth]
  omega

theorem edge_flip {height y : ℕ} (radius : ℕ) (h : y < height) :
    edge height radius (height - 1 - y) = edge height radius y := by
  rw [edge, edge, depth_flip h]

/-! ### The rows -/

theorem span_eq (width radius y dy : ℕ) :
    span width radius y dy =
      if width ≤ 2 * inset radius dy then none
      else some { x := inset radius dy, y := y, width := width - 2 * inset radius dy, height := 1 } := rfl

/-- The three parts, of the radius that is drawn. -/
def top (width radius : ℕ) : List Rect :=
  (List.range radius).filterMap fun y => span width radius y (radius - y)

def middle (width height radius : ℕ) : List Rect :=
  if 2 * radius < height then [{ y := radius, width := width, height := height - 2 * radius }] else []

def bottom (width height radius : ℕ) : List Rect :=
  (List.range radius).filterMap fun y => span width radius (height - radius + y) (y + 1)

def rows (width height radius : ℕ) : List Rect :=
  top width radius ++ middle width height radius ++ bottom width height radius

theorem length_rows_le (width height radius : ℕ) : (rows width height radius).length ≤ 2 * radius + 1 := by
  have htop : (top width radius).length ≤ radius := by
    simpa [top] using List.length_filterMap_le (fun y => span width radius y (radius - y)) (List.range radius)
  have hbottom : (bottom width height radius).length ≤ radius := by
    simpa [bottom] using
      List.length_filterMap_le (fun y => span width radius (height - radius + y) (y + 1)) (List.range radius)
  have hmiddle : (middle width height radius).length ≤ 1 := by
    rw [middle]
    split <;> simp
  rw [rows, List.length_append, List.length_append]
  omega

/-- There is room for all of the rectangles. -/
theorem generateRoundedRectangles_eq_rows {maxRects width height radius : ℕ} (hw : 0 < width)
    (hh : 0 < height) (hm : 2 * radius + 10 ≤ maxRects) :
    generateRoundedRectangles maxRects width height radius =
      rows width height (drawnRadius width height radius) := by
  rw [generateRoundedRectangles, if_neg (by omega)]
  split
  · next hr =>
    rw [hr, drawnRadius, Nat.zero_min, Nat.zero_min]
    simp [rows, top, middle, bottom, hh]
  · have hlen := length_rows_le width height (drawnRadius width height radius)
    have hdrawn : drawnRadius width height radius ≤ radius :=
      (Nat.min_le_left _ _).trans (Nat.min_le_left _ _)
    exact List.take_of_length_le (by
      change (rows width height (drawnRadius width height radius)).length ≤ maxRects
      omega)

/-! ### The points of the rows -/

section Points

variable {width height radius : ℕ} {x y : ℕ}

theorem covers_append {as bs : List Rect} : Covers (as ++ bs) x y ↔ Covers as x y ∨ Covers bs x y := by
  simp only [Covers, List.mem_append, or_and_right, exists_or]

theorem contains_span {y' dy : ℕ} :
    (∃ r ∈ span width radius y' dy, r.Contains x y) ↔
      y = y' ∧ inset radius dy ≤ x ∧ x < width - inset radius dy := by
  rw [span_eq]
  split
  · next hw =>
    simp only [Option.mem_def, reduceCtorEq, false_and, exists_false, false_iff]
    omega
  · next hw =>
    simp only [Option.mem_def, Option.some.injEq, exists_eq_left', Rect.Contains]
    omega

theorem covers_filterMap_span {f g : ℕ → ℕ} :
    Covers ((List.range radius).filterMap fun i => span width radius (f i) (g i)) x y ↔
      ∃ i < radius, y = f i ∧ inset radius (g i) ≤ x ∧ x < width - inset radius (g i) := by
  simp only [← contains_span, Covers, List.mem_filterMap, List.mem_range]
  constructor
  · rintro ⟨r, ⟨i, hi, hr⟩, hc⟩
    exact ⟨i, hi, r, hr, hc⟩
  · rintro ⟨i, hi, r, hr, hc⟩
    exact ⟨r, ⟨i, hi, hr⟩, hc⟩

/-- **The points of the rectangles** are those within the edges of their row. -/
theorem covers_rows_iff (hh : 2 * radius ≤ height) :
    Covers (rows width height radius) x y ↔
      y < height ∧ edge height radius y ≤ x ∧ x < width - edge height radius y := by
  have hmiddle : Covers (middle width height radius) x y ↔
      radius ≤ y ∧ y < height - radius ∧ x < width := by
    rw [middle]
    split
    · simp only [Covers, List.mem_singleton, exists_eq_left, Rect.Contains]
      omega
    · simp only [Covers, List.not_mem_nil, false_and, exists_false, false_iff]
      omega
  rw [rows, covers_append, covers_append, hmiddle, top, bottom, covers_filterMap_span,
    covers_filterMap_span, edge, depth]
  -- a row is in the part that its place says
  by_cases htop : y < radius
  · rw [if_pos (by omega), Nat.min_eq_left (by omega)]
    constructor
    · rintro ((⟨i, hi, rfl, hx⟩ | h) | ⟨i, hi, hy, hx⟩)
      · exact ⟨by omega, hx⟩
      · omega
      · omega
    · rintro ⟨-, hx⟩
      exact .inl (.inl ⟨y, htop, rfl, hx⟩)
  by_cases hbottom : height - radius ≤ y ∧ y < height
  · have hdepth : radius - min y (height - 1 - y) = y - (height - radius) + 1 := by omega
    rw [if_pos (by omega), hdepth]
    constructor
    · rintro ((⟨i, hi, rfl, hx⟩ | h) | ⟨i, hi, hy, hx⟩)
      · omega
      · omega
      · rw [show y - (height - radius) + 1 = i + 1 by omega]
        exact ⟨by omega, hx⟩
    · rintro ⟨-, hx⟩
      exact .inr ⟨y - (height - radius), by omega, by omega, hx⟩
  by_cases hin : y < height
  · rw [if_neg (by omega)]
    constructor
    · rintro ((⟨i, hi, rfl, hx⟩ | h) | ⟨i, hi, hy, hx⟩)
      · omega
      · omega
      · omega
    · rintro ⟨-, hx⟩
      exact .inl (.inr ⟨by omega, by omega, by omega⟩)
  · constructor
    · rintro ((⟨i, hi, rfl, hx⟩ | h) | ⟨i, hi, hy, hx⟩)
      · omega
      · omega
      · omega
    · rintro ⟨hy, -⟩
      exact absurd hy hin

end Points

/-! ### The rectangles -/

theorem of_mem_span {width radius y dy : ℕ} {r : Rect} (h : r ∈ span width radius y dy) :
    r.x + r.width ≤ width ∧ r.x ≤ radius ∧ r.y = y ∧ r.height = 1 := by
  rw [span_eq] at h
  split at h
  · cases h
  · next hw =>
    cases h
    exact ⟨by simp only; omega, inset_le _ _, rfl, rfl⟩

theorem pairwise_span {width radius : ℕ} {f g : ℕ → ℕ} (hf : ∀ i j, i < j → f i < f j) :
    ((List.range radius).filterMap fun i => span width radius (f i) (g i)).Pairwise
      fun r r' => r.y + r.height ≤ r'.y := by
  rw [List.pairwise_filterMap]
  apply List.pairwise_lt_range.imp
  intro i j hij r hr r' hr'
  obtain ⟨-, -, hy, hheight⟩ := of_mem_span hr
  obtain ⟨-, -, hy', -⟩ := of_mem_span hr'
  have := hf i j hij
  omega

theorem mem_top {width radius : ℕ} {r : Rect} (h : r ∈ top width radius) :
    r.x + r.width ≤ width ∧ r.x ≤ radius ∧ r.y < radius ∧ r.height = 1 := by
  obtain ⟨y, hy, hr⟩ := List.mem_filterMap.mp h
  obtain ⟨hwidth, hx, hry, hheight⟩ := of_mem_span hr
  have := List.mem_range.mp hy
  exact ⟨hwidth, hx, by omega, hheight⟩

theorem mem_middle {width height radius : ℕ} {r : Rect} (h : r ∈ middle width height radius) :
    2 * radius < height ∧ r = { y := radius, width := width, height := height - 2 * radius } := by
  rw [middle] at h
  split at h
  · next hh => exact ⟨hh, List.mem_singleton.mp h⟩
  · cases h

theorem mem_bottom {width height radius : ℕ} {r : Rect} (h : r ∈ bottom width height radius) :
    r.x + r.width ≤ width ∧ r.x ≤ radius ∧ height - radius ≤ r.y ∧ r.y < height - radius + radius ∧
      r.height = 1 := by
  obtain ⟨y, hy, hr⟩ := List.mem_filterMap.mp h
  obtain ⟨hwidth, hx, hry, hheight⟩ := of_mem_span hr
  have := List.mem_range.mp hy
  exact ⟨hwidth, hx, by omega, by omega, hheight⟩

/-- Each rectangle is above those that come later. -/
theorem pairwise_rows {width height radius : ℕ} (hh : 2 * radius ≤ height) :
    (rows width height radius).Pairwise fun r r' => r.y + r.height ≤ r'.y := by
  rw [rows, List.pairwise_append, List.pairwise_append]
  refine ⟨⟨pairwise_span fun i j hij => hij, ?_, ?_⟩, pairwise_span fun i j hij => by omega, ?_⟩
  · rw [middle]
    split
    · exact List.pairwise_singleton _ _
    · exact List.Pairwise.nil
  · intro r hr r' hr'
    obtain ⟨-, -, hy, hheight⟩ := mem_top hr
    obtain ⟨-, rfl⟩ := mem_middle hr'
    simp only
    omega
  · intro r hr r' hr'
    obtain ⟨-, -, hy', -⟩ := mem_bottom hr'
    rcases List.mem_append.mp hr with hr | hr
    · obtain ⟨-, -, hy, hheight⟩ := mem_top hr
      omega
    · obtain ⟨hlt, rfl⟩ := mem_middle hr
      simp only
      omega

theorem inside_rows {width height radius : ℕ} (hh : 2 * radius ≤ height) {r : Rect}
    (hr : r ∈ rows width height radius) : r.x + r.width ≤ width ∧ r.y + r.height ≤ height := by
  rcases List.mem_append.mp hr with hr | hr
  · rcases List.mem_append.mp hr with hr | hr
    · obtain ⟨hwidth, -, hy, hheight⟩ := mem_top hr
      exact ⟨hwidth, by omega⟩
    · obtain ⟨hlt, rfl⟩ := mem_middle hr
      exact ⟨by simp, by simp only; omega⟩
  · obtain ⟨hwidth, -, -, hy, hheight⟩ := mem_bottom hr
    exact ⟨hwidth, by omega⟩

/-- The rows have every point that is beside the corners or above or below them. -/
theorem covers_of_not_inCorner {width height radius x y : ℕ} (hh : 2 * radius ≤ height) (hx : x < width)
    (hy : y < height) (h : ¬ InCorner width height radius x y) :
    Covers (rows width height radius) x y := by
  rw [covers_rows_iff hh]
  refine ⟨hy, ?_⟩
  have hle := edge_le height radius y
  by_cases hcorner : depth height y < radius
  · -- in the rows of the corners the edge is within them
    have hout : ¬ (x < radius ∨ width - radius ≤ x) := by
      intro hc
      rw [depth] at hcorner
      exact h ⟨hc, by omega⟩
    omega
  · rw [edge, if_neg hcorner]
    omega

/-! ### The rounded rectangle -/

theorem rounded_rows {width height radius : ℕ} (hw : width < 2 ^ 15) (hh : height < 2 ^ 15)
    (hradius : 2 * radius ≤ height) : Rounded width height radius (rows width height radius) := by
  have hgrows : ∀ x y y', y' < height → depth height y ≤ depth height y' →
      Covers (rows width height radius) x y → Covers (rows width height radius) x y' := by
    intro x y y' hy' hdepth h
    rw [covers_rows_iff hradius] at h ⊢
    have := @edge_anti height radius y y' hdepth
    omega
  constructor
  · apply (pairwise_rows hradius).imp
    intro r r' hrr' x y hr hr'
    have hbelow := hr.2.2
    have hfrom := hr'.2.1
    omega
  · intro r hr
    exact inside_rows hradius hr
  · intro r hr
    have hin := inside_rows hradius hr
    refine ⟨?_, ?_, by omega, by omega⟩
    · omega
    · omega
  · intro x x' y z hx hx' hxz hzx'
    rw [covers_rows_iff hradius] at hx hx' ⊢
    omega
  · intro x y hx
    rw [covers_rows_iff hradius, covers_rows_iff hradius]
    omega
  · intro x y hy
    rw [covers_rows_iff hradius, covers_rows_iff hradius, edge_flip radius hy]
    omega
  · intro x x' y y' z hy hy' hyz hzy'
    have hlast : y' < height := ((covers_rows_iff hradius).mp hy').1
    rcases Nat.le_total z (height - 1 - z) with hz | hz
    · -- `z` is in the upper half, below `y`
      refine ⟨x, hgrows x y z (by omega) ?_ hy⟩
      rw [depth, depth]
      omega
    · refine ⟨x', hgrows x' y' z (by omega) ?_ hy'⟩
      rw [depth, depth]
      omega
  · exact hgrows
  · intro x y hx hy h
    exact covers_of_not_inCorner hradius hx hy h

/-- **The rectangles of a window** make one rounded rectangle, and there is room for all of them. -/
theorem rounded_generateRoundedRectangles (width height radius : ℕ) (hw : 0 < width ∧ width ≤ 32767)
    (hh : 0 < height ∧ height ≤ 32767) :
    Rounded width height (drawnRadius width height radius)
        (generateRoundedRectangles (2 * radius + 10) width height radius) ∧
      ∀ maxRects, 2 * radius + 10 ≤ maxRects →
        generateRoundedRectangles maxRects width height radius =
          generateRoundedRectangles (2 * radius + 10) width height radius := by
  have hdrawn : 2 * drawnRadius width height radius ≤ height := by
    have hle : drawnRadius width height radius ≤ height / 2 := Nat.min_le_right _ _
    omega
  rw [generateRoundedRectangles_eq_rows hw.1 hh.1 le_rfl]
  refine ⟨rounded_rows (by omega) (by omega) hdrawn, ?_⟩
  intro maxRects hmax
  exact generateRoundedRectangles_eq_rows hw.1 hh.1 hmax

theorem rounded_generateRoundedRectangles_odd :
    Rounded 7 5 2 (generateRoundedRectangles 18 7 5 4) ∧
      ∀ maxRects, 18 ≤ maxRects →
        generateRoundedRectangles maxRects 7 5 4 = generateRoundedRectangles 18 7 5 4 :=
  rounded_generateRoundedRectangles 7 5 4 (by decide) (by decide)

end RoundedCorners

end I3
