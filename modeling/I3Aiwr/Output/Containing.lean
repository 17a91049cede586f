import I3Aiwr.Tree.Render

/-!
# The output that contains most of a rectangle

`output_containing_rect` of `src/randr.c` goes through the active outputs and compares the area each
of them has in common with the rectangle with the largest one so far. That one is a constant of the
loop body, though: it is always 0, and so the last output with a common area is returned, however
small it is.

The positions are unsigned and converted to `int`; so are the sums, and the product is one of `int`s.

## Main definitions

* `outputContainingRect`
* `Rect.overlap`: the area two rectangles have in common
* `MostContaining`: what the result is to be
* `LastContainsMost`: the last output with a common area has the largest one

## Main results

* `outputContainingRect_eq_some_iff`, `outputContainingRect_eq_none_iff`: what is returned
* `mostContaining_iff`: when it is what it is to be
-/

namespace I3

/-- The loop of `output_containing_rect`. -/
def containingLoop (rect : Rect) : List Output → Option Output → Option Output
  | [], result => result
  | output :: outputs, result =>
    if !output.active then containingLoop rect outputs result
    else
      let left := max (toInt rect.x) (toInt output.rect.x)
      let right := min (toInt (rect.x + rect.width)) (toInt (output.rect.x + output.rect.width))
      let bottom := min (toInt (rect.y + rect.height)) (toInt (output.rect.y + output.rect.height))
      let top := max (toInt rect.y) (toInt output.rect.y)
      if left < right ∧ bottom > top then
        let maxArea := 0
        let area := toInt (toInt (right - left) * toInt (bottom - top))
        containingLoop rect outputs (if area > maxArea then some output else result)
      else containingLoop rect outputs result

/-- `output_containing_rect`. -/
def outputContainingRect (outputs : List Output) (rect : Rect) : Option Output :=
  containingLoop rect outputs none

/-! ### Common areas -/

/-- The length two ranges have in common. -/
def commonLength (start size start' size' : ℤ) : ℤ :=
  max 0 (min (start + size) (start' + size') - max start start')

section

variable {start size start' size' : ℤ}

theorem commonLength_of_lt (h : max start start' < min (start + size) (start' + size')) :
    commonLength start size start' size' = min (start + size) (start' + size') - max start start' :=
  max_eq_right (by omega)

theorem commonLength_of_not_lt (h : ¬ max start start' < min (start + size) (start' + size')) :
    commonLength start size start' size' = 0 :=
  max_eq_left (by omega)

end

namespace Rect

/-- The area two rectangles have in common. -/
def overlap (r s : Rect) : ℤ :=
  commonLength r.x r.width s.x s.width * commonLength r.y r.height s.y s.height

/-- No sum of the rectangle overflows. -/
structure Fits (r : Rect) : Prop where
  x : -2 ^ 31 ≤ r.x ∧ r.x + r.width < 2 ^ 31
  y : -2 ^ 31 ≤ r.y ∧ r.y + r.height < 2 ^ 31

/-- The position is not negative, as on the screen. -/
structure OnScreen (r : Rect) : Prop extends Fits r where
  nonneg_x : 0 ≤ r.x
  nonneg_y : 0 ≤ r.y

theorem overlap_nonneg (r s : Rect) : 0 ≤ r.overlap s :=
  mul_nonneg (le_max_left _ _) (le_max_left _ _)

end Rect

variable {outputs : List Output} {output o : Output} {rect : Rect}

/-- The output counts: it is active and has a positive area of 32 bits in common. -/
def Counts (rect : Rect) (output : Output) : Bool :=
  output.active && decide (0 < toInt (rect.overlap output.rect))

theorem counts_iff :
    Counts rect output ↔ output.active ∧ 0 < toInt (rect.overlap output.rect) := by
  simp [Counts]

/-- An output that counts has an area in common. -/
theorem overlap_pos_of_counts (h : Counts rect output) : 0 < rect.overlap output.rect := by
  refine lt_of_le_of_ne (Rect.overlap_nonneg _ _) fun hzero => ?_
  have hpos := (counts_iff.1 h).2
  rw [← hzero] at hpos
  exact absurd hpos (by decide)

/-- **One output in the loop**: it takes the place of the result if it counts. -/
theorem containingLoop_cons (hrect : rect.Fits) (houtput : output.rect.OnScreen)
    (result : Option Output) :
    containingLoop rect (output :: outputs) result =
      containingLoop rect outputs (if Counts rect output then some output else result) := by
  obtain ⟨⟨⟨hx, hx'⟩, hy, hy'⟩, hox, hoy⟩ := houtput
  obtain ⟨⟨hrx, hrx'⟩, hry, hry'⟩ := hrect
  rw [containingLoop]
  by_cases hactive : output.active
  · have hcounts : Counts rect output = decide (0 < toInt (rect.overlap output.rect)) := by
      simp [Counts, hactive]
    rw [hcounts, if_neg (by simp [hactive])]
    dsimp only
    rw [toInt_of_bounds hrx (by omega), toInt_of_bounds hx (by omega), toInt_of_bounds (by omega) hrx',
      toInt_of_bounds (by omega) hx', toInt_of_bounds (by omega) hry', toInt_of_bounds (by omega) hy', toInt_of_bounds hry (by omega),
      toInt_of_bounds hy (by omega)]
    split
    next hcross =>
      obtain ⟨hlr, htb⟩ := hcross
      have hwidth : toInt (min (rect.x + rect.width) (output.rect.x + output.rect.width)
          - max rect.x output.rect.x)
            = commonLength rect.x rect.width output.rect.x output.rect.width := by
        rw [toInt_of_bounds (by omega) (by omega), commonLength_of_lt hlr]
      have hheight : toInt (min (rect.y + rect.height) (output.rect.y + output.rect.height)
          - max rect.y output.rect.y)
            = commonLength rect.y rect.height output.rect.y output.rect.height := by
        rw [toInt_of_bounds (by omega) (by omega), commonLength_of_lt htb]
      rw [hwidth, hheight, Rect.overlap]
      simp only [decide_eq_true_eq, gt_iff_lt]
    next hcross =>
      -- the rectangles are apart in one of the directions
      have hzero : rect.overlap output.rect = 0 := by
        rw [Rect.overlap]
        by_cases hlr : max rect.x output.rect.x
            < min (rect.x + rect.width) (output.rect.x + output.rect.width)
        · have htb : ¬ max rect.y output.rect.y
              < min (rect.y + rect.height) (output.rect.y + output.rect.height) :=
            fun htb => hcross ⟨hlr, htb⟩
          rw [commonLength_of_not_lt htb, mul_zero]
        · rw [commonLength_of_not_lt hlr, zero_mul]
      rw [hzero]
      rfl
  · have hcounts : Counts rect output = false := by simp [Counts, hactive]
    rw [hcounts, if_pos (by simp [hactive])]
    rfl

/-- **The loop keeps the last output that counts.** -/
theorem containingLoop_eq (hrect : rect.Fits) (houtputs : ∀ o ∈ outputs, o.rect.OnScreen)
    (result : Option Output) :
    containingLoop rect outputs result = (outputs.reverse.find? (Counts rect)).or result := by
  induction outputs generalizing result with
  | nil => rfl
  | cons output outputs ih =>
    rw [containingLoop_cons hrect (houtputs output List.mem_cons_self),
      ih fun o ho => houtputs o (List.mem_cons_of_mem output ho), List.reverse_cons,
      List.find?_append, Option.or_assoc]
    congr 1
    by_cases hcounts : Counts rect output <;> simp [hcounts]

/-- What is returned is the last output that counts. -/
theorem outputContainingRect_eq_some_iff (hrect : rect.Fits)
    (houtputs : ∀ o ∈ outputs, o.rect.OnScreen) :
    outputContainingRect outputs rect = some output ↔ Counts rect output
      ∧ ∃ pre post, outputs = pre ++ output :: post ∧ ∀ o ∈ post, ¬ Counts rect o := by
  rw [outputContainingRect, containingLoop_eq hrect houtputs, Option.or_none,
    List.find?_eq_some_iff_append]
  refine and_congr_right fun _ => ⟨?_, ?_⟩
  · rintro ⟨as, bs, heq, has⟩
    refine ⟨bs.reverse, as.reverse, ?_, fun o ho => by simpa using has o (List.mem_reverse.1 ho)⟩
    rw [← List.reverse_reverse outputs, heq]
    simp
  · rintro ⟨pre, post, rfl, hpost⟩
    refine ⟨post.reverse, pre.reverse, by simp, fun o ho => ?_⟩
    simpa using hpost o (List.mem_reverse.1 ho)

theorem outputContainingRect_eq_none_iff (hrect : rect.Fits)
    (houtputs : ∀ o ∈ outputs, o.rect.OnScreen) :
    outputContainingRect outputs rect = none ↔ ∀ o ∈ outputs, ¬ Counts rect o := by
  rw [outputContainingRect, containingLoop_eq hrect houtputs, Option.or_none, List.find?_eq_none]
  simp

/-! ### The best output -/

/-- The result is an active output with the largest common area, which is positive, and there is none
only where no active output has a common area. -/
def MostContaining (outputs : List Output) (rect : Rect) : Option Output → Prop
  | none => ∀ o ∈ outputs, o.active → rect.overlap o.rect = 0
  | some output => output ∈ outputs ∧ output.active ∧ 0 < rect.overlap output.rect
      ∧ ∀ o ∈ outputs, o.active → rect.overlap o.rect ≤ rect.overlap output.rect

/-- The last active output whose common area is positive, as an `int`, has the largest one; or there
is no common area at all. -/
def LastContainsMost (outputs : List Output) (rect : Rect) : Prop :=
  (∀ o ∈ outputs, o.active → rect.overlap o.rect = 0)
    ∨ ∃ pre output post, outputs = pre ++ output :: post ∧ output.active
      ∧ 0 < toInt (rect.overlap output.rect)
      ∧ (∀ o ∈ post, o.active → toInt (rect.overlap o.rect) ≤ 0)
      ∧ ∀ o ∈ outputs, o.active → rect.overlap o.rect ≤ rect.overlap output.rect

/-- **The best output is returned exactly if it is the last one** that has an area in common with the
rectangle. -/
theorem mostContaining_iff (outputs : List Output) (rect : Rect) (hrect : rect.Fits)
    (houtputs : ∀ o ∈ outputs, o.rect.OnScreen) :
    MostContaining outputs rect (outputContainingRect outputs rect)
      ↔ LastContainsMost outputs rect := by
  constructor
  · intro hbest
    cases hresult : outputContainingRect outputs rect with
    | none =>
      rw [hresult] at hbest
      exact .inl hbest
    | some output =>
      rw [hresult] at hbest
      obtain ⟨hcounts, pre, post, heq, hpost⟩ :=
        (outputContainingRect_eq_some_iff hrect houtputs).1 hresult
      obtain ⟨hactive, hpos⟩ := counts_iff.1 hcounts
      refine .inr ⟨pre, output, post, heq, hactive, hpos, fun o ho hoactive => ?_, hbest.2.2.2⟩
      by_contra hgt
      exact hpost o ho (counts_iff.2 ⟨hoactive, not_le.1 hgt⟩)
  · rintro (hnone | ⟨pre, output, post, heq, hactive, hpos, hpost, hmost⟩)
    · have hresult : outputContainingRect outputs rect = none := by
        rw [outputContainingRect_eq_none_iff hrect houtputs]
        intro o ho hcounts
        exact absurd (hnone o ho (counts_iff.1 hcounts).1) (overlap_pos_of_counts hcounts).ne'
      rw [hresult]
      exact hnone
    · have hcounts : Counts rect output := counts_iff.2 ⟨hactive, hpos⟩
      have hresult : outputContainingRect outputs rect = some output := by
        rw [outputContainingRect_eq_some_iff hrect houtputs]
        refine ⟨hcounts, pre, post, heq, fun o ho h => ?_⟩
        obtain ⟨hoactive, hopos⟩ := counts_iff.1 h
        exact absurd hopos (not_lt.2 (hpost o ho hoactive))
      have hmem : output ∈ outputs := heq ▸ List.mem_append_right _ List.mem_cons_self
      rw [hresult]
      exact ⟨hmem, hactive, overlap_pos_of_counts hcounts, hmost⟩

/-- Two screens side by side. -/
def sideBySide : List Output :=
  [⟨1, ["LVDS-1"], true, true, ⟨0, 0, 1920, 1080⟩⟩,
    ⟨2, ["VGA-1"], true, false, ⟨1920, 0, 1280, 1024⟩⟩]

theorem onScreen_sideBySide : ∀ o ∈ sideBySide, o.rect.OnScreen := by
  intro o ho
  rcases List.mem_pair.1 ho with rfl | rfl <;> exact ⟨⟨by decide, by decide⟩, by decide, by decide⟩

theorem mostContaining_sideBySide :
    MostContaining sideBySide ⟨1800, 0, 600, 400⟩
        (outputContainingRect sideBySide ⟨1800, 0, 600, 400⟩)
      ↔ LastContainsMost sideBySide ⟨1800, 0, 600, 400⟩ :=
  mostContaining_iff sideBySide _ ⟨by decide, by decide⟩ onScreen_sideBySide

/-- A window that reaches over to the second screen by a tenth. -/
theorem not_mostContaining_sideBySide :
    ¬ MostContaining sideBySide ⟨1380, 0, 600, 400⟩
      (outputContainingRect sideBySide ⟨1380, 0, 600, 400⟩) := by
  have hresult : (outputContainingRect sideBySide ⟨1380, 0, 600, 400⟩) =
      some ⟨2, ["VGA-1"], true, false, ⟨1920, 0, 1280, 1024⟩⟩ := rfl
  intro h
  rw [hresult] at h
  exact absurd (h.2.2.2 _ List.mem_cons_self rfl) (by decide)

end I3
