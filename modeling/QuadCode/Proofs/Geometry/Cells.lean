import QuadCode.Proofs.Double.Arithmetic
import QuadCode.Tree.Descent

/-!
# Cells and their quadrants

The bounds of every cell of a region are finite and in order, and none is negative.  This passes
from a cell to its quadrants, because the middle of two such bounds lies between them.  It is what
makes the quadrants fit the cell: they lie within it, however their mid lines are rounded, and
together they leave nothing out.

Main statements:

* `Proper.quadrant`: the quadrants of a proper cell are proper;
* `Proper.contains_of_quadrant`: a quadrant lies within its cell;
* `Proper.contains_quadrantOf`: the quadrant that a location of a cell belongs to contains it.
-/

namespace QuadCode

open Double

namespace Rect

/-- Two bounds of a cell on one axis. -/
structure Span (lower upper : Float) : Prop where
  nonneg : 0.0 ≤ lower
  ordered : lower ≤ upper
  finite : upper.isFinite = true

/-- A cell with its bounds in order on both axes. -/
structure Proper (r : Rect) : Prop where
  x : Span r.minX r.maxX
  y : Span r.minY r.maxY

variable {lower upper : Float}

theorem Span.lowerHalf (h : Span lower upper) : Span lower (middle lower upper) := by
  obtain ⟨hlow, hhigh⟩ := middle_bounds h.nonneg h.ordered h.finite
  exact ⟨h.nonneg, hlow, isFinite_of_le (Double.le_trans h.nonneg hlow) hhigh h.finite⟩

theorem Span.upperHalf (h : Span lower upper) : Span (middle lower upper) upper := by
  obtain ⟨hlow, hhigh⟩ := middle_bounds h.nonneg h.ordered h.finite
  exact ⟨Double.le_trans h.nonneg hlow, hhigh, h.finite⟩

/-- The mid line of a span has no gap beside it. -/
theorem Span.le_middle (h : Span lower upper) {x : Float} (hx : lower ≤ x)
    (hmid : ¬ middle lower upper ≤ x) : x ≤ middle lower upper := by
  obtain ⟨-, hmidNumber, -⟩ := le_iff.mp h.lowerHalf.ordered
  obtain ⟨-, hnumber, -⟩ := le_iff.mp hx
  exact (Double.le_total hnumber hmidNumber).resolve_right hmid

/-- Halving a proper cell on both axes gives proper cells. -/
theorem Proper.quadrant {r : Rect} (h : r.Proper) (q : Quadrant) : (r.quadrant q).Proper := by
  cases q with
  | bottomLeft => exact ⟨h.x.lowerHalf, h.y.lowerHalf⟩
  | topLeft => exact ⟨h.x.lowerHalf, h.y.upperHalf⟩
  | bottomRight => exact ⟨h.x.upperHalf, h.y.lowerHalf⟩
  | topRight => exact ⟨h.x.upperHalf, h.y.upperHalf⟩

/-- A square region with a side of positive finite length is a proper cell. -/
theorem proper_square {side : Float} (hfin : side.isFinite = true) (hpos : ¬ side ≤ 0.0) :
    (square side).Proper := by
  have hzero : (0.0 : Float) ≤ 0.0 := by decide
  have hside : 0.0 ≤ side :=
    (Double.le_total (le_iff.mp hzero).1 (isFinite_iff.mp hfin).1).resolve_right hpos
  exact ⟨⟨hzero, hside, hfin⟩, ⟨hzero, hside, hfin⟩⟩

theorem contains_iff {r : Rect} {l : Location} :
    r.contains l = true ↔
      r.minX ≤ l.x ∧ l.x ≤ r.maxX ∧ r.minY ≤ l.y ∧ l.y ≤ r.maxY := by
  simp [contains, containsAt, and_assoc]

/-- Locations that are equal as numbers lie in the same cells. -/
theorem contains_congr {r : Rect} {l l' : Location} (h : (l == l') = true) :
    r.contains l = true ↔ r.contains l' = true := by
  obtain ⟨hx, hy⟩ := Bool.and_eq_true_iff.mp h
  rw [contains_iff, contains_iff, le_congr_right hx, le_congr_left hx, le_congr_right hy,
    le_congr_left hy]

/-- Locations that are equal as numbers belong to the same quadrant. -/
theorem quadrantOf_congr {r : Rect} {l l' : Location} (h : (l == l') = true) :
    r.quadrantOf l = r.quadrantOf l' := by
  obtain ⟨hx, hy⟩ := Bool.and_eq_true_iff.mp h
  simp only [quadrantOf, le_congr_right hx, le_congr_right hy]

/-- A quadrant lies within its cell. -/
theorem Proper.contains_of_quadrant {r : Rect} (h : r.Proper) {q : Quadrant} {l : Location}
    (hl : (r.quadrant q).contains l = true) : r.contains l = true := by
  have hleft : r.minX ≤ r.midX := h.x.lowerHalf.ordered
  have hright : r.midX ≤ r.maxX := h.x.upperHalf.ordered
  have hbottom : r.minY ≤ r.midY := h.y.lowerHalf.ordered
  have htop : r.midY ≤ r.maxY := h.y.upperHalf.ordered
  obtain ⟨hx, hx', hy, hy'⟩ := contains_iff.mp hl
  apply contains_iff.mpr
  cases q with
  | bottomLeft => exact ⟨hx, Double.le_trans hx' hright, hy, Double.le_trans hy' htop⟩
  | topLeft => exact ⟨hx, Double.le_trans hx' hright, Double.le_trans hbottom hy, hy'⟩
  | bottomRight => exact ⟨Double.le_trans hleft hx, hx', hy, Double.le_trans hy' htop⟩
  | topRight => exact ⟨Double.le_trans hleft hx, hx', Double.le_trans hbottom hy, hy'⟩

/-- The quadrant that a location of a cell belongs to contains it. -/
theorem Proper.contains_quadrantOf {r : Rect} (h : r.Proper) {l : Location}
    (hl : r.contains l = true) : (r.quadrant (r.quadrantOf l)).contains l = true := by
  obtain ⟨hx, hx', hy, hy'⟩ := contains_iff.mp hl
  apply contains_iff.mpr
  unfold quadrantOf
  by_cases hright : r.midX ≤ l.x <;> by_cases htop : r.midY ≤ l.y
  · rw [if_pos hright, if_pos htop]
    exact ⟨hright, hx', htop, hy'⟩
  · rw [if_pos hright, if_neg htop]
    exact ⟨hright, hx', hy, h.y.le_middle hy htop⟩
  · rw [if_neg hright, if_pos htop]
    exact ⟨hx, h.x.le_middle hx hright, htop, hy'⟩
  · rw [if_neg hright, if_neg htop]
    exact ⟨hx, h.x.le_middle hx hright, hy, h.y.le_middle hy htop⟩

end Rect

end QuadCode
