import Mathlib.Data.Real.Basic
import QuadCode.Proofs.Geometry.Cells
import QuadCode.Proofs.Key.Code

/-!
# The lines of the grids

The cells of a level stand between the lines of a grid, and the grid of each level halves the
spaces of the one above: its even lines are the lines of that one, and its odd lines are the middles
between them.  A line is computed once, at the level where it first appears, so cells on both sides
of it have the very same bound, whichever splits made them.

Main statements:

* `gridLine_pow`: the last line of every grid is the upper bound of the region;
* `Span.units_gridLine_le`: the lines of a grid are in order, although each is rounded;
* `OnGrid.child`: a quadrant of a cell between grid lines stands between grid lines;
* `OnGrid.disjoint`: cells of which neither lies below the other have no interior point in common.
-/

namespace QuadCode

open Double

/-- A line of the grid of a level, on one axis of a region of the given side. -/
def gridLine (side : Float) : (lod line : ℕ) → Float
  | 0, line => if line = 0 then 0.0 else side
  | lod + 1, line =>
    if line % 2 = 0 then gridLine side lod (line / 2)
    else Rect.middle (gridLine side lod (line / 2)) (gridLine side lod (line / 2 + 1))

variable {side : Float} {lod line : ℕ}

/-- The even lines are those of the level above. -/
theorem gridLine_even (side : Float) (lod line : ℕ) :
    gridLine side (lod + 1) (2 * line) = gridLine side lod line := by
  have hhalf : 2 * line / 2 = line := by omega
  rw [gridLine, if_pos (by omega), hhalf]

/-- The odd lines are the middles between those of the level above. -/
theorem gridLine_odd (side : Float) (lod line : ℕ) :
    gridLine side (lod + 1) (2 * line + 1) =
      Rect.middle (gridLine side lod line) (gridLine side lod (line + 1)) := by
  have hhalf : (2 * line + 1) / 2 = line := by omega
  rw [gridLine, if_neg (by omega), hhalf]

/-- A line is a line of every deeper grid. -/
theorem gridLine_mul_pow (side : Float) (lod line deeper : ℕ) :
    gridLine side (lod + deeper) (line * 2 ^ deeper) = gridLine side lod line := by
  induction deeper with
  | zero => rw [pow_zero, mul_one, Nat.add_zero]
  | succ deeper ih =>
      have hline : line * 2 ^ (deeper + 1) = 2 * (line * 2 ^ deeper) := by ring
      rw [hline, ← Nat.add_assoc, gridLine_even, ih]

/-- The last line of every grid is the upper bound of the region. -/
theorem gridLine_pow (side : Float) (lod : ℕ) : gridLine side lod (2 ^ lod) = side := by
  have hlast := gridLine_mul_pow side 0 1 lod
  rwa [Nat.zero_add, one_mul] at hlast

namespace Rect

/-- Between neighbouring lines there is a span. -/
theorem Span.span_gridLine (h : Span 0.0 side) (hline : line < 2 ^ lod) :
    Span (gridLine side lod line) (gridLine side lod (line + 1)) := by
  induction lod generalizing line with
  | zero =>
      obtain rfl : line = 0 := by omega
      exact h
  | succ lod ih =>
      rw [pow_succ] at hline
      obtain ⟨upper, hbit⟩ := Nat.even_or_odd' line
      have hspan : Span (gridLine side lod upper) (gridLine side lod (upper + 1)) :=
        ih (by omega)
      rcases hbit with rfl | rfl
      · rw [gridLine_even, gridLine_odd]
        exact hspan.lowerHalf
      · have hnext : 2 * upper + 1 + 1 = 2 * (upper + 1) := by ring
        rw [hnext, gridLine_even, gridLine_odd]
        exact hspan.upperHalf

/-- The lines of a grid are in order. -/
theorem Span.units_gridLine_le (h : Span 0.0 side) {later : ℕ} (hle : line ≤ later)
    (hlater : later ≤ 2 ^ lod) :
    units (gridLine side lod line) ≤ units (gridLine side lod later) := by
  induction later, hle using Nat.le_induction with
  | base => exact le_rfl
  | succ later _ ih =>
      have hspan : Span (gridLine side lod later) (gridLine side lod (later + 1)) :=
        h.span_gridLine hlater
      obtain ⟨-, -, hstep⟩ := le_iff.mp hspan.ordered
      exact (ih (Nat.le_of_lt hlater)).trans hstep

/-- Two bounds that are a line of a grid and the next one. -/
structure Between (side : Float) (lod line : ℕ) (lower upper : Float) : Prop where
  lower : lower = gridLine side lod line
  upper : upper = gridLine side lod (line + 1)

/-- Two bounds between which nothing lies that lies between two others. -/
def Clear (lower upper lower' upper' : Float) : Prop :=
  units upper ≤ units lower' ∨ units upper' ≤ units lower

variable {lower upper lower' upper' : Float}

theorem Between.lowerHalf (h : Between side lod line lower upper) :
    Between side (lod + 1) (2 * line) lower (middle lower upper) :=
  ⟨by rw [h.lower, gridLine_even], by rw [h.lower, h.upper, gridLine_odd]⟩

theorem Between.upperHalf (h : Between side lod line lower upper) :
    Between side (lod + 1) (2 * line + 1) (middle lower upper) upper :=
  ⟨by rw [h.lower, h.upper, gridLine_odd], by rw [h.upper, ← gridLine_even]; rfl⟩

/-- The space between two lines and a space of a deeper grid that is no part of it are clear of each
other. -/
theorem Between.clear (hspan : Span 0.0 side) (h : Between side lod line lower upper)
    {deeper line' : ℕ} (h' : Between side (lod + deeper) line' lower' upper')
    (hline : line < 2 ^ lod) (hline' : line' < 2 ^ (lod + deeper))
    (hne : line ≠ line' / 2 ^ deeper) : Clear lower upper lower' upper' := by
  rw [Clear, h.lower, h.upper, h'.lower, h'.upper, ← gridLine_mul_pow side lod line deeper,
    ← gridLine_mul_pow side lod (line + 1) deeper]
  have hdeep : (line + 1) * 2 ^ deeper ≤ 2 ^ (lod + deeper) := by
    rw [pow_add]
    exact Nat.mul_le_mul_right _ hline
  rcases Nat.lt_or_gt_of_ne hne with hbefore | hafter
  · have hle : (line + 1) * 2 ^ deeper ≤ line' :=
      (Nat.le_div_iff_mul_le (Nat.two_pow_pos deeper)).mp hbefore
    exact Or.inl (hspan.units_gridLine_le hle hline'.le)
  · have hle : line' + 1 ≤ line * 2 ^ deeper :=
      (Nat.div_lt_iff_lt_mul (Nat.two_pow_pos deeper)).mp hafter
    rw [Nat.add_mul] at hdeep
    exact Or.inr (hspan.units_gridLine_le hle (by omega))

/-- A rectangle that stands between the grid lines that a key tells. -/
structure OnGrid (side : Float) (key : Key) (r : Rect) : Prop where
  x : Between side key.lod key.x r.minX r.maxX
  y : Between side key.lod key.y r.minY r.maxY

/-- The quadrants of a cell between grid lines stand between the grid lines of the next level. -/
theorem OnGrid.child {key c : Key} {q : Quadrant} {r : Rect} (h : OnGrid side key r)
    (hc : key.child q = .ok c) : OnGrid side c (r.quadrant q) := by
  obtain ⟨hlod, hx, hy⟩ := Key.eq_of_ofGrid hc
  constructor
  · rw [hlod, hx]
    cases q with
    | bottomLeft | topLeft => exact h.x.lowerHalf
    | bottomRight | topRight => exact h.x.upperHalf
  · rw [hlod, hy]
    cases q with
    | bottomLeft | bottomRight => exact h.y.lowerHalf
    | topLeft | topRight => exact h.y.upperHalf

/-- The points of the plane that lie strictly between the bounds of a rectangle, in units of the
least double. -/
def interior (r : Rect) : Set (ℝ × ℝ) :=
  {p | (units r.minX < p.1 ∧ p.1 < units r.maxX) ∧ units r.minY < p.2 ∧ p.2 < units r.maxY}

theorem Clear.not_between (h : Clear lower upper lower' upper') {x : ℝ}
    (hx : units lower < x ∧ x < units upper) : ¬ (units lower' < x ∧ x < units upper') := by
  intro hx'
  rcases h with hle | hle
  · have hmeet : (units upper : ℝ) ≤ units lower' := by exact_mod_cast hle
    exact lt_asymm (hx.2.trans_le hmeet) hx'.1
  · have hmeet : (units upper' : ℝ) ≤ units lower := by exact_mod_cast hle
    exact lt_asymm (hx'.2.trans_le hmeet) hx.1

/-- Two rectangles whose bounds are clear of each other on one axis have no interior point in
common. -/
theorem disjoint_interior {r r' : Rect}
    (h : Clear r.minX r.maxX r'.minX r'.maxX ∨ Clear r.minY r.maxY r'.minY r'.maxY) :
    Disjoint r.interior r'.interior := by
  refine Set.disjoint_left.mpr fun p hp hp' => ?_
  rcases h with hclear | hclear
  · exact hclear.not_between hp.1 hp'.1
  · exact hclear.not_between hp.2 hp'.2

/-- **Cells apart.**  Two cells between grid lines have no interior point in common unless the path
to one of them begins with the path to the other. -/
theorem OnGrid.disjoint (hspan : Span 0.0 side) {k k' : Key} {r r' : Rect} (h : OnGrid side k r)
    (h' : OnGrid side k' r') (hapart : ¬ k.path <+: k'.path) (hapart' : ¬ k'.path <+: k.path) :
    Disjoint r.interior r'.interior := by
  wlog hle : k.lod ≤ k'.lod generalizing k k' r r'
  · exact (this h' h hapart' hapart (Nat.le_of_not_le hle)).symm
  obtain ⟨deeper, hdeeper⟩ := Nat.exists_eq_add_of_le hle
  have hx' := k'.x_lt_two_pow
  have hy' := k'.y_lt_two_pow
  obtain ⟨hcolumn, hrow⟩ := h'
  rw [hdeeper] at hx' hy'
  rw [hdeeper] at hcolumn hrow
  apply disjoint_interior
  by_cases hx : k.x = k'.x / 2 ^ deeper
  · have hy : k.y ≠ k'.y / 2 ^ deeper := by
      intro hy
      apply hapart
      rw [Key.path, Key.path, hx, hy, hdeeper]
      exact gridPath_prefix _ _ _ _
    exact Or.inr (h.y.clear hspan hrow k.y_lt_two_pow hy' hy)
  · exact Or.inl (h.x.clear hspan hcolumn k.x_lt_two_pow hx' hx)

end Rect

end QuadCode
