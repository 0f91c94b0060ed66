import QuadCode.Proofs.Geometry.GridLines
import QuadCode.Tree.Descent

/-!
# The spaces between grid lines

A value belongs to one space of each grid if lines are counted to the spaces above them.  The space
of a level is a half of the one that the value belongs to on the level above, and the line between
the halves tells which.  So going to a deeper grid only adds bits to the number of the space.  A
greater value is on the upper side of every line that a lesser one is on the upper side of, and thus
the numbers of spaces keep the order of values, whatever rounding did to the lines.

Main statements:

* `gridSpace_div_pow`: the number of a space begins with that of the space it lies in;
* `gridSpace_mono`: the numbers of spaces keep the order of values;
* `Rect.InSpaces.child`: the quadrant that a location belongs to stands in the spaces of the
  location.
-/

namespace QuadCode

open Double

/-- The space of the grid of a level that a value belongs to if lines are counted to the spaces
above them. -/
def gridSpace (side : Float) : (lod : ℕ) → (value : Float) → ℕ
  | 0, _ => 0
  | lod + 1, value =>
    let above := gridSpace side lod value
    2 * above + if gridLine side (lod + 1) (2 * above + 1) ≤ value then 1 else 0

variable {side value value' : Float}

/-- A space of the next level is a half of a space. -/
theorem gridSpace_succ_div_two (side value : Float) (lod : ℕ) :
    gridSpace side (lod + 1) value / 2 = gridSpace side lod value := by
  rw [gridSpace]
  split <;> omega

/-- The number of a space, cut short, is that of the space it lies in. -/
theorem gridSpace_div_pow (side value : Float) (lod deeper : ℕ) :
    gridSpace side (lod + deeper) value / 2 ^ deeper = gridSpace side lod value := by
  induction deeper with
  | zero => rw [pow_zero, Nat.div_one, Nat.add_zero]
  | succ deeper ih =>
      rw [pow_succ', ← Nat.div_div_eq_div_mul, ← Nat.add_assoc, gridSpace_succ_div_two, ih]

/-- **The numbers of spaces keep the order of values.** -/
theorem gridSpace_mono (h : value ≤ value') (lod : ℕ) :
    gridSpace side lod value ≤ gridSpace side lod value' := by
  induction lod with
  | zero => exact Nat.le_refl _
  | succ lod ih =>
      rw [gridSpace, gridSpace]
      rcases Nat.lt_or_eq_of_le ih with hlt | heq
      · split <;> split <;> omega
      · -- In one space the line in its middle decides, and it cannot be above the greater value only.
        rw [heq]
        by_cases hline : gridLine side (lod + 1) (2 * gridSpace side lod value' + 1) ≤ value
        · rw [if_pos hline, if_pos (Double.le_trans hline h)]
        · rw [if_neg hline]
          exact Nat.le_add_right _ _

/-- Equal values belong to the same space. -/
theorem gridSpace_congr (h : (value == value') = true) (lod : ℕ) :
    gridSpace side lod value = gridSpace side lod value' := by
  obtain ⟨hvalue, hvalue', hunits⟩ := beq_iff.mp h
  exact Nat.le_antisymm (gridSpace_mono (le_iff.mpr ⟨hvalue, hvalue', hunits.le⟩) lod)
    (gridSpace_mono (le_iff.mpr ⟨hvalue', hvalue, hunits.ge⟩) lod)

namespace Rect

/-- A key whose column and row are the spaces that a location belongs to. -/
structure InSpaces (side : Float) (l : Location) (key : Key) : Prop where
  x : key.x = gridSpace side key.lod l.x
  y : key.y = gridSpace side key.lod l.y

/-- The quadrant of a cell that a location belongs to stands in the spaces of the location, if the
cell does. -/
theorem InSpaces.child {l : Location} {key c : Key} {r : Rect} (h : InSpaces side l key)
    (hgrid : OnGrid side key r) (hc : key.child (r.quadrantOf l) = .ok c) :
    InSpaces side l c := by
  obtain ⟨hlod, hx, hy⟩ := Key.eq_of_ofGrid hc
  have hmidX : r.midX = gridLine side (key.lod + 1) (2 * key.x + 1) := by
    rw [midX, hgrid.x.lower, hgrid.x.upper, gridLine_odd]
  have hmidY : r.midY = gridLine side (key.lod + 1) (2 * key.y + 1) := by
    rw [midY, hgrid.y.lower, hgrid.y.upper, gridLine_odd]
  constructor
  · rw [hlod, hx, gridSpace, ← h.x, ← hmidX, quadrantOf]
    by_cases hright : r.midX ≤ l.x <;> by_cases htop : r.midY ≤ l.y <;>
      simp [hright, htop, Quadrant.ofBits, Quadrant.xBit]
  · rw [hlod, hy, gridSpace, ← h.y, ← hmidY, quadrantOf]
    by_cases hright : r.midX ≤ l.x <;> by_cases htop : r.midY ≤ l.y <;>
      simp [hright, htop, Quadrant.ofBits, Quadrant.yBit]

end Rect

end QuadCode
