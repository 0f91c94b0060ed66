import QuadCode.Proofs.Geometry.Cells

/-!
# The sides of a location on which a cell goes on

A cell contains its boundary, so neighbouring cells share locations.  They lie on different sides of
them: from a shared location a cell goes on in some directions only, and no two quadrants of a cell
go on in the same one.  A direction is a quadrant, one bit for each axis.

Main statements:

* `Solid.goesOn_inward`: a cell with extent on both axes goes on from each of its locations;
* `GoesOn.of_quadrant`: where a quadrant goes on, its cell does;
* `GoesOn.quadrant_unique`: no two quadrants go on in the same direction.
-/

namespace QuadCode

open Double

namespace Rect

/-- A cell whose bounds are different on both axes. -/
structure Solid (r : Rect) : Prop where
  x : r.minX < r.maxX
  y : r.minY < r.maxY

/-- Bounds on one axis that a value lies between, with room above it if the bit is set and with room
below it if not. -/
def RoomBeside (lower upper : Float) (bit : ℕ) (value : Float) : Prop :=
  if bit = 1 then lower ≤ value ∧ value < upper else lower < value ∧ value ≤ upper

/-- A cell that goes on from one of its locations in the direction of a quadrant. -/
structure GoesOn (r : Rect) (side : Quadrant) (l : Location) : Prop where
  x : RoomBeside r.minX r.maxX side.xBit l.x
  y : RoomBeside r.minY r.maxY side.yBit l.y

/-- The direction in which a cell goes on from one of its locations: up and to the right, unless the
location lies on the upper bounds. -/
def inward (r : Rect) (l : Location) : Quadrant :=
  Quadrant.ofBits (if l.x < r.maxX then 1 else 0) (if l.y < r.maxY then 1 else 0)

variable {lower upper value : Float} {bit : ℕ}

theorem RoomBeside.of_lowerHalf (hspan : Span lower upper)
    (h : RoomBeside lower (middle lower upper) bit value) : RoomBeside lower upper bit value := by
  have hmiddle := hspan.upperHalf.ordered
  unfold RoomBeside at h ⊢
  split_ifs at h ⊢
  · exact ⟨h.1, Double.lt_of_lt_of_le h.2 hmiddle⟩
  · exact ⟨h.1, Double.le_trans h.2 hmiddle⟩

theorem RoomBeside.of_upperHalf (hspan : Span lower upper)
    (h : RoomBeside (middle lower upper) upper bit value) : RoomBeside lower upper bit value := by
  have hmiddle := hspan.lowerHalf.ordered
  unfold RoomBeside at h ⊢
  split_ifs at h ⊢
  · exact ⟨Double.le_trans hmiddle h.1, h.2⟩
  · exact ⟨Double.lt_of_le_of_lt hmiddle h.1, h.2⟩

/-- Bounds that meet leave room on different sides of a value. -/
theorem RoomBeside.not_meeting {middle : Float} (h : RoomBeside lower middle bit value) :
    ¬ RoomBeside middle upper bit value := by
  intro h'
  unfold RoomBeside at h h'
  split_ifs at h h'
  · exact Double.not_lt_of_le h'.1 h.2
  · exact Double.not_lt_of_le h.2 h'.1

/-- Different bounds leave room above a value, or below it if it is the upper bound. -/
theorem roomBeside_of_lt (hlt : lower < upper) (hlow : lower ≤ value) (hhigh : value ≤ upper) :
    RoomBeside lower upper (if value < upper then 1 else 0) value := by
  unfold RoomBeside
  by_cases hroom : value < upper
  · rw [if_pos hroom, if_pos rfl]
    exact ⟨hlow, hroom⟩
  · rw [if_neg hroom, if_neg Nat.zero_ne_one]
    obtain ⟨hvalue, hupper, -⟩ := le_iff.mp hhigh
    have hend : upper ≤ value := (Double.lt_or_le hvalue hupper).resolve_left hroom
    exact ⟨Double.lt_of_lt_of_le hlt hend, hhigh⟩

/-- A cell with different bounds goes on from each of its locations. -/
theorem Solid.goesOn_inward {r : Rect} (h : r.Solid) {l : Location} (hl : r.contains l = true) :
    r.GoesOn (r.inward l) l := by
  obtain ⟨hx, hx', hy, hy'⟩ := contains_iff.mp hl
  have hxBit : (r.inward l).xBit = if l.x < r.maxX then 1 else 0 := by
    unfold inward
    split_ifs <;> rfl
  have hyBit : (r.inward l).yBit = if l.y < r.maxY then 1 else 0 := by
    unfold inward
    split_ifs <;> rfl
  refine ⟨?_, ?_⟩
  · rw [hxBit]
    exact roomBeside_of_lt h.x hx hx'
  · rw [hyBit]
    exact roomBeside_of_lt h.y hy hy'

/-- Where a quadrant goes on, its cell does. -/
theorem GoesOn.of_quadrant {r : Rect} (hr : r.Proper) {q side : Quadrant} {l : Location}
    (h : (r.quadrant q).GoesOn side l) : r.GoesOn side l := by
  cases q with
  | bottomLeft => exact ⟨h.x.of_lowerHalf hr.x, h.y.of_lowerHalf hr.y⟩
  | topLeft => exact ⟨h.x.of_lowerHalf hr.x, h.y.of_upperHalf hr.y⟩
  | bottomRight => exact ⟨h.x.of_upperHalf hr.x, h.y.of_lowerHalf hr.y⟩
  | topRight => exact ⟨h.x.of_upperHalf hr.x, h.y.of_upperHalf hr.y⟩

/-- No two quadrants of a cell go on from a location in the same direction: they lie on different
sides of a mid line. -/
theorem GoesOn.quadrant_unique {r : Rect} {q q' side : Quadrant} {l : Location}
    (h : (r.quadrant q).GoesOn side l) (h' : (r.quadrant q').GoesOn side l) : q = q' := by
  cases q <;> cases q' <;> first
    | rfl
    | exact absurd h'.x h.x.not_meeting
    | exact absurd h.x h'.x.not_meeting
    | exact absurd h'.y h.y.not_meeting
    | exact absurd h.y h'.y.not_meeting

end Rect

end QuadCode
