import QuadCode.Geometry.Point
import QuadCode.Quadrant

/-!
# Rectangles

A `Rect` is given by its lower and upper bounds on both axes.  Halving never computes a bound anew
that is already there: the outer bounds of the quadrants are those of the rectangle, and
neighbouring quadrants share the very same mid line.  A rectangle contains its whole boundary, so a
point on a mid line lies in two quadrants, and a point where both mid lines meet in all four.
-/

namespace QuadCode

/-- A rectangle along the axes. -/
structure Rect where
  minX : Float
  minY : Float
  maxX : Float
  maxY : Float

namespace Rect

/-- The rectangle with its lower corner at `(x, y)` and the given width and height. -/
def ofCorner (x y width height : Float) : Rect :=
  ⟨x, y, x + width, y + height⟩

/-- The square of a given side that has a corner at the origin. -/
def square (side : Float) : Rect :=
  ⟨0.0, 0.0, side, side⟩

/-- The extent on the horizontal axis. -/
def width (r : Rect) : Float :=
  r.maxX - r.minX

/-- The extent on the vertical axis. -/
def height (r : Rect) : Float :=
  r.maxY - r.minY

/-- Whether a place lies in the rectangle or on its boundary. -/
def containsAt (r : Rect) (x y : Float) : Bool :=
  r.minX ≤ x && x ≤ r.maxX && r.minY ≤ y && y ≤ r.maxY

/-- Whether a location lies in the rectangle or on its boundary. -/
def contains (r : Rect) (l : Location) : Bool :=
  r.containsAt l.x l.y

/-- The middle between a lower and an upper bound. -/
def middle (lower upper : Float) : Float :=
  lower + (upper - lower) / 2.0

/-- The mid line that divides left from right. -/
def midX (r : Rect) : Float :=
  middle r.minX r.maxX

/-- The mid line that divides bottom from top. -/
def midY (r : Rect) : Float :=
  middle r.minY r.maxY

/-- One quarter of the rectangle. -/
def quadrant (r : Rect) : Quadrant → Rect
  | .bottomLeft => ⟨r.minX, r.minY, r.midX, r.midY⟩
  | .topLeft => ⟨r.minX, r.midY, r.midX, r.maxY⟩
  | .bottomRight => ⟨r.midX, r.minY, r.maxX, r.midY⟩
  | .topRight => ⟨r.midX, r.midY, r.maxX, r.maxY⟩

/-- The four quarters of the rectangle. -/
def quadrants (r : Rect) : Quadrants Rect :=
  Quadrants.ofFn r.quadrant

/-- Two bounds with the lesser first.  Bounds that cannot be told apart change places. -/
def inOrder (a b : Float) : Float × Float :=
  if a < b then (a, b) else (b, a)

/-- The rectangle with its bounds in order on each axis. -/
def ordered (r : Rect) : Rect :=
  let (minX, maxX) := inOrder r.minX r.maxX
  let (minY, maxY) := inOrder r.minY r.maxY
  ⟨minX, minY, maxX, maxY⟩

/-- Rectangles are equal if their bounds are equal as numbers. -/
instance : BEq Rect where
  beq a b := a.minX == b.minX && a.minY == b.minY && a.maxX == b.maxX && a.maxY == b.maxY

end Rect

/-- A value moved to the nearer end of `[0, size]` if it lies outside.  What is not a number
stays. -/
def clampTo (size value : Float) : Float :=
  let raised := if value < 0.0 then 0.0 else value
  if size < raised then size else raised

end QuadCode
