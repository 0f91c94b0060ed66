import QuadCode.Geometry.Rect

/-!
# Clouds of locations

What a view of a cloud needs: its centroid, its rotation about a centre, and its bounding
rectangle.  The order of the operations on doubles is part of each definition, since another order
would round differently.
-/

namespace QuadCode

/-- The mean of the locations, unless there are none.  The sums start with the first location. -/
def centroid : List Location → Option Location
  | [] => none
  | first :: rest =>
    let n := Float.ofNat (rest.length + 1)
    some ⟨rest.foldl (fun sum l => sum + l.x) first.x / n,
      rest.foldl (fun sum l => sum + l.y) first.y / n⟩

/-- A rotation followed by a shift. -/
structure Rotation where
  sine : Float
  cosine : Float
  shiftX : Float
  shiftY : Float

namespace Rotation

/-- How many radians one degree has. -/
def radiansPerDegree : Float :=
  3.141592653589793 / 180.0

/-- The rotation with a given sine and cosine that leaves the centre in place. -/
def about (center : Location) (sine cosine : Float) : Rotation :=
  ⟨sine, cosine, (center.x - center.x * cosine) + center.y * sine,
    (center.y - center.x * sine) - center.y * cosine⟩

/-- The rotation about a centre by an angle in degrees. -/
def ofDegrees (center : Location) (degrees : Float) : Rotation :=
  let angle := degrees * radiansPerDegree
  about center angle.sin angle.cos

/-- Where the rotation takes a location. -/
def apply (r : Rotation) (l : Location) : Location :=
  ⟨(r.cosine * l.x + (-r.sine) * l.y) + r.shiftX, (r.sine * l.x + r.cosine * l.y) + r.shiftY⟩

end Rotation

/-- Bounds on one axis widened to take in one more value.  What is not a number widens nothing. -/
def widen (bounds : Float × Float) (value : Float) : Float × Float :=
  if bounds.2 < value then (bounds.1, value)
  else if value < bounds.1 then (value, bounds.2)
  else bounds

/-- The rectangle that bounds a cloud, unless the cloud is empty. -/
def boundingRect : List Location → Option Rect
  | [] => none
  | first :: rest =>
    let (minX, maxX) := rest.foldl (fun b l => widen b l.x) (first.x, first.x)
    let (minY, maxY) := rest.foldl (fun b l => widen b l.y) (first.y, first.y)
    some (Rect.ordered ⟨minX, minY, maxX, maxY⟩)

end QuadCode
