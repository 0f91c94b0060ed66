import QuadCode.Geometry.Rect
import QuadCode.Json.Record

/-!
# Rectangles and points in JSON

A rectangle is spelled as the record of its four bounds, and a point as the record of its
coordinates and its entity.
-/

namespace QuadCode

namespace Rect

/-- The fields of a rectangle. -/
def fieldNames : List String :=
  ["min_x", "min_y", "max_x", "max_y"]

/-- The JSON value of a rectangle. -/
def toJson (r : Rect) : Json :=
  .record (fieldNames.zip [.ofFloat r.minX, .ofFloat r.minY, .ofFloat r.maxX, .ofFloat r.maxY])

/-- The rectangle that a value spells. -/
def ofJson? (v : Json) : Option Rect := do
  match ← (← v.allFields? fieldNames).mapM Json.amount? with
  | [minX, minY, maxX, maxY] => return ⟨minX, minY, maxX, maxY⟩
  | _ => none

end Rect

namespace Point

/-- The fields of a point. -/
def fieldNames : List String :=
  ["x", "y", "data"]

/-- The JSON value of a point. -/
def toJson (p : Point Nat) : Json :=
  .record (fieldNames.zip [.ofFloat p.x, .ofFloat p.y, .ofNat p.data])

/-- The point that a value spells. -/
def ofJson? (v : Json) : Option (Point Nat) := do
  match ← v.allFields? fieldNames with
  | [x, y, data] => return ⟨⟨← x.amount?, ← y.amount?⟩, ← data.count? UInt64.size⟩
  | _ => none

end Point

end QuadCode
