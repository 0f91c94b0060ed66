/-!
# Locations and points

A `Location` is a pair of coordinates.  A `Point` is a location that stands for an entity: it
carries that entity's number, or whatever its payload is.
-/

namespace QuadCode

/-- A place in the plane. -/
structure Location where
  x : Float
  y : Float

namespace Location

/-- Whether both coordinates are finite numbers. -/
def isFinite (l : Location) : Bool :=
  l.x.isFinite && l.y.isFinite

/-- Coordinates are compared as numbers, so no location with a coordinate that is not a number
equals itself. -/
instance : BEq Location where
  beq a b := a.x == b.x && a.y == b.y

end Location

/-- A location with a payload. -/
structure Point (α : Type) extends Location where
  data : α

namespace Point

variable {α : Type}

/-- The point at a location with the given payload. -/
def ofLocation (l : Location) (data : α) : Point α :=
  ⟨l, data⟩

/-- Points are equal if their coordinates are equal as numbers and their payloads are equal. -/
instance [BEq α] : BEq (Point α) where
  beq a b := a.toLocation == b.toLocation && a.data == b.data

end Point

end QuadCode
