import QuadCode.Decimal.Layout
import QuadCode.Text.Quoted

/-!
# What can go wrong

Every operation that can fail gives its cause as a value of `Error`.  The wording of a failure is
settled in one place, `Error.message`.
-/

namespace QuadCode

/-- Why a configuration is refused. -/
inductive ConfigurationFault
  /-- The side of the region is not a positive finite number. -/
  | regionSize (size : Float)
  /-- The depth limit is beyond what halving the region can serve. -/
  | depthLimit (limit lodThreshold : Nat)
  /-- There is no view angle. -/
  | noAngles
  /-- A view angle is not finite. -/
  | angle (degrees : Float)
  /-- The time horizon is not a positive finite number. -/
  | horizon (length : Float)
  /-- A code digit has no character that many code points further on. -/
  | digitOffset (digit : Char) (offset : Nat)
  /-- A tree covers another region than the one asked for. -/
  | regionMismatch (actual expected : Float)

/-- Why an operation is not allowed in the present stage of a tree. -/
inductive StateFault
  | addAfterSubdivision
  | secondSubdivision
  | notSubdivided

/-- Why an operation fails. -/
inductive Error
  /-- A code holds a character that is not a digit of codes. -/
  | invalidCode (code : String) (position : Nat) (found : Char)
  /-- Grid coordinates do not fit a key of that level of detail. -/
  | invalidKey (lod x y : Nat)
  | invalidConfiguration (fault : ConfigurationFault)
  | invalidState (fault : StateFault)
  /-- A point lies outside the region, or is not finite. -/
  | outOfBounds (x y size : Float)
  /-- A text is not the text of a configuration. -/
  | unreadable

/-- The text of an amount in a message. -/
def amount (x : Float) : String :=
  Layout.plain.text x

namespace ConfigurationFault

/-- The wording of a refused configuration. -/
def message : ConfigurationFault → String
  | regionSize size => s!"rect_size must be a positive finite number, got {amount size}"
  | depthLimit limit lodThreshold => s!"lod_threshold must be at most {limit}, got {lodThreshold}"
  | noAngles => "spatial encoder needs at least one view angle"
  | angle degrees => s!"view angle must be finite, got {amount degrees}"
  | horizon length => s!"time horizon must be a positive finite number, got {amount length}"
  | digitOffset digit offset =>
    s!"shifting {quoteChar digit} by {offset} does not yield a valid character"
  | regionMismatch actual expected =>
    s!"tree covers a region of size {amount actual}, expected {amount expected}"

end ConfigurationFault

namespace StateFault

/-- The wording of an operation out of its stage. -/
def message : StateFault → String
  | addAfterSubdivision => "cannot add points after the tree has been subdivided"
  | secondSubdivision => "tree has already been subdivided"
  | notSubdivided => "tree must be subdivided before encoding"

end StateFault

namespace Error

/-- The wording of a failure. -/
def message : Error → String
  | invalidCode code position found =>
    s!"invalid quadkey {quoteText code}: unexpected {quoteChar found} at position {position}"
  | invalidKey lod x y => s!"invalid quadkey: x={x}, y={y} do not fit in {lod} bits"
  | invalidConfiguration fault => s!"invalid configuration: {fault.message}"
  | invalidState fault => s!"invalid state: {fault.message}"
  | outOfBounds x y size =>
    s!"point ({amount x}, {amount y}) lies outside the region " ++
      s!"[0, {amount size}] x [0, {amount size}]"
  | unreadable => "configuration parse error"

end Error

end QuadCode
