import QuadCode.Geometry.Cloud
import QuadCode.Token.OfTree

/-!
# Tokens for locations

A `LocationEncoder` looks at a cloud of locations from several angles.  For each angle the cloud is
rotated about its centroid, fitted into the region of the settings and subdivided, and every
location gets the code of its leaf.  So a location has one token per angle, and locations that one
view cuts apart stay together in another.
-/

namespace QuadCode

/-- How a cloud is fitted into the region. -/
inductive Fit
  /-- Each axis is stretched over the whole region by itself. -/
  | perAxis
  /-- Both axes are stretched alike, by the larger extent. -/
  | uniform
  deriving DecidableEq, Repr

/-- The larger of two extents; one that is not a number yields to the other. -/
def largerExtent (a b : Float) : Float :=
  if a.isNaN then b
  else if a < b then b
  else a

/-- The extents that a fit stretches over the region. -/
def Fit.extents (fit : Fit) (bounds : Rect) : Float × Float :=
  match fit with
  | .perAxis => (bounds.width, bounds.height)
  | .uniform =>
    let extent := largerExtent bounds.width bounds.height
    (extent, extent)

/-- The factor that stretches an extent over a side; an extent of zero collapses to the lower
bound. -/
def stretch (size extent : Float) : Float :=
  if 0.0 < extent then size / extent else 0.0

/-- Whether nothing of a cloud is left to be told apart. -/
def coincide (extents : Float × Float) : Bool :=
  extents.1 ≤ 0.0 && extents.2 ≤ 0.0

/-- A cloud fitted into the square region of the given size, from its bounds and extents. -/
def fitInto (size : Float) (bounds : Rect) (extents : Float × Float) (cloud : List Location) :
    List Location :=
  let scaleX := stretch size extents.1
  let scaleY := stretch size extents.2
  cloud.map fun l =>
    ⟨clampTo size ((l.x - bounds.minX) * scaleX), clampTo size ((l.y - bounds.minY) * scaleY)⟩

/-- Gives locations one token per view angle. -/
structure LocationEncoder where
  settings : Settings
  /-- The view angles in degrees. -/
  angles : List Float
  fit : Fit := .perAxis
  shift : Shift := .identity

namespace LocationEncoder

/-- An encoder with the given view angles, of which there has to be at least one. -/
def ofAngles (settings : Settings) (angles : List Float) : Except Error LocationEncoder := do
  settings.validate
  if angles.isEmpty then
    throw (.invalidConfiguration .noAngles)
  match angles.find? fun angle => !angle.isFinite with
  | some angle => throw (.invalidConfiguration (.angle angle))
  | none => return { settings, angles }

/-- Angles that divide the half turn evenly, the first of them zero. -/
def evenAngles (views : Nat) : List Float :=
  (List.range views).map fun i => 180.0 * Float.ofNat i / Float.ofNat views

/-- An encoder whose angles divide the half turn evenly. -/
def evenlySpaced (settings : Settings) (views : Nat) : Except Error LocationEncoder :=
  ofAngles settings (evenAngles views)

/-- The cloud fitted into the region, with a notice if it has no extent. -/
def fitted (e : LocationEncoder) (cloud : List Location) : Logged (List Location) :=
  match boundingRect cloud with
  | none => pure []
  | some bounds => do
    let extents := e.fit.extents bounds
    if coincide extents then
      Logged.note (.locationsCoincide cloud.length)
    return fitInto e.settings.rectSize bounds extents cloud

/-- The codes of a cloud in the view from one angle. -/
def view (e : LocationEncoder) (cloud : List Location) (center : Location) (angle : Float) :
    Logged CodeMap := do
  let turned := cloud.map (Rotation.ofDegrees center angle).apply
  let empty ← Tree.new e.settings
  let places ← e.fitted turned
  let tree ← empty.subdividedWith places
  tree.codes e.settings.rectSize e.shift

/-- The tokens of a cloud of locations: entity `i` is the location at position `i`. -/
def encode (e : LocationEncoder) (cloud : List Location) : Logged Encoding := do
  match cloud.find? fun l => !l.isFinite with
  | some l => Logged.fail (.outOfBounds l.x l.y e.settings.rectSize)
  | none =>
    match centroid cloud with
    | none => return ⟨e.angles.map fun _ => ∅⟩
    | some center =>
      let views ← e.angles.mapM (e.view cloud center)
      Logged.note (.encodedLocations cloud.length views.length)
      return ⟨views⟩

end LocationEncoder

end QuadCode
