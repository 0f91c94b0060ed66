import QuadCode.Error

/-!
# Settings

The settings of a tree: how many points a node may hold before it is split, how large the square
region is, and how deep nodes may be split.  `Settings.validate` says which settings a tree can be
made with.
-/

namespace QuadCode

/-- The deepest limit for splits.  Children of the deepest split node are then at level 53, the
last at which halving the unit square still gives distinct bounds. -/
def maxLodThreshold : UInt32 := 52

/-- What a tree is made with. -/
structure Settings where
  /-- A node that holds more points than this is split. -/
  splitThreshold : UInt64 := 1
  /-- The side of the region, a square with a corner at the origin. -/
  rectSize : Float := 1.0
  /-- Nodes deeper than this are never split. -/
  lodThreshold : UInt32 := 10

namespace Settings

/-- What is wrong with the settings, if anything is.  The size of the region is looked at first. -/
def fault? (s : Settings) : Option ConfigurationFault :=
  if !s.rectSize.isFinite || s.rectSize ≤ 0.0 then some (.regionSize s.rectSize)
  else if maxLodThreshold < s.lodThreshold then
    some (.depthLimit maxLodThreshold.toNat s.lodThreshold.toNat)
  else none

/-- Succeeds on settings that a tree can be made with. -/
def validate (s : Settings) : Except Error Unit :=
  match s.fault? with
  | none => .ok ()
  | some fault => .error (.invalidConfiguration fault)

/-- Settings that were read, if they were and are valid. -/
def accept (read : Option Settings) : Except Error Settings :=
  match read with
  | none => .error .unreadable
  | some s => s.validate.map fun _ => s

/-- The names of the fields in a text. -/
def fieldNames : List String :=
  ["split_threshold", "rect_size", "lod_threshold"]

/-- A summary in one line. -/
def summary (s : Settings) : String :=
  "TreeConfig \x7b split_threshold: " ++ toString s.splitThreshold.toNat ++
    ", rect_size: " ++ Layout.summary.text s.rectSize ++
    ", lod_threshold: " ++ toString s.lodThreshold.toNat ++ " \x7d"

end Settings

end QuadCode
