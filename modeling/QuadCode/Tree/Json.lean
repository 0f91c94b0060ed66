import QuadCode.Json.Record
import QuadCode.Tree.Stats

/-!
# Statistics in JSON

The statistics of a tree are spelled as the record of their counts.
-/

namespace QuadCode.TreeStats

/-- The fields of the statistics. -/
def fieldNames : List String :=
  ["points", "nodes", "leaves", "non_empty_leaves", "max_lod", "leaf_point_refs"]

/-- The JSON value of the statistics. -/
def toJson (s : TreeStats) : Json :=
  .record (fieldNames.zip
    ([s.points, s.nodes, s.leaves, s.nonEmptyLeaves, s.maxLod, s.leafPointRefs].map Json.ofNat))

/-- The statistics that a value spells. -/
def ofJson? (v : Json) : Option TreeStats := do
  match ← v.allFields? fieldNames with
  | [points, nodes, leaves, nonEmptyLeaves, maxLod, leafPointRefs] =>
    return {
      points := ← points.count? UInt64.size
      nodes := ← nodes.count? UInt64.size
      leaves := ← leaves.count? UInt64.size
      nonEmptyLeaves := ← nonEmptyLeaves.count? UInt64.size
      maxLod := ← maxLod.count? UInt32.size
      leafPointRefs := ← leafPointRefs.count? UInt64.size }
  | _ => none

end QuadCode.TreeStats
