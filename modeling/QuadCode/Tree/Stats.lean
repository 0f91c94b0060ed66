/-!
# Statistics of a tree
-/

namespace QuadCode

/-- The shape of a tree in numbers. -/
structure TreeStats where
  /-- How many points the tree holds. -/
  points : Nat := 0
  /-- How many nodes there are, the root included. -/
  nodes : Nat := 0
  /-- How many nodes have no children. -/
  leaves : Nat := 0
  /-- How many leaves hold a point. -/
  nonEmptyLeaves : Nat := 0
  /-- The deepest level of a node. -/
  maxLod : Nat := 0
  /-- How many points the leaves hold together, where shared points count in each leaf. -/
  leafPointRefs : Nat := 0
  deriving DecidableEq, Repr

/-- How many times points are held beyond once each, as points on shared bounds are. -/
def TreeStats.boundaryDuplicates (s : TreeStats) : Nat :=
  s.leafPointRefs - s.points

end QuadCode
