import Std.Data.ExtTreeMap
import QuadCode.Tree.Basic
import QuadCode.Tree.Stats

/-!
# Looking into a tree

What can be asked of a tree: its nodes and their points, the index from codes to points, and its
statistics.
-/

namespace QuadCode

/-- From the codes of leaves to the positions of the points they hold. -/
abbrev LeafIndex := Std.ExtTreeMap String (Array Nat) compare

namespace Tree

variable {α : Type}

/-- The node at a place of the node array. -/
def node? (t : Tree α) (id : Nat) : Option Node :=
  t.nodes[id]?

/-- The root of the tree. -/
def root (t : Tree α) : Node :=
  (t.node? 0).getD t.undivided

/-- The points at the given positions. -/
def pointsAt (t : Tree α) (positions : Array Nat) : Array (Point α) :=
  positions.filterMap (t.points[·]?)

/-- The points that a node holds. -/
def nodePoints (t : Tree α) (n : Node) : Array (Point α) :=
  t.pointsAt n.points

/-- The leaves that hold a point, by their codes.  There is nothing to find before subdivision. -/
def index (t : Tree α) : LeafIndex :=
  if t.isSubdivided then
    t.occupiedLeaves.foldl (fun found leaf => found.insert leaf.key.code leaf.points) ∅
  else ∅

/-- The points of the indexed leaf with the given code; none if there is no such leaf. -/
def leafPoints (t : Tree α) (code : String) : Array (Point α) :=
  t.pointsAt (t.index[code]?.getD #[])

/-- The shape of the tree in numbers. -/
def stats (t : Tree α) : TreeStats :=
  let leaves := t.leaves
  { points := t.points.size
    nodes := t.nodes.size
    leaves := leaves.length
    nonEmptyLeaves := (leaves.filter fun leaf => !leaf.points.isEmpty).length
    maxLod := t.nodes.foldl (fun deepest n => max deepest n.key.lod) 0
    leafPointRefs := leaves.foldl (fun refs leaf => refs + leaf.points.size) 0 }

/-- A summary in one line. -/
def summary (t : Tree α) : String :=
  "QuadTree \x7b config: " ++ t.settings.summary ++ ", points: " ++ toString t.points.size ++
    ", nodes: " ++ toString t.nodes.size ++ ", subdivided: " ++ toString t.isSubdivided ++ " \x7d"

end Tree

end QuadCode
