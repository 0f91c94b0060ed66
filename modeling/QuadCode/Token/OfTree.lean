import QuadCode.Token.Encoding
import QuadCode.Token.Shift
import QuadCode.Tree.Lifecycle

/-!
# Codes from a tree

Each entity of a subdivided tree gets the code of the leaf that holds its point.  A point on shared
bounds is held by several leaves; the leaf that comes last in depth-first order gives the code.
-/

namespace QuadCode

/-- The codes with one leaf's code given to all entities it holds. -/
def CodeMap.insertLeaf (t : Tree Nat) (shift : Shift) (codes : CodeMap) (leaf : Node) : CodeMap :=
  let code := shift.apply leaf.key.code
  (t.nodePoints leaf).foldl (fun codes p => codes.insert p.data code) codes

/-- The code of every entity of a subdivided tree, which has to cover a region of the given
size. -/
def Tree.codes (t : Tree Nat) (rectSize : Float) (shift : Shift) : Except Error CodeMap :=
  if t.settings.rectSize != rectSize then
    .error (.invalidConfiguration (.regionMismatch t.settings.rectSize rectSize))
  else if !t.isSubdivided then .error (.invalidState .notSubdivided)
  else .ok (t.occupiedLeaves.foldl (CodeMap.insertLeaf t shift) ∅)

/-- A tree filled with entities and subdivided: entity `i` stands at position `i` of the list. -/
def Tree.subdividedWith (empty : Tree Nat) (places : List Location) : Logged (Tree Nat) := do
  let (tree, added) := empty.extend (places.zipIdx.map fun (place, i) => Point.ofLocation place i)
  added
  tree.subdivide

end QuadCode
