import QuadCode.Tree.Basic

/-!
# Point location

A location belongs to one quadrant of each cell if the mid lines are counted to the upper halves.
Going from the root to that quadrant at each split node leads to one leaf, the leaf that a location
is in when cells are taken without their upper bounds.
-/

namespace QuadCode

/-- The quadrant that a location belongs to when the mid lines belong to the upper halves. -/
def Rect.quadrantOf (r : Rect) (l : Location) : Quadrant :=
  Quadrant.ofBits (if r.midX ≤ l.x then 1 else 0) (if r.midY ≤ l.y then 1 else 0)

/-- The leaf that a location leads to from a node.  As in `leavesBelow`, links lead further on. -/
def descend (nodes : Array Node) (l : Location) (id : Nat) : Option Node :=
  match nodes[id]? with
  | none => none
  | some node =>
    match node.children with
    | none => some node
    | some kids =>
      let kid := kids.get (node.rect.quadrantOf l)
      if _h : id < kid ∧ kid < nodes.size then descend nodes l kid else none
termination_by nodes.size - id

/-- The leaf of a tree that a location leads to. -/
def Tree.locate {α : Type} (t : Tree α) (l : Location) : Option Node :=
  descend t.nodes l 0

end QuadCode
