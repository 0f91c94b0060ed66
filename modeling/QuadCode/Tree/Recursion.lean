import QuadCode.Tree.Subdivision

/-!
# Subdivision by recursion

The plain way to subdivide a node is to split it and then subdivide its children, one after the
other, in visiting order.  `Subdivision.recurse` does so.  It needs no stack of waiting nodes and
makes the same array of nodes, since a child's descendants are put into the array before the next
child is looked at.
-/

namespace QuadCode.Subdivision

variable {α : Type}

/-- The subdivision with one node and all that come from it dealt with. -/
def recurse (points : Array (Point α)) (splitThreshold limit : Nat) (s : Subdivision) (id : Nat)
    (node : Node) : Except Error Subdivision :=
  if node.points.size ≤ splitThreshold then .ok s
  else if _hlimit : limit < node.key.lod then .ok { s with capped := s.capped + 1 }
  else
    match _h : node.split points with
    | .error e => .error e
    | .ok kids => do
      let first := s.nodes.size
      let s₁ ← recurse points splitThreshold limit (s.divide id node kids) first kids.bottomLeft
      let s₂ ← recurse points splitThreshold limit s₁ (first + 1) kids.topLeft
      let s₃ ← recurse points splitThreshold limit s₂ (first + 2) kids.bottomRight
      recurse points splitThreshold limit s₃ (first + 3) kids.topRight
termination_by limit + 1 - node.key.lod
decreasing_by
  all_goals
    have hlod := fun q => Node.lod_of_childIn (Node.split_eq_ok_iff.mp _h q)
    have := hlod .bottomLeft
    have := hlod .topLeft
    have := hlod .bottomRight
    have := hlod .topRight
    simp only [Quadrants.get] at *
    omega

end QuadCode.Subdivision
