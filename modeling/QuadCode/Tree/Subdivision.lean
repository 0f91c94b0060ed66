import QuadCode.Notice
import QuadCode.Settings.Basic
import QuadCode.Tree.Node

/-!
# Subdivision

A region is subdivided by splitting every node that holds more points than the split threshold and
lies no deeper than the depth limit.  The nodes still to be looked at wait on a stack, the next one
on top.  A node that is split puts its four children behind all other nodes of the array, and puts
them on the stack so that the bottom left one comes next.

The work ends because each split trades one waiting node for four that are one level deeper, and
nodes below the limit are not split: `Pending.weight` bounds the nodes that can still come from a
waiting one, and every step makes the sum of the weights smaller.
-/

namespace QuadCode

/-- What a subdivision has made so far. -/
structure Subdivision where
  nodes : Array Node
  /-- The nodes that were split, in that order, with the number of points each holds. -/
  splits : List (Key × Nat)
  /-- How many nodes were not split only because of the depth limit. -/
  capped : Nat

/-- A node that waits to be looked at, and its place in the node array. -/
structure Pending where
  id : Nat
  node : Node

namespace Pending

/-- How many nodes can come from a node that is `levels` above the deepest level, with itself. -/
def weight : (levels : Nat) → Nat
  | 0 => 1
  | levels + 1 => 4 * weight levels + 1

theorem weight_pos (levels : Nat) : 0 < weight levels := by
  cases levels <;> simp [weight]

/-- The weight of a waiting node under a depth limit. -/
def weightUnder (limit : Nat) (p : Pending) : Nat :=
  weight (limit + 1 - p.node.key.lod)

/-- The weight of a whole stack. -/
def stackWeight (limit : Nat) : List Pending → Nat
  | [] => 0
  | p :: rest => weightUnder limit p + stackWeight limit rest

/-- The weight of one stack on top of another is the sum of their weights. -/
theorem stackWeight_append (limit : Nat) (above below : List Pending) :
    stackWeight limit (above ++ below) = stackWeight limit above + stackWeight limit below := by
  induction above with
  | nil => simp [stackWeight]
  | cons p rest ih => simp [stackWeight, ih, Nat.add_assoc]

end Pending

namespace Subdivision

variable {α : Type}

/-- The children of a split, which go to the places from `first` on. -/
def pendingFrom (first : Nat) (kids : Quadrants Node) : List Pending :=
  [⟨first, kids.bottomLeft⟩, ⟨first + 1, kids.topLeft⟩, ⟨first + 2, kids.bottomRight⟩,
    ⟨first + 3, kids.topRight⟩]

/-- Four places in a row. -/
def placesFrom (first : Nat) : Quadrants Nat :=
  ⟨first, first + 1, first + 2, first + 3⟩

/-- The children of a split weigh less together than the node that was split. -/
theorem stackWeight_pendingFrom {limit : Nat} {node : Node} {points : Array (Point α)}
    {kids : Quadrants Node} (hlimit : node.key.lod ≤ limit) (h : node.split points = .ok kids)
    (id first : Nat) :
    Pending.stackWeight limit (pendingFrom first kids) + 1 =
      Pending.weightUnder limit ⟨id, node⟩ := by
  have hlod := fun q => Node.lod_of_childIn (Node.split_eq_ok_iff.mp h q)
  have h₁ := hlod .bottomLeft
  have h₂ := hlod .topLeft
  have h₃ := hlod .bottomRight
  have h₄ := hlod .topRight
  simp only [Quadrants.get] at h₁ h₂ h₃ h₄
  obtain ⟨levels, hlevels⟩ : ∃ levels, limit + 1 - node.key.lod = levels + 1 :=
    ⟨limit - node.key.lod, by omega⟩
  have hkid : limit + 1 - (node.key.lod + 1) = levels := by omega
  simp only [Pending.stackWeight, pendingFrom, Pending.weightUnder, h₁, h₂, h₃, h₄, hlevels, hkid,
    Pending.weight]
  omega

/-- The nodes with the children of one of them put behind all others. -/
def divide (s : Subdivision) (id : Nat) (node : Node) (kids : Quadrants Node) : Subdivision :=
  let first := s.nodes.size
  { s with
    nodes := s.nodes.modify id (fun n => { n with children := some (placesFrom first) }) ++
      kids.toList.toArray
    splits := (node.key, node.points.size) :: s.splits }

/-- A split adds four nodes. -/
theorem size_divide (s : Subdivision) (id : Nat) (node : Node) (kids : Quadrants Node) :
    (s.divide id node kids).nodes.size = s.nodes.size + 4 := by
  simp [divide, Quadrants.toList]

/-- Looks at the waiting nodes until none is left.  The nodes that are split are gathered with the
last one first. -/
def run (points : Array (Point α)) (splitThreshold limit : Nat) (s : Subdivision) :
    List Pending → Except Error Subdivision
  | [] => .ok s
  | ⟨id, node⟩ :: rest =>
    if node.points.size ≤ splitThreshold then run points splitThreshold limit s rest
    else if _hlimit : limit < node.key.lod then
      run points splitThreshold limit { s with capped := s.capped + 1 } rest
    else
      match _h : node.split points with
      | .error e => .error e
      | .ok kids =>
        let first := s.nodes.size
        run points splitThreshold limit (s.divide id node kids) (pendingFrom first kids ++ rest)
termination_by stack => Pending.stackWeight limit stack
decreasing_by
  · have := Pending.weight_pos (limit + 1 - node.key.lod)
    simp only [Pending.stackWeight, Pending.weightUnder]
    omega
  · have := Pending.weight_pos (limit + 1 - node.key.lod)
    simp only [Pending.stackWeight, Pending.weightUnder]
    omega
  · have := stackWeight_pendingFrom (Nat.le_of_not_lt _hlimit) _h id s.nodes.size
    rw [Pending.stackWeight_append, Pending.stackWeight]
    omega

/-- The subdivision of a region with all its points, which starts with the undivided region. -/
def ofPoints (settings : Settings) (points : Array (Point α)) : Except Error Subdivision :=
  let root := Node.leaf Key.root (Rect.square settings.rectSize) (Array.range points.size)
  (run points settings.splitThreshold.toNat settings.lodThreshold.toNat ⟨#[root], [], 0⟩
    [⟨0, root⟩]).map fun s => { s with splits := s.splits.reverse }

end Subdivision

end QuadCode
