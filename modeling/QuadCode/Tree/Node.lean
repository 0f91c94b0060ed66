import QuadCode.Geometry.Rect
import QuadCode.Key.Code

/-!
# Nodes

The nodes of a tree stand in one array, in the order in which they were made, and refer to each
other by their places in it.  A node holds the positions of all points in its rectangle, also after
it has been split; it has no children, or one for each quadrant.

Main definitions:

* `Node.split` makes the children of a node;
* `leavesBelow` lists the leaves that a node leads to, the quadrants in visiting order.
-/

namespace QuadCode

/-- A cell of the region with the points in it. -/
structure Node where
  key : Key
  rect : Rect
  /-- The positions of the node's points in the point list of the tree. -/
  points : Array Nat
  /-- The places of the children in the node array. -/
  children : Option (Quadrants Nat)

namespace Node

variable {α : Type}

/-- A node that has not been split. -/
def leaf (key : Key) (rect : Rect) (points : Array Nat) : Node :=
  ⟨key, rect, points, none⟩

/-- Whether the node has no children. -/
def isLeaf (n : Node) : Bool :=
  n.children.isNone

theorem isLeaf_iff {n : Node} : n.isLeaf = true ↔ n.children = none :=
  Option.isNone_iff_eq_none

/-- Those of the node's points that a rectangle contains. -/
def pointsIn (n : Node) (points : Array (Point α)) (rect : Rect) : Array Nat :=
  n.points.filter fun i =>
    match points[i]? with
    | some p => rect.contains p.toLocation
    | none => false

/-- The child of a node in one quadrant. -/
def childIn (n : Node) (points : Array (Point α)) (q : Quadrant) : Except Error Node :=
  (n.key.child q).map fun key =>
    let rect := n.rect.quadrant q
    leaf key rect (n.pointsIn points rect)

/-- The children of a node. -/
def split (n : Node) (points : Array (Point α)) : Except Error (Quadrants Node) := do
  let bottomLeft ← n.childIn points .bottomLeft
  let topLeft ← n.childIn points .topLeft
  let bottomRight ← n.childIn points .bottomRight
  let topRight ← n.childIn points .topRight
  return ⟨bottomLeft, topLeft, bottomRight, topRight⟩

/-- A child is one level deeper. -/
theorem lod_of_childIn {n c : Node} {points : Array (Point α)} {q : Quadrant}
    (h : n.childIn points q = .ok c) : c.key.lod = n.key.lod + 1 := by
  unfold childIn at h
  cases hk : n.key.child q with
  | error e => simp [hk, Except.map] at h
  | ok key =>
    simp only [hk, Except.map, Except.ok.injEq] at h
    subst h
    exact Key.lod_of_child hk

/-- A split succeeds exactly if every quadrant has a child, and then it gives those children. -/
theorem split_eq_ok_iff {n : Node} {points : Array (Point α)} {kids : Quadrants Node} :
    n.split points = .ok kids ↔ ∀ q, n.childIn points q = .ok (kids.get q) := by
  constructor
  · intro h
    unfold split at h
    cases h₁ : n.childIn points .bottomLeft with
    | error e => simp [h₁, bind, Except.bind] at h
    | ok a =>
    cases h₂ : n.childIn points .topLeft with
    | error e => simp [h₁, h₂, bind, Except.bind] at h
    | ok b =>
    cases h₃ : n.childIn points .bottomRight with
    | error e => simp [h₁, h₂, h₃, bind, Except.bind] at h
    | ok c =>
    cases h₄ : n.childIn points .topRight with
    | error e => simp [h₁, h₂, h₃, h₄, bind, Except.bind] at h
    | ok d =>
    simp only [h₁, h₂, h₃, h₄, bind, Except.bind, pure, Except.pure, Except.ok.injEq] at h
    subst h
    intro q
    cases q <;> assumption
  · intro h
    have h₁ := h .bottomLeft
    have h₂ := h .topLeft
    have h₃ := h .bottomRight
    have h₄ := h .topRight
    simp [split, h₁, h₂, h₃, h₄, bind, Except.bind, pure, Except.pure, Quadrants.get]

end Node

/-- The leaves that a node leads to, quadrant by quadrant.  Children stand behind their parent in
the array, so a link that does not lead further on is not followed. -/
def leavesBelow (nodes : Array Node) (id : Nat) : List Nat :=
  match nodes[id]? with
  | none => []
  | some node =>
    match node.children with
    | none => [id]
    | some kids =>
      kids.toList.flatMap fun kid =>
        if _h : id < kid ∧ kid < nodes.size then leavesBelow nodes kid else []
termination_by nodes.size - id

end QuadCode
