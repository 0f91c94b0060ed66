import QuadCode.Tree.Subdivision

/-!
# Trees

A `Tree` gathers points in a square region, is subdivided once, and is only read from then on.  Its
points stand in one list, in the order in which they were added, and its nodes refer to them by
position.  Until the tree is subdivided it has one node, the whole region with all points.

Main definitions:

* `Tree.new`, `Tree.add`, `Tree.extend` and `Tree.subdivide` are the life of a tree;
* `Tree.nodes` is the node array at any stage.

A failing operation leaves the tree as it was, since it gives no other; only `Tree.extend` keeps
the points in front of the first one that is refused.
-/

namespace QuadCode

/-- Points in a square region, and the nodes once the region is subdivided. -/
structure Tree (α : Type) where
  settings : Settings
  /-- The points in the order in which they were added. -/
  points : Array (Point α)
  /-- The nodes that subdivision made, if it has taken place. -/
  arena : Option (Array Node)

namespace Tree

variable {α : Type}

/-- Depth limits from here on deserve a notice. -/
def deepLimit : UInt32 := 20

/-- An empty tree with the given settings. -/
def new (settings : Settings) : Logged (Tree α) := do
  settings.validate
  if deepLimit < settings.lodThreshold then
    Logged.note (.deepLimit settings.lodThreshold.toNat)
  return ⟨settings, #[], none⟩

/-- The region of the tree. -/
def region (t : Tree α) : Rect :=
  Rect.square t.settings.rectSize

/-- Whether the tree has been subdivided. -/
def isSubdivided (t : Tree α) : Bool :=
  t.arena.isSome

/-- The undivided region with all points. -/
def undivided (t : Tree α) : Node :=
  Node.leaf Key.root t.region (Array.range t.points.size)

/-- Every node, in the order in which the nodes were made; the root comes first. -/
def nodes (t : Tree α) : Array Node :=
  t.arena.getD #[t.undivided]

/-- Whether a point may be added as far as its place goes. -/
def admits (t : Tree α) (p : Point α) : Bool :=
  p.isFinite && t.region.contains p.toLocation

/-- The tree with one more point, and the position of the point. -/
def add (t : Tree α) (p : Point α) : Except Error (Tree α × Nat) :=
  if t.isSubdivided then .error (.invalidState .addAfterSubdivision)
  else if t.admits p then .ok ({ t with points := t.points.push p }, t.points.size)
  else .error (.outOfBounds p.x p.y t.settings.rectSize)

/-- The tree with all the points up to the first one that is refused, and why it is refused. -/
def extend (t : Tree α) : List (Point α) → Tree α × Except Error Unit
  | [] => (t, .ok ())
  | p :: rest =>
    match t.add p with
    | .error e => (t, .error e)
    | .ok (longer, _) => longer.extend rest

/-- The leaves that a node leads to; none if there is no such node. -/
def leavesFrom (t : Tree α) (id : Nat) : List Node :=
  let nodes := t.nodes
  (leavesBelow nodes id).filterMap (nodes[·]?)

/-- Every leaf of the tree, depth first, the quadrants in visiting order. -/
def leaves (t : Tree α) : List Node :=
  t.leavesFrom 0

/-- The leaves that hold a point. -/
def occupiedLeaves (t : Tree α) : List Node :=
  t.leaves.filter fun leaf => !leaf.points.isEmpty

end Tree

end QuadCode
