import QuadCode.Tree.Query

/-!
# Subdividing a tree

`Tree.subdivide` takes a tree from the stage in which points are added to the stage in which it is
read.  `Draft` puts settings and points together first and makes the tree in one go.
-/

namespace QuadCode

variable {α : Type}

/-- The tree with its region subdivided.  This can be done once. -/
def Tree.subdivide (t : Tree α) : Logged (Tree α) := do
  if t.isSubdivided then
    Logged.fail (.invalidState .secondSubdivision)
  let s ← Subdivision.ofPoints t.settings t.points
  let done := { t with arena := some s.nodes }
  Logged.noteAll (s.splits.map fun (key, points) => .split key points)
  if 0 < s.capped then
    Logged.note (.capped s.capped t.settings.lodThreshold.toNat t.settings.splitThreshold.toNat)
  Logged.note (.subdivided t.points.size s.nodes.size s.splits.length done.index.size)
  return done

/-- What a tree is to be made of. -/
structure Draft (α : Type) where
  settings : Settings := {}
  points : List (Point α) := []

namespace Draft

/-- The draft with more points behind those it has. -/
def queue (d : Draft α) (points : List (Point α)) : Draft α :=
  { d with points := d.points ++ points }

/-- A tree with the points of the draft, not yet subdivided. -/
def build (d : Draft α) : Logged (Tree α) := do
  let empty ← Tree.new d.settings
  let (tree, added) := empty.extend d.points
  added
  return tree

/-- A subdivided tree with the points of the draft. -/
def buildSubdivided (d : Draft α) : Logged (Tree α) := do
  let tree ← d.build
  tree.subdivide

end Draft

end QuadCode
