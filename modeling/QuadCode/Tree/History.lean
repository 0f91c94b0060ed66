import QuadCode.Tree.Lifecycle

/-!
# Histories

A `Step` is one operation on a tree, and a history is a list of them.  Operations may fail in the
course of a history; a failing one leaves the tree as it was, but for the points that an extension
adds before it fails.
-/

namespace QuadCode

variable {α : Type}

/-- One operation on a tree. -/
inductive Step (α : Type)
  | add (p : Point α)
  | extend (ps : List (Point α))
  | subdivide

namespace Tree

/-- The tree after an operation, whether it succeeds or fails. -/
def after (t : Tree α) : Step α → Tree α
  | .add p =>
    match t.add p with
    | .ok (longer, _) => longer
    | .error _ => t
  | .extend ps => (t.extend ps).1
  | .subdivide =>
    match t.subdivide.outcome with
    | .ok done => done
    | .error _ => t

/-- The tree after a history. -/
def afterAll (t : Tree α) (history : List (Step α)) : Tree α :=
  history.foldl after t

/-- A tree that some history of an empty tree leads to. -/
def Reachable (t : Tree α) : Prop :=
  ∃ settings empty history, (Tree.new settings).outcome = .ok empty ∧ t = empty.afterAll history

end Tree

end QuadCode
