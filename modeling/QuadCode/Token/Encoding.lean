import Std.Data.ExtTreeMap
import Std.Data.ExtTreeSet

/-!
# Encodings

An encoding gives entities a code in each of several views.  The codes of one entity over all views
are its tokens.  The maps of the views are extensional: two of them are equal as soon as they give
the same entities the same codes, in whatever order the codes were put in.
-/

namespace QuadCode

/-- The codes of one view, by entity. -/
abbrev CodeMap := Std.ExtTreeMap Nat String compare

/-- The codes of entities in several views. -/
structure Encoding where
  views : List CodeMap
  deriving BEq

namespace Encoding

/-- How many views there are. -/
def viewCount (e : Encoding) : Nat :=
  e.views.length

/-- One view. -/
def view? (e : Encoding) (i : Nat) : Option CodeMap :=
  e.views[i]?

/-- The code of an entity in one view, if the view has it. -/
def code? (e : Encoding) (i entity : Nat) : Option String :=
  (e.view? i).bind (·[entity]?)

/-- The codes of an entity in the views that have it, in the order of the views. -/
def tokens (e : Encoding) (entity : Nat) : List String :=
  e.views.filterMap (·[entity]?)

/-- The codes that occur in any view. -/
def vocabulary (e : Encoding) : Std.ExtTreeSet String compare :=
  e.views.foldl (fun found view => found.insertMany view.values) ∅

end Encoding

end QuadCode
