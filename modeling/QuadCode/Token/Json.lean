import QuadCode.Json.Record
import QuadCode.Token.Encoding

/-!
# Encodings in JSON

An encoding is spelled as the record of its views, and a view as an object whose names are the
numbers of the entities and whose values are their codes.  If an entity is named more than once,
the last code counts.
-/

namespace QuadCode

/-- The spelling of an entity's number as a name. -/
def entityName (entity : Nat) : Letters :=
  (Numeral.ofNat entity).text.map Letter.plain

/-- The character of a letter that stands for itself. -/
def Letter.plain? : Letter → Option Char
  | .plain c => some c
  | _ => none

/-- The entity that a name spells: a count, without any escape. -/
def entityOfName? (name : Letters) : Option Nat := do
  match Numeral.scan (← name.mapM Letter.plain?) with
  | some (n, []) => n.count? UInt64.size
  | _ => none

namespace CodeMap

/-- The JSON value of the given codes, in the given order. -/
def entriesToJson (entries : List (Nat × String)) : Json :=
  .object (entries.map fun (entity, code) => (entityName entity, .ofText code))

/-- The entries that the members of an object spell. -/
def entriesOfMembers? : List (Letters × Json) → Option (List (Nat × String))
  | [] => some []
  | (name, value) :: rest =>
    match entityOfName? name, value.text?, entriesOfMembers? rest with
    | some entity, some code, some more => some ((entity, code) :: more)
    | _, _, _ => none

/-- The codes of one view that a value spells. -/
def ofJson? : Json → Option CodeMap
  | .object members =>
    (entriesOfMembers? members).map fun entries =>
      entries.foldl (fun codes (entity, code) => codes.insert entity code) ∅
  | _ => none

end CodeMap

namespace Encoding

/-- The fields of an encoding. -/
def fieldNames : List String :=
  ["views"]

/-- The JSON value of an encoding whose views are given by their entries, in the given order. -/
def entriesToJson (views : List (List (Nat × String))) : Json :=
  .record (fieldNames.zip [.array (views.map CodeMap.entriesToJson)])

/-- The JSON value of an encoding, the entities of each view in increasing order. -/
def toJson (e : Encoding) : Json :=
  entriesToJson (e.views.map fun view => view.toList)

/-- The encoding that a value spells. -/
def ofJson? (v : Json) : Option Encoding := do
  match ← v.allFields? fieldNames with
  | [views] => return ⟨← (← views.items?).mapM CodeMap.ofJson?⟩
  | _ => none

/-- The text of an encoding, without any blank. -/
def toJsonText (e : Encoding) : String :=
  e.toJson.compactText

/-- The encoding that a JSON text spells. -/
def ofJsonText? (text : String) : Option Encoding :=
  (Json.read? text).bind ofJson?

end Encoding

end QuadCode
