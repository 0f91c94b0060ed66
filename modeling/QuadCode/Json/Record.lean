import QuadCode.Json.Amount
import QuadCode.Json.Reader

/-!
# Records in JSON

A record with named fields is spelled as an object, in which each field occurs at most once, or as
an array of its fields in order.  `Json.fields?` finds the fields in either form.
-/

namespace QuadCode

namespace Json

/-- The members of an object with their names read as text. -/
def namedMembers? : List (Letters × Json) → Option (List (String × Json))
  | [] => some []
  | (name, value) :: rest =>
    match Letters.text? name, namedMembers? rest with
    | some letters, some more => some ((String.ofList letters, value) :: more)
    | _, _ => none

/-- The value of the member with a name, if there is one; several of the same name are refused. -/
def field? (members : List (String × Json)) (name : String) : Option (Option Json) :=
  match members.filter fun m => m.1 == name with
  | [] => some none
  | [m] => some (some m.2)
  | _ => none

/-- The fields of an array in order; those at the end may be missing. -/
def positionalFields? : (names : List String) → (items : List Json) → Option (List (Option Json))
  | [], [] => some []
  | [], _ :: _ => none
  | _ :: names, [] => (positionalFields? names []).map (none :: ·)
  | _ :: names, item :: items => (positionalFields? names items).map (some item :: ·)

/-- The values of the named fields, or the absence of each.  A `closed` record has no other
members. -/
def fields? (names : List String) (closed : Bool) : Json → Option (List (Option Json))
  | object members =>
    match namedMembers? members with
    | none => none
    | some members =>
      if closed && members.any (fun m => !names.contains m.1) then none
      else names.mapM (field? members)
  | array items => positionalFields? names items
  | _ => none

/-- The values of the named fields of a record in which none may be absent. -/
def allFields? (names : List String) (v : Json) : Option (List Json) :=
  (v.fields? names false).bind fun fields => fields.mapM id

/-- What an absent or present field stands for. -/
def fieldOr {α : Type} (absent : α) (read : Json → Option α) : Option Json → Option α
  | none => some absent
  | some v => read v

end Json

end QuadCode
