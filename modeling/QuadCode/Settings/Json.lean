import QuadCode.Json.Record
import QuadCode.Settings.Basic

/-!
# Settings in JSON

Settings are spelled as a record in which every field may be absent and stands for its default
then, and which has no other fields.  Reading also validates; writing does not.
-/

namespace QuadCode.Settings

/-- The JSON value of settings. -/
def toJson (s : Settings) : Json :=
  .record (fieldNames.zip
    [.ofNat s.splitThreshold.toNat, .ofFloat s.rectSize, .ofNat s.lodThreshold.toNat])

/-- The text of settings, over several lines. -/
def toJsonText (s : Settings) : String :=
  s.toJson.prettyText

/-- The settings that a value spells, valid or not. -/
def ofJson? (v : Json) : Option Settings := do
  let absent : Settings := {}
  match ← v.fields? fieldNames true with
  | [split, size, lod] =>
    let split ← Json.fieldOr absent.splitThreshold.toNat (Json.count? UInt64.size) split
    let size ← Json.fieldOr absent.rectSize Json.amount? size
    let lod ← Json.fieldOr absent.lodThreshold.toNat (Json.count? UInt32.size) lod
    return ⟨UInt64.ofNat split, size, UInt32.ofNat lod⟩
  | _ => none

/-- The valid settings that a JSON text spells. -/
def ofJsonText (text : String) : Except Error Settings :=
  accept ((Json.read? text).bind ofJson?)

end QuadCode.Settings
