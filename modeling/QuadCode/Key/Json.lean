import QuadCode.Json.Record
import QuadCode.Key.Code

/-!
# Keys in JSON

A key is spelled as the string of its code.
-/

namespace QuadCode.Key

/-- The JSON value of a key. -/
def toJson (k : Key) : Json :=
  .ofText k.code

/-- The key that a value spells. -/
def ofJson? (v : Json) : Option Key :=
  v.text?.bind fun code => (decode code).toOption

end QuadCode.Key
