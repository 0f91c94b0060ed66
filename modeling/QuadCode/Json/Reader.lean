import QuadCode.Json.Lexeme

/-!
# Reading JSON

A reader takes the lexemes of a text one after another.  Its `Stage` says what has to come next,
and holds the arrays and objects that are still open, the innermost on top.  No lexeme is looked at
twice and no depth is too great, so reading is a fold over the lexemes.

Main definition: `Json.read?` is the value that a whole text spells, if it spells one.
-/

namespace QuadCode

/-- An array or object that is still open, with the newest item or member first. -/
inductive Frame
  | array (items : List Json)
  /-- The value of the last member, named here, is still to come. -/
  | object (members : List (Letters × Json)) (name : Letters)

/-- What a reader waits for, with the open arrays and objects around it. -/
inductive Stage
  | value (around : List Frame)
  | firstItem (around : List Frame)
  | firstName (around : List Frame)
  | name (members : List (Letters × Json)) (around : List Frame)
  | colon (members : List (Letters × Json)) (name : Letters) (around : List Frame)
  /-- A value is complete; a separator or a closing bracket has to come, or the end. -/
  | complete (v : Json) (around : List Frame)

namespace Stage

/-- The stage after the first lexeme of a value. -/
def beginValue (around : List Frame) : Lexeme → Option Stage
  | .openArray => some (firstItem around)
  | .openObject => some (firstName around)
  | .null => some (complete .null around)
  | .bool b => some (complete (.bool b) around)
  | .number n => some (complete (.number n) around)
  | .string s => some (complete (.string s) around)
  | _ => none

/-- The stage after one more lexeme, if the lexeme may come. -/
def next : Stage → Lexeme → Option Stage
  | value around, l => beginValue around l
  | firstItem around, .closeArray => some (complete (.array []) around)
  | firstItem around, l => beginValue (.array [] :: around) l
  | firstName around, .closeObject => some (complete (.object []) around)
  | firstName around, .string s => some (colon [] s around)
  | name members around, .string s => some (colon members s around)
  | colon members s around, .colon => some (value (.object members s :: around))
  | complete v (.array items :: around), .comma => some (value (.array (v :: items) :: around))
  | complete v (.array items :: around), .closeArray =>
    some (complete (.array (v :: items).reverse) around)
  | complete v (.object members s :: around), .comma => some (name ((s, v) :: members) around)
  | complete v (.object members s :: around), .closeObject =>
    some (complete (.object ((s, v) :: members).reverse) around)
  | _, _ => none

end Stage

namespace Json

/-- The value that some lexemes spell. -/
def ofLexemes? (ls : List Lexeme) : Option Json :=
  match ls.foldlM Stage.next (.value []) with
  | some (.complete v []) => some v
  | _ => none

/-- The value that a text spells. -/
def read? (text : String) : Option Json :=
  (lexemes? text.toList).bind ofLexemes?

end Json

end QuadCode
