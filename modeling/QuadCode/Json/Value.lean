import QuadCode.Decimal.Layout
import QuadCode.Json.Letter

/-!
# JSON values

A `Json` value keeps the spelling of its numbers and strings, because what a spelling means depends
on what is asked for: `1.0` is an amount but not a count.  The members of an object stand in the
order in which they are written, repeated names included.

Main definitions:

* `Json.compact` writes a value without any blank;
* `Json.pretty` writes it over several lines, two blanks deeper for each level.
-/

namespace QuadCode

/-- A JSON value as it is spelled. -/
inductive Json
  | null
  | bool (b : Bool)
  | number (n : Numeral)
  | string (s : Letters)
  | array (items : List Json)
  | object (members : List (Letters × Json))

namespace Json

/-- Amounts are written with a power of ten from `10 ^ 16` on and below `10 ^ -5`, with a sign in
front of the power. -/
def layout : Layout :=
  ⟨some (-5, 16), true, .plus, .even⟩

/-- The value of an amount; one that is not a finite number has no numeral. -/
def ofFloat (x : Float) : Json :=
  if x.isFinite then number (layout.numeral x) else null

/-- The value of a count. -/
def ofNat (n : Nat) : Json :=
  number (Numeral.ofNat n)

/-- The value of a text. -/
def ofText (s : String) : Json :=
  string (Letters.ofText s.toList)

/-- The value of a record: an object with the given members. -/
def record (members : List (String × Json)) : Json :=
  object (members.map fun (name, value) => (Letters.ofText name.toList, value))

/-- A string between its quotes. -/
def quoted (s : Letters) : List Char :=
  '\x22' :: s.flatMap Letter.text ++ ['\x22']

/-- Texts with commas between them. -/
def separated (separator : List Char) : List (List Char) → List Char
  | [] => []
  | [one] => one
  | one :: rest => one ++ separator ++ separated separator rest

mutual

/-- The text of a value, without any blank. -/
def compact : Json → List Char
  | null => ['n', 'u', 'l', 'l']
  | bool true => ['t', 'r', 'u', 'e']
  | bool false => ['f', 'a', 'l', 's', 'e']
  | number n => n.text
  | string s => quoted s
  | array items => '[' :: separated [','] (compactItems items) ++ [']']
  | object members => '\x7b' :: separated [','] (compactMembers members) ++ ['\x7d']

/-- The texts of the items of an array. -/
def compactItems : List Json → List (List Char)
  | [] => []
  | item :: rest => compact item :: compactItems rest

/-- The texts of the members of an object. -/
def compactMembers : List (Letters × Json) → List (List Char)
  | [] => []
  | (name, value) :: rest => (quoted name ++ ':' :: compact value) :: compactMembers rest

end

/-- The start of a new line at a given depth. -/
def newLine (depth : Nat) : List Char :=
  '\n' :: List.replicate (2 * depth) ' '

/-- Texts on lines of their own between two brackets; nothing stands between the brackets of an
empty list. -/
def bracketed (depth : Nat) (opening closing : Char) (texts : List (List Char)) : List Char :=
  if texts.isEmpty then [opening, closing]
  else
    opening :: newLine (depth + 1) ++ separated (',' :: newLine (depth + 1)) texts ++
      newLine depth ++ [closing]

mutual

/-- The text of a value that begins at a given depth, over several lines. -/
def prettyAt (depth : Nat) : Json → List Char
  | array items => bracketed depth '[' ']' (prettyItems (depth + 1) items)
  | object members => bracketed depth '\x7b' '\x7d' (prettyMembers (depth + 1) members)
  | scalar => compact scalar

/-- The texts of the items of an array, each on a line of its own. -/
def prettyItems (depth : Nat) : List Json → List (List Char)
  | [] => []
  | item :: rest => prettyAt depth item :: prettyItems depth rest

/-- The texts of the members of an object, each on a line of its own. -/
def prettyMembers (depth : Nat) : List (Letters × Json) → List (List Char)
  | [] => []
  | (name, value) :: rest =>
    (quoted name ++ [':', ' '] ++ prettyAt depth value) :: prettyMembers depth rest

end

/-- The text of a value without any blank. -/
def compactText (v : Json) : String :=
  String.ofList v.compact

/-- The text of a value over several lines. -/
def prettyText (v : Json) : String :=
  String.ofList (v.prettyAt 0)

example : (ofFloat 1e16).compactText = "1e+16" ∧ (ofFloat 1e-5).compactText = "0.00001" := by
  decide +kernel

example : (record [("a", array []), ("b", ofNat 0)]).prettyText =
    "\x7b\n  \"a\": [],\n  \"b\": 0\n\x7d" := by
  decide +kernel

end Json

end QuadCode
