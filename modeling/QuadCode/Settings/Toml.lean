import QuadCode.Decimal.Nearest
import QuadCode.Settings.Basic
import QuadCode.Text.Escape

/-!
# Settings in TOML

Settings are spelled in TOML with one field to a line.  Every field of the settings is an integer or
a float and there are no others, so a text with tables, arrays, dates, strings as values or dotted
keys cannot spell settings, and is refused where such a thing begins.

Main definition: `Settings.ofTomlText` reads settings and validates them.
-/

namespace QuadCode

namespace Toml

/-- A value that a field of the settings can have. -/
inductive Scalar
  | integer (n : Int)
  | float (x : Float)

/-- The blanks within a line. -/
def isBlank (c : Char) : Bool :=
  c == ' ' || c == '\t'

/-- The characters that may stand in a comment, and those beyond ASCII among them. -/
def isText (c : Char) : Bool :=
  c == '\t' || (0x20 ≤ c.toNat && c.toNat != 0x7f)

/-! ## Numbers -/

/-- The value of a digit in a base up to sixteen. -/
def digitIn? (base : Nat) (c : Char) : Option Nat :=
  (hexValue? c).filter (· < base)

/-- More digits, each of which may have one underscore in front, and what follows them. -/
def scanMoreDigits (base : Nat) : List Char → List Nat × List Char
  | [] => ([], [])
  | '_' :: c :: rest =>
    match digitIn? base c with
    | none => ([], '_' :: c :: rest)
    | some d =>
      let (ds, left) := scanMoreDigits base rest
      (d :: ds, left)
  | c :: rest =>
    match digitIn? base c with
    | none => ([], c :: rest)
    | some d =>
      let (ds, left) := scanMoreDigits base rest
      (d :: ds, left)

/-- A run of digits, at least one, with single underscores between them. -/
def scanDigits (base : Nat) : List Char → Option (List Nat × List Char)
  | [] => none
  | c :: rest =>
    (digitIn? base c).map fun d =>
      let (ds, left) := scanMoreDigits base rest
      (d :: ds, left)

/-- The number that digits of a base denote. -/
def digitsValue (base : Nat) (ds : List Nat) : Nat :=
  ds.foldl (fun n d => base * n + d) 0

/-- A sign at the front of a text: whether it is a minus, and what follows. -/
def scanSign : List Char → Bool × List Char
  | '-' :: rest => (true, rest)
  | '+' :: rest => (false, rest)
  | s => (false, s)

/-- An integer, if 64 bits with a sign can hold it. -/
def integer? (n : Int) : Option Scalar :=
  if -0x8000000000000000 ≤ n ∧ n < 0x8000000000000000 then some (.integer n) else none

/-- An integer in another base than ten, behind the mark of its base. -/
def markedInteger? (base : Nat) (s : List Char) : Option Scalar :=
  match scanDigits base s with
  | some (ds, []) => integer? (digitsValue base ds)
  | _ => none

/-- The exponent behind its mark: the whole rest of the text. -/
def exponent? (s : List Char) : Option Int :=
  let (negative, digits) := scanSign s
  match scanDigits 10 digits with
  | some (ds, []) => some (if negative then -(digitsValue 10 ds : Int) else digitsValue 10 ds)
  | _ => none

/-- A float from its digits, the places behind the point among them, and its exponent.  A positive
one may not be too large. -/
def float? (negative : Bool) (ds : List Nat) (places : Nat) (exponent : Int) : Option Scalar :=
  let size := nearestDouble (digitsValue 10 ds) (exponent - places)
  let x := if negative then -size else size
  if x == 1.0 / 0.0 then none else some (.float x)

/-- What a number is whose whole digits are known, from the rest of its text. -/
def numberFrom? (negative : Bool) (whole : List Nat) : List Char → Option Scalar
  | [] =>
    let n : Int := digitsValue 10 whole
    integer? (if negative then -n else n)
  | '.' :: rest =>
    match scanDigits 10 rest with
    | none => none
    | some (places, []) => float? negative (whole ++ places) places.length 0
    | some (places, mark :: behind) =>
      if mark = 'e' ∨ mark = 'E' then
        (exponent? behind).bind (float? negative (whole ++ places) places.length)
      else none
  | mark :: behind =>
    if mark = 'e' ∨ mark = 'E' then (exponent? behind).bind (float? negative whole 0) else none

/-- A decimal number without its sign; only a lone zero may begin with zero. -/
def unsigned? (negative : Bool) (s : List Char) : Option Scalar :=
  match s with
  | ['i', 'n', 'f'] => some (.float (if negative then -1.0 / 0.0 else 1.0 / 0.0))
  | ['n', 'a', 'n'] => some (.float (0.0 / 0.0))
  | _ =>
    match scanDigits 10 s with
    | none => none
    | some (0 :: _ :: _, _) => none
    | some (whole, left) => numberFrom? negative whole left

/-- The value that a run of characters without blanks spells. -/
def scalar? (s : List Char) : Option Scalar :=
  match s with
  | '0' :: 'x' :: digits => markedInteger? 16 digits
  | '0' :: 'o' :: digits => markedInteger? 8 digits
  | '0' :: 'b' :: digits => markedInteger? 2 digits
  | _ =>
    let (negative, number) := scanSign s
    unsigned? negative number

/-! ## Keys -/

/-- The characters of a key without quotes. -/
def isBare (c : Char) : Bool :=
  c.isAlphanum || c == '_' || c == '-'

/-- The character with a code point in base sixteen. -/
def codePoint? (digits : List Char) : Option Char := do
  let n := digitsValue 16 (← digits.mapM hexValue?)
  if n.isValidChar then some (Char.ofNat n) else none

/-- A key between double quotes, up to the closing quote, and what follows it. -/
def scanQuoted : List Char → Option (List Char × List Char)
  | [] => none
  | '\x22' :: rest => some ([], rest)
  | '\\' :: 'u' :: a :: b :: c :: d :: rest =>
    match codePoint? [a, b, c, d], scanQuoted rest with
    | some c, some (more, left) => some (c :: more, left)
    | _, _ => none
  | '\\' :: 'U' :: a :: b :: c :: d :: e :: f :: g :: h :: rest =>
    match codePoint? [a, b, c, d, e, f, g, h], scanQuoted rest with
    | some c, some (more, left) => some (c :: more, left)
    | _, _ => none
  | '\\' :: mark :: rest =>
    match escapeMeaning? mark, scanQuoted rest with
    | some c, some (more, left) => some (c :: more, left)
    | _, _ => none
  | c :: rest =>
    if isText c then (scanQuoted rest).map fun (more, left) => (c :: more, left) else none

/-- A key between single quotes, up to the closing quote, and what follows it. -/
def scanLiteral : List Char → Option (List Char × List Char)
  | [] => none
  | '\x27' :: rest => some ([], rest)
  | c :: rest =>
    if isText c then (scanLiteral rest).map fun (more, left) => (c :: more, left) else none

/-- A key at the front of a line, and what follows it. -/
def scanKey (s : List Char) : Option (List Char × List Char) :=
  match s with
  | '\x22' :: rest => scanQuoted rest
  | '\x27' :: rest => scanLiteral rest
  | _ =>
    match s.span isBare with
    | ([], _) => none
    | (key, left) => some (key, left)

/-! ## Lines -/

/-- The lines of a text.  A return belongs to the end of a line only in front of a line feed. -/
def lines (s : List Char) : List (List Char) :=
  let pieces := s.splitOn '\n'
  pieces.mapIdx fun i piece =>
    if i + 1 < pieces.length ∧ piece.getLast? = some '\r' then piece.dropLast else piece

/-- Whether a line ends here, perhaps after blanks and a comment. -/
def isEnd (s : List Char) : Bool :=
  match s.dropWhile isBlank with
  | [] => true
  | '#' :: comment => comment.all isText
  | _ => false

/-- The field that a line sets. -/
def field? (line : List Char) : Option (String × Scalar) := do
  let (key, behindKey) ← scanKey (line.dropWhile isBlank)
  match behindKey.dropWhile isBlank with
  | '=' :: rest =>
    let (run, behind) := (rest.dropWhile isBlank).span fun c => !(isBlank c || c == '#')
    let value ← scalar? run
    if isEnd behind then some (String.ofList key, value) else none
  | _ => none

/-- The fields that a text sets, in the order of its lines.  A mark of the byte order may stand at
the front. -/
def fields? (text : String) : Option (List (String × Scalar)) :=
  let body :=
    match text.toList with
    | '\ufeff' :: rest => rest
    | all => all
  ((lines body).filter fun line => !isEnd line).mapM field?

/-- The amount that a value spells. -/
def Scalar.amount : Scalar → Float
  | integer n => Float.ofInt n
  | float x => x

/-- The count below a bound that a value spells. -/
def Scalar.count? (bound : Nat) : Scalar → Option Nat
  | integer n => if 0 ≤ n ∧ n < bound then some n.toNat else none
  | float _ => none

/-- The value of a field, if it is set; a field that is set twice is refused. -/
def valueOf? (fields : List (String × Scalar)) (name : String) : Option (Option Scalar) :=
  match fields.filter fun f => f.1 == name with
  | [] => some none
  | [f] => some (some f.2)
  | _ => none

end Toml

namespace Settings

open Toml

/-- The settings that a TOML text spells, valid or not. -/
def ofToml? (text : String) : Option Settings := do
  let absent : Settings := {}
  let fields ← Toml.fields? text
  if fields.any fun f => !fieldNames.contains f.1 then none
  match ← fieldNames.mapM (valueOf? fields) with
  | [split, size, lod] =>
    let split ← (split.map (Scalar.count? UInt64.size)).getD (some absent.splitThreshold.toNat)
    let size := (size.map Scalar.amount).getD absent.rectSize
    let lod ← (lod.map (Scalar.count? UInt32.size)).getD (some absent.lodThreshold.toNat)
    return ⟨UInt64.ofNat split, size, UInt32.ofNat lod⟩
  | _ => none

/-- The valid settings that a TOML text spells. -/
def ofTomlText (text : String) : Except Error Settings :=
  accept (ofToml? text)

end Settings

end QuadCode
