import QuadCode.Error
import QuadCode.Quadrant

/-!
# Shifts

A `Shift` writes codes in another alphabet, character by character, so that the codes of different
encodings can be told apart: two shifts whose images of the four digits have no character in common
give codes with no character in common.
-/

namespace QuadCode

/-- The character with a given code point, if there is one. -/
def charAt? (codePoint : Nat) : Option Char :=
  if codePoint.isValidChar then some (Char.ofNat codePoint) else none

/-- A change of alphabet. -/
inductive Shift
  | identity
  /-- Every character moves by the same number of code points; where that leads to no character,
  it stays. -/
  | offset (distance : Nat)
  | custom (f : Char → Char)

instance : Inhabited Shift := ⟨.identity⟩

namespace Shift

/-- The digits of codes, from the least to the greatest. -/
def digits : List Char :=
  ['0', '1', '2', '3']

/-- The shift by a number of code points, if every digit has a character that far on. -/
def ofOffset (distance : Nat) : Except Error Shift :=
  match digits.find? fun digit => (charAt? (digit.toNat + distance)).isNone with
  | none => .ok (.offset distance)
  | some digit => .error (.invalidConfiguration (.digitOffset digit distance))

/-- What a shift makes of one character. -/
def applyChar : Shift → Char → Char
  | identity, c => c
  | offset distance, c => (charAt? (c.toNat + distance)).getD c
  | custom f, c => f c

/-- What a shift makes of a code. -/
def apply (s : Shift) (code : String) : String :=
  String.ofList (code.toList.map s.applyChar)

/-- A summary in one line; of a custom shift it only tells that it is one. -/
def summary : Shift → String
  | identity => "Identity"
  | offset distance => s!"Offset({distance})"
  | custom _ => "Custom(..)"

end Shift

end QuadCode
