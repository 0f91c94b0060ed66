/-!
# Escapes

The short escapes that quoted texts have in common, and digits of base sixteen.
-/

namespace QuadCode

/-- The digit of base sixteen with a given value, in lower case. -/
def hexDigit (value : Nat) : Char :=
  if value < 10 then Char.ofNat (48 + value) else Char.ofNat (87 + value)

/-- The value of a digit of base sixteen, in either case. -/
def hexValue? (c : Char) : Option Nat :=
  let n := c.toNat
  if 48 ≤ n ∧ n < 58 then some (n - 48)
  else if 97 ≤ n ∧ n < 103 then some (n - 87)
  else if 65 ≤ n ∧ n < 71 then some (n - 55)
  else none

/-- The short escapes: the mark behind the backslash and the character meant. -/
def shortEscapes : List (Char × Char) :=
  [('\x22', '\x22'), ('\\', '\\'), ('b', '\x08'), ('f', '\x0c'), ('n', '\n'), ('r', '\r'),
    ('t', '\t')]

/-- The character that a short escape means, from its mark. -/
def escapeMeaning? (mark : Char) : Option Char :=
  (shortEscapes.find? fun e => e.1 == mark).map (·.2)

/-- The mark of the short escape that means a character. -/
def escapeMark? (c : Char) : Option Char :=
  (shortEscapes.find? fun e => e.2 == c).map (·.1)

end QuadCode
