import QuadCode.Json.Value

/-!
# Amounts and counts in JSON

A count is a numeral of nothing but digits.  An amount is read from any numeral: as many digits as
fit in 64 bits are gathered into a whole number, which is then moved by powers of ten in double
arithmetic.  Each step rounds, so a numeral of many digits may be read as a neighbour of the double
nearest to it.  Amounts too large for a double are refused, and amounts too small become zero.
-/

namespace QuadCode

/-- As many digits behind a number as keep it below `2 ^ 64`, and how many are left out. -/
def gatherDigits (n : Nat) : Digits → Nat × Nat
  | [] => (n, 0)
  | d :: rest =>
    if 10 * n + d.val < UInt64.size then gatherDigits (10 * n + d.val) rest else (n, rest.length + 1)

/-- The greatest power of ten that is a finite double. -/
def greatestPower : Nat := 308

/-- A power of ten, up to the greatest. -/
def powerOfTen (exponent : Nat) : Float :=
  Float.ofScientific 1 false exponent

/-- An amount times a power of ten, if it stays finite.  A power too small for a double is taken in
several steps. -/
def timesPowerOfTen (x : Float) (exponent : Int) : Option Float :=
  if exponent.natAbs ≤ greatestPower then
    if 0 ≤ exponent then
      let y := x * powerOfTen exponent.natAbs
      if y.isInf then none else some y
    else some (x / powerOfTen exponent.natAbs)
  else if x == 0.0 then some x
  else if 0 ≤ exponent then none
  else timesPowerOfTen (x / powerOfTen greatestPower) (exponent + greatestPower)
termination_by exponent.natAbs
decreasing_by
  simp only [greatestPower] at *
  omega

namespace Numeral

/-- The amount that a numeral is read as, if it is not too large. -/
def amount? (n : Numeral) : Option Float :=
  let fraction := n.fraction.getD []
  let (front, skipped) := gatherDigits 0 n.whole
  let (all, ignored) := gatherDigits front fraction
  let taken : Int := fraction.length - ignored
  let power := (n.power.map Power.value).getD 0
  (timesPowerOfTen (Float.ofNat all) (skipped - taken + power)).map fun size =>
    if n.negative then -size else size

/-- The count that a numeral spells, if it is below a bound.  A count has no sign, not even in
front of zero. -/
def count? (bound : Nat) (n : Numeral) : Option Nat :=
  match n with
  | ⟨false, whole, none, none⟩ => if whole.value < bound then some whole.value else none
  | _ => none

end Numeral

namespace Json

/-- The amount that a value spells. -/
def amount? : Json → Option Float
  | number n => n.amount?
  | _ => none

/-- The count below a bound that a value spells. -/
def count? (bound : Nat) : Json → Option Nat
  | number n => n.count? bound
  | _ => none

/-- The text that a value spells. -/
def text? : Json → Option String
  | string s => s.text?.map String.ofList
  | _ => none

/-- The items of an array. -/
def items? : Json → Option (List Json)
  | array items => some items
  | _ => none

end Json

end QuadCode
