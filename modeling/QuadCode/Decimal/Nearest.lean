import QuadCode.Decimal.Numeral

/-!
# The nearest double

`Numeral.nearest` is the double nearest to the number a numeral denotes.  Numbers too large for a
double give an infinity and numbers too small give a zero, both with the numeral's sign.
-/

namespace QuadCode

/-- The double nearest to `coefficient * 10 ^ exponent`.  Outside the range of the doubles the
answer is known from the exponent of the leading digit alone. -/
def nearestDouble (coefficient : Nat) (exponent : Int) : Float :=
  let leading := exponent + (Digits.ofNat coefficient).length - 1
  if coefficient = 0 ∨ leading < -330 then 0.0
  else if 310 < leading then 1.0 / 0.0
  else if exponent < 0 then Float.ofScientific coefficient true exponent.natAbs
  else Float.ofScientific coefficient false exponent.natAbs

/-- The double nearest to what the numeral denotes. -/
def Numeral.nearest (n : Numeral) : Float :=
  let size := nearestDouble n.coefficient n.exponent
  if n.negative then -size else size

end QuadCode
