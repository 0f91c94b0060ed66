import QuadCode.Decimal.Numeral
import QuadCode.Decimal.Shortest

/-!
# Writing doubles

Every text this library writes shows a double by its shortest digits.  A `Layout` holds what the
texts differ in: which numbers are written out in full and which with a power of ten, whether a
whole number keeps a `.0`, and how the power of ten is signed.

Main definitions:

* `Layout.numeral` lays out a finite double;
* `Layout.text` also has words for the doubles that are not numbers.
-/

namespace QuadCode

/-- How doubles are written. -/
structure Layout where
  /-- The exponents of the leading digit, from the first up to but not with the second, for which
  the digits are written out in full; without bounds they always are. -/
  positional : Option (Int × Int)
  /-- Whether a number written out in full always has a fraction. -/
  keepsFraction : Bool
  /-- The mark of a power of ten that is not negative. -/
  powerSign : PowerSign
  /-- The choice between two equally near digits. -/
  tie : Tie

namespace Layout

/-- Amounts in messages: always written out in full, and whole numbers without a point. -/
def plain : Layout :=
  ⟨none, false, .unmarked, .up⟩

/-- Amounts in summaries: whole numbers keep `.0`, and very large or small ones get a power. -/
def summary : Layout :=
  ⟨some (-4, 16), true, .unmarked, .up⟩

/-- Digits written out in full, the last of which counts `10 ^ exponent`. -/
def writtenOut (l : Layout) (negative : Bool) (ds : Digits) (exponent : Int) : Numeral :=
  let whole := fun (ds : Digits) =>
    Numeral.mk negative ds (if l.keepsFraction then some [0] else none) none
  if 0 ≤ exponent then whole (ds ++ List.replicate exponent.toNat 0)
  else
    let places := (-exponent).toNat
    let padded := List.replicate (places + 1 - ds.length) 0 ++ ds
    let cut := padded.length - places
    ⟨negative, padded.take cut, some (padded.drop cut), none⟩

/-- Digits with one in front of the point and a power of ten. -/
def withPower (l : Layout) (negative : Bool) (ds : Digits) (leading : Int) : Numeral :=
  let sign := if leading < 0 then .minus else l.powerSign
  ⟨negative, ds.take 1, if ds.length ≤ 1 then none else some (ds.drop 1),
    some ⟨sign, Digits.ofNat leading.natAbs⟩⟩

/-- The numeral of a finite double. -/
def numeral (l : Layout) (x : Float) : Numeral :=
  let d := (Binary64.ofFloat x).shortest l.tie
  let ds := Digits.ofNat d.coefficient
  let leading := d.exponent + ds.length - 1
  let inFull :=
    match l.positional with
    | none => true
    | some (least, limit) => d.coefficient == 0 || decide (least ≤ leading ∧ leading < limit)
  if inFull then l.writtenOut (signBit x) ds d.exponent
  else l.withPower (signBit x) ds leading

/-- The text of any double. -/
def text (l : Layout) (x : Float) : String :=
  if x.isNaN then "NaN"
  else if x.isInf then (if signBit x then "-inf" else "inf")
  else String.ofList (l.numeral x).text

example : plain.text 1.0 = "1" ∧ plain.text 1e21 = "1000000000000000000000" := by decide +kernel

example : plain.text 1e-7 = "0.0000001" ∧ plain.text 5e-1 = "0.5" := by decide +kernel

example : summary.text 1.0 = "1.0" ∧ summary.text 1e16 = "1e16" := by decide +kernel

example : summary.text 1e-4 = "0.0001" ∧ summary.text 1.5e-7 = "1.5e-7" := by decide +kernel

end Layout

end QuadCode
