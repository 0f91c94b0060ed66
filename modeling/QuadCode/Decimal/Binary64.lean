/-!
# Doubles as dyadic numbers

A finite double is a whole number times a power of two.  `Binary64.ofFloat` reads that form from
the bits, and `Binary64.admits` says which decimal numbers round to the double: those in the
interval that ends halfway to its two neighbours, where the ends count exactly if the mantissa is
even.  All of it is exact arithmetic on natural numbers.
-/

namespace QuadCode

/-- The size of a finite double: `mantissa * 2 ^ exponent`. -/
structure Binary64 where
  mantissa : Nat
  exponent : Int
  deriving DecidableEq, Repr

namespace Binary64

/-- The bit of a mantissa that is not stored: the least mantissa of the normal doubles. -/
def hiddenBit : Nat := 0x10000000000000

/-- The size of a finite double, from its bits. -/
def ofFloat (x : Float) : Binary64 :=
  let bits : Nat := x.toBits.toNat
  let biased : Nat := bits / hiddenBit % 2048
  let low : Nat := bits % hiddenBit
  if biased = 0 then ⟨low, -1074⟩ else ⟨low + hiddenBit, (biased : Int) - 1075⟩

/-- Whether the neighbour below is nearer than the one above, as it is where the exponent steps. -/
def stepsBelow (b : Binary64) : Bool :=
  b.mantissa == hiddenBit && decide (-1074 < b.exponent)

/-- The double measured in units of `10 ^ g`, as a fraction: `mantissa * unit / scale`. -/
def unit (b : Binary64) (g : Int) : Nat :=
  Nat.pow 2 b.exponent.toNat * Nat.pow 10 (-g).toNat

/-- The denominator that goes with `unit`. -/
def scale (b : Binary64) (g : Int) : Nat :=
  Nat.pow 2 (-b.exponent).toNat * Nat.pow 10 g.toNat

/-- Whether `c * 10 ^ g` reads back as the double. -/
def admits (b : Binary64) (g : Int) (c : Nat) : Bool :=
  let point := 4 * (c * b.scale g)
  let low := (4 * b.mantissa - (if b.stepsBelow then 1 else 2)) * b.unit g
  let high := (4 * b.mantissa + 2) * b.unit g
  if b.mantissa % 2 = 0 then decide (low ≤ point ∧ point ≤ high)
  else decide (low < point ∧ point < high)

end Binary64

/-- The sign of a number, kept also by zeros. -/
def signBit (x : Float) : Bool :=
  decide (0x8000000000000000 ≤ x.toBits.toNat)

end QuadCode
