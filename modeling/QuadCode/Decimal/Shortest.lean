import QuadCode.Decimal.Binary64

/-!
# The shortest decimal that reads back

Among all decimal numbers that round to a double, `Binary64.shortest` picks the one on the coarsest
decimal grid, that is, with the fewest digits, and among those the one nearest to the double.  Only
the two points of a grid around the double need a look: if any point of the grid lies in the
interval of numbers that round to the double, one of these two does.  When both do and lie equally
near, the `Tie` rule decides.
-/

namespace QuadCode

/-- A decimal number: `coefficient * 10 ^ exponent`. -/
structure Decimal where
  coefficient : Nat
  exponent : Int
  deriving DecidableEq, Repr

/-- Which of two equally near neighbours to take. -/
inductive Tie
  | even
  | up
  deriving DecidableEq, Repr

namespace Binary64

/-- The point of the grid `10 ^ g` that stands for the double, if one does. -/
def onGrid (b : Binary64) (tie : Tie) (g : Int) : Option Decimal :=
  let value := b.mantissa * b.unit g
  let below := value / b.scale g
  let above := below + 1
  let toBelow := value - below * b.scale g
  let toAbove := above * b.scale g - value
  let lowerWins := toBelow < toAbove ∨ (toBelow = toAbove ∧ tie = .even ∧ below % 2 = 0)
  match b.admits g below, b.admits g above with
  | true, true => some (if lowerWins then ⟨below, g⟩ else ⟨above, g⟩)
  | true, false => some ⟨below, g⟩
  | false, true => some ⟨above, g⟩
  | false, false => none

/-- An exponent whose power of ten exceeds every number that rounds to the double: a power of two
is below the power of ten with a third of its exponent, or a quarter if that is negative. -/
def gridCeiling (b : Binary64) : Int :=
  let bound := (b.mantissa.log2 : Int) + 2 + b.exponent
  (if 0 ≤ bound then bound / 3 else bound / 4) + 1

/-- The first grid that serves, from `10 ^ g` down through `room` finer ones. -/
def searchGrids (b : Binary64) (tie : Tie) (g : Int) : Nat → Option Decimal
  | 0 => none
  | room + 1 =>
    match b.onGrid tie g with
    | some d => some d
    | none => b.searchGrids tie (g - 1) room

/-- The shortest decimal that reads back as the double, and the nearest one of that length.  Zero
is written with one digit. -/
def shortest (b : Binary64) (tie : Tie) : Decimal :=
  if b.mantissa = 0 then ⟨0, 0⟩
  else (b.searchGrids tie b.gridCeiling 120).getD ⟨0, 0⟩

end Binary64

end QuadCode
