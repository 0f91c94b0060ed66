/-!
# Quadrants

Halving a cell on both axes gives four quadrants.  A quadrant is named by two bits, one per axis,
which say whether it is the lower or the upper half, and it is written as one digit of a code:
the bit of the horizontal axis counts one and the bit of the vertical axis two.

`Quadrants` holds one value per quadrant, in the order in which quadrants are visited: bottom left,
top left, bottom right, top right.
-/

namespace QuadCode

/-- A quarter of a cell. -/
inductive Quadrant
  | bottomLeft
  | topLeft
  | bottomRight
  | topRight
  deriving DecidableEq, Repr

namespace Quadrant

/-- All quadrants in visiting order. -/
def all : List Quadrant :=
  [bottomLeft, topLeft, bottomRight, topRight]

theorem mem_all (q : Quadrant) : q ∈ all := by
  cases q <;> simp [all]

/-- The bit on the horizontal axis: 1 in the right half. -/
def xBit : Quadrant → Nat
  | bottomLeft | topLeft => 0
  | bottomRight | topRight => 1

/-- The bit on the vertical axis: 1 in the top half. -/
def yBit : Quadrant → Nat
  | bottomLeft | bottomRight => 0
  | topLeft | topRight => 1

/-- The quadrant with the given bits, of which only the parity counts. -/
def ofBits (x y : Nat) : Quadrant :=
  match x % 2, y % 2 with
  | 0, 0 => bottomLeft
  | 0, _ => topLeft
  | _, 0 => bottomRight
  | _, _ => topRight

theorem xBit_lt (q : Quadrant) : q.xBit < 2 := by
  cases q <;> decide

theorem yBit_lt (q : Quadrant) : q.yBit < 2 := by
  cases q <;> decide

/-- The bits name the quadrant. -/
theorem ofBits_bits (q : Quadrant) : ofBits q.xBit q.yBit = q := by
  cases q <;> rfl

/-- The digit of a quadrant in a code. -/
def digit : Quadrant → Char
  | bottomLeft => '0'
  | bottomRight => '1'
  | topLeft => '2'
  | topRight => '3'

/-- The quadrant that a character of a code stands for, if it is one of the four digits. -/
def ofDigit? (c : Char) : Option Quadrant :=
  if c = '0' then some bottomLeft
  else if c = '1' then some bottomRight
  else if c = '2' then some topLeft
  else if c = '3' then some topRight
  else none

/-- Reading a digit gives back the quadrant. -/
theorem ofDigit?_digit (q : Quadrant) : ofDigit? q.digit = some q := by
  cases q <;> decide

/-- Only the digit of a quadrant is read as that quadrant. -/
theorem digit_of_ofDigit? {c : Char} {q : Quadrant} (h : ofDigit? c = some q) : q.digit = c := by
  unfold ofDigit? at h
  split at h
  · cases h; simp_all [digit]
  split at h
  · cases h; simp_all [digit]
  split at h
  · cases h; simp_all [digit]
  split at h
  · cases h; simp_all [digit]
  · cases h

end Quadrant

/-- One value for each quadrant. -/
structure Quadrants (α : Type) where
  bottomLeft : α
  topLeft : α
  bottomRight : α
  topRight : α
  deriving DecidableEq, Repr

namespace Quadrants

variable {α β : Type}

/-- The value for one quadrant. -/
def get (v : Quadrants α) : Quadrant → α
  | .bottomLeft => v.bottomLeft
  | .topLeft => v.topLeft
  | .bottomRight => v.bottomRight
  | .topRight => v.topRight

/-- The values that a function gives the quadrants. -/
def ofFn (f : Quadrant → α) : Quadrants α :=
  ⟨f .bottomLeft, f .topLeft, f .bottomRight, f .topRight⟩

/-- The four values in visiting order. -/
def toList (v : Quadrants α) : List α :=
  [v.bottomLeft, v.topLeft, v.bottomRight, v.topRight]

@[simp]
theorem get_ofFn (f : Quadrant → α) (q : Quadrant) : (ofFn f).get q = f q := by
  cases q <;> rfl

/-- The values in visiting order are the values at the quadrants in visiting order. -/
theorem toList_eq_map_get (v : Quadrants α) : v.toList = Quadrant.all.map v.get := rfl

theorem mem_toList {v : Quadrants α} {a : α} : a ∈ v.toList ↔ ∃ q, v.get q = a := by
  rw [toList_eq_map_get, List.mem_map]
  exact ⟨fun ⟨q, _, hq⟩ => ⟨q, hq⟩, fun ⟨q, hq⟩ => ⟨q, q.mem_all, hq⟩⟩

end Quadrants

end QuadCode
