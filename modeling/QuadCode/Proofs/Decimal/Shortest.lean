import QuadCode.Decimal.Shortest
import QuadCode.Proofs.Double.Bits

/-!
# The shortest decimal reads back

The search for the shortest decimal goes from coarse grids to fine ones.  Whatever it finds rounds to
the double, because nothing else is taken.  And it finds something: on a grid of a quarter of the
step between doubles, the point just below the double rounds to it, and the search goes on down to
such a grid.

Main statements:

* `admits_of_searchGrids`: what the search finds rounds to the double;
* `exists_onGrid`: a grid that is fine enough has a point that does;
* `admits_shortest`: the shortest decimal rounds to the double.
-/

namespace QuadCode.Binary64

variable {b : Binary64} {tie : Tie} {d : Decimal} {g : ℤ}

theorem unit_pos (b : Binary64) (g : ℤ) : 0 < b.unit g :=
  Nat.mul_pos (Nat.pow_pos (by decide)) (Nat.pow_pos (by decide))

theorem scale_pos (b : Binary64) (g : ℤ) : 0 < b.scale g :=
  Nat.mul_pos (Nat.pow_pos (by decide)) (Nat.pow_pos (by decide))

/-- Zero does not round to another double. -/
theorem admits_zero (h : b.mantissa ≠ 0) (g : ℤ) : b.admits g 0 = false := by
  have hlow : 0 < (4 * b.mantissa - (if b.stepsBelow then 1 else 2)) * b.unit g := by
    refine Nat.mul_pos ?_ (b.unit_pos g)
    split <;> omega
  simp only [admits, Nat.zero_mul, Nat.mul_zero]
  split
  · exact decide_eq_false (by omega)
  · exact decide_eq_false (by omega)

/-! ## The search -/

theorem admits_of_onGrid (h : b.onGrid tie g = some d) :
    b.admits d.exponent d.coefficient = true := by
  simp only [onGrid] at h
  split at h
  · next hbelow habove =>
      obtain rfl := Option.some.inj h
      split
      · exact hbelow
      · exact habove
  · next hbelow _ =>
      obtain rfl := Option.some.inj h
      exact hbelow
  · next _ habove =>
      obtain rfl := Option.some.inj h
      exact habove
  · cases h

/-- What the search finds rounds to the double. -/
theorem admits_of_searchGrids {room : ℕ} (h : b.searchGrids tie g room = some d) :
    b.admits d.exponent d.coefficient = true := by
  induction room generalizing g with
  | zero => cases h
  | succ room ih =>
      rw [searchGrids] at h
      split at h
      · next hgrid =>
          obtain rfl := Option.some.inj h
          exact admits_of_onGrid hgrid
      · exact ih h

/-- The search finds something if one of its grids has something. -/
theorem exists_searchGrids {k room : ℕ} (hk : k < room) (h : ∃ d, b.onGrid tie (g - k) = some d) :
    ∃ d, b.searchGrids tie g room = some d := by
  induction room generalizing g k with
  | zero => omega
  | succ room ih =>
      rw [searchGrids]
      split
      · exact ⟨_, rfl⟩
      · next hnone =>
          cases k with
          | zero =>
              obtain ⟨d, hd⟩ := h
              rw [Nat.cast_zero, sub_zero, hnone] at hd
              cases hd
          | succ k =>
              refine ih (Nat.lt_of_succ_lt_succ hk) ?_
              rwa [sub_sub, add_comm, ← Nat.cast_succ]

/-! ## Fine grids -/

/-- A grid of a quarter of the step between doubles has a point that rounds to the double: the one
just below it. -/
theorem exists_onGrid (h : b.mantissa ≠ 0) (hfine : 4 * b.scale g ≤ b.unit g) (tie : Tie) :
    ∃ d, b.onGrid tie g = some d := by
  have hbelow : b.admits g (b.mantissa * b.unit g / b.scale g) = true := by
    have hle := Nat.div_mul_le_self (b.mantissa * b.unit g) (b.scale g)
    have hlt := Nat.lt_div_mul_add (a := b.mantissa * b.unit g) (b.scale_pos g)
    have hunit := b.unit_pos g
    have hlow : (4 * b.mantissa - if b.stepsBelow then 1 else 2) * b.unit g + b.unit g ≤
        4 * (b.mantissa * b.unit g) := by
      rw [← Nat.succ_mul, ← Nat.mul_assoc]
      refine Nat.mul_le_mul_right _ ?_
      split <;> omega
    have hhigh : (4 * b.mantissa + 2) * b.unit g = 4 * (b.mantissa * b.unit g) + 2 * b.unit g := by
      ring
    simp only [admits]
    split
    · exact decide_eq_true (by omega)
    · exact decide_eq_true (by omega)
  simp only [onGrid, hbelow]
  split
  · exact ⟨_, rfl⟩
  · exact ⟨_, rfl⟩
  · next hfalse _ => cases hfalse
  · next hfalse _ => cases hfalse

/-- A grid is fine enough if its exponent is small enough: a power of ten is below the power of two
with the fourfold exponent, and above the one with the threefold exponent. -/
theorem fine_of_exponent (hwhole : 0 ≤ g → 4 * g + 2 ≤ b.exponent)
    (hpart : g < 0 → 2 - b.exponent ≤ -(3 * g)) : 4 * b.scale g ≤ b.unit g := by
  change 4 * (2 ^ (-b.exponent).toNat * 10 ^ g.toNat) ≤ 2 ^ b.exponent.toNat * 10 ^ (-g).toNat
  have hfour (k : ℕ) : 10 ^ k ≤ 2 ^ (4 * k) := by
    rw [pow_mul]
    exact Nat.pow_le_pow_left (by decide) k
  have hthree (k : ℕ) : 2 ^ (3 * k) ≤ 10 ^ k := by
    rw [pow_mul]
    exact Nat.pow_le_pow_left (by decide) k
  calc
    4 * (2 ^ (-b.exponent).toNat * 10 ^ g.toNat)
        ≤ 4 * (2 ^ (-b.exponent).toNat * 2 ^ (4 * g.toNat)) :=
      Nat.mul_le_mul_left _ (Nat.mul_le_mul_left _ (hfour _))
    _ = 2 ^ (2 + (-b.exponent).toNat + 4 * g.toNat) := by ring
    _ ≤ 2 ^ (b.exponent.toNat + 3 * (-g).toNat) :=
      Nat.pow_le_pow_right Nat.two_pos (by omega)
    _ = 2 ^ b.exponent.toNat * 2 ^ (3 * (-g).toNat) := pow_add 2 _ _
    _ ≤ 2 ^ b.exponent.toNat * 10 ^ (-g).toNat := Nat.mul_le_mul_left _ (hthree _)

/-- The last grid of the search is fine enough. -/
theorem fine_of_canonical (hb : b.Canonical) :
    4 * b.scale (b.gridCeiling - (119 : ℕ)) ≤ b.unit (b.gridCeiling - (119 : ℕ)) := by
  obtain ⟨hshort, hleast, hmost, -⟩ := hb
  have hlog : b.mantissa.log2 ≤ 52 := by
    rcases Nat.eq_zero_or_pos b.mantissa with hzero | hpos
    · rw [hzero]
      decide
    · exact Nat.lt_succ_iff.mp ((Nat.log2_lt hpos.ne').mpr hshort)
  refine fine_of_exponent ?_ ?_ <;>
  · intro hsign
    simp only [gridCeiling] at hsign ⊢
    split at hsign <;> omega

/-- **The shortest decimal rounds to the double.** -/
theorem admits_shortest (hb : b.Canonical) (h : b.mantissa ≠ 0) (tie : Tie) :
    b.admits (b.shortest tie).exponent (b.shortest tie).coefficient = true := by
  obtain ⟨d, hd⟩ := exists_searchGrids (show 119 < 120 by decide)
    (exists_onGrid h (fine_of_canonical hb) tie)
  rw [shortest, if_neg h, hd]
  exact admits_of_searchGrids hd

/-- A shortest decimal that is zero is the one digit zero, and no zeros follow it. -/
theorem exponent_shortest_of_zero (h : (b.shortest tie).coefficient = 0) :
    (b.shortest tie).exponent = 0 := by
  rw [shortest] at h ⊢
  split
  · rfl
  · next hmantissa =>
      rw [if_neg hmantissa] at h
      cases hsearch : b.searchGrids tie b.gridCeiling 120 with
      | none => rfl
      | some d =>
          rw [hsearch] at h
          have hadmitted := admits_of_searchGrids hsearch
          rw [show d.coefficient = 0 from h, admits_zero hmantissa] at hadmitted
          cases hadmitted

end QuadCode.Binary64
