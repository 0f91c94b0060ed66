import Mathlib.Data.Nat.Basic
import Mathlib.Tactic.Ring
import QuadCode.Decimal.Numeral

/-!
# Digits of numbers

A number is written with its last digit behind the digits of its tenth, until one digit is left.
So it is written as everywhere, and the digits of a number denote that number.  Digits at the front
of a text are taken off again as long as no further digit follows them.

Main statements:

* `Digits.ofNat_of_lt` and `Digits.ofNat_of_ge`: the digits of a number, one after the other;
* `Digits.value_ofNat`: the digits of a number denote it;
* `Digits.scan_text`: digits are taken off the front of a text.
-/

namespace QuadCode

theorem Digit.mod_ten_lt (n : ℕ) : n % 10 < 10 :=
  Nat.mod_lt n (by decide)

/-- The last digit of a number. -/
def Digit.last (n : ℕ) : Digit :=
  ⟨n % 10, mod_ten_lt n⟩

theorem Digit.ofChar?_toChar (d : Digit) : ofChar? d.toChar = some d := by
  revert d
  decide

theorem Digit.toChar_eq_digitChar (d : Digit) : d.toChar = Nat.digitChar d.val := by
  revert d
  decide

namespace Digits

/-- The digits of a number stand in front of the rest, if there is room for them. -/
theorem writeBefore_eq {room n : ℕ} (h : n < room) (rest : Digits) :
    writeBefore room n rest = ofNat n ++ rest := by
  induction n using Nat.strong_induction_on generalizing room rest with
  | _ n ih =>
      obtain ⟨room, rfl⟩ : ∃ r, room = r + 1 := ⟨room - 1, by omega⟩
      rw [ofNat, writeBefore, writeBefore]
      by_cases hsmall : n < 10
      · simp [hsmall]
      · have hless : n / 10 < n := by omega
        rw [if_neg hsmall, if_neg hsmall, ih _ hless (by omega), ih _ hless hless]
        simp

/-- A number below ten is one digit. -/
theorem ofNat_of_lt {n : ℕ} (h : n < 10) : ofNat n = [Digit.last n] := by
  rw [ofNat, writeBefore, if_pos h, Digit.last]

/-- The digits of a number from ten on are those of its tenth and the last one. -/
theorem ofNat_of_ge {n : ℕ} (h : 10 ≤ n) : ofNat n = ofNat (n / 10) ++ [Digit.last n] := by
  rw [ofNat, writeBefore, if_neg (by omega), writeBefore_eq (by omega), Digit.last]

/-- One more digit behind others. -/
theorem value_concat (ds : Digits) (d : Digit) : value (ds ++ [d]) = 10 * value ds + d.val := by
  simp [value]

/-- Digits behind a number that is known already. -/
theorem foldl_value (ds : Digits) (n : ℕ) :
    ds.foldl (fun n d => 10 * n + d.val) n = n * 10 ^ ds.length + ds.value := by
  induction ds generalizing n with
  | nil => simp [value]
  | cons d rest ih =>
      rw [value, List.foldl_cons, List.foldl_cons, ih, ih (10 * 0 + d.val), List.length_cons]
      ring

theorem value_append (ds ds' : Digits) :
    (ds ++ ds').value = ds.value * 10 ^ ds'.length + ds'.value := by
  rw [value, List.foldl_append, foldl_value]
  rfl

theorem value_replicate_zero (n : ℕ) : value (List.replicate n 0) = 0 := by
  induction n with
  | zero => rfl
  | succ n ih =>
      rw [List.replicate_succ', value_append, ih]
      rfl

/-- **The digits of a number denote it.** -/
theorem value_ofNat (n : ℕ) : (ofNat n).value = n := by
  induction n using Nat.strong_induction_on with
  | _ n ih =>
      by_cases hsmall : n < 10
      · rw [ofNat_of_lt hsmall]
        simp [value, Digit.last, Nat.mod_eq_of_lt hsmall]
      · rw [ofNat_of_ge (by omega), value_concat, ih _ (by omega)]
        exact Nat.div_add_mod n 10

/-- A number is written as everywhere. -/
theorem text_ofNat (n : ℕ) : (ofNat n).text = (toString n).toList := by
  rw [Nat.toString_eq_repr, Nat.toList_repr]
  induction n using Nat.strong_induction_on with
  | _ n ih =>
      have hlast : (Digit.last n).toChar = Nat.digitChar (n % 10) := Digit.toChar_eq_digitChar _
      rw [Nat.toDigits_eq_if (by decide)]
      by_cases hsmall : n < 10
      · rw [ofNat_of_lt hsmall, if_pos hsmall, text, List.map_singleton, hlast,
          Nat.mod_eq_of_lt hsmall]
      · rw [ofNat_of_ge (by omega), if_neg hsmall, ← ih _ (by omega), text, List.map_append,
          List.map_singleton, hlast, text]

/-- Only zero is written with a zero in front. -/
theorem ofNat_eq_zero_cons {n : ℕ} {more : Digits} (h : ofNat n = 0 :: more) :
    n = 0 ∧ more = [] := by
  induction n using Nat.strong_induction_on generalizing more with
  | _ n ih =>
      by_cases hsmall : n < 10
      · rw [ofNat_of_lt hsmall, List.cons.injEq] at h
        have hzero := congrArg Fin.val h.1
        exact ⟨by simpa [Digit.last, Nat.mod_eq_of_lt hsmall] using hzero, h.2.symm⟩
      · -- The digit in front is that of the tenth, which is not zero.
        rw [ofNat_of_ge (by omega)] at h
        cases hfront : ofNat (n / 10) with
        | nil =>
            have := value_ofNat (n / 10)
            rw [hfront] at this
            simp [value] at this
            omega
        | cons d front =>
            rw [hfront, List.cons_append, List.cons.injEq] at h
            obtain ⟨rfl, -⟩ := h
            have := (ih _ (by omega) hfront).1
            omega

theorem ofNat_ne_nil (n : ℕ) : ofNat n ≠ [] := by
  by_cases hsmall : n < 10
  · rw [ofNat_of_lt hsmall]
    exact List.cons_ne_nil _ _
  · rw [ofNat_of_ge (by omega)]
    exact List.concat_ne_nil _ _

/-- **Digits at the front of a text** are taken off it, if no other digit follows them. -/
theorem scan_text (ds : Digits) {rest : List Char}
    (h : ∀ c ∈ rest.head?, Digit.ofChar? c = none) : scan (ds.text ++ rest) = (ds, rest) := by
  induction ds with
  | nil =>
      cases rest with
      | nil => rfl
      | cons c rest => simp [text, scan, h c rfl]
  | cons d ds ih =>
      rw [text, List.map_cons, List.cons_append, scan, Digit.ofChar?_toChar]
      exact congrArg (fun r : Digits × List Char => (d :: r.1, r.2)) ih

end Digits

end QuadCode
