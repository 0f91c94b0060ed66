import QuadCode.Json.Amount
import QuadCode.Json.Lexeme
import QuadCode.Proofs.Decimal.Digits

/-!
# Numerals in a text

A numeral is taken off the front of a text in the parts that it is written in: the sign, the digits
in front of the point, those behind it, and the power of ten.  Each part ends where the text goes on
with something that cannot belong to it.  So a numeral is read as it is written as long as what
follows it does not go on with it.

Main statement: `Numeral.scan_text`.
-/

namespace QuadCode

theorem Digit.toChar_ne {d : Digit} {c : Char} (h : ofChar? c = none) : d.toChar ≠ c := by
  rintro rfl
  rw [ofChar?_toChar] at h
  cases h

namespace Numeral

/-- The numerals that may stand in a text: there are digits in front of the point, and none is
wasted; and there are digits wherever their mark is. -/
structure WellFormed (n : Numeral) : Prop where
  whole : n.whole ≠ []
  leading : ∀ more, n.whole = 0 :: more → more = []
  fraction : n.fraction ≠ some []
  power : ∀ p, n.power = some p → p.digits ≠ []

/-- A text that does not go on with a numeral in front of it. -/
def EndsBefore (rest : List Char) : Prop :=
  ∀ c ∈ rest.head?, Digit.ofChar? c = none ∧ c ≠ '.' ∧ c ≠ 'e' ∧ c ≠ 'E'

/-- The digits behind the point, with the point. -/
def fractionText : Option Digits → List Char
  | none => []
  | some ds => '.' :: ds.text

/-- The power of ten, with its mark. -/
def powerText : Option Power → List Char
  | none => []
  | some p => 'e' :: p.sign.text ++ p.digits.text

variable {rest : List Char}

theorem text_eq (n : Numeral) : n.text = (if n.negative then ['-'] else []) ++ n.whole.text ++
    fractionText n.fraction ++ powerText n.power := rfl

theorem EndsBefore.noDigit (h : EndsBefore rest) : ∀ c ∈ rest.head?, Digit.ofChar? c = none :=
  fun c hc => (h c hc).1

/-- No digit stands at the front of the text of a power of ten. -/
theorem EndsBefore.noDigit_powerText (h : EndsBefore rest) (p : Option Power) :
    ∀ c ∈ (powerText p ++ rest).head?, Digit.ofChar? c = none := by
  cases p with
  | none => exact h.noDigit
  | some p =>
      intro c hc
      obtain rfl := Option.some.inj hc
      decide

/-- No digit stands at the front of the text of a fraction. -/
theorem EndsBefore.noDigit_fractionText (h : EndsBefore rest) (f : Option Digits)
    (p : Option Power) : ∀ c ∈ (fractionText f ++ (powerText p ++ rest)).head?,
      Digit.ofChar? c = none := by
  cases f with
  | none => exact h.noDigit_powerText p
  | some ds =>
      intro c hc
      obtain rfl := Option.some.inj hc
      decide

theorem scanWhole_text {ds : Digits} (hne : ds ≠ [])
    (hleading : ∀ more, ds = 0 :: more → more = [])
    (h : ∀ c ∈ rest.head?, Digit.ofChar? c = none) :
    scanWhole (ds.text ++ rest) = some (ds, rest) := by
  rw [scanWhole, Digits.scan_text ds h]
  cases ds with
  | nil => exact absurd rfl hne
  | cons first more =>
      cases more with
      | nil => rfl
      | cons second more =>
          have hfirst : first.val ≠ 0 := by
            intro hzero
            obtain rfl : first = 0 := Fin.ext hzero
            cases hleading _ rfl
          simp [hfirst]

theorem scanFraction_text {f : Option Digits} (hne : f ≠ some [])
    (h : ∀ c ∈ rest.head?, Digit.ofChar? c = none ∧ c ≠ '.') :
    scanFraction (fractionText f ++ rest) = some (f, rest) := by
  have hdigits : ∀ c ∈ rest.head?, Digit.ofChar? c = none := fun c hc => (h c hc).1
  cases f with
  | none =>
      cases rest with
      | nil => rfl
      | cons c rest =>
          have hc := (h c rfl).2
          simp [fractionText, scanFraction, hc]
  | some ds =>
      cases ds with
      | nil => exact absurd rfl hne
      | cons d ds =>
          simp only [fractionText, List.cons_append, scanFraction, Digits.scan_text _ hdigits]

/-- The sign of a power of ten is told from its digits. -/
theorem scanPowerSign_text (sign : PowerSign) {ds : Digits} (hne : ds ≠ []) :
    scanPowerSign (sign.text ++ (ds.text ++ rest)) = (sign, ds.text ++ rest) := by
  cases sign with
  | plus => rfl
  | minus => rfl
  | unmarked =>
      cases ds with
      | nil => exact absurd rfl hne
      | cons d ds =>
          have hplus : d.toChar ≠ '+' := Digit.toChar_ne (by decide)
          have hminus : d.toChar ≠ '-' := Digit.toChar_ne (by decide)
          simp [PowerSign.text, Digits.text, scanPowerSign, hplus, hminus]

theorem scanPower_text {p : Option Power} (hne : ∀ q, p = some q → q.digits ≠ [])
    (h : EndsBefore rest) : scanPower (powerText p ++ rest) = some (p, rest) := by
  cases p with
  | none =>
      cases rest with
      | nil => rfl
      | cons c rest =>
          obtain ⟨-, -, hlower, hupper⟩ := h c rfl
          simp [powerText, scanPower, hlower, hupper]
  | some q =>
      have hdigits := hne q rfl
      simp only [powerText, List.cons_append, List.append_assoc, scanPower, true_or, if_true,
        scanPowerSign_text q.sign hdigits, Digits.scan_text _ h.noDigit]

theorem scanUnsigned_text {n : Numeral} (hn : n.WellFormed) (h : EndsBefore rest) :
    scanUnsigned n.negative (n.whole.text ++ (fractionText n.fraction ++
      (powerText n.power ++ rest))) = some (n, rest) := by
  have hwhole := scanWhole_text hn.whole hn.leading (h.noDigit_fractionText n.fraction n.power)
  have hfraction : scanFraction (fractionText n.fraction ++ (powerText n.power ++ rest)) =
      some (n.fraction, powerText n.power ++ rest) := by
    refine scanFraction_text hn.fraction fun c hc => ⟨h.noDigit_powerText n.power c hc, ?_⟩
    cases hp : n.power with
    | none => exact (h c (by rwa [hp] at hc)).2.1
    | some p =>
        rw [hp] at hc
        obtain rfl := Option.some.inj hc
        decide
  have hpower := scanPower_text hn.power h
  simp only [scanUnsigned, hwhole, hfraction, hpower]

/-- **A numeral is read as it is written**, if what follows does not go on with it. -/
theorem scan_text {n : Numeral} (hn : n.WellFormed) (h : EndsBefore rest) :
    scan (n.text ++ rest) = some (n, rest) := by
  have hunsigned := scanUnsigned_text hn h
  rw [text_eq]
  cases hsign : n.negative with
  | true =>
      rw [hsign] at hunsigned
      simpa [scan] using hunsigned
  | false =>
      rw [hsign] at hunsigned
      obtain ⟨d, ds, hds⟩ := List.exists_cons_of_ne_nil hn.whole
      have hminus : d.toChar ≠ '-' := Digit.toChar_ne (by decide)
      rw [hds, Digits.text, List.map_cons] at hunsigned ⊢
      simpa [scan, hminus] using hunsigned

/-- The numeral of a count is well formed. -/
theorem wellFormed_ofNat (n : ℕ) : (ofNat n).WellFormed where
  whole := Digits.ofNat_ne_nil n
  leading := fun _ h => (Digits.ofNat_eq_zero_cons h).2
  fraction := Option.some_ne_none _ |>.symm
  power := fun _ h => by cases h

/-- The numeral of a count below a bound spells it. -/
theorem count?_ofNat {n bound : ℕ} (h : n < bound) : (ofNat n).count? bound = some n := by
  rw [ofNat, count?, Digits.value_ofNat, if_pos h]

end Numeral

end QuadCode
