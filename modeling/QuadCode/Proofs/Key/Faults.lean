import QuadCode.Proofs.Key.Code

/-!
# What is wrong with a code

A string that is not a code is refused for one of two reasons.  If it has too many characters, that
is all that is told, together with their number; no character is looked at.  Otherwise it is the
first character that is no digit of codes, and its position.  Characters are counted, and not the
bytes that they take: a string of 63 characters is never too long.

Main statements:

* `firstForeign_eq_some_iff`: the search for a foreign character stops at the first one;
* `decode_eq_error_iff`: which strings are refused, and what is told about them.
-/

namespace QuadCode

/-- The letter at a position is the first that is not a digit of codes. -/
structure FirstFault (letters : List Char) (position : ℕ) (found : Char) : Prop where
  place : letters[position]? = some found
  foreign : found ∉ ['0', '1', '2', '3']
  digits_before : ∀ i < position, ∀ c, letters[i]? = some c → c ∈ ['0', '1', '2', '3']

/-- A letter that is read as no quadrant is no digit of codes. -/
theorem Quadrant.ofDigit?_eq_none_iff {c : Char} :
    ofDigit? c = none ↔ c ∉ ['0', '1', '2', '3'] := by
  rw [mem_digits_iff]
  constructor
  · rintro h ⟨q, rfl⟩
    rw [ofDigit?_digit] at h
    cases h
  · intro h
    cases hc : ofDigit? c with
    | none => rfl
    | some q => exact absurd ⟨q, digit_of_ofDigit? hc⟩ h

namespace FirstFault

variable {letters : List Char} {c found : Char} {position : ℕ}

theorem head (h : c ∉ ['0', '1', '2', '3']) : FirstFault (c :: letters) 0 c :=
  ⟨rfl, h, fun i hi => absurd hi i.not_lt_zero⟩

/-- Behind a digit the first fault is that of the rest, one position further. -/
theorem cons_iff (h : c ∈ ['0', '1', '2', '3']) :
    FirstFault (c :: letters) (position + 1) found ↔ FirstFault letters position found := by
  constructor
  · intro hfault
    exact ⟨hfault.place, hfault.foreign, fun i hi => hfault.digits_before (i + 1) (by omega)⟩
  · intro hfault
    refine ⟨hfault.place, hfault.foreign, fun i hi d hd => ?_⟩
    cases i with
    | zero => rwa [← Option.some.inj hd]
    | succ i => exact hfault.digits_before i (by omega) d hd

/-- A foreign letter in front is the first fault, and there is no other. -/
theorem eq_head (hc : c ∉ ['0', '1', '2', '3'])
    (h : FirstFault (c :: letters) position found) : position = 0 ∧ found = c := by
  cases position with
  | zero => exact ⟨rfl, (Option.some.inj h.place).symm⟩
  | succ position => exact absurd (h.digits_before 0 position.succ_pos c rfl) hc

/-- A digit in front is no fault. -/
theorem exists_succ (hc : c ∈ ['0', '1', '2', '3'])
    (h : FirstFault (c :: letters) position found) : ∃ i, position = i + 1 := by
  cases position with
  | zero => exact absurd hc (Option.some.inj h.place ▸ h.foreign)
  | succ i => exact ⟨i, rfl⟩

end FirstFault

/-- **The search for a foreign letter** stops at the first one, and tells how many letters stand in
front of it. -/
theorem firstForeign_eq_some_iff {letters : List Char} {start i : ℕ} {found : Char} :
    firstForeign start letters = some (i, found) ↔
      ∃ position, i = start + position ∧ FirstFault letters position found := by
  induction letters generalizing start with
  | nil => exact iff_of_false (by simp [firstForeign]) fun ⟨_, _, h⟩ => by simpa using h.place
  | cons c rest ih =>
      rw [firstForeign]
      cases hc : Quadrant.ofDigit? c with
      | none =>
          have hforeign := Quadrant.ofDigit?_eq_none_iff.mp hc
          simp only [Option.some.injEq, Prod.mk.injEq]
          constructor
          · rintro ⟨rfl, rfl⟩
            exact ⟨0, rfl, .head hforeign⟩
          · rintro ⟨position, rfl, hfault⟩
            obtain ⟨rfl, rfl⟩ := hfault.eq_head hforeign
            exact ⟨rfl, rfl⟩
      | some q =>
          have hdigit := Quadrant.mem_digits_iff.mpr ⟨q, Quadrant.digit_of_ofDigit? hc⟩
          refine ih.trans ⟨?_, ?_⟩
          · rintro ⟨position, rfl, hfault⟩
            exact ⟨position + 1, by omega, (FirstFault.cons_iff hdigit).mpr hfault⟩
          · rintro ⟨position, rfl, hfault⟩
            obtain ⟨position, rfl⟩ := hfault.exists_succ hdigit
            exact ⟨position, by omega, (FirstFault.cons_iff hdigit).mp hfault⟩

namespace Key

/-- **What is wrong with a string that is not a code.**  A string of more than 63 characters is
refused whatever the characters are, and told is their number, up to the greatest number of 32 bits.
A shorter one is refused if and only if it has a character that is not a digit of codes.  Told are
the string, the first such character, and how many characters stand in front of it. -/
theorem decode_eq_error_iff (s : String) (e : Error) :
    decode s = .error e ↔
      (63 < s.length ∧ e = .invalidKey (min s.length (2 ^ 32 - 1)) 0 0) ∨
      (s.length ≤ 63 ∧ ∃ position found, FirstFault s.toList position found ∧
        e = .invalidCode s position found) := by
  rw [← String.length_toList]
  by_cases hshort : s.toList.length ≤ maxLod
  · have hlong : ¬ 63 < s.toList.length := Nat.not_lt.mpr hshort
    rw [decode_of_short hshort]
    cases hforeign : firstForeign 0 s.toList with
    | none =>
        refine iff_of_false (by simp) ?_
        rintro (⟨hlength, -⟩ | ⟨-, position, found, hfault, -⟩)
        · exact hlong hlength
        · have hfound := firstForeign_eq_some_iff.mpr ⟨position, (zero_add _).symm, hfault⟩
          rw [hforeign] at hfound
          cases hfound
    | some fault =>
        obtain ⟨i, found⟩ := fault
        obtain ⟨position, hposition, hfault⟩ := firstForeign_eq_some_iff.mp hforeign
        rw [zero_add] at hposition
        subst hposition
        simp only [Except.error.injEq]
        constructor
        · rintro rfl
          exact .inr ⟨hshort, i, found, hfault, rfl⟩
        · rintro (⟨hlength, -⟩ | ⟨-, position, found', hfault', rfl⟩)
          · exact absurd hlength hlong
          · have hsame := firstForeign_eq_some_iff.mpr ⟨position, (zero_add _).symm, hfault'⟩
            rw [hforeign, Option.some.injEq, Prod.mk.injEq] at hsame
            rw [hsame.1, hsame.2]
  · have hlong : 63 < s.toList.length := Nat.lt_of_not_le hshort
    rw [decode_of_long hshort]
    simp only [Except.error.injEq]
    constructor
    · rintro rfl
      exact .inl ⟨hlong, rfl⟩
    · rintro (⟨-, rfl⟩ | ⟨hlength, -⟩)
      · rfl
      · exact absurd hlength hshort

example : decode "2é1€" = .error (.invalidCode "2é1€" 1 'é') := rfl

end Key

end QuadCode
