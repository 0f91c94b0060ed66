import Mathlib.Data.Nat.Basic
import QuadCode.Json.Letter

/-!
# Strings in a text

Each letter of a string is taken off the front of a text by its own rule: an escape is known by its
backslash, and a character that stands for itself is no quote, no backslash and no control.  So the
first quote that is not escaped closes the string, and the letters in front of it are read as they
are written.

Main statements:

* `Letters.scan_text`: a string is read as it is written;
* `Letter.text_ofChar`: how a character is written in a string.
-/

namespace QuadCode

theorem hexValue?_hexDigit {v : ℕ} (h : v < 16) : hexValue? (hexDigit v) = some v := by
  revert v
  decide

namespace Letter

/-- The letters that may stand in a string.  A slash may be escaped, but need not be. -/
def WellFormed : Letter → Prop
  | plain c => c ≠ '\x22' ∧ c ≠ '\\' ∧ 0x20 ≤ c.toNat
  | escaped c => c ∈ '/' :: shortEscapes.map Prod.snd
  | unit _ => True

/-- The four digits of a unit spell it. -/
theorem unit?_digits (u : UInt16) :
    unit? (hexDigit (u.toNat / 4096)) (hexDigit (u.toNat / 256 % 16))
      (hexDigit (u.toNat / 16 % 16)) (hexDigit (u.toNat % 16)) = some u := by
  have hsize := u.toNat_lt
  have hvalue : ((u.toNat / 4096 * 16 + u.toNat / 256 % 16) * 16 + u.toNat / 16 % 16) * 16 +
      u.toNat % 16 = u.toNat := by omega
  rw [unit?, hexValue?_hexDigit (by omega), hexValue?_hexDigit (by omega),
    hexValue?_hexDigit (by omega), hexValue?_hexDigit (by omega)]
  simp only [Option.bind_eq_bind, Option.bind_some, Option.pure_def, hvalue, UInt16.ofNat_toNat]

/-- The mark of an escape means the character that is escaped, and is not that of a unit. -/
theorem meaning?_mark {c : Char} (h : (escaped c).WellFormed) :
    meaning? ((escapeMark? c).getD c) = some c ∧ (escapeMark? c).getD c ≠ 'u' := by
  simp only [WellFormed, shortEscapes, List.map_cons, List.map_nil, List.mem_cons,
    List.not_mem_nil, or_false] at h
  rcases h with rfl | rfl | rfl | rfl | rfl | rfl | rfl | rfl <;> decide

/-- The letter that spells a character may stand in a string. -/
theorem wellFormed_ofChar (c : Char) : (ofChar c).WellFormed := by
  unfold ofChar
  split
  · next hmark =>
      obtain ⟨mark, hmark⟩ := Option.isSome_iff_exists.mp hmark
      obtain ⟨e, he, -⟩ := Option.map_eq_some_iff.mp hmark
      have hc : e.2 = c := by simpa using List.find?_some he
      exact List.mem_cons_of_mem _ (hc ▸ List.mem_map_of_mem (List.mem_of_find?_eq_some he))
  · next hmark =>
      split
      · trivial
      · next hprintable =>
          refine ⟨?_, ?_, by omega⟩
          · rintro rfl
            exact hmark (by decide)
          · rintro rfl
            exact hmark (by decide)

end Letter

/-- A character as it stands between the quotes of a string.  A quote and a backslash are marked by
a backslash, five controls have a mark of their own, and the other controls are told by four digits
of base sixteen.  All other characters stand for themselves. -/
def inString (c : Char) : List Char :=
  if c = '\x22' then ['\\', '\x22']
  else if c = '\\' then ['\\', '\\']
  else if c = '\x08' then ['\\', 'b']
  else if c = '\x0c' then ['\\', 'f']
  else if c = '\n' then ['\\', 'n']
  else if c = '\r' then ['\\', 'r']
  else if c = '\t' then ['\\', 't']
  else if c.toNat < 0x20 then
    ['\\', 'u', '0', '0', Nat.digitChar (c.toNat / 16), Nat.digitChar (c.toNat % 16)]
  else [c]

theorem hexDigit_eq_digitChar {v : ℕ} (h : v < 16) : hexDigit v = Nat.digitChar v := by
  revert v
  decide

theorem escapeMark?_eq_none {c : Char} (h : ∀ e ∈ shortEscapes, e.2 ≠ c) :
    escapeMark? c = none := by
  rw [escapeMark?, Option.map_eq_none_iff, List.find?_eq_none]
  intro e he heq
  exact h e he (eq_of_beq heq)

/-- **How a character is written** in a string. -/
theorem Letter.text_ofChar (c : Char) : (ofChar c).text = inString c := by
  by_cases hshort : ∃ e ∈ shortEscapes, e.2 = c
  · obtain ⟨e, he, rfl⟩ := hshort
    revert e
    decide
  · have hmark : escapeMark? c = none := escapeMark?_eq_none fun e he heq => hshort ⟨e, he, heq⟩
    have hne (d : Char) (hd : d ∈ shortEscapes.map Prod.snd) : c ≠ d := by
      rintro rfl
      obtain ⟨e, he, heq⟩ := List.mem_map.mp hd
      exact hshort ⟨e, he, heq⟩
    unfold inString
    rw [if_neg (hne _ (by decide)), if_neg (hne _ (by decide)), if_neg (hne _ (by decide)),
      if_neg (hne _ (by decide)), if_neg (hne _ (by decide)), if_neg (hne _ (by decide)),
      if_neg (hne _ (by decide)), ofChar, hmark]
    by_cases hcontrol : c.toNat < 0x20
    · have hvalue : (UInt16.ofNat c.toNat).toNat = c.toNat := by
        rw [UInt16.toNat_ofNat']
        exact Nat.mod_eq_of_lt (by omega)
      have hfirst : c.toNat / 4096 = 0 := by omega
      have hsecond : c.toNat / 256 % 16 = 0 := by omega
      have hthird : c.toNat / 16 % 16 = c.toNat / 16 := by omega
      simp only [Option.isSome_none, Bool.false_eq_true, if_false, if_pos hcontrol, text, hvalue,
        hfirst, hsecond, hthird, hexDigit_eq_digitChar (show c.toNat / 16 < 16 by omega),
        hexDigit_eq_digitChar (show c.toNat % 16 < 16 by omega)]
      rfl
    · simp [hcontrol, text]

namespace Letters

/-- A letter at the front of a text is taken off it. -/
theorem scan_letter {l : Letter} (h : l.WellFormed) (rest : List Char) :
    scan (l.text ++ rest) = (scan rest).map fun (more, left) => (l :: more, left) := by
  cases l with
  | plain c =>
      obtain ⟨hquote, hbackslash, hprintable⟩ := h
      have hcontrol : ¬ c.toNat < 0x20 := by omega
      simp only [Letter.text, List.cons_append, List.nil_append]
      rw [scan]
      · rw [if_neg hcontrol]
        cases scan rest <;> rfl
      · exact hquote
      · intro _ _ _ _ _ hc
        exact absurd hc hbackslash
      · intro _ _ hc
        exact absurd hc hbackslash
  | escaped c =>
      obtain ⟨hmeaning, hunit⟩ := Letter.meaning?_mark h
      simp only [Letter.text, List.cons_append, List.nil_append]
      rw [scan]
      · rw [hmeaning]
        cases scan rest <;> rfl
      · intro _ _ _ _ _ hc
        exact absurd hc hunit
  | unit u =>
      simp only [Letter.text, List.cons_append, List.nil_append]
      rw [scan, Letter.unit?_digits]
      cases scan rest <;> rfl

/-- **A string is read as it is written**, up to the quote that closes it. -/
theorem scan_text {s : Letters} (h : ∀ l ∈ s, l.WellFormed) (rest : List Char) :
    scan (s.flatMap Letter.text ++ '\x22' :: rest) = some (s, rest) := by
  induction s with
  | nil => simp [scan]
  | cons l s ih =>
      rw [List.flatMap_cons, List.append_assoc, scan_letter (h l List.mem_cons_self),
        ih fun l hl => h l (List.mem_cons_of_mem _ hl)]
      rfl

theorem wellFormed_ofText (s : List Char) : ∀ l ∈ ofText s, l.WellFormed := by
  intro l hl
  obtain ⟨c, -, rfl⟩ := List.mem_map.mp hl
  exact Letter.wellFormed_ofChar c

end Letters

end QuadCode
