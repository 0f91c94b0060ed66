import QuadCode.Text.Escape

/-!
# Strings as they are spelled

A `Letter` is one item of a JSON string as it is spelled between the quotes: a character that
stands for itself, a short escape, or an escaped sixteen-bit unit.  Units come in pairs for the
characters beyond the first `2 ^ 16`; a spelling with half a pair denotes no text.

Main definitions:

* `Letters.ofText` spells a text, escaping only what must be escaped;
* `Letters.text?` reads a spelling;
* `Letters.scan` takes the letters up to the closing quote.

Main statement: `Letters.text?_ofText`, the spelling of a text denotes that text.
-/

namespace QuadCode

/-- One item of a string between quotes. -/
inductive Letter
  /-- A character that stands for itself. -/
  | plain (c : Char)
  /-- A backslash and a mark that together stand for a character. -/
  | escaped (c : Char)
  /-- A backslash, a `u` and four digits in base sixteen. -/
  | unit (u : UInt16)
  deriving DecidableEq, Repr

/-- The spelling of a string between its quotes. -/
abbrev Letters := List Letter

namespace Letter

/-- The character that a short escape means, from its mark.  A slash may be escaped too. -/
def meaning? (mark : Char) : Option Char :=
  if mark = '/' then some '/' else escapeMeaning? mark

/-- The unit that four digits of base sixteen spell. -/
def unit? (a b c d : Char) : Option UInt16 := do
  let a ← hexValue? a
  let b ← hexValue? b
  let c ← hexValue? c
  let d ← hexValue? d
  return UInt16.ofNat (((a * 16 + b) * 16 + c) * 16 + d)

/-- The spelling of one letter. -/
def text : Letter → List Char
  | plain c => [c]
  | escaped c => ['\\', (escapeMark? c).getD c]
  | unit u =>
    let n := u.toNat
    ['\\', 'u', hexDigit (n / 4096), hexDigit (n / 256 % 16), hexDigit (n / 16 % 16),
      hexDigit (n % 16)]

/-- The letter that spells a character: quotes, backslashes and controls are escaped, with a short
escape where there is one, and all else stands for itself. -/
def ofChar (c : Char) : Letter :=
  if (escapeMark? c).isSome then escaped c
  else if c.toNat < 0x20 then unit (UInt16.ofNat c.toNat)
  else plain c

end Letter

namespace Letters

/-- The spelling of a text. -/
def ofText (s : List Char) : Letters :=
  s.map Letter.ofChar

/-- The character that a pair of units stands for. -/
def pairChar (high low : UInt16) : Char :=
  Char.ofNat (0x10000 + (high.toNat - 0xd800) * 0x400 + (low.toNat - 0xdc00))

/-- The text that a spelling denotes, unless it has a unit that is half of a pair. -/
def text? : Letters → Option (List Char)
  | [] => some []
  | .plain c :: rest => (text? rest).map (c :: ·)
  | .escaped c :: rest => (text? rest).map (c :: ·)
  | .unit high :: .unit low :: rest =>
    if 0xd800 ≤ high ∧ high < 0xdc00 then
      if 0xdc00 ≤ low ∧ low < 0xe000 then (text? rest).map (pairChar high low :: ·) else none
    else if 0xdc00 ≤ high ∧ high < 0xe000 then none
    else (text? (.unit low :: rest)).map (Char.ofNat high.toNat :: ·)
  | .unit u :: rest =>
    if 0xd800 ≤ u ∧ u < 0xe000 then none
    else (text? rest).map (Char.ofNat u.toNat :: ·)

/-- A unit below those that come in pairs denotes a character by itself. -/
theorem text?_unit {u : UInt16} (h : u < 0xd800) (rest : Letters) :
    text? (.unit u :: rest) = (text? rest).map (Char.ofNat u.toNat :: ·) := by
  have hfirst : ¬ (0xd800 ≤ u) := UInt16.not_le.mpr h
  have hsecond : ¬ (0xdc00 ≤ u) := fun hle =>
    hfirst (UInt16.le_trans (by decide : (0xd800 : UInt16) ≤ 0xdc00) hle)
  cases rest with
  | nil => simp [text?, hfirst]
  | cons letter more => cases letter <;> simp [text?, hfirst, hsecond]

/-- A letter that spells a character denotes that character, whatever follows. -/
theorem text?_ofChar (c : Char) (rest : Letters) :
    text? (Letter.ofChar c :: rest) = (text? rest).map (c :: ·) := by
  unfold Letter.ofChar
  split
  · rfl
  split
  · next hlow =>
    have hsmall : c.toNat < UInt16.size := Nat.lt_trans hlow (by decide)
    have hvalue : (UInt16.ofNat c.toNat).toNat = c.toNat := by
      rw [UInt16.toNat_ofNat']
      exact Nat.mod_eq_of_lt hsmall
    have hunit : UInt16.ofNat c.toNat < 0xd800 := by
      rw [UInt16.lt_iff_toNat_lt, hvalue]
      exact Nat.lt_trans hlow (by decide)
    rw [text?_unit hunit, hvalue, Char.ofNat_toNat]
  · rfl

/-- The spelling of a text denotes that text. -/
theorem text?_ofText (s : List Char) : text? (ofText s) = some s := by
  induction s with
  | nil => rfl
  | cons c rest ih =>
    show text? (Letter.ofChar c :: ofText rest) = _
    rw [text?_ofChar, ih]
    rfl

/-- The letters up to the closing quote, and what follows it. -/
def scan : List Char → Option (Letters × List Char)
  | [] => none
  | '\x22' :: rest => some ([], rest)
  | '\\' :: 'u' :: a :: b :: c :: d :: rest =>
    match Letter.unit? a b c d, scan rest with
    | some u, some (more, left) => some (.unit u :: more, left)
    | _, _ => none
  | '\\' :: mark :: rest =>
    match Letter.meaning? mark, scan rest with
    | some c, some (more, left) => some (.escaped c :: more, left)
    | _, _ => none
  | c :: rest =>
    if c.toNat < 0x20 then none
    else
      match scan rest with
      | some (more, left) => some (.plain c :: more, left)
      | none => none

/-- What follows a string is shorter than the string with it. -/
theorem length_scan_lt {s left : List Char} {letters : Letters}
    (h : scan s = some (letters, left)) : left.length < s.length := by
  fun_induction scan s generalizing letters left with
  | case1 => cases h
  | case2 rest => cases h; simp
  | case3 a b c d rest u more left' hscan _ ih =>
    cases h
    have := ih hscan
    simp only [List.length_cons]
    omega
  | case4 => cases h
  | case5 mark rest _ c more left' hscan _ ih =>
    cases h
    have := ih hscan
    simp only [List.length_cons]
    omega
  | case6 => cases h
  | case7 => cases h
  | case8 c rest _ _ _ _ more left' hscan ih =>
    cases h
    have := ih hscan
    simp only [List.length_cons]
    omega
  | case9 => cases h

end Letters

end QuadCode
