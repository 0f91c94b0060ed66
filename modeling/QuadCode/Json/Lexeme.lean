import QuadCode.Json.Value

/-!
# Lexemes of JSON

A JSON text is a row of lexemes with blanks between them: brackets, separators, words, numbers and
strings.  `lexemes?` takes a text apart.
-/

namespace QuadCode

/-- The smallest parts of a JSON text. -/
inductive Lexeme
  | openArray
  | closeArray
  | openObject
  | closeObject
  | comma
  | colon
  | null
  | bool (b : Bool)
  | number (n : Numeral)
  | string (s : Letters)
  deriving DecidableEq, Repr

namespace Numeral

/-- The digits in front of the point: at least one, and no zero in front of others. -/
def scanWhole (s : List Char) : Option (Digits × List Char) :=
  match Digits.scan s with
  | ([], _) => none
  | (first :: second :: more, left) =>
    if first.val = 0 then none else some (first :: second :: more, left)
  | ([only], left) => some ([only], left)

/-- The point and the digits behind it, at least one, if there is a point. -/
def scanFraction (s : List Char) : Option (Option Digits × List Char) :=
  match s with
  | '.' :: rest =>
    match Digits.scan rest with
    | ([], _) => none
    | (ds, left) => some (some ds, left)
  | _ => some (none, s)

/-- The sign of a power of ten. -/
def scanPowerSign (s : List Char) : PowerSign × List Char :=
  match s with
  | '+' :: rest => (.plus, rest)
  | '-' :: rest => (.minus, rest)
  | _ => (.unmarked, s)

/-- The power of ten, with at least one digit, if there is one. -/
def scanPower (s : List Char) : Option (Option Power × List Char) :=
  match s with
  | [] => some (none, s)
  | c :: rest =>
    if c = 'e' ∨ c = 'E' then
      let (sign, behind) := scanPowerSign rest
      match Digits.scan behind with
      | ([], _) => none
      | (ds, left) => some (some ⟨sign, ds⟩, left)
    else some (none, s)

/-- A numeral without a sign. -/
def scanUnsigned (negative : Bool) (s : List Char) : Option (Numeral × List Char) :=
  match scanWhole s with
  | none => none
  | some (whole, s₁) =>
    match scanFraction s₁ with
    | none => none
    | some (fraction, s₂) =>
      match scanPower s₂ with
      | none => none
      | some (power, left) => some (⟨negative, whole, fraction, power⟩, left)

/-- A numeral at the front of a text, and what follows it. -/
def scan (s : List Char) : Option (Numeral × List Char) :=
  match s with
  | '-' :: rest => scanUnsigned true rest
  | _ => scanUnsigned false s

theorem length_scanWhole_lt {s left : List Char} {ds : Digits}
    (h : scanWhole s = some (ds, left)) : left.length < s.length := by
  have nonempty : ∀ {s : List Char} {d : Digit} {more : Digits} {left : List Char},
      Digits.scan s = (d :: more, left) → left.length < s.length := by
    intro s d more left h
    cases s with
    | nil => simp [Digits.scan] at h
    | cons c rest =>
      have := Digits.length_scan_le rest
      cases hc : Digit.ofChar? c with
      | none => simp [Digits.scan, hc] at h
      | some e =>
        simp only [Digits.scan, hc, Prod.mk.injEq, List.cons.injEq] at h
        rw [← h.2, List.length_cons]
        omega
  unfold scanWhole at h
  split at h
  · cases h
  · next heq =>
    split at h
    · cases h
    · cases h; exact nonempty heq
  · next heq => cases h; exact nonempty heq

theorem length_scanFraction_le {s left : List Char} {ds : Option Digits}
    (h : scanFraction s = some (ds, left)) : left.length ≤ s.length := by
  unfold scanFraction at h
  split at h
  · next rest =>
    have := Digits.length_scan_le rest
    split at h
    · cases h
    · next heq =>
      cases h
      simp only [heq] at this
      simp only [List.length_cons]
      omega
  · cases h; exact Nat.le_refl _

theorem length_scanPowerSign_le (s : List Char) :
    (scanPowerSign s).2.length ≤ s.length := by
  unfold scanPowerSign
  split <;> simp

theorem length_scanPower_le {s left : List Char} {p : Option Power}
    (h : scanPower s = some (p, left)) : left.length ≤ s.length := by
  unfold scanPower at h
  split at h
  · cases h; exact Nat.le_refl _
  · next c rest =>
    split at h
    · have sign := length_scanPowerSign_le rest
      have digits := Digits.length_scan_le (scanPowerSign rest).2
      simp only at h
      split at h
      · cases h
      · next heq =>
        cases h
        simp only [heq] at digits
        simp only [List.length_cons]
        omega
    · cases h; exact Nat.le_refl _

/-- What follows a numeral is shorter than the text with it. -/
theorem length_scan_lt {s left : List Char} {n : Numeral} (h : scan s = some (n, left)) :
    left.length < s.length := by
  have unsigned : ∀ {negative : Bool} {s : List Char},
      scanUnsigned negative s = some (n, left) → left.length < s.length := by
    intro negative s h
    unfold scanUnsigned at h
    split at h
    · cases h
    · next hw =>
      split at h
      · cases h
      · next hf =>
        split at h
        · cases h
        · next hp =>
          cases h
          have := length_scanWhole_lt hw
          have := length_scanFraction_le hf
          have := length_scanPower_le hp
          omega
  unfold scan at h
  split at h
  · have := unsigned h
    simp only [List.length_cons]
    omega
  · exact unsigned h

end Numeral

namespace Lexeme

/-- The blanks that may stand between lexemes. -/
def isBlank (c : Char) : Bool :=
  c == ' ' || c == '\t' || c == '\n' || c == '\r'

/-- The lexeme that begins with a given character, and what follows it. -/
def scan (c : Char) (rest : List Char) : Option (Lexeme × List Char) :=
  match c, rest with
  | '[', _ => some (.openArray, rest)
  | ']', _ => some (.closeArray, rest)
  | '\x7b', _ => some (.openObject, rest)
  | '\x7d', _ => some (.closeObject, rest)
  | ',', _ => some (.comma, rest)
  | ':', _ => some (.colon, rest)
  | '\x22', _ => (Letters.scan rest).map fun (s, left) => (.string s, left)
  | 'n', 'u' :: 'l' :: 'l' :: left => some (.null, left)
  | 't', 'r' :: 'u' :: 'e' :: left => some (.bool true, left)
  | 'f', 'a' :: 'l' :: 's' :: 'e' :: left => some (.bool false, left)
  | _, _ => (Numeral.scan (c :: rest)).map fun (n, left) => (.number n, left)

/-- What follows a lexeme is no longer than what follows its first character. -/
theorem length_scan_le {c : Char} {rest left : List Char} {l : Lexeme}
    (h : scan c rest = some (l, left)) : left.length ≤ rest.length := by
  unfold scan at h
  split at h
  case h_7 =>
    obtain ⟨⟨s, left'⟩, hs, heq⟩ := Option.map_eq_some_iff.mp h
    cases heq
    exact Nat.le_of_lt (Letters.length_scan_lt hs)
  case h_11 =>
    obtain ⟨⟨n, left'⟩, hn, heq⟩ := Option.map_eq_some_iff.mp h
    cases heq
    exact Nat.le_of_lt_succ (Numeral.length_scan_lt hn)
  all_goals
    cases h
    simp +arith

end Lexeme

/-- The lexemes of a text, if it is made of lexemes and blanks. -/
def lexemes? : List Char → Option (List Lexeme)
  | [] => some []
  | c :: rest =>
    if Lexeme.isBlank c then lexemes? rest
    else
      match _h : Lexeme.scan c rest with
      | none => none
      | some (l, left) => (lexemes? left).map (l :: ·)
termination_by s => s.length
decreasing_by
  · simp
  · exact Nat.lt_succ_of_le (Lexeme.length_scan_le _h)

end QuadCode
