/-!
# Numerals

A `Numeral` is a number as it stands in a text: a sign, the digits in front of the point, the
digits behind it if there is a point, and a power of ten if one is written.  It keeps the spelling,
so `1`, `1.0` and `1e0` are three numerals; what number they mean is a question for the modules
that read them.

Main definitions:

* `Digits.ofNat` writes a natural number and `Digits.value` reads it;
* `Digits.scan` takes the digits at the front of a text;
* `Numeral.text` spells a numeral.
-/

namespace QuadCode

/-- One decimal digit. -/
abbrev Digit := Fin 10

/-- A run of decimal digits, the most significant first. -/
abbrev Digits := List Digit

/-- The character of a digit. -/
def Digit.toChar (d : Digit) : Char :=
  Char.ofNat (48 + d.val)

/-- The digit a character stands for; only `0` to `9` are digits. -/
def Digit.ofChar? (c : Char) : Option Digit :=
  if h : 48 ≤ c.toNat ∧ c.toNat < 58 then some ⟨c.toNat - 48, by omega⟩ else none

namespace Digits

/-- The digits as text. -/
def text (ds : Digits) : List Char :=
  ds.map Digit.toChar

/-- The number that a run of digits denotes. -/
def value (ds : Digits) : Nat :=
  ds.foldl (fun n d => 10 * n + d.val) 0

/-- The digits of `n` in front of `rest`, at most `room` of them. -/
def writeBefore (room n : Nat) (rest : Digits) : Digits :=
  match room with
  | 0 => rest
  | room + 1 =>
    let longer := ⟨n % 10, Nat.mod_lt n (by decide)⟩ :: rest
    if n < 10 then longer else writeBefore room (n / 10) longer

/-- The digits of a natural number, without leading zeros; zero is the one digit `0`. -/
def ofNat (n : Nat) : Digits :=
  writeBefore (n + 1) n []

/-- The longest run of digits at the front of a text, and what follows it. -/
def scan : List Char → Digits × List Char
  | [] => ([], [])
  | c :: rest =>
    match Digit.ofChar? c with
    | none => ([], c :: rest)
    | some d =>
      let (more, left) := scan rest
      (d :: more, left)

/-- A scan never makes the text longer. -/
theorem length_scan_le (s : List Char) : (scan s).2.length ≤ s.length := by
  induction s with
  | nil => simp [scan]
  | cons c rest ih =>
    cases h : Digit.ofChar? c with
    | none => simp [scan, h]
    | some d =>
      simp only [scan, h, List.length_cons]
      omega

end Digits

/-- The sign in front of a power of ten, if one is written. -/
inductive PowerSign
  | unmarked
  | plus
  | minus
  deriving DecidableEq, Repr

/-- A written power of ten. -/
structure Power where
  sign : PowerSign
  digits : Digits
  deriving DecidableEq, Repr

/-- A number as it is written. -/
structure Numeral where
  negative : Bool
  whole : Digits
  fraction : Option Digits
  power : Option Power
  deriving DecidableEq, Repr

namespace PowerSign

/-- The sign as text. -/
def text : PowerSign → List Char
  | unmarked => []
  | plus => ['+']
  | minus => ['-']

end PowerSign

/-- The exponent that a written power of ten denotes. -/
def Power.value (p : Power) : Int :=
  match p.sign with
  | .minus => -(p.digits.value : Int)
  | _ => p.digits.value

namespace Numeral

/-- The numeral of a natural number: its digits and nothing else. -/
def ofNat (n : Nat) : Numeral :=
  ⟨false, Digits.ofNat n, none, none⟩

/-- The spelling of a numeral; a power of ten is marked by `e`. -/
def text (n : Numeral) : List Char :=
  (if n.negative then ['-'] else []) ++ n.whole.text ++
    (match n.fraction with
      | none => []
      | some ds => '.' :: ds.text) ++
    (match n.power with
      | none => []
      | some p => 'e' :: p.sign.text ++ p.digits.text)

/-- All digits of a numeral as one number, the point ignored. -/
def coefficient (n : Numeral) : Nat :=
  Digits.value (n.whole ++ n.fraction.getD [])

/-- The power of ten that goes with `coefficient`: digits behind the point count against it. -/
def exponent (n : Numeral) : Int :=
  (n.power.map Power.value).getD 0 - (n.fraction.getD []).length

end Numeral

end QuadCode
