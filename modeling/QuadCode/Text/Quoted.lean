import QuadCode.Text.Hidden

/-!
# Quoted text

Messages show codes and characters between quotes, on one line and with nothing hidden: controls
and other hidden characters are written by their code points.  `quoteText` puts a text between
double quotes and `quoteChar` puts a character between single ones; each escapes its own quote
only.
-/

namespace QuadCode

/-- The digits of a code point, in base sixteen and in lower case. -/
def codePointDigits (c : Char) : List Char :=
  Nat.toDigits 16 c.toNat

/-- A character as it stands between two marks of the kind `quote`. -/
def quotedForm (quote c : Char) : List Char :=
  if c = '\x00' then ['\\', '0']
  else if c = '\t' then ['\\', 't']
  else if c = '\r' then ['\\', 'r']
  else if c = '\n' then ['\\', 'n']
  else if c = '\\' ∨ c = quote then ['\\', c]
  else if isHidden c then ['\\', 'u', '\x7b'] ++ codePointDigits c ++ ['\x7d']
  else [c]

/-- A text between double quotes. -/
def quoteText (s : String) : String :=
  String.ofList (['\x22'] ++ s.toList.flatMap (quotedForm '\x22') ++ ['\x22'])

/-- A character between single quotes. -/
def quoteChar (c : Char) : String :=
  String.ofList (['\x27'] ++ quotedForm '\x27' c ++ ['\x27'])

example : quoteText "a\"b'\u0301" = "\"a\\\"b'\\u\x7b301\x7d\"" := by decide +kernel

end QuadCode
