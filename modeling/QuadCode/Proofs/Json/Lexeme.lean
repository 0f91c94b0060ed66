import Mathlib.Data.List.Forall2
import QuadCode.Proofs.Json.Letter
import QuadCode.Proofs.Json.Numeral

/-!
# Taking a text apart

A text that is made of lexemes with blanks between them is taken apart into those lexemes.  Only a
numeral can be gone on with by what follows it.  So a text is said to spell lexemes if it is taken
apart into them in front of any text that does not go on with a numeral, and spellings can be put
together piece by piece.

Main statements:

* `Lexeme.scan_text`: a lexeme is read as it is written;
* `Spells.append`, `Spells.separated` and `Spells.enclosed`: spellings are put together.
-/

namespace QuadCode

open Numeral (EndsBefore)

namespace Lexeme

/-- The text of a lexeme. -/
def text : Lexeme → List Char
  | openArray => ['[']
  | closeArray => [']']
  | openObject => ['\x7b']
  | closeObject => ['\x7d']
  | comma => [',']
  | colon => [':']
  | null => ['n', 'u', 'l', 'l']
  | bool true => ['t', 'r', 'u', 'e']
  | bool false => ['f', 'a', 'l', 's', 'e']
  | number n => n.text
  | string s => Json.quoted s

/-- The lexemes that have a text of their own. -/
def WellFormed : Lexeme → Prop
  | number n => n.WellFormed
  | string s => ∀ l ∈ s, l.WellFormed
  | _ => True

/-- A lexeme that nothing can go on with. -/
def Closed : Lexeme → Prop
  | number _ => False
  | _ => True

theorem isBlank_toChar (d : Digit) : isBlank d.toChar = false := by
  revert d
  decide

/-- A text that begins as a numeral does is taken for one. -/
theorem scan_numeral {c : Char} (h : c = '-' ∨ ∃ d : Digit, d.toChar = c) (rest : List Char) :
    scan c rest = (Numeral.scan (c :: rest)).map fun (n, left) => (.number n, left) := by
  have hne {c' : Char} (hdigit : Digit.ofChar? c' = none) (hminus : c' ≠ '-') : c ≠ c' := by
    rcases h with rfl | ⟨d, rfl⟩
    · exact hminus.symm
    · exact Digit.toChar_ne hdigit
  unfold scan
  split
  case h_11 => rfl
  all_goals exact absurd rfl (hne (by decide) (by decide))

/-- A numeral begins with a minus or a digit. -/
theorem exists_cons_text {n : Numeral} (h : n.WellFormed) :
    ∃ c more, n.text = c :: more ∧ (c = '-' ∨ ∃ d : Digit, d.toChar = c) := by
  rw [Numeral.text_eq]
  cases n.negative with
  | true => exact ⟨'-', _, rfl, .inl rfl⟩
  | false =>
      obtain ⟨d, ds, hds⟩ := List.exists_cons_of_ne_nil h.whole
      rw [hds]
      exact ⟨d.toChar, _, rfl, .inr ⟨d, rfl⟩⟩

/-- **A lexeme is read as it is written**, if what follows does not go on with it. -/
theorem scan_text {l : Lexeme} {rest : List Char} (h : l.WellFormed)
    (hrest : l.Closed ∨ EndsBefore rest) :
    ∃ c more, l.text ++ rest = c :: more ∧ isBlank c = false ∧ scan c more = some (l, rest) := by
  cases l with
  | number n =>
      obtain ⟨c, more, htext, hfirst⟩ := exists_cons_text h
      have hblank : isBlank c = false := by
        rcases hfirst with rfl | ⟨d, rfl⟩
        · rfl
        · exact isBlank_toChar d
      have hnumeral := Numeral.scan_text h (hrest.resolve_left id)
      rw [htext] at hnumeral
      refine ⟨c, more ++ rest, ?_, hblank, ?_⟩
      · rw [text, htext, List.cons_append]
      · rw [scan_numeral hfirst, ← List.cons_append, hnumeral]
        rfl
  | string s =>
      refine ⟨'\x22', s.flatMap Letter.text ++ '\x22' :: rest, ?_, rfl, ?_⟩
      · simp [text, Json.quoted]
      · simp only [scan, Letters.scan_text h, Option.map_some]
  | bool b => cases b <;> exact ⟨_, _, rfl, rfl, rfl⟩
  | _ => exact ⟨_, _, rfl, rfl, rfl⟩

end Lexeme

theorem lexemes?_blank {c : Char} (h : Lexeme.isBlank c = true) (rest : List Char) :
    lexemes? (c :: rest) = lexemes? rest := by
  rw [lexemes?, if_pos h]

/-- A lexeme at the front of a text is taken off it. -/
theorem lexemes?_text {l : Lexeme} {rest : List Char} (h : l.WellFormed)
    (hrest : l.Closed ∨ EndsBefore rest) :
    lexemes? (l.text ++ rest) = (lexemes? rest).map (l :: ·) := by
  obtain ⟨c, more, htext, hblank, hscan⟩ := Lexeme.scan_text h hrest
  rw [htext, lexemes?, if_neg (by simp [hblank])]
  split
  · next hnone =>
      rw [hscan] at hnone
      cases hnone
  · next l' left hsome =>
      rw [hscan] at hsome
      cases hsome
      rfl

/-- A text spells lexemes if it is taken apart into them wherever it stands, unless what follows
goes on with a numeral at its end. -/
def Spells (t : List Char) (ls : List Lexeme) : Prop :=
  ∀ rest, EndsBefore rest → lexemes? (t ++ rest) = (lexemes? rest).map (ls ++ ·)

namespace Numeral.EndsBefore

variable {c : Char} {t rest : List Char}

theorem nil : EndsBefore [] :=
  fun _ h => by cases h

theorem cons (h : Digit.ofChar? c = none ∧ c ≠ '.' ∧ c ≠ 'e' ∧ c ≠ 'E') (rest : List Char) :
    EndsBefore (c :: rest) := by
  intro d hd
  obtain rfl := Option.some.inj hd
  exact h

theorem append (h : EndsBefore t) (hrest : EndsBefore rest) : EndsBefore (t ++ rest) := by
  cases t with
  | nil => exact hrest
  | cons c t => exact h

/-- A blank does not go on with a numeral. -/
theorem blanks (h : ∀ c ∈ t, Lexeme.isBlank c = true) : EndsBefore t := by
  cases t with
  | nil => exact nil
  | cons c t =>
      have hc := h c List.mem_cons_self
      simp only [Lexeme.isBlank, Bool.or_eq_true, beq_iff_eq] at hc
      refine cons ?_ t
      rcases hc with ((rfl | rfl) | rfl) | rfl <;> decide

end Numeral.EndsBefore

namespace Spells

variable {t t' blanks before behind : List Char} {l : Lexeme} {ls ls' : List Lexeme}

theorem nil : Spells [] [] := by
  intro rest _
  simp

/-- A whole text that spells lexemes. -/
theorem lexemes?_eq (h : Spells t ls) : lexemes? t = some ls := by
  have hall := h [] EndsBefore.nil
  rw [List.append_nil] at hall
  simp [hall, lexemes?]

theorem single (h : l.WellFormed) : Spells l.text [l] :=
  fun _ hrest => lexemes?_text h (.inr hrest)

/-- Nothing can go on with a closed lexeme, so anything may follow it. -/
theorem cons (h : l.WellFormed) (hclosed : l.Closed) (ht : Spells t ls) :
    Spells (l.text ++ t) (l :: ls) := by
  intro rest hrest
  rw [List.append_assoc, lexemes?_text h (.inl hclosed), ht rest hrest, Option.map_map]
  rfl

/-- Blanks in front spell nothing. -/
theorem blanks_append (h : ∀ c ∈ blanks, Lexeme.isBlank c = true) (ht : Spells t ls) :
    Spells (blanks ++ t) ls := by
  intro rest hrest
  induction blanks with
  | nil => exact ht rest hrest
  | cons c blanks ih =>
      rw [List.cons_append, List.cons_append, lexemes?_blank (h c List.mem_cons_self)]
      exact ih fun c hc => h c (List.mem_cons_of_mem _ hc)

/-- Two spellings, the second of which does not go on with a numeral. -/
theorem append (h : Spells t ls) (h' : Spells t' ls') (hends : EndsBefore t') :
    Spells (t ++ t') (ls ++ ls') := by
  intro rest hrest
  rw [List.append_assoc, h _ (hends.append hrest), h' rest hrest, Option.map_map]
  simp [Function.comp_def]

/-- Texts with a comma and blanks between them. -/
theorem separated (hblanks : ∀ c ∈ blanks, Lexeme.isBlank c = true) {texts : List (List Char)}
    {spelled : List (List Lexeme)} (h : List.Forall₂ Spells texts spelled) :
    Spells (Json.separated (',' :: blanks) texts) ([Lexeme.comma].intercalate spelled) := by
  induction h with
  | nil => exact nil
  | @cons t ls texts spelled ht hrest ih =>
      cases hrest with
      | nil => simpa [Json.separated, List.intercalate] using ht
      | @cons t' ls' texts spelled ht' hrest =>
          rw [List.intercalate_cons_cons, Json.separated, List.append_assoc, List.append_assoc]
          · exact ht.append (cons (l := .comma) trivial trivial (blanks_append hblanks ih))
              (EndsBefore.cons (by decide) _)
          · exact List.cons_ne_nil _ _

/-- A spelling between two brackets, with blanks around it. -/
theorem enclosed (opening closing : Lexeme) (hopening : opening.WellFormed ∧ opening.Closed)
    (hclosing : closing.WellFormed) (hbefore : ∀ c ∈ before, Lexeme.isBlank c = true)
    (hbehind : ∀ c ∈ behind, Lexeme.isBlank c = true) (hends : EndsBefore closing.text)
    (h : Spells t ls) :
    Spells (opening.text ++ (before ++ (t ++ (behind ++ closing.text))))
      (opening :: (ls ++ [closing])) :=
  cons hopening.1 hopening.2 (blanks_append hbefore
    (h.append (blanks_append hbehind (single hclosing)) ((EndsBefore.blanks hbehind).append hends)))

end Spells

end QuadCode
