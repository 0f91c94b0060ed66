import QuadCode.Json.Reader
import QuadCode.Proofs.Json.Lexeme

/-!
# A value and its texts

The two texts of a value, with and without blanks, spell the same lexemes.  A reader that takes
these lexemes in, wherever a value may stand, has the value when they end, and the arrays and
objects around it are as they were before.  So a value is read from either of its texts.

Main statements:

* `Json.spells_compact` and `Json.spells_prettyAt`: what the texts of a value spell;
* `Json.read_lexemes`: what a reader makes of the lexemes of a value;
* `Json.read?_compactText` and `Json.read?_prettyText`: a value is read from its texts.
-/

namespace QuadCode.Json

mutual

/-- The lexemes of a value. -/
def lexemes : Json → List Lexeme
  | null => [.null]
  | bool b => [.bool b]
  | number n => [.number n]
  | string s => [.string s]
  | array items => .openArray :: ([Lexeme.comma].intercalate (itemLexemes items) ++ [.closeArray])
  | object members =>
    .openObject :: ([Lexeme.comma].intercalate (memberLexemes members) ++ [.closeObject])

/-- The lexemes of the items of an array. -/
def itemLexemes : List Json → List (List Lexeme)
  | [] => []
  | item :: rest => lexemes item :: itemLexemes rest

/-- The lexemes of the members of an object. -/
def memberLexemes : List (Letters × Json) → List (List Lexeme)
  | [] => []
  | (name, value) :: rest => (.string name :: .colon :: lexemes value) :: memberLexemes rest

end

/-- The values all of whose lexemes have a text of their own. -/
def WellFormed (v : Json) : Prop :=
  ∀ l ∈ v.lexemes, l.WellFormed

/-- Something that holds of commas holds of lexemes with commas between them if it holds of them
without. -/
theorem forall_mem_intercalate {p : Lexeme → Prop} (hcomma : p .comma)
    {spelled : List (List Lexeme)} :
    (∀ l ∈ [Lexeme.comma].intercalate spelled, p l) ↔ ∀ ls ∈ spelled, ∀ l ∈ ls, p l := by
  induction spelled with
  | nil => simp [List.intercalate]
  | cons ls spelled ih =>
      cases spelled with
      | nil => simp [List.intercalate]
      | cons ls' spelled =>
          rw [List.intercalate_cons_cons, List.forall_mem_cons, ← ih]
          simp [or_imp, forall_and, hcomma]

theorem itemLexemes_eq_map (items : List Json) : itemLexemes items = items.map lexemes := by
  induction items with
  | nil => rfl
  | cons item rest ih => rw [itemLexemes, ih, List.map_cons]

theorem memberLexemes_eq_map (members : List (Letters × Json)) :
    memberLexemes members = members.map fun m => .string m.1 :: .colon :: m.2.lexemes := by
  induction members with
  | nil => rfl
  | cons m rest ih => rw [memberLexemes, ih, List.map_cons]

/-- An array is well formed if and only if its items are. -/
theorem wellFormed_array_iff {items : List Json} :
    (array items).WellFormed ↔ ∀ item ∈ items, item.WellFormed := by
  rw [WellFormed, lexemes, List.forall_mem_cons, List.forall_mem_append,
    forall_mem_intercalate trivial, itemLexemes_eq_map, List.forall_mem_map,
    List.forall_mem_singleton]
  exact ⟨fun h => h.2.1, fun h => ⟨trivial, h, trivial⟩⟩

/-- An object is well formed if and only if the names and the values of its members are. -/
theorem wellFormed_object_iff {members : List (Letters × Json)} :
    (object members).WellFormed ↔
      ∀ m ∈ members, (∀ l ∈ m.1, l.WellFormed) ∧ m.2.WellFormed := by
  rw [WellFormed, lexemes, List.forall_mem_cons, List.forall_mem_append,
    forall_mem_intercalate trivial, memberLexemes_eq_map, List.forall_mem_map,
    List.forall_mem_singleton]
  simp only [List.forall_mem_cons]
  exact ⟨fun h m hm => ⟨(h.2.1 m hm).1, (h.2.1 m hm).2.2⟩,
    fun h => ⟨trivial, fun m hm => ⟨(h m hm).1, trivial, (h m hm).2⟩, trivial⟩⟩

theorem wellFormed_number_iff {n : Numeral} : (number n).WellFormed ↔ n.WellFormed := by
  rw [WellFormed, lexemes, List.forall_mem_singleton]
  rfl

theorem wellFormed_ofNat (n : ℕ) : (ofNat n).WellFormed :=
  wellFormed_number_iff.mpr (Numeral.wellFormed_ofNat n)

theorem wellFormed_ofText (s : String) : (ofText s).WellFormed := by
  rw [ofText, WellFormed, lexemes, List.forall_mem_singleton]
  exact Letters.wellFormed_ofText s.toList

/-- A record is well formed if its values are. -/
theorem wellFormed_record {members : List (String × Json)} (h : ∀ m ∈ members, m.2.WellFormed) :
    (record members).WellFormed := by
  rw [record, wellFormed_object_iff, List.forall_mem_map]
  exact fun m hm => ⟨Letters.wellFormed_ofText m.1.toList, h m hm⟩

/-! ## Writing -/

/-- The text of a member spells the name, the colon and the value, with or without a blank in front
of the value. -/
theorem spells_member {name : Letters} (blanks : List Char) {t : List Char} {ls : List Lexeme}
    (hname : ∀ l ∈ name, l.WellFormed) (hblanks : ∀ c ∈ blanks, Lexeme.isBlank c = true)
    (h : Spells t ls) :
    Spells (quoted name ++ ':' :: (blanks ++ t)) (.string name :: .colon :: ls) :=
  .cons (l := .string name) hname trivial
    (.cons (l := .colon) trivial trivial (h.blanks_append hblanks))

mutual

/-- **The text of a value without blanks** spells its lexemes. -/
theorem spells_compact : (v : Json) → v.WellFormed → Spells v.compact v.lexemes
  | null, h => .single (l := .null) (h _ List.mem_cons_self)
  | bool true, h => .single (l := .bool true) (h _ List.mem_cons_self)
  | bool false, h => .single (l := .bool false) (h _ List.mem_cons_self)
  | number n, h => .single (l := .number n) (h _ List.mem_cons_self)
  | string s, h => .single (l := .string s) (h _ List.mem_cons_self)
  | array items, h => by
      have hitems := spells_compactItems items (wellFormed_array_iff.mp h)
      exact Spells.enclosed .openArray .closeArray ⟨trivial, trivial⟩ trivial
        (List.forall_mem_nil _) (List.forall_mem_nil _) (.cons (by decide) _)
        (Spells.separated (List.forall_mem_nil _) hitems)
  | object members, h => by
      have hmembers := spells_compactMembers members (wellFormed_object_iff.mp h)
      exact Spells.enclosed .openObject .closeObject ⟨trivial, trivial⟩ trivial
        (List.forall_mem_nil _) (List.forall_mem_nil _) (.cons (by decide) _)
        (Spells.separated (List.forall_mem_nil _) hmembers)

theorem spells_compactItems : (items : List Json) → (∀ item ∈ items, item.WellFormed) →
    List.Forall₂ Spells (compactItems items) (itemLexemes items)
  | [], _ => .nil
  | item :: rest, h => .cons (spells_compact item (h item List.mem_cons_self))
      (spells_compactItems rest fun v hv => h v (List.mem_cons_of_mem _ hv))

theorem spells_compactMembers : (members : List (Letters × Json)) →
    (∀ m ∈ members, (∀ l ∈ m.1, l.WellFormed) ∧ m.2.WellFormed) →
    List.Forall₂ Spells (compactMembers members) (memberLexemes members)
  | [], _ => .nil
  | (name, value) :: rest, h =>
      have hfirst := h (name, value) List.mem_cons_self
      .cons (spells_member [] hfirst.1 (List.forall_mem_nil _) (spells_compact value hfirst.2))
        (spells_compactMembers rest fun m hm => h m (List.mem_cons_of_mem _ hm))

end

/-- A new line begins with blanks. -/
theorem isBlank_of_mem_newLine {depth : ℕ} {c : Char} (h : c ∈ newLine depth) :
    Lexeme.isBlank c = true := by
  rcases List.mem_cons.mp h with rfl | hspace
  · rfl
  · rw [List.eq_of_mem_replicate hspace]
    rfl

/-- Texts on lines of their own between two brackets. -/
theorem spells_bracketed {opening closing : Char} {o c : Lexeme} (ho : o.text = [opening])
    (hc : c.text = [closing]) (hopening : o.WellFormed ∧ o.Closed) (hclosing : c.WellFormed)
    (hends : Numeral.EndsBefore [closing]) (depth : ℕ) {texts : List (List Char)}
    {spelled : List (List Lexeme)} (h : List.Forall₂ Spells texts spelled) :
    Spells (bracketed depth opening closing texts)
      (o :: ([Lexeme.comma].intercalate spelled ++ [c])) := by
  rw [← hc] at hends
  cases h with
  | nil =>
      have hempty := Spells.enclosed o c hopening hclosing (List.forall_mem_nil _)
        (List.forall_mem_nil _) hends .nil
      simpa [bracketed, ho, hc] using hempty
  | cons ht hrest =>
      have hblanks : ∀ d, ∀ c ∈ newLine d, Lexeme.isBlank c = true :=
        fun _ _ => isBlank_of_mem_newLine
      have hlines := Spells.separated (hblanks (depth + 1)) (.cons ht hrest)
      have hall := hlines.enclosed o c hopening hclosing (hblanks (depth + 1)) (hblanks depth) hends
      simpa [bracketed, ho, hc] using hall

mutual

/-- **The text of a value over several lines** spells its lexemes. -/
theorem spells_prettyAt (depth : ℕ) : (v : Json) → v.WellFormed →
    Spells (v.prettyAt depth) v.lexemes
  | null, h => spells_compact null h
  | bool b, h => spells_compact (bool b) h
  | number n, h => spells_compact (number n) h
  | string s, h => spells_compact (string s) h
  | array items, h => by
      have hitems := spells_prettyItems (depth + 1) items (wellFormed_array_iff.mp h)
      exact spells_bracketed (o := .openArray) (c := .closeArray) rfl rfl ⟨trivial, trivial⟩ trivial
        (.cons (by decide) _) depth hitems
  | object members, h => by
      have hmembers := spells_prettyMembers (depth + 1) members (wellFormed_object_iff.mp h)
      exact spells_bracketed (o := .openObject) (c := .closeObject) rfl rfl ⟨trivial, trivial⟩
        trivial (.cons (by decide) _) depth hmembers

theorem spells_prettyItems (depth : ℕ) : (items : List Json) →
    (∀ item ∈ items, item.WellFormed) →
    List.Forall₂ Spells (prettyItems depth items) (itemLexemes items)
  | [], _ => .nil
  | item :: rest, h => .cons (spells_prettyAt depth item (h item List.mem_cons_self))
      (spells_prettyItems depth rest fun v hv => h v (List.mem_cons_of_mem _ hv))

theorem spells_prettyMembers (depth : ℕ) : (members : List (Letters × Json)) →
    (∀ m ∈ members, (∀ l ∈ m.1, l.WellFormed) ∧ m.2.WellFormed) →
    List.Forall₂ Spells (prettyMembers depth members) (memberLexemes members)
  | [], _ => .nil
  | (name, value) :: rest, h => by
      have hfirst := h (name, value) List.mem_cons_self
      have hmember := spells_member [' '] hfirst.1 (List.forall_mem_singleton.mpr rfl)
        (spells_prettyAt depth value hfirst.2)
      refine .cons ?_ (spells_prettyMembers depth rest fun m hm => h m (List.mem_cons_of_mem _ hm))
      simpa using hmember

end

/-! ## Reading -/

/-- Lists with a separator between them are the first list, and the others with a separator in front
of each. -/
theorem intercalate_cons (separator : Lexeme) (ls : List Lexeme) (rest : List (List Lexeme)) :
    [separator].intercalate (ls :: rest) = ls ++ rest.flatMap (separator :: ·) := by
  induction rest generalizing ls with
  | nil => simp [List.intercalate]
  | cons ls' rest ih => rw [List.intercalate_cons_cons, ih, List.flatMap_cons, List.append_assoc,
      List.singleton_append, List.cons_append]

/-- The lexemes of a value do not begin with the end of an array, so in front of the first item of
an array a reader does as behind a comma. -/
theorem read_firstItem (around : List Frame) (v : Json) (behind : List Lexeme) :
    (v.lexemes ++ behind).foldlM Stage.next (.firstItem around) =
      (v.lexemes ++ behind).foldlM Stage.next (.value (.array [] :: around)) := by
  cases v <;> rfl

mutual

/-- **What a reader makes of the lexemes of a value**: the value is complete, and what is around it
is as it was. -/
theorem read_lexemes (around : List Frame) : (v : Json) →
    v.lexemes.foldlM Stage.next (.value around) = some (.complete v around)
  | null => rfl
  | bool _ => rfl
  | number _ => rfl
  | string _ => rfl
  | array [] => rfl
  | array (item :: rest) => by
      have hrest := read_moreItems around [] item rest
      have hitem := read_lexemes (.array [] :: around) item
      rw [lexemes, itemLexemes, intercalate_cons, List.append_assoc]
      change (item.lexemes ++ _).foldlM Stage.next (.firstItem around) = _
      rw [read_firstItem, List.foldlM_append, hitem]
      exact hrest
  | object [] => rfl
  | object ((name, v) :: rest) => by
      have hrest := read_moreMembers around [] name v rest
      have hvalue := read_lexemes (.object [] name :: around) v
      rw [lexemes, memberLexemes, intercalate_cons, List.append_assoc]
      change (v.lexemes ++ _).foldlM Stage.next (.value (.object [] name :: around)) = _
      rw [List.foldlM_append, hvalue]
      exact hrest

/-- The further items of an array, up to its end. -/
theorem read_moreItems (around : List Frame) (done : List Json) (v : Json) : (rest : List Json) →
    ((itemLexemes rest).flatMap (Lexeme.comma :: ·) ++ [Lexeme.closeArray]).foldlM Stage.next
      (.complete v (.array done :: around)) =
        some (.complete (.array (done.reverse ++ v :: rest)) around)
  | [] => by
      change some _ = _
      simp
  | item :: rest => by
      have hrest := read_moreItems around (v :: done) item rest
      have hitem := read_lexemes (.array (v :: done) :: around) item
      rw [itemLexemes, List.flatMap_cons, List.append_assoc]
      change (item.lexemes ++ _).foldlM Stage.next (.value (.array (v :: done) :: around)) = _
      rw [List.foldlM_append, hitem]
      simpa using hrest

/-- The further members of an object, up to its end. -/
theorem read_moreMembers (around : List Frame) (done : List (Letters × Json)) (name : Letters)
    (v : Json) : (rest : List (Letters × Json)) →
    ((memberLexemes rest).flatMap (Lexeme.comma :: ·) ++ [Lexeme.closeObject]).foldlM Stage.next
      (.complete v (.object done name :: around)) =
        some (.complete (.object (done.reverse ++ (name, v) :: rest)) around)
  | [] => by
      change some _ = _
      simp
  | (name', v') :: rest => by
      have hrest := read_moreMembers around ((name, v) :: done) name' v' rest
      have hvalue := read_lexemes (.object ((name, v) :: done) name' :: around) v'
      rw [memberLexemes, List.flatMap_cons, List.append_assoc]
      change (v'.lexemes ++ _).foldlM Stage.next
        (.value (.object ((name, v) :: done) name' :: around)) = _
      rw [List.foldlM_append, hvalue]
      simpa using hrest

end

theorem ofLexemes?_lexemes (v : Json) : ofLexemes? v.lexemes = some v := by
  rw [ofLexemes?, read_lexemes]

/-- **A value is read from its text** without blanks. -/
theorem read?_compactText {v : Json} (h : v.WellFormed) : read? v.compactText = some v := by
  rw [read?, compactText, String.toList_ofList, (spells_compact v h).lexemes?_eq]
  exact ofLexemes?_lexemes v

/-- **A value is read from its text** over several lines. -/
theorem read?_prettyText {v : Json} (h : v.WellFormed) : read? v.prettyText = some v := by
  rw [read?, prettyText, String.toList_ofList, (spells_prettyAt 0 v h).lexemes?_eq]
  exact ofLexemes?_lexemes v

end QuadCode.Json
