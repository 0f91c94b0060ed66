import QuadCode.Proofs.Json.Amount
import QuadCode.Proofs.Json.Record
import QuadCode.Proofs.Tree.Histories
import QuadCode.Settings.Json
import QuadCode.Settings.Toml

/-!
# Settings and their texts

Writing settings does not look at them, but reading refuses settings that no tree can be made with.
So three things can happen to settings that are written and read again.  Valid ones come back as
they were.  Invalid ones are refused for what is wrong with them, as long as they are read at all,
and they are not if the size of the region is no finite number, for such a size has no numeral.

An amount is read by steps that round, so a size need not be read as it was written.  What is said
about finite sizes holds of those that are, and a size with a short numeral is one of them.

Main statements:

* `Settings.ofJson?_toJson`: what is read of settings that were written;
* `Settings.ofJsonText_of_short`: settings with a size of few digits come back as they were;
* `Settings.valid_of_accept`: only valid settings are read, from whatever text;
* `Settings.written_then_read`: what becomes of settings that are written and read again.
-/

namespace QuadCode

theorem Json.count?_ofNat {n bound : ℕ} (h : n < bound) : (ofNat n).count? bound = some n :=
  Numeral.count?_ofNat h

namespace Settings

variable {s : Settings}

theorem wellFormed_toJson (s : Settings) : s.toJson.WellFormed := by
  refine Json.wellFormed_record ?_
  simp only [fieldNames, List.zip_cons_cons, List.zip_nil_left, List.forall_mem_cons]
  exact ⟨Json.wellFormed_ofNat _, Json.wellFormed_ofFloat _, Json.wellFormed_ofNat _, by simp⟩

/-- **What is read of settings that were written** hangs on the size of the region alone. -/
theorem ofJson?_toJson (s : Settings) :
    ofJson? s.toJson = (Json.ofFloat s.rectSize).amount?.map fun size =>
      { s with rectSize := size } := by
  have hfields := Json.fields?_record fieldNames
    [.ofNat s.splitThreshold.toNat, .ofFloat s.rectSize, .ofNat s.lodThreshold.toNat]
    rfl (by decide) true
  have hsplit := Json.count?_ofNat s.splitThreshold.toNat_lt
  have hlod := Json.count?_ofNat s.lodThreshold.toNat_lt
  rw [ofJson?, toJson, hfields]
  simp only [List.map_cons, List.map_nil, Option.bind_eq_bind, Option.bind_some, Json.fieldOr]
  rw [hsplit, hlod]
  cases (Json.ofFloat s.rectSize).amount? with
  | none => rfl
  | some size =>
      simp only [Option.bind_some, Option.map_some, UInt64.ofNat_toNat, UInt32.ofNat_toNat]
      rfl

/-- The whole way through the text. -/
theorem ofJsonText_toJsonText (s : Settings) :
    ofJsonText s.toJsonText = accept ((Json.ofFloat s.rectSize).amount?.map fun size =>
      { s with rectSize := size }) := by
  rw [ofJsonText, toJsonText, Json.read?_prettyText s.wellFormed_toJson, Option.bind_some,
    ofJson?_toJson]

/-- Settings whose size is read as it is written are read as they were, unless they are invalid. -/
theorem ofJsonText_of_readsBack (h : Json.ReadsBack s.rectSize) :
    ofJsonText s.toJsonText = s.validate.map fun _ => s := by
  rw [ofJsonText_toJsonText, h]
  rfl

/-- **A size with a short numeral** is read as it is written. -/
theorem ofJsonText_of_short (hfin : s.rectSize.isFinite = true)
    (hdigits : (Json.layout.numeral s.rectSize).coefficient < 2 ^ 53)
    (hpower : (Json.layout.numeral s.rectSize).exponent.natAbs ≤ 22) :
    ofJsonText s.toJsonText = s.validate.map fun _ => s :=
  ofJsonText_of_readsBack (Json.readsBack_of_short hfin hdigits hpower)

/-- Settings whose size is no finite number are not read at all. -/
theorem ofJsonText_of_not_finite (h : s.rectSize.isFinite = false) :
    ofJsonText s.toJsonText = .error .unreadable := by
  rw [ofJsonText_toJsonText, Json.amount?_ofFloat_of_not_finite h]
  rfl

/-- **Only valid settings are read**, whatever was written. -/
theorem valid_of_accept {read : Option Settings} (h : accept read = .ok s) :
    s.validate = .ok () := by
  cases read with
  | none => cases h
  | some r =>
      rw [accept] at h
      cases hvalid : r.validate with
      | error e =>
          rw [hvalid] at h
          cases h
      | ok u =>
          rw [hvalid] at h
          obtain rfl := Except.ok.inj h
          exact hvalid

/-- Settings that are not valid are refused for a fault in them. -/
theorem validate_cases (s : Settings) :
    s.validate = .ok () ∨ ∃ fault, s.validate = .error (.invalidConfiguration fault) := by
  rw [validate]
  cases s.fault? with
  | none => exact .inl rfl
  | some fault => exact .inr ⟨fault, rfl⟩

/-- **The three things that can happen** to settings that are written and read again. -/
theorem ofJsonText_cases (s : Settings)
    (reads : s.rectSize.isFinite = true → Json.ReadsBack s.rectSize) :
    (s.rectSize.isFinite = true ∧ s.validate = .ok () ∧ ofJsonText s.toJsonText = .ok s) ∨
    (∃ fault, s.rectSize.isFinite = true ∧ s.validate = .error (.invalidConfiguration fault) ∧
      ofJsonText s.toJsonText = .error (.invalidConfiguration fault)) ∨
    (s.rectSize.isFinite = false ∧ s.validate ≠ .ok () ∧
      ofJsonText s.toJsonText = .error .unreadable) := by
  cases hfinite : s.rectSize.isFinite with
  | false =>
      have hinvalid : s.validate ≠ .ok () := by
        intro hvalid
        rw [(parts_of_valid hvalid).1] at hfinite
        cases hfinite
      exact .inr (.inr ⟨rfl, hinvalid, ofJsonText_of_not_finite hfinite⟩)
  | true =>
      rw [ofJsonText_of_readsBack (reads hfinite)]
      rcases s.validate_cases with hvalid | ⟨fault, hinvalid⟩
      · rw [hvalid]
        exact .inl ⟨rfl, rfl, rfl⟩
      · rw [hinvalid]
        exact .inr (.inl ⟨fault, rfl, rfl, rfl⟩)

variable {α : Type}

/-- A tree can be made with valid settings. -/
theorem exists_new_of_valid (h : s.validate = .ok ()) :
    ∃ t : Tree α, (Tree.new s : Logged (Tree α)).outcome = .ok t := by
  rw [Tree.new_outcome, h]
  exact ⟨_, rfl⟩

/-- **Settings that are written and read again.**  They come back, and come back unchanged, exactly
if they are valid.  They are refused for a fault in them exactly if they are invalid and the size of
the region is finite, and are not readable exactly if that size is infinite or not a number.  And
from whatever text settings are read, they are valid and make a tree. -/
theorem written_then_read (s : Settings)
    (reads : s.rectSize.isFinite = true → Json.ReadsBack s.rectSize) :
    (∀ s', ofJsonText s.toJsonText = .ok s' ↔ s' = s ∧ s.validate = .ok ()) ∧
    ((∃ fault, ofJsonText s.toJsonText = .error (.invalidConfiguration fault)) ↔
      s.rectSize.isFinite = true ∧ s.validate ≠ .ok ()) ∧
    (ofJsonText s.toJsonText = .error .unreadable ↔
      s.rectSize.isNaN = true ∨ s.rectSize.isInf = true) ∧
    ∀ text s', ofJsonText text = .ok s' ∨ ofTomlText text = .ok s' →
      s'.validate = .ok () ∧ ∃ t : Tree α, (Tree.new s' : Logged (Tree α)).outcome = .ok t := by
  have hread (text : String) (s' : Settings)
      (h : ofJsonText text = .ok s' ∨ ofTomlText text = .ok s') :
      s'.validate = .ok () ∧ ∃ t : Tree α, (Tree.new s' : Logged (Tree α)).outcome = .ok t := by
    have hvalid : s'.validate = .ok () := h.elim valid_of_accept valid_of_accept
    exact ⟨hvalid, exists_new_of_valid hvalid⟩
  rw [← Double.isFinite_eq_false_iff]
  rcases s.ofJsonText_cases reads with
    ⟨hfinite, hvalid, htext⟩ | ⟨fault, hfinite, hinvalid, htext⟩ | ⟨hfinite, hinvalid, htext⟩
  · refine ⟨?_, ?_, ?_, hread⟩
    · simp [htext, hvalid, eq_comm]
    · simp [htext, hvalid]
    · simp [htext, hfinite]
  · refine ⟨?_, ?_, ?_, hread⟩
    · simp [htext, hinvalid]
    · simp [htext, hinvalid, hfinite]
    · simp [htext, hfinite]
  · refine ⟨?_, ?_, ?_, hread⟩
    · simp [htext, hinvalid]
    · simp [htext, hfinite]
    · simp [htext, hfinite]

/-- The greatest counts, at a size that no sum of powers of two gives exactly. -/
theorem written_then_read_greatest :
    (∀ s', ofJsonText (toJsonText ⟨0xffffffffffffffff, 0.1, maxLodThreshold⟩) = .ok s' ↔
      s' = ⟨0xffffffffffffffff, 0.1, maxLodThreshold⟩) ∧
    ∀ text s', ofJsonText text = .ok s' ∨ ofTomlText text = .ok s' →
      s'.validate = .ok () ∧
        ∃ t : Tree Unit, (Tree.new s' : Logged (Tree Unit)).outcome = .ok t := by
  have hvalid : validate ⟨0xffffffffffffffff, 0.1, maxLodThreshold⟩ = .ok () :=
    valid_of_no_fault (by decide +kernel)
  obtain ⟨hback, -, -, hread⟩ := written_then_read (α := Unit)
    ⟨0xffffffffffffffff, 0.1, maxLodThreshold⟩ fun _ => by decide +kernel
  refine ⟨fun s' => ?_, hread⟩
  rw [hback s', and_iff_left hvalid]

end Settings

end QuadCode
