import QuadCode.Proofs.Double.Infinite
import QuadCode.Proofs.Token.Outcomes

/-!
# Windows over their observed range

The observed range reaches from the earliest to the latest bound, and both are bounds of windows.
Every bound is taken to the region by subtracting the earliest one and multiplying by the side of
the region over the extent of the range.  With a finite extent and a finite factor, no bound goes
where there is no number.  But finite bounds may be so far apart that their extent is infinite, and
then the factor is zero and the latest bound goes to infinity times zero; or so close to each other
that the factor is infinite, and then the earliest bound goes to zero times infinity.

Main statements:

* `observedRange_spec`: the observed range, by its bounds;
* `number_of_measurable` and `exists_isNaN_of_not_measurable`: where the bounds go;
* `encode_observed`: which windows with finite bounds are encoded.
-/

namespace QuadCode

open Double

/-- The bounds of some windows, in their order. -/
def boundsOf (windows : List Window) : List Float :=
  windows.flatMap fun w => [w.start, w.finish]

theorem mem_boundsOf {windows : List Window} {t : Float} :
    t ∈ boundsOf windows ↔ ∃ w ∈ windows, t = w.start ∨ t = w.finish := by
  simp [boundsOf]

theorem finite_boundsOf {windows : List Window} (h : ∀ w ∈ windows, w.isFinite = true) :
    ∀ t ∈ boundsOf windows, t.isFinite = true := by
  intro t ht
  obtain ⟨w, hw, hbound⟩ := mem_boundsOf.mp ht
  obtain ⟨hstart, hfinish⟩ := Bool.and_eq_true_iff.mp (h w hw)
  rcases hbound with rfl | rfl
  · exact hstart
  · exact hfinish

section

variable {a b : Float}

theorem earlier_spec (ha : a.isNaN = false) (hb : b.isNaN = false) :
    earlier a b ≤ a ∧ earlier a b ≤ b ∧ (earlier a b = a ∨ earlier a b = b) := by
  unfold earlier
  by_cases hlt : b < a
  · obtain ⟨-, -, hunits⟩ := lt_iff.mp hlt
    rw [if_pos hlt]
    exact ⟨le_iff.mpr ⟨hb, ha, hunits.le⟩, le_iff.mpr ⟨hb, hb, le_rfl⟩, Or.inr rfl⟩
  · rw [if_neg hlt]
    exact ⟨le_iff.mpr ⟨ha, ha, le_rfl⟩, (lt_or_le hb ha).resolve_left hlt, Or.inl rfl⟩

theorem later_spec (ha : a.isNaN = false) (hb : b.isNaN = false) :
    a ≤ later a b ∧ b ≤ later a b ∧ (later a b = a ∨ later a b = b) := by
  unfold later
  by_cases hlt : a < b
  · obtain ⟨-, -, hunits⟩ := lt_iff.mp hlt
    rw [if_pos hlt]
    exact ⟨le_iff.mpr ⟨ha, hb, hunits.le⟩, le_iff.mpr ⟨hb, hb, le_rfl⟩, Or.inr rfl⟩
  · rw [if_neg hlt]
    exact ⟨le_iff.mpr ⟨ha, ha, le_rfl⟩, (lt_or_le ha hb).resolve_left hlt, Or.inl rfl⟩

end

/-- Picking one of two numbers again and again picks one of all, which stands to each of them as the
choice stands to both of its candidates. -/
theorem foldl_pick {R : Float → Float → Prop} (htrans : ∀ {a b c}, R a b → R b c → R a c)
    {pick : Float → Float → Float}
    (hpick : ∀ {a b}, a.isNaN = false → b.isNaN = false →
      R (pick a b) a ∧ R (pick a b) b ∧ (pick a b = a ∨ pick a b = b))
    {ts : List Float} (hts : ∀ t ∈ ts, t.isNaN = false) {a : Float} (ha : a.isNaN = false) :
    (∀ t ∈ a :: ts, R (ts.foldl pick a) t) ∧ ts.foldl pick a ∈ a :: ts := by
  induction ts generalizing a with
  | nil =>
      obtain ⟨hself, -, hcases⟩ := hpick ha ha
      refine ⟨?_, List.mem_singleton.mpr rfl⟩
      intro t ht
      rw [List.mem_singleton.mp ht, List.foldl_nil]
      rwa [or_self_iff.mp hcases] at hself
  | cons b rest ih =>
      have hb := hts b List.mem_cons_self
      obtain ⟨hfirst, hsecond, hcases⟩ := hpick ha hb
      have hnumber : (pick a b).isNaN = false := by
        rcases hcases with heq | heq <;> rw [heq] <;> assumption
      obtain ⟨hall, hmem⟩ := ih (fun t ht => hts t (List.mem_cons_of_mem _ ht)) hnumber
      have hchoice := hall (pick a b) List.mem_cons_self
      rw [List.foldl_cons]
      refine ⟨?_, ?_⟩
      · intro t ht
        rcases List.mem_cons.mp ht with rfl | ht
        · exact htrans hchoice hfirst
        · rcases List.mem_cons.mp ht with rfl | ht
          · exact htrans hchoice hsecond
          · exact hall t (List.mem_cons_of_mem _ ht)
      · rcases List.mem_cons.mp hmem with heq | hrest
        · rw [heq]
          rcases hcases with heq | heq <;> rw [heq] <;> simp
        · exact List.mem_cons_of_mem _ (List.mem_cons_of_mem _ hrest)

/-- The two ends of the range are found independently of each other. -/
theorem observedRange_eq (windows : List Window) :
    observedRange windows = ((boundsOf windows).foldl earlier (1.0 / 0.0),
      (boundsOf windows).foldl later (-1.0 / 0.0)) := by
  have hpair : ∀ (ts : List Float) (a b : Float),
      ts.foldl (fun (range : Float × Float) t => (earlier range.1 t, later range.2 t)) (a, b) =
        (ts.foldl earlier a, ts.foldl later b) := by
    intro ts
    induction ts with
    | nil => exact fun a b => rfl
    | cons t rest ih => exact fun a b => ih _ _
  exact hpair _ _ _

/-- **The observed range.**  Its ends are bounds of windows, and all bounds lie between them. -/
theorem observedRange_spec {windows : List Window} (hne : windows ≠ [])
    (hfinite : ∀ w ∈ windows, w.isFinite = true) :
    ((observedRange windows).1 ∈ boundsOf windows ∧ (observedRange windows).2 ∈ boundsOf windows) ∧
      ∀ t ∈ boundsOf windows, (observedRange windows).1 ≤ t ∧ t ≤ (observedRange windows).2 := by
  have hbounds := finite_boundsOf hfinite
  have hnumbers : ∀ t ∈ boundsOf windows, t.isNaN = false :=
    fun t ht => (isFinite_iff.mp (hbounds t ht)).1
  obtain ⟨w, hw⟩ := List.exists_mem_of_ne_nil windows hne
  have hstart : w.start ∈ boundsOf windows := mem_boundsOf.mpr ⟨w, hw, Or.inl rfl⟩
  obtain ⟨-, hlow, hhigh⟩ := isFinite_iff.mp (hbounds _ hstart)
  obtain ⟨hearliest, hfirst⟩ := foldl_pick (R := fun a b => a ≤ b) le_trans earlier_spec hnumbers
    (show (1.0 / 0.0 : Float).isNaN = false by decide)
  obtain ⟨hlatest, hlast⟩ := foldl_pick (R := fun a b => b ≤ a) (fun h h' => le_trans h' h)
    later_spec hnumbers (show (-1.0 / 0.0 : Float).isNaN = false by decide)
  rw [observedRange_eq]
  -- The infinities that the search starts from are further out than any finite bound.
  have hearlier : (boundsOf windows).foldl earlier (1.0 / 0.0) ∈ boundsOf windows := by
    refine (List.mem_cons.mp hfirst).resolve_left fun heq => ?_
    obtain ⟨-, -, hunits⟩ := le_iff.mp (hearliest _ (List.mem_cons_of_mem _ hstart))
    have hinfinite : units (1.0 / 0.0) = beyond := rfl
    rw [heq, hinfinite] at hunits
    omega
  have hlater : (boundsOf windows).foldl later (-1.0 / 0.0) ∈ boundsOf windows := by
    refine (List.mem_cons.mp hlast).resolve_left fun heq => ?_
    obtain ⟨-, -, hunits⟩ := le_iff.mp (hlatest _ (List.mem_cons_of_mem _ hstart))
    have hinfinite : units (-1.0 / 0.0) = -beyond := rfl
    rw [heq, hinfinite] at hunits
    omega
  exact ⟨⟨hearlier, hlater⟩, fun t ht => ⟨hearliest t (List.mem_cons_of_mem _ ht),
    hlatest t (List.mem_cons_of_mem _ ht)⟩⟩

/-- Windows whose observed range can be stretched over a region: the range has no extent, or both
the extent and the factor are finite in double arithmetic. -/
def Measurable (size : Float) (windows : List Window) : Prop :=
  (observedRange windows).2 ≤ (observedRange windows).1 ∨
    ((observedRange windows).2 - (observedRange windows).1).isFinite = true ∧
      (size / ((observedRange windows).2 - (observedRange windows).1)).isFinite = true

instance (size : Float) (windows : List Window) : Decidable (Measurable size windows) :=
  inferInstanceAs (Decidable (_ ∨ _))

namespace WindowEncoder

variable {e : WindowEncoder} {windows : List Window}

/-- The bounds of measurable windows go to numbers. -/
theorem number_of_measurable (hscale : e.scale = .observed)
    (hfinite : ∀ w ∈ windows, w.isFinite = true) (h : Measurable e.settings.rectSize windows)
    {t : Float} (ht : t ∈ boundsOf windows) : ((e.scaling windows).apply t).isNaN = false := by
  have hne : windows ≠ [] := by
    rintro rfl
    cases ht
  obtain ⟨⟨hearliest, hlatest⟩, hbetween⟩ := observedRange_spec hne hfinite
  obtain ⟨hlow, hhigh⟩ := hbetween t ht
  have hbounds := finite_boundsOf hfinite
  rw [scaling, hscale]
  dsimp only
  rw [if_neg (by simpa using hne)]
  by_cases hcollapse : (observedRange windows).2 ≤ (observedRange windows).1
  · rw [if_pos hcollapse]
    have hsame : units t = units (observedRange windows).1 := by
      obtain ⟨-, -, hlow⟩ := le_iff.mp hlow
      obtain ⟨-, -, hhigh⟩ := le_iff.mp (le_trans hhigh hcollapse)
      exact le_antisymm hhigh hlow
    have hzero := counts_sub_of_eq (hbounds t ht) (hbounds _ hearliest) hsame
    have hfactor : (0.0 : Float).isFinite = true := by decide
    exact isNaN_mul hzero.1 hfactor
  · rw [if_neg hcollapse]
    obtain ⟨hextent, hfactor⟩ := h.resolve_left hcollapse
    have hdistance := isFinite_sub_of_between (hbounds _ hearliest) (hbounds t ht)
      (hbounds _ hlatest) hlow hhigh hextent
    exact isNaN_mul hdistance hfactor

/-- An end of a range that cannot be measured goes where there is no number: the latest bound if the
extent is infinite, and the earliest bound if only the factor is. -/
theorem exists_isNaN_of_not_measurable (hscale : e.scale = .observed)
    (hsize : e.settings.rectSize.isFinite = true) (hfinite : ∀ w ∈ windows, w.isFinite = true)
    (h : ¬ Measurable e.settings.rectSize windows) :
    ∃ t ∈ boundsOf windows, ((e.scaling windows).apply t).isNaN = true := by
  obtain ⟨hwide, hextent⟩ := not_or.mp h
  have hne : windows ≠ [] := by
    rintro rfl
    exact hwide (by decide)
  obtain ⟨⟨hearliest, hlatest⟩, -⟩ := observedRange_spec hne hfinite
  have hbounds := finite_boundsOf hfinite
  rw [scaling, hscale]
  dsimp only
  rw [if_neg (by simpa using hne), if_neg hwide]
  by_cases hfin : ((observedRange windows).2 - (observedRange windows).1).isFinite = true
  · have hfactor := Bool.eq_false_iff.mpr fun hfactor => hextent ⟨hfin, hfactor⟩
    have hzero := counts_sub_of_eq (hbounds _ hearliest) (hbounds _ hearliest) rfl
    exact ⟨_, hearliest, isNaN_zero_mul hzero hfactor⟩
  · exact ⟨_, hlatest, isNaN_mul_div hsize (Bool.eq_false_iff.mpr hfin)⟩

/-- The places of windows over their observed range are clamped. -/
theorem clamped_places (hscale : e.scale = .observed) {place : Location}
    (h : place ∈ e.places windows) : Clamped e.settings.rectSize place := by
  obtain ⟨w, -, rfl⟩ := List.mem_map.mp h
  unfold WindowEncoder.place
  rw [hscale]
  exact ⟨_, _, rfl⟩

/-- A place is no number if and only if one of the bounds goes where there is none. -/
theorem isNaN_place (hscale : e.scale = .observed) (hsize : e.settings.rectSize.isFinite = true)
    (m : TimeMap) (w : Window) :
    (Location.mk (e.place m w.start) (e.place m w.finish)).isNaN =
      ((m.apply w.start).isNaN || (m.apply w.finish).isNaN) := by
  unfold WindowEncoder.place Location.isNaN
  rw [hscale]
  exact congrArg₂ or (isNaN_clampTo hsize) (isNaN_clampTo hsize)

theorem ofSettings_valid {settings : Settings} {base : WindowEncoder}
    (h : ofSettings settings = .ok base) : settings.validate = .ok () := by
  unfold ofSettings at h
  cases hvalid : settings.validate with
  | error err =>
      rw [hvalid] at h
      cases h
  | ok u => rfl

theorem encode_of_finite (hfinite : ∀ w ∈ windows, w.isFinite = true) :
    (e.encode windows).outcome = do
      let codes ← Tree.codesOf e.settings e.shift (e.places windows)
      return ⟨[codes]⟩ := by
  have hnone : (windows.find? fun w => !w.isFinite) = none := by
    simpa using hfinite
  rw [encode_outcome, hnone]

/-- Windows whose places fit are encoded. -/
theorem encode_of_fits (hvalid : e.settings.validate = .ok ())
    (hfinite : ∀ w ∈ windows, w.isFinite = true)
    (hfits : ∀ place ∈ e.places windows, place.fits e.settings.rectSize = true) :
    ∃ codes : CodeMap, (e.encode windows).outcome = .ok ⟨[codes]⟩ ∧
      codes.IsView e.settings e.shift windows.length := by
  obtain ⟨codes, hcodes⟩ := Tree.codesOf_of_fits hvalid e.shift hfits
  have hview := Tree.isView_of_codesOf hcodes
  rw [places, List.length_map] at hview
  refine ⟨codes, ?_, hview⟩
  rw [encode_of_finite hfinite, hcodes]
  rfl

/-- Of windows with a place that does not fit, the place of one is refused. -/
theorem encode_of_not_fits (hvalid : e.settings.validate = .ok ())
    (hfinite : ∀ w ∈ windows, w.isFinite = true) {place : Location}
    (hmem : place ∈ e.places windows) (hplace : ¬ place.fits e.settings.rectSize = true) :
    ∃ place ∈ e.places windows, ¬ place.fits e.settings.rectSize = true ∧
      (e.encode windows).outcome = .error (.outOfBounds place.x place.y e.settings.rectSize) := by
  obtain ⟨place, hmem, hrefused, hcodes⟩ := Tree.codesOf_of_not_fits hvalid e.shift hmem hplace
  refine ⟨place, hmem, hrefused, ?_⟩
  rw [encode_of_finite hfinite, hcodes]
  rfl

/-- Measurable windows are encoded. -/
theorem encode_of_measurable (hvalid : e.settings.validate = .ok ()) (hscale : e.scale = .observed)
    (hfinite : ∀ w ∈ windows, w.isFinite = true) (h : Measurable e.settings.rectSize windows) :
    ∃ codes : CodeMap, (e.encode windows).outcome = .ok ⟨[codes]⟩ ∧
      codes.IsView e.settings e.shift windows.length := by
  have hspan := (Settings.proper_of_valid hvalid).x
  refine encode_of_fits hvalid hfinite fun place hplace => ?_
  rw [(clamped_places hscale hplace).fits_iff hspan]
  obtain ⟨w, hw, rfl⟩ := List.mem_map.mp hplace
  rw [isNaN_place hscale hspan.finite, Bool.or_eq_false_iff]
  exact ⟨number_of_measurable hscale hfinite h (mem_boundsOf.mpr ⟨w, hw, Or.inl rfl⟩),
    number_of_measurable hscale hfinite h (mem_boundsOf.mpr ⟨w, hw, Or.inr rfl⟩)⟩

/-- Other windows have a place that is not a number, which is refused. -/
theorem encode_of_not_measurable (hvalid : e.settings.validate = .ok ())
    (hscale : e.scale = .observed) (hfinite : ∀ w ∈ windows, w.isFinite = true)
    (h : ¬ Measurable e.settings.rectSize windows) :
    ∃ place : Location, (e.encode windows).outcome =
      .error (.outOfBounds place.x place.y e.settings.rectSize) ∧ place.isNaN = true := by
  have hspan := (Settings.proper_of_valid hvalid).x
  obtain ⟨t, ht, hnan⟩ := exists_isNaN_of_not_measurable hscale hspan.finite hfinite h
  obtain ⟨w, hw, hbound⟩ := mem_boundsOf.mp ht
  have hplace : (⟨e.place (e.scaling windows) w.start, e.place (e.scaling windows) w.finish⟩ :
      Location) ∈ e.places windows := List.mem_map.mpr ⟨w, hw, rfl⟩
  have hmisfit : ¬ Location.fits e.settings.rectSize
      ⟨e.place (e.scaling windows) w.start, e.place (e.scaling windows) w.finish⟩ = true := by
    rw [(clamped_places hscale hplace).fits_iff hspan, isNaN_place hscale hspan.finite,
      Bool.or_eq_false_iff]
    intro hnumbers
    rcases hbound with rfl | rfl
    · rw [hnumbers.1] at hnan
      cases hnan
    · rw [hnumbers.2] at hnan
      cases hnan
  obtain ⟨place, hmem, hrefused, houtcome⟩ := encode_of_not_fits hvalid hfinite hplace hmisfit
  refine ⟨place, houtcome, ?_⟩
  rw [(clamped_places hscale hmem).fits_iff hspan] at hrefused
  exact Bool.not_eq_false _ ▸ hrefused

/-- **Which windows are encoded over their observed range.**  Windows with finite bounds are encoded
if and only if they are measurable: there is one view then, and it has a code for each window.  The
others have a place that is not a number, which is refused. -/
theorem encode_observed {settings : Settings} {base : WindowEncoder}
    (hbase : ofSettings settings = .ok base) (shift : Shift)
    (hfinite : ∀ w ∈ windows, w.isFinite = true) :
    (Measurable settings.rectSize windows → ∃ codes : CodeMap,
      ({ base with scale := .observed, shift }.encode windows).outcome = .ok ⟨[codes]⟩ ∧
        ∀ entity : Nat, codes[entity]?.isSome = true ↔ entity < windows.length) ∧
    (¬ Measurable settings.rectSize windows → ∃ place : Location,
      ({ base with scale := .observed, shift }.encode windows).outcome =
        .error (.outOfBounds place.x place.y settings.rectSize) ∧ place.isNaN = true) := by
  have hvalid := ofSettings_valid hbase
  have hbase := ofSettings_eq_ok hbase
  subst hbase
  constructor
  · intro h
    obtain ⟨codes, houtcome, hview⟩ := encode_of_measurable
      (e := { settings, scale := .observed, shift }) hvalid rfl hfinite h
    exact ⟨codes, houtcome, hview.entities⟩
  · intro h
    exact encode_of_not_measurable
      (e := { settings, scale := .observed, shift }) hvalid rfl hfinite h

/-- Two windows of one day are encoded over their observed range. -/
theorem encode_observed_hours :
    let windows : List Window := [⟨8.5, 12.0⟩, ⟨9.25, 17.75⟩]
    ofSettings {} = .ok { settings := {} } ∧ (∀ w ∈ windows, w.isFinite = true) ∧
      ∃ codes : CodeMap,
        (({ settings := {}, scale := .observed, shift := .identity } : WindowEncoder).encode
          windows).outcome = .ok ⟨[codes]⟩ ∧
        ∀ entity : Nat, codes[entity]?.isSome = true ↔ entity < windows.length := by
  intro windows
  have hbase : ofSettings {} = .ok { settings := {} } := rfl
  have hfinite : ∀ w ∈ windows, w.isFinite = true := by decide +kernel
  have hmeasurable : Measurable ({} : Settings).rectSize windows := by decide +kernel
  obtain ⟨codes, hcodes, hentities⟩ := (encode_observed hbase .identity hfinite).1 hmeasurable
  exact ⟨hbase, hfinite, codes, hcodes, hentities⟩

/-- A region of a great side. -/
def vast : Settings :=
  { rectSize := 1e300 }

theorem valid_vast : vast.validate = .ok () :=
  Settings.valid_of_no_fault (by decide +kernel)

/-- **Finite windows may be refused**: one as wide as the finite doubles allow, and in a region of a
great side one as short as they allow. -/
theorem finite_windows_refused :
    (∃ base, ofSettings {} = .ok base ∧ Window.isFinite ⟨-1e308, 1e308⟩ = true ∧
      ∃ e, (base.encode [⟨-1e308, 1e308⟩]).outcome = .error e) ∧
    ∃ base, ofSettings vast = .ok base ∧ Window.isFinite ⟨0.0, 5e-324⟩ = true ∧
      ∃ e, (base.encode [⟨0.0, 5e-324⟩]).outcome = .error e := by
  refine ⟨⟨{ settings := {} }, rfl, by decide +kernel, ?_⟩, ⟨{ settings := vast }, ?_,
    by decide +kernel, ?_⟩⟩
  · have hwide : ¬ Measurable ({} : Settings).rectSize [⟨-1e308, 1e308⟩] := by decide +kernel
    obtain ⟨place, hrefused, -⟩ := encode_of_not_measurable (e := { settings := {} }) rfl rfl
      (by decide +kernel) hwide
    exact ⟨_, hrefused⟩
  · rw [ofSettings, valid_vast]
    rfl
  · have hshort : ¬ Measurable vast.rectSize [⟨0.0, 5e-324⟩] := by decide +kernel
    obtain ⟨place, hrefused, -⟩ := encode_of_not_measurable (e := { settings := vast })
      valid_vast rfl (by decide +kernel) hshort
    exact ⟨_, hrefused⟩

end WindowEncoder

end QuadCode
