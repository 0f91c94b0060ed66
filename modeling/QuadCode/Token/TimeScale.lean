import QuadCode.Error

/-!
# Time scales

Times are measured either over the range that the input itself spans, or against a fixed horizon.
-/

namespace QuadCode

/-- How times are mapped onto the region. -/
inductive TimeScale
  /-- From the earliest to the latest time of the input. -/
  | observed
  /-- From zero to a fixed horizon; times outside are refused. -/
  | horizon (length : Float)

namespace TimeScale

/-- The scale against a horizon, which has to be a positive finite number. -/
def ofHorizon (length : Float) : Except Error TimeScale :=
  if !length.isFinite || length ≤ 0.0 then .error (.invalidConfiguration (.horizon length))
  else .ok (.horizon length)

/-- A summary in one line. -/
def summary : TimeScale → String
  | observed => "Observed"
  | horizon length => s!"Horizon({Layout.summary.text length})"

end TimeScale

end QuadCode
