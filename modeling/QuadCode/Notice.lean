import QuadCode.Key.Code
import QuadCode.Token.TimeScale

/-!
# Notices

While trees are made and entities are encoded, remarks fall off: which nodes are split, where the
depth limit is reached, how large the result is.  A `Notice` is such a remark, with a level and a
wording, and `Logged` is the result of a computation together with the notices it left, in order.
Notices left before a failure are kept.

Main statements:

* `Logged.outcome_bind` and `Logged.notices_bind` say what a sequence of two computations gives;
* sequences may be regrouped at will (`LawfulMonad Logged`).
-/

namespace QuadCode

/-- How urgent a notice is. -/
inductive Level
  | trace
  | debug
  | warn
  deriving DecidableEq, Repr

/-- The name of a level. -/
def Level.name : Level → String
  | trace => "TRACE"
  | debug => "DEBUG"
  | warn => "WARN"

/-- A remark on the work being done. -/
inductive Notice
  /-- The depth limit allows very deep trees. -/
  | deepLimit (lodThreshold : Nat)
  /-- A node is split. -/
  | split (key : Key) (points : Nat)
  /-- Some leaves would have been split but for the depth limit. -/
  | capped (leaves lodThreshold splitThreshold : Nat)
  /-- A tree is subdivided. -/
  | subdivided (points nodes splits indexed : Nat)
  /-- All locations of a view fall together. -/
  | locationsCoincide (count : Nat)
  /-- All windows fall together. -/
  | windowsCollapse (count : Nat) (instant : Float)
  | encodedLocations (count views : Nat)
  | encodedWindows (count : Nat) (scale : TimeScale)

namespace Notice

/-- The level of a notice. -/
def level : Notice → Level
  | split .. => .trace
  | deepLimit .. | subdivided .. | encodedLocations .. | encodedWindows .. => .debug
  | capped .. | locationsCoincide .. | windowsCollapse .. => .warn

/-- The wording of a notice. -/
def message : Notice → String
  | deepLimit lodThreshold =>
    s!"lod threshold {lodThreshold} allows very deep trees; dense clusters may create many nodes"
  | split key points =>
    s!"splitting node {quoteText key.code} at lod {key.lod} holding {points} points"
  | capped leaves lodThreshold splitThreshold =>
    s!"{leaves} leaves reached lod threshold {lodThreshold} with more than {splitThreshold} points"
  | subdivided points nodes splits indexed =>
    s!"subdivided {points} points into {nodes} nodes ({splits} splits, {indexed} indexed leaves)"
  | locationsCoincide count =>
    s!"all {count} locations coincide; every entity gets the same code"
  | windowsCollapse count instant =>
    s!"all {count} time windows collapse to the instant {amount instant}; every entity gets the " ++
      "same code"
  | encodedLocations count views => s!"encoded {count} locations over {views} views"
  | encodedWindows count scale => s!"encoded {count} time windows ({scale.summary} scale)"

/-- A notice as one line: its level, then its wording. -/
def line (n : Notice) : String :=
  n.level.name ++ " " ++ n.message

end Notice

/-- The outcome of a computation and the notices it left. -/
structure Logged (α : Type) where
  notices : List Notice
  outcome : Except Error α

namespace Logged

variable {α β : Type}

@[ext]
theorem ext {x y : Logged α} (hn : x.notices = y.notices) (ho : x.outcome = y.outcome) : x = y := by
  cases x
  cases y
  simp_all

/-- A computation that only leaves a notice. -/
def note (n : Notice) : Logged Unit :=
  ⟨[n], .ok ()⟩

/-- A computation that leaves several notices. -/
def noteAll (ns : List Notice) : Logged Unit :=
  ⟨ns, .ok ()⟩

/-- A computation that leaves no notice. -/
def ofExcept (outcome : Except Error α) : Logged α :=
  ⟨[], outcome⟩

/-- One computation after another: the second runs only if the first succeeds. -/
def andThen (x : Logged α) (f : α → Logged β) : Logged β :=
  match x.outcome with
  | .error e => ⟨x.notices, .error e⟩
  | .ok a =>
    let y := f a
    ⟨x.notices ++ y.notices, y.outcome⟩

instance : Monad Logged where
  pure a := ⟨[], .ok a⟩
  bind := andThen

/-- A computation that fails at once. -/
def fail (e : Error) : Logged α :=
  ofExcept (.error e)

instance : MonadLift (Except Error) Logged where
  monadLift := ofExcept

/-- The outcome of a sequence is the outcome of its second part, unless the first fails. -/
theorem outcome_bind (x : Logged α) (f : α → Logged β) :
    (x >>= f).outcome = x.outcome >>= fun a => (f a).outcome := by
  show (andThen x f).outcome = _
  unfold andThen
  cases h : x.outcome <;> rfl

/-- The notices of a sequence are those of both parts, or of the first alone if it fails. -/
theorem notices_bind (x : Logged α) (f : α → Logged β) :
    (x >>= f).notices =
      x.notices ++ (match x.outcome with | .error _ => [] | .ok a => (f a).notices) := by
  show (andThen x f).notices = _
  unfold andThen
  cases h : x.outcome <;> simp

instance : LawfulMonad Logged := LawfulMonad.mk' Logged
  (by
    intro α x
    show andThen x (fun a => ⟨[], .ok a⟩) = x
    cases x with
    | mk notices outcome => cases outcome <;> simp [andThen])
  (by
    intro α β a f
    show andThen ⟨[], .ok a⟩ f = f a
    simp [andThen])
  (by
    intro α β γ x f g
    show andThen (andThen x f) g = andThen x fun a => andThen (f a) g
    cases x with
    | mk notices outcome =>
      cases outcome with
      | error e => rfl
      | ok a => cases h : (f a).outcome <;> simp [andThen, h])

end Logged

end QuadCode
