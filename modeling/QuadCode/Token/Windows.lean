import QuadCode.Token.OfTree

/-!
# Tokens for time windows

A time window is a point of the plane: its start on one axis and its end on the other.  A
`WindowEncoder` scales the windows into the region of the settings, subdivides it, and gives every
window the code of its leaf.  Measured over the observed range the scaled times are clamped to the
region; measured against a horizon, times outside are refused.
-/

namespace QuadCode

/-- A span of time. -/
structure Window where
  start : Float
  finish : Float

namespace Window

/-- Whether both bounds are finite numbers. -/
def isFinite (w : Window) : Bool :=
  w.start.isFinite && w.finish.isFinite

end Window

/-- The lesser of two times, the first if they are equal. -/
def earlier (a b : Float) : Float :=
  if b < a then b else a

/-- The greater of two times, the first if they are equal. -/
def later (a b : Float) : Float :=
  if a < b then b else a

/-- The earliest and the latest bound of some windows; without windows they are infinitely far
apart and the wrong way round. -/
def observedRange (windows : List Window) : Float × Float :=
  (windows.flatMap fun w => [w.start, w.finish]).foldl
    (fun (range : Float × Float) t => (earlier range.1 t, later range.2 t))
    (1.0 / 0.0, -1.0 / 0.0)

/-- How times are mapped onto the region: an origin to subtract and a factor to multiply by. -/
structure TimeMap where
  origin : Float
  factor : Float

/-- Where a time goes. -/
def TimeMap.apply (m : TimeMap) (t : Float) : Float :=
  (t - m.origin) * m.factor

/-- Gives time windows one token each. -/
structure WindowEncoder where
  settings : Settings
  scale : TimeScale := .observed
  shift : Shift := .identity

namespace WindowEncoder

/-- An encoder that measures times over the observed range. -/
def ofSettings (settings : Settings) : Except Error WindowEncoder := do
  settings.validate
  return { settings }

/-- The encoder with times measured against a horizon instead. -/
def withHorizon (e : WindowEncoder) (length : Float) : Except Error WindowEncoder := do
  let scale ← TimeScale.ofHorizon length
  return { e with scale }

/-- The map of times onto the region, with a notice if all of them fall together. -/
def timeMap (e : WindowEncoder) (windows : List Window) : Logged TimeMap :=
  match e.scale with
  | .horizon length => pure ⟨0.0, e.settings.rectSize / length⟩
  | .observed =>
    let (earliest, latest) := observedRange windows
    if windows.isEmpty then pure ⟨0.0, 1.0⟩
    else if latest ≤ earliest then do
      Logged.note (.windowsCollapse windows.length earliest)
      return ⟨earliest, 0.0⟩
    else pure ⟨earliest, e.settings.rectSize / (latest - earliest)⟩

/-- Where a time goes in the region. -/
def place (e : WindowEncoder) (m : TimeMap) (t : Float) : Float :=
  match e.scale with
  | .observed => clampTo e.settings.rectSize (m.apply t)
  | .horizon _ => m.apply t

/-- The tokens of some windows, in one view: entity `i` is the window at position `i`. -/
def encode (e : WindowEncoder) (windows : List Window) : Logged Encoding := do
  match windows.find? fun w => !w.isFinite with
  | some w => Logged.fail (.outOfBounds w.start w.finish e.settings.rectSize)
  | none =>
    let m ← e.timeMap windows
    let empty ← Tree.new e.settings
    let tree ← empty.subdividedWith
      (windows.map fun w => ⟨e.place m w.start, e.place m w.finish⟩)
    Logged.note (.encodedWindows windows.length e.scale)
    let codes ← tree.codes e.settings.rectSize e.shift
    return ⟨[codes]⟩

end WindowEncoder

end QuadCode
