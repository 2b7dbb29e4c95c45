import DeltaScript.Attribute

/-!
# Recordings

A recording lists frames in the order in which they were taken.

* `Frame` — an object and its values.
* `Recording` — the frames, with the number of objects and of attributes that they speak of.
-/

namespace DeltaScript

/-- One frame of one object. -/
structure Frame where
  object : Nat
  state : Values
  deriving DecidableEq, Repr

/-- Frames in the order in which they were taken. -/
structure Recording where
  frames : List Frame := []
  deriving DecidableEq, Repr

namespace Recording

/-- The number of frames. -/
def size (r : Recording) : Nat :=
  r.frames.length

/-- One more than the highest object index. -/
def objects (r : Recording) : Nat :=
  (r.frames.map (·.object + 1)).foldl max 0

/-- The number of attributes of a frame, if there is a frame. -/
def attributes? (r : Recording) : Option Nat :=
  r.frames.head?.map (·.state.length)

end Recording

end DeltaScript
