import DeltaScript.Attribute

/-!
# Visibility

An object's script starts with the first frame in which the object is seen.  What counts as seen is
a predicate on the object and its values; the usual one is a screen.

* `Visibility` — such a predicate.
* `Screen` — a horizontal stretch and an upper edge, and `Screen.shows`, its predicate.
-/

namespace DeltaScript

/-- Whether an object with the given values is seen. -/
abbrev Visibility := Nat → Values → Bool

/-- The visible part of the plane. -/
structure Screen where
  /-- The smallest visible horizontal position. -/
  left : Int := 0
  /-- The first horizontal position to the right of the screen. -/
  right : Int := 344
  /-- The smallest visible vertical position. -/
  top : Int := 0
  deriving DecidableEq, Repr

/-- Whether an object is on the screen.  An attribute that is missing reads as zero. -/
def Screen.shows (s : Screen) : Visibility := fun _ values =>
  let x := values.getD 0 0
  let y := values.getD 1 0
  decide (s.left ≤ x) && decide (x < s.right) && decide (s.top ≤ y)

end DeltaScript
