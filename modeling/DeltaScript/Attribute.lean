/-!
# Attributes

An animated object has up to three attributes (its position and its angle), each an integer that
changes from frame to frame.  What is stored is the change, the *delta*.  This module holds the
settings of one attribute and how a difference of two values becomes a delta.

* `Attribute` — the range of deltas worth a dictionary slot, and the modulo of a circular attribute.
* `Attribute.wrap` — the delta for a difference.  On a circle it is the shortest way round, and half
  a turn counts as forward; elsewhere it is the difference, held within 32 bits.
* `Attribute.wrap?` — the same for settings nobody has checked, where the remainder need not exist.
* `Attribute.deltas` — the deltas between two frames, attribute by attribute.
-/

namespace DeltaScript

/-- The values of an object's attributes in one frame, in attribute order. -/
abbrev Values := List Int

/-- The changes of an object's attributes between two frames, in attribute order. -/
abbrev Delta := List Int

/-- A closed range of deltas, empty when its ends are out of order. -/
structure DeltaRange where
  low : Int
  high : Int
  deriving DecidableEq, Repr

namespace DeltaRange

/-- The range of an attribute for which none is given. -/
def default : DeltaRange := ⟨-7, 7⟩

def contains (r : DeltaRange) (delta : Int) : Bool :=
  decide (r.low ≤ delta) && decide (delta ≤ r.high)

end DeltaRange

/-- The settings of one attribute. -/
structure Attribute where
  /-- Deltas outside this range get no dictionary slot. -/
  range : DeltaRange := DeltaRange.default
  /-- The length of the circle on which the attribute lives, if it lives on one. -/
  modulo : Option Int := none
  deriving DecidableEq, Repr

namespace Attribute

/-- The nearest 32-bit integer. -/
def clamp32 (n : Int) : Int :=
  max (-0x80000000) (min n 0x7FFFFFFF)

/-- **The delta that stands for a difference.**  With a modulo `m` it is the representative of the
difference modulo `m` that lies in `(-m/2, m/2]`, kept to 32 bits; without one it is the difference
itself, or the nearest 32-bit integer if it is larger than that. -/
def wrap (a : Attribute) (difference : Int) : Int :=
  match a.modulo with
  | none => clamp32 difference
  | some m =>
      let r := difference % m
      (if m.tdiv 2 < r then r - m else r).bmod 0x100000000

/-- Whether a 64-bit difference has a remainder in 64 bits: there is none by zero, and the quotient
of the least integer by `-1` is too large. -/
def hasRemainder (a : Attribute) (difference : Int) : Bool :=
  match a.modulo with
  | none => true
  | some m => m != 0 && !(m == -1 && difference == -0x8000000000000000)

/-- The delta for a difference, or `none` if the remainder it needs does not exist. -/
def wrap? (a : Attribute) (difference : Int) : Option Int :=
  if a.hasRemainder difference then some (a.wrap difference) else none

/-- The deltas from the values of one frame to those of the next. -/
def deltas (attributes : List Attribute) (current next : Values) : Delta :=
  ((current.zip next).zip attributes).map fun ((a, b), settings) => settings.wrap (b - a)

/-- Whether all the deltas between two frames exist. -/
def haveDeltas (attributes : List Attribute) (current next : Values) : Bool :=
  ((current.zip next).zip attributes).all fun ((a, b), settings) => settings.hasRemainder (b - a)

end Attribute

end DeltaScript
