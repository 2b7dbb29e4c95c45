import DeltaScript.Attribute

/-!
# Tallied deltas

While frames are recorded, every delta is counted.  A tally lists the distinct deltas in the order
in which they were first seen, each with its count.

* `Tally.add` — counts one more occurrence.
* `Tally.count` — how often a delta was seen; `0` if it never was.
* `Tally.prune` — drops every delta that leaves the range of one of its attributes.

**A delta that was dropped starts anew**: counted again, it stands at the end with count one.
-/

namespace DeltaScript

/-- A delta and how often it was seen. -/
structure Entry where
  delta : Delta
  count : Nat
  deriving DecidableEq, Repr

/-- Distinct deltas in the order of their first occurrence. -/
structure Tally where
  entries : List Entry := []
  deriving DecidableEq, Repr

namespace Tally

/-- The entries with one more occurrence of a delta. -/
def bump (delta : Delta) : List Entry → List Entry
  | [] => [⟨delta, 1⟩]
  | e :: rest =>
      if e.delta = delta then { e with count := e.count + 1 } :: rest else e :: bump delta rest

def add (t : Tally) (delta : Delta) : Tally :=
  ⟨bump delta t.entries⟩

def count (t : Tally) (delta : Delta) : Nat :=
  match t.entries.find? (·.delta == delta) with
  | some e => e.count
  | none => 0

def size (t : Tally) : Nat :=
  t.entries.length

/-- Whether each component that has a range lies in it. -/
def within (ranges : List DeltaRange) (delta : Delta) : Bool :=
  (delta.zip ranges).all fun (d, range) => range.contains d

/-- The tally without the deltas that leave their ranges. -/
def prune (t : Tally) (ranges : List DeltaRange) : Tally :=
  ⟨t.entries.filter fun e => within ranges e.delta⟩

end Tally

end DeltaScript
