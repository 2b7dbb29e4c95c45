import DeltaScript.Attribute
import DeltaScript.Visibility
import DeltaScript.Failure.Basic

/-!
# Settings

Everything a compilation can be told: the attributes, the screen, the values an object is parked
with while it is off the screen, and what happens to values that do not fit an instruction.

* `Settings` — the record, and `Settings.ofCount`, its defaults for a number of attributes.
* `Settings.check` — finds the first thing that is wrong: the number of attributes, then each
  attribute (its range, the size of its range, its modulo), then the parked values.
-/

namespace DeltaScript

/-- What happens to a value that does not fit its field. -/
inductive Overflow
  /-- Its low bits are kept. -/
  | wrap
  /-- It is refused. -/
  | strict
  deriving DecidableEq, Repr

/-- What a compilation is told. -/
structure Settings where
  attributes : List Attribute
  screen : Screen := {}
  /-- The values of an object before it is first seen. -/
  sentinel : Values
  overflow : Overflow := .wrap
  deriving DecidableEq, Repr

namespace Settings

/-- The most attributes that a state instruction can carry. -/
def maxAttributes : Nat := 3

/-- The defaults for `n` attributes. -/
def ofCount (n : Nat) : Settings where
  attributes := List.replicate n {}
  sentinel := List.replicate n 0

/-- The settings with the attribute at `index` replaced, if there is one. -/
def withAttribute (s : Settings) (index : Nat) (a : Attribute) : Settings :=
  { s with attributes := s.attributes.set index a }

def ranges (s : Settings) : List DeltaRange :=
  s.attributes.map Attribute.range

/-- The first fault of the attribute at `index`. -/
def checkAttribute (index : Nat) (a : Attribute) : Except Failure Unit :=
  let low := a.range.low
  let high := a.range.high
  if high < low then .error (.emptyRange index low high)
  else if low < -128 ∨ 127 < high then .error (.wideRange index low high)
  else
    match a.modulo with
    | none => .ok ()
    | some m => if m ≤ 0 then .error (.badModulo index m) else .ok ()

/-- The first fault of attributes that are numbered from `index`. -/
def checkAttributes (index : Nat) : List Attribute → Except Failure Unit
  | [] => .ok ()
  | a :: rest => do
      checkAttribute index a
      checkAttributes (index + 1) rest

/-- The first fault of the settings. -/
def check (s : Settings) : Except Failure Unit := do
  let n := s.attributes.length
  if n = 0 ∨ maxAttributes < n then .error (.attributeCount n)
  checkAttributes 0 s.attributes
  if s.sentinel.length ≠ n then .error (.sentinelLength s.sentinel.length n)

end Settings

end DeltaScript
