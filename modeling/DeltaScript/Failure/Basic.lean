import DeltaScript.Source.Span
import DeltaScript.Block

/-!
# Failures

Everything that can be wrong with a recording, with the settings or with the memory ranges, as
causes.  What is said about a cause is in `DeltaScript.Failure.Diagnostic`.

* `Field` — the three fields of a state instruction and the largest value each can hold.
* `Failure` — the causes, in the order of the stages that find them.
-/

namespace DeltaScript

/-- A field of a state instruction. -/
inductive Field
  | x
  | y
  | angle
  deriving DecidableEq, Repr

namespace Field

/-- The number of values a field can hold: nine bits, eight bits, five bits. -/
def width : Field → Nat
  | x => 512
  | y => 256
  | angle => 32

/-- The largest value of a field. -/
def largest (f : Field) : Nat :=
  f.width - 1

def name : Field → String
  | x => "x"
  | y => "y"
  | angle => "angle"

end Field

/-- What went wrong. -/
inductive Failure
  /-- A frame is for an object that is not tracked. -/
  | unknownObject (object objects : Nat)
  /-- A frame has too many or too few values. -/
  | valueCount (object expected found : Nat)
  /-- The longest track does not fit the step count of the header. -/
  | tooManySteps (steps : Nat)
  /-- The settings have no attribute, or more than an instruction can carry. -/
  | attributeCount (attributes : Nat)
  | emptyRange (index : Nat) (low high : Int)
  /-- The delta range of an attribute is wider than a signed byte. -/
  | wideRange (index : Nat) (low high : Int)
  /-- The modulo of an attribute is not positive. -/
  | badModulo (index : Nat) (modulo : Int)
  | sentinelLength (found expected : Nat)
  | neverVisible (object frames : Nat)
  /-- A dictionary index is too large for a delta instruction. -/
  | deltaIndex (index : Nat)
  /-- A value is too large or too small for its field. -/
  | fieldRange (object : Option Nat) (field : Field) (value : Int)
  /-- No range of memory has room for a block.  `free` tells what is left in each of them. -/
  | noRoom (block : Block) (size : Nat) (free : List (Nat × Nat))
  | pastEnd (bytes base : Nat)
  /-- Injected data runs past the last address. -/
  | injectionPastEnd (label : String)
  | noBins
  | emptyBin (address : Nat)
  | binPastEnd (address capacity : Nat)
  | binsOverlap (first second : Nat)
  /-- Injected data would replace data injected before. -/
  | injectionOverlap (label : String)
  /-- The header refers to a block that has no address. -/
  | unplaced (block : Block)
  | notANumber (text : String) (span : Span)
  | negativeObject (object : Int) (span : Span)
  /-- A line of a recording holds an object index and nothing else. -/
  | noValues (object : Nat) (span : Span)
  /-- A line of a recording has another number of values than the first one. -/
  | unevenLine (expected found : Nat) (span : Span)
  /-- A value of a recording does not fit 32 bits. -/
  | wideValue (value : Int) (span : Span)
  deriving DecidableEq, Repr

end DeltaScript
