import DeltaScript.Attribute
import DeltaScript.Bin
import DeltaScript.Recording.Text
import DeltaScript.Text.Blank
import DeltaScript.Text.Cut
import DeltaScript.Text.Integer

/-!
# Values of options

How the value of each option is read.  Numbers are written as in recordings, with white space around
them; what is refused is refused with a text that quotes the part concerned as it was given.

* `address`, `byte`, `bin` — places in memory.
* `indexedRange`, `indexedModulo` — the settings of one attribute, which is named by its index.
* `count`, `attributeCount` — plain decimal numbers.
-/

namespace DeltaScript.CommandLine

open Text

/-- A value, or why a text is none. -/
abbrev Reading (α : Type) := Except String α

/-- The number that a text spells, if it lies between two bounds; what it should be otherwise. -/
def boundedNumber (low high : Int) (wanted text : String) : Reading Int :=
  match parseNumber (trim text) with
  | some n =>
      if low ≤ n ∧ n ≤ high then .ok n else .error s!"'{text}' is not {wanted}"
  | none => .error s!"'{text}' is not {wanted}"

def address (text : String) : Reading UInt16 :=
  (boundedNumber 0 0xFFFF "an address between $0000 and $FFFF" text).map fun n =>
    UInt16.ofNat n.toNat

def byte (text : String) : Reading UInt8 :=
  (boundedNumber 0 0xFF "a byte" text).map fun n => UInt8.ofNat n.toNat

def number (text : String) : Reading Int :=
  boundedNumber (-0x80000000) 0x7FFFFFFF "a number" text

/-- A range of addresses, its ends included. -/
def bin (text : String) : Reading Bin :=
  match cutAt "-" text with
  | none => .error s!"'{text}' is not a range like $C000-$CFFF"
  | some (first, last) => do
      let first ← address first
      let last ← address last
      if last.toNat < first.toNat then throw s!"'{text}' ends before it starts"
      return Bin.ofRange first last

/-- The index of an attribute, and the text behind it. -/
def indexed (text : String) : Reading (Nat × String) :=
  match cutAt "=" text with
  | none => .error s!"'{text}' is missing '='"
  | some (index, value) =>
      match readNat maxWord (trim index) with
      | .ok n => .ok (n, trim value)
      | .error _ => .error s!"'{index}' is not an attribute index"

def indexedRange (text : String) : Reading (Nat × DeltaRange) := do
  let (index, value) ← indexed text
  match cutAt ".." value with
  | none => throw s!"'{value}' is not a range like -7..7"
  | some (low, high) =>
      let low ← number low
      let high ← number high
      return (index, ⟨low, high⟩)

def indexedModulo (text : String) : Reading (Nat × Int) := do
  let (index, value) ← indexed text
  let modulo ← number value
  return (index, modulo)

def count (text : String) : Reading Nat :=
  (readNat maxWord text).mapError IntegerFault.message

def attributeCount (text : String) : Reading Nat := do
  let n ← (readInt 0x7FFFFFFFFFFFFFFF text).mapError IntegerFault.message
  if 1 ≤ n ∧ n ≤ 3 then return n.toNat else throw s!"{n} is not in 1..=3"

end DeltaScript.CommandLine
