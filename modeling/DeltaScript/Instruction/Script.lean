import DeltaScript.Instruction.Codec
import DeltaScript.Text.Hex

/-!
# Scripts

The encoded instructions of one object, its end included, and the listing that shows them.

* `Script.ofInstructions` — the script of a list of instructions.
* `Script.instructions` — the instructions that its bytes spell.
* `Script.listing` — one line for each of them, with the offset of its first byte.
-/

namespace DeltaScript

/-- The encoded instructions of an object. -/
structure Script where
  object : Nat
  bytes : List UInt8
  deriving DecidableEq, Repr

namespace Script

open Text

/-- The script of a list of instructions. -/
def ofInstructions (object : Nat) (instructions : List Instruction) : Script :=
  ⟨object, instructions.flatMap Instruction.encode⟩

/-- The number of bytes. -/
def size (s : Script) : Nat :=
  s.bytes.length

/-- The instructions that the bytes spell. -/
def instructions (s : Script) : List Instruction :=
  Instruction.decodeAll s.bytes

/-- Instructions with the offset of the first byte of each, from `offset` on. -/
def withOffsets (offset : Nat) : List Instruction → List (Nat × Instruction)
  | [] => []
  | i :: rest => (offset, i) :: withOffsets (offset + i.size) rest

/-- The line of a listing for an instruction at an offset. -/
def listingLine (offset : Nat) (i : Instruction) : String :=
  s!"{hexUpper 4 offset}  {i.text}\n"

/-- The instructions with their offsets, under a line that names the object. -/
def listing (s : Script) : String :=
  s!"; object {s.object} ({s.size} bytes)\n"
    ++ String.join ((withOffsets 0 s.instructions).map fun (offset, i) => listingLine offset i)

end Script

end DeltaScript
