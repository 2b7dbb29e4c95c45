import DeltaScript.Instruction.Script
import DeltaScript.Segment

/-!
# What is placed

* `Blocks` — the scripts and the tables of a reel, with the length of its longest track.
* `Blocks.size` — the size of each block.  The header holds two bytes for each script, two for each
  table but the first, and two for the step count, so its size is known before any address is.
* `Blocks.all` — header, scripts, tables: the order in which they follow one another in one piece.
-/

namespace DeltaScript

/-- Everything that is placed in memory. -/
structure Blocks where
  /-- The scripts, in object order. -/
  scripts : List Script
  /-- The delta tables, in attribute order. -/
  tables : List (List UInt8)
  maxSteps : Nat
  deriving DecidableEq, Repr

namespace Blocks

def headerSize (b : Blocks) : Nat :=
  2 * b.scripts.length + 2 * (b.tables.length - 1) + 2

/-- The bytes of a table; none for a table that does not exist. -/
def tableBytes (b : Blocks) (index : Nat) : List UInt8 :=
  b.tables.getD index []

/-- The bytes of a script; none for a script that does not exist. -/
def scriptBytes (b : Blocks) (object : Nat) : List UInt8 :=
  match b.scripts[object]? with
  | some script => script.bytes
  | none => []

def size (b : Blocks) : Block → Nat
  | .header => b.headerSize
  | .table index => (b.tableBytes index).length
  | .script object => (b.scriptBytes object).length

def tableBlocks (b : Blocks) : List Block :=
  (List.range b.tables.length).map .table

def scriptBlocks (b : Blocks) : List Block :=
  (List.range b.scripts.length).map .script

/-- All blocks, the scripts before the tables. -/
def all (b : Blocks) : List Block :=
  .header :: (b.scriptBlocks ++ b.tableBlocks)

/-- The scripts, the largest first; those of equal size in object order. -/
def scriptsBySize (b : Blocks) : List Block :=
  b.scriptBlocks.mergeSort fun p q => b.size q ≤ b.size p

def tablesSize (b : Blocks) : Nat :=
  b.tables.flatten.length

def scriptsSize (b : Blocks) : Nat :=
  (b.scripts.flatMap Script.bytes).length

def totalSize (b : Blocks) : Nat :=
  b.headerSize + b.tablesSize + b.scriptsSize

end Blocks

end DeltaScript
