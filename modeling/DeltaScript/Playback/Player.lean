import DeltaScript.Placement.Layout
import DeltaScript.Playback.Basic
import DeltaScript.Playback.Memory

/-!
# Players

A player finds everything that it plays in memory.  It is told where the header and the first table
are, and how many objects and attributes there are; it follows the header from there.

* `Player.scriptPosition`, `Player.tablePosition`, `Player.stepCount` — what the header refers to.
* `Player.delta` — the delta with a given index, a signed byte from each table.
* `Player.frames` — what is shown of an object.
* `Layout.player` — the player of a layout, once its segments are loaded.
-/

namespace DeltaScript

/-- What is played, and where it is. -/
structure Player where
  memory : Memory
  header : Nat
  /-- The position of the first table. -/
  firstTable : Nat
  objects : Nat
  attributes : Nat

/-- The integer that a byte stands for in two's complement. -/
def signedByte (b : UInt8) : Int :=
  if b.toNat < 128 then b.toNat else b.toNat - 256

namespace Player

/-- The position of the script of an object, its low and its high byte taken from two lists. -/
def scriptPosition (p : Player) (object : Nat) : Nat :=
  (wordOf (p.memory.byte (p.header + object))
    (p.memory.byte (p.header + p.objects + object))).toNat

/-- The position of the table of an attribute.  The header does not tell that of the first one. -/
def tablePosition (p : Player) (index : Nat) : Nat :=
  match index with
  | 0 => p.firstTable
  | n + 1 => (p.memory.word (p.header + 2 * p.objects + 2 * n)).toNat

/-- The length of the longest track. -/
def stepCount (p : Player) : Nat :=
  (p.memory.word (p.header + 2 * p.objects + 2 * (p.attributes - 1))).toNat

def delta (p : Player) (index : Nat) : Delta :=
  (List.range p.attributes).map fun a => signedByte (p.memory.byte (p.tablePosition a + index))

/-- The instructions of an object, its end included; `none` if there is no end. -/
def instructions (p : Player) (object : Nat) : Option (List Instruction) :=
  p.memory.instructionsUpToEnd (p.scriptPosition object)

/-- The frames that are shown of an object; `none` if its script has no end. -/
def frames (p : Player) (object : Nat) : Option (List Values) := do
  let instructions ← p.instructions object
  Instruction.play (some ∘ p.delta) [0, 0, 0] instructions

end Player

/-- The player of a layout whose segments are loaded into a memory; `none` if the layout has no
header or no table. -/
def Layout.player (l : Layout) (m : Memory) (objects attributes : Nat) : Option Player := do
  let header ← l.addressOf? .header
  let firstTable ← l.addressOf? (.table 0)
  return {
    memory := m.loadAll l.segments
    header := header.toNat
    firstTable := firstTable.toNat
    objects
    attributes }

end DeltaScript
