import DeltaScript.Tally

/-!
# Ranked deltas

A delta instruction names its delta by an index of seven bits.  The most frequent deltas get the
indices; between deltas of equal count the one seen first comes first.

* `Tally.rank` — the ranking of a tally: at most `Ranking.capacity` entries, the counts descending.
* `Ranking.index?`, `Ranking.delta?` — the look-up in both directions.
* `Ranking.table` — one attribute of all ranked deltas, a signed byte each.
-/

namespace DeltaScript

/-- The deltas that instructions can name, in index order. -/
structure Ranking where
  entries : List Entry := []
  deriving DecidableEq, Repr

namespace Ranking

/-- The number of deltas that an instruction can tell apart. -/
def capacity : Nat := 128

def size (r : Ranking) : Nat :=
  r.entries.length

/-- The index of a delta, if it has one. -/
def index? (r : Ranking) (delta : Delta) : Option Nat :=
  r.entries.findIdx? (·.delta == delta)

def delta? (r : Ranking) (index : Nat) : Option Delta :=
  r.entries[index]?.map Entry.delta

/-- The byte that stands for a component of a delta: its low eight bits, in two's complement. -/
def toByte (component : Int) : UInt8 :=
  UInt8.ofNat (component % 256).toNat

/-- The component for one attribute of every ranked delta.  A component that is missing reads as
zero. -/
def table (r : Ranking) (index : Nat) : List UInt8 :=
  r.entries.map fun e => toByte (e.delta.getD index 0)

end Ranking

/-- **The most frequent deltas of a tally**, those of equal count in the order of the tally. -/
def Tally.rank (t : Tally) : Ranking :=
  ⟨(t.entries.mergeSort fun a b => b.count ≤ a.count).take Ranking.capacity⟩

end DeltaScript
