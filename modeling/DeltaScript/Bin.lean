import DeltaScript.Failure.Basic
import DeltaScript.Segment

/-!
# Bins

A bin is a range of addresses that blocks may be placed in.  It may run past the last address, which
`Bin.checkAll` tells from its end, and **the end of a bin is a machine word.**  Where the sum of
address and capacity is none, a program that checks its sums stops before it can tell anything, and
one that does not goes on with an end that has wrapped around.  So a bin carries the bound, and
`Bin.ofSize?` gives no bin where it does not hold.

* `Bin.ofSize?` — the bin of a first address and a number of addresses, if it has an end.
* `Bin.ofRange` — the bin from a first to a last address.
* `Bin.checkAll` — finds the first thing that is wrong with a list of bins: that there is none, then
  bin by bin that it is empty or runs past the last address, then two bins that overlap.

**Overlaps are looked for between neighbours** in the order of the addresses; bins of equal address
stay in the order given.
-/

namespace DeltaScript

/-- The largest number of a machine word. -/
def maxWord : Nat := 0xFFFFFFFFFFFFFFFF

/-- A range of addresses. -/
structure Bin where
  /-- The first address. -/
  address : UInt16
  /-- The number of addresses. -/
  capacity : Nat
  /-- The end is a machine word: no sum is taken that could wrap around. -/
  stop_le : address.toNat + capacity ≤ maxWord := by decide
  deriving DecidableEq, Repr

namespace Bin

/-- The bin of a number of addresses from the first one on; `none` if its end is not a machine
word. -/
def ofSize? (address : UInt16) (capacity : Nat) : Option Bin :=
  if h : address.toNat + capacity ≤ maxWord then some ⟨address, capacity, h⟩ else none

/-- The bin from the first to the last address given; empty if they are out of order. -/
def ofRange (first last : UInt16) : Bin where
  address := first
  capacity := last.toNat + 1 - first.toNat
  stop_le := by
    have hfirst := first.toNat_lt
    have hlast := last.toNat_lt
    rw [maxWord]
    omega

/-- One past the last address of the bin. -/
def stop (b : Bin) : Nat :=
  b.address.toNat + b.capacity

def check (b : Bin) : Except Failure Unit :=
  if b.capacity = 0 then .error (.emptyBin b.address.toNat)
  else if addressSpace < b.stop then .error (.binPastEnd b.address.toNat b.capacity)
  else .ok ()

/-- The first two neighbours of a list that overlap. -/
def checkNeighbours : List Bin → Except Failure Unit
  | a :: b :: rest =>
      if b.address.toNat < a.stop then .error (.binsOverlap a.address.toNat b.address.toNat)
      else checkNeighbours (b :: rest)
  | _ => .ok ()

/-- The bins in the order of their addresses. -/
def sorted (bins : List Bin) : List Bin :=
  bins.mergeSort fun a b => a.address.toNat ≤ b.address.toNat

/-- The first fault of a list of bins. -/
def checkAll (bins : List Bin) : Except Failure Unit := do
  if bins.isEmpty then .error .noBins
  bins.forM check
  checkNeighbours (sorted bins)

end Bin

end DeltaScript
