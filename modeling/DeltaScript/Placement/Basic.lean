import DeltaScript.Placement.Blocks
import DeltaScript.Bin

/-!
# Placements

A placement gives a block its address.  There are two ways to find placements.

* `contiguous` — all blocks in one piece from a base address: header, scripts, tables.
* `firstFit` — over bins: header, tables, then the scripts from the largest to the smallest, each
  block in the first bin that has room for it.  What comes of it is a `Filling`: the placements
  made, the bytes used in each bin, and the block that found no room, if there is one.

A placement also tells which segment its block goes to.  In one piece there is one segment; over
bins the segments are the bins that are used, in the order given (`Filling.segmentOf`).
-/

namespace DeltaScript

/-- Where a block is placed. -/
structure Placement where
  block : Block
  address : UInt16
  size : Nat
  /-- The segment that the block goes to. -/
  segment : Nat
  deriving DecidableEq, Repr

namespace Placement

def addressOf? (placements : List Placement) (block : Block) : Option UInt16 :=
  (placements.find? (·.block == block)).map Placement.address

/-! ## One piece -/

/-- Blocks one after the other from a position on. -/
def stack (size : Block → Nat) (position : Nat) : List Block → List Placement
  | [] => []
  | block :: rest =>
      ⟨block, addressAt position, size block, 0⟩ :: stack size (position + size block) rest

/-- All blocks in one piece from a base address, if they end within the address space. -/
def contiguous (blocks : Blocks) (base : UInt16) : Except Failure (List Placement) :=
  if addressSpace < base.toNat + blocks.totalSize then
    .error (.pastEnd blocks.totalSize base.toNat)
  else .ok (stack blocks.size base.toNat blocks.all)

end Placement

/-! ## Over bins -/

/-- What comes of placing blocks in bins.  The segment of a placement is still the number of its
bin. -/
structure Filling where
  /-- The placements, in the order in which they were made. -/
  placed : List Placement
  used : List Nat
  /-- The block that no bin has room for, where placing stopped. -/
  stuck : Option Block
  deriving DecidableEq, Repr

namespace Filling

/-- The first bin with room for `size` bytes, given the bytes used in each. -/
def slot? (bins : List Bin) (used : List Nat) (size : Nat) : Option Nat :=
  (bins.zip used).findIdx? fun (bin, taken) => size ≤ bin.capacity - taken

/-- The placement of a block in the bin with the given number. -/
def place (bins : List Bin) (used : List Nat) (size : Block → Nat) (block : Block) (slot : Nat) :
    Placement :=
  let address := match bins[slot]? with
    | some bin => bin.address.toNat
    | none => 0
  ⟨block, addressAt (address + used.getD slot 0), size block, slot⟩

/-- Places blocks one after the other, each in the first bin with room for it. -/
def fill (bins : List Bin) (size : Block → Nat) (used : List Nat) : List Block → Filling
  | [] => ⟨[], used, none⟩
  | block :: rest =>
      match slot? bins used (size block) with
      | none => ⟨[], used, some block⟩
      | some slot =>
          let filling := fill bins size (used.modify slot (· + size block)) rest
          { filling with placed := place bins used size block slot :: filling.placed }

def order (blocks : Blocks) : List Block :=
  .header :: (blocks.tableBlocks ++ blocks.scriptsBySize)

/-- Places all blocks in bins. -/
def ofBlocks (blocks : Blocks) (bins : List Bin) : Filling :=
  fill bins blocks.size (List.replicate bins.length 0) (order blocks)

/-- The address and the free bytes of each bin. -/
def free (f : Filling) (bins : List Bin) : List (Nat × Nat) :=
  (bins.zip f.used).map fun (bin, taken) => (bin.address.toNat, bin.capacity - taken)

/-- The segment that the bin with a given number becomes.  An empty block in a bin that is not used
goes to the first segment. -/
def segmentOf (f : Filling) (slot : Nat) : Nat :=
  if 0 < f.used.getD slot 0 then (f.used.take slot).countP (0 < ·) else 0

/-- The placements, with their segments. -/
def placements (f : Filling) : List Placement :=
  f.placed.map fun p => { p with segment := f.segmentOf p.segment }

def segmentAddresses (f : Filling) (bins : List Bin) : List UInt16 :=
  ((bins.zip f.used).filter fun (_, taken) => 0 < taken).map fun (bin, _) => bin.address

end Filling

namespace Placement

/-- All blocks over bins: the placements, and the addresses of the segments. -/
def firstFit (blocks : Blocks) (bins : List Bin) :
    Except Failure (List Placement × List UInt16) := do
  Bin.checkAll bins
  let filling := Filling.ofBlocks blocks bins
  match filling.stuck with
  | some block => .error (.noRoom block (blocks.size block) (filling.free bins))
  | none => .ok (filling.placements, filling.segmentAddresses bins)

end Placement

end DeltaScript
