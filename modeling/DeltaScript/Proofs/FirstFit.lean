import Mathlib
import DeltaScript.Proofs.Layout

/-!
# First fit over bins

Over bins the blocks are taken in a fixed order, and each of them is put into the first bin that has
room for it.  Later blocks may well fill up earlier bins, but **room that a block did not find is
never made**: bins are only filled, so that what is left over at the end in the bins before its own
is too small for every block.

* `Blocks.pairwise_objectsBySize` — the order of the scripts: the largest first, and scripts of
  equal size in object order, since the sort is stable.
* `Placement.FirstFit` — what is expected of placements over bins; `Packed.firstFit`.
* `Layout.IsFirstFit`, `Layout.isFirstFit_of_allocate` — **every layout over bins is found by first
  fit.**
-/

namespace DeltaScript

/-! ## The order of the scripts -/

namespace Blocks

variable {blocks : Blocks}

/-- The objects, the one with the largest script first. -/
def objectsBySize (blocks : Blocks) : List ℕ :=
  (List.range blocks.scripts.length).mergeSort fun o p =>
    blocks.size (.script p) ≤ blocks.size (.script o)

theorem scriptsBySize_eq (blocks : Blocks) :
    blocks.scriptsBySize = blocks.objectsBySize.map .script := by
  rw [scriptsBySize, scriptBlocks, objectsBySize]
  symm
  apply List.map_mergeSort
  intro o _ p _
  rfl

theorem perm_objectsBySize (blocks : Blocks) :
    blocks.objectsBySize.Perm (List.range blocks.scripts.length) :=
  List.mergeSort_perm ..

/-- **The sizes of the scripts never increase, and scripts of equal size stay in object order.** -/
theorem pairwise_objectsBySize (blocks : Blocks) :
    blocks.objectsBySize.Pairwise fun o p =>
      blocks.size (.script p) < blocks.size (.script o)
        ∨ (blocks.size (.script p) = blocks.size (.script o) ∧ o < p) := by
  have hplace : ∀ o ∈ blocks.objectsBySize, (List.range blocks.scripts.length).idxOf o = o := by
    intro o ho
    have hlt := blocks.perm_objectsBySize.mem_iff.mp ho
    rw [List.mem_range] at hlt
    have hrange := List.nodup_range.idxOf_getElem o (by simpa using hlt)
    rwa [List.getElem_range] at hrange
  refine (pairwise_outranks_mergeSort (fun o => blocks.size (.script o))
    List.nodup_range).imp_of_mem ?_
  intro o p ho hp h
  rwa [Outranks, hplace o ho, hplace p hp] at h

end Blocks

/-! ## Placements found by first fit -/

/-- Placements over bins, where the segment of a placement is the number of its bin: each of them
is put behind what its bin holds, and none of the bins before has room for it. -/
structure Placement.FirstFit (bins : List Bin) (placed : List Placement) : Prop where
  /-- No bin holds more than it has room for. -/
  load_le : ∀ i (bin : Bin), bins[i]? = some bin → load placed i ≤ bin.capacity
  /-- What is put into a bin fits what is left of it, and lies behind what was put there before;
  only something empty can lie behind the last address, which then counts as the last one. -/
  put : ∀ (before behind : List Placement) (p : Placement), placed = before ++ p :: behind →
    ∃ bin : Bin, bins[p.segment]? = some bin
      ∧ p.size ≤ bin.capacity - load before p.segment
      ∧ (p.address.toNat = bin.address.toNat + load before p.segment
        ∨ (bin.address.toNat + load before p.segment = addressSpace ∧ p.size = 0
          ∧ p.address = 0xFFFF))
  /-- When something was put into its bin, what was left of any bin before was too small for it. -/
  first : ∀ (before behind : List Placement) (p : Placement), placed = before ++ p :: behind →
    ∀ i < p.segment, ∀ bin : Bin, bins[i]? = some bin → bin.capacity - load before i < p.size
  /-- What is left in the end of any bin before its own is still too small for it. -/
  left : ∀ p ∈ placed, ∀ i < p.segment, ∀ bin : Bin, bins[i]? = some bin →
    bin.capacity - load placed i < p.size

/-- **What is packed into empty bins is found by first fit.** -/
theorem Packed.firstFit {bins : List Bin} {size : Block → ℕ} {placed : List Placement}
    {after : ℕ → ℕ} (h : Packed bins size (fun _ => 0) placed after)
    (hstop : ∀ b ∈ bins, b.stop ≤ addressSpace) : Placement.FirstFit bins placed := by
  have hfirst : ∀ (before behind : List Placement) (p : Placement), placed = before ++ p :: behind →
      ∀ i < p.segment, ∀ bin : Bin, bins[i]? = some bin →
        bin.capacity - Placement.load before i < p.size := by
    rintro before behind p rfl i hi bin hbin
    obtain ⟨-, -, -, -, hearlier⟩ := h.exists_cursor
    have hroom := hearlier i hi bin hbin
    have hle := h.load_le i bin hbin
    rw [Placement.load_append] at hle
    omega
  constructor
  case load_le => exact h.load_le
  case put =>
    rintro before behind p rfl
    obtain ⟨bin, hbin, haddress, hroom, -⟩ := h.exists_cursor
    rw [Nat.zero_add] at haddress hroom
    refine ⟨bin, hbin, by omega, ?_⟩
    have hend := hstop bin (List.mem_of_getElem? hbin)
    simp only [Bin.stop] at hend
    have hposition : p.address.toNat
        = min (bin.address.toNat + Placement.load before p.segment) 0xFFFF := by
      rw [haddress, toNat_addressAt]
    rcases Nat.lt_or_ge (bin.address.toNat + Placement.load before p.segment) addressSpace with
      hlt | hge
    · left
      simp only [addressSpace] at hlt
      omega
    · right
      refine ⟨by omega, by omega, UInt16.toNat_inj.mp ?_⟩
      simp only [addressSpace] at hge
      rw [hposition, Nat.min_eq_right (by omega)]
      rfl
  case first => exact hfirst
  case left =>
    intro p hp i hi bin hbin
    obtain ⟨before, behind, rfl⟩ := List.append_of_mem hp
    -- bins are only filled, so that what did not fit then does not fit in the end
    have hthen := hfirst before behind p rfl i hi bin hbin
    rw [Placement.load_append]
    omega

/-- A layout over bins that is found by first fit: `placed` are its placements while they still went
by the numbers of their bins, and `number` is the segment that a bin becomes. -/
structure Layout.IsFirstFit (l : Layout) (blocks : Blocks) (bins : List Bin)
    (placed : List Placement) (number : ℕ → ℕ) : Prop where
  placements_eq : l.placements = placed.map (Placement.renumber number)
  size_eq : ∀ p ∈ placed, p.size = blocks.size p.block
  /-- First the header, then the tables, then the scripts: those of larger size first, and those of
  equal size in object order. -/
  order : ∃ objects : List ℕ,
    placed.map Placement.block = .header
        :: ((List.range blocks.tables.length).map Block.table ++ objects.map Block.script)
      ∧ objects.Perm (List.range blocks.scripts.length)
      ∧ objects.Pairwise fun o p => blocks.size (.script p) < blocks.size (.script o)
          ∨ (blocks.size (.script p) = blocks.size (.script o) ∧ o < p)
  fits : Placement.FirstFit bins placed
  /-- The segment that a bin becomes is at the address of the bin, and is as long as what was put
  into the bin. -/
  segment : ∀ i bin, bins[i]? = some bin → 0 < Placement.load placed i →
    ∃ bytes, l.segments[number i]? = some ⟨bin.address, bytes⟩
      ∧ bytes.length = Placement.load placed i

/-- **Every layout over bins is found by first fit.** -/
theorem Layout.isFirstFit_of_allocate {blocks : Blocks} {bins : List Bin} {l : Layout}
    (h : allocate blocks (.chunked bins) = .ok l) :
    l.IsFirstFit blocks bins (Filling.ofBlocks blocks bins).placed
      (Filling.ofBlocks blocks bins).segmentOf := by
  obtain ⟨-, placements, addresses, hplace, rfl⟩ := allocate_eq_ok_iff.mp h
  obtain ⟨husable, hstuck, rfl, rfl⟩ := Placement.firstFit_eq_ok_iff.mp hplace
  have harranged := Filling.arranged hstuck
  have hblocks : (Filling.ofBlocks blocks bins).placed.map Placement.block
      = Filling.order blocks :=
    Filling.map_block_placed hstuck
  constructor
  case placements_eq => rfl
  case size_eq => exact harranged.size_eq
  case order =>
    refine ⟨blocks.objectsBySize, ?_, blocks.perm_objectsBySize, blocks.pairwise_objectsBySize⟩
    rw [hblocks, Filling.order, blocks.scriptsBySize_eq, Blocks.tableBlocks]
  case fits => exact (Filling.packed_ofBlocks blocks bins).firstFit husable.stop_le
  case segment =>
    intro i bin hbin hload
    have hheader := length_headerOf blocks (addressIn (Filling.ofBlocks blocks bins).placements)
    have hsegment := harranged.getElem?_segments hheader hbin hload
    rw [Arranged.segments, ← Filling.segmentAddresses_eq] at hsegment
    exact ⟨_, hsegment, Packed.length_segmentBytes hheader harranged.size_eq i⟩

/-! ## A bin that is filled later

The first bin has no room for the header, and is filled afterwards: by the table, and by a script
that comes behind larger ones.
-/

/-- Two scripts are of equal size. -/
def Blocks.uneven : Blocks where
  scripts := [⟨0, [128]⟩, ⟨1, [192, 0, 128]⟩, ⟨2, [1, 128]⟩, ⟨3, [2, 128]⟩]
  tables := [[1]]
  maxSteps := 3

/-- The first bin is small, and the last one is large enough for everything. -/
def Bin.uneven : List Bin :=
  [.ofRange 0x1000 0x1002, .ofRange 0x2000 0x200B, .ofRange 0x3000 0x3062]

/-- What becomes of them. -/
def Layout.uneven : Layout where
  placements := [⟨.header, 0x2000, 10, 1⟩, ⟨.table 0, 0x1000, 1, 0⟩, ⟨.script 1, 0x3000, 3, 2⟩,
    ⟨.script 2, 0x1001, 2, 0⟩, ⟨.script 3, 0x200A, 2, 1⟩, ⟨.script 0, 0x3003, 1, 2⟩]
  segments := [⟨0x1000, [1, 1, 128]⟩,
    ⟨0x2000, [3, 0, 1, 10, 0x30, 0x30, 0x10, 0x20, 3, 0, 2, 128]⟩, ⟨0x3000, [192, 0, 128, 128]⟩]
  summary := ⟨4, 3, 1, 10, 1, 8⟩

theorem Layout.isFirstFit_uneven :
    allocate Blocks.uneven (.chunked Bin.uneven) = .ok uneven
      ∧ uneven.IsFirstFit Blocks.uneven Bin.uneven
          (Filling.ofBlocks Blocks.uneven Bin.uneven).placed
          (Filling.ofBlocks Blocks.uneven Bin.uneven).segmentOf := by
  have h : allocate Blocks.uneven (.chunked Bin.uneven) = .ok uneven := by cbv
  exact ⟨h, isFirstFit_of_allocate h⟩

end DeltaScript
