import DeltaScript.Proofs.Allocation

/-!
# One range of addresses

Blocks that go into a single range of addresses can be placed in two ways.  In one piece, the sum of
their sizes is compared with the range before anything is placed; over the range as a bin, each
block in turn is asked whether there is still room for it, and the blocks come in another order.
The two ways agree, since **there is no bin for a block to be passed on to**: blocks find room one
by one exactly if they have room together.

* `Packed.exists_singleton_iff` — what a single bin has room for.
* `Layout.exists_allocate_singleton_iff` — blocks are placed over a single bin exactly if their
  total size is no more than its capacity.
* `Layout.Fills`, `Layout.fills_of_allocate` — whichever way is taken, there is one segment, and the
  header is in front.
* `Layout.Agree`, `Layout.agree_of_allocate` — **two layouts of the same blocks in one range differ
  in the order of the blocks at most.**
* `Layout.OneRange`, `Layout.oneRange` — both ways together.
-/

namespace DeltaScript

/-! ## A single bin -/

namespace Packed

variable {bin : Bin} {size : Block → ℕ} {placed : List Placement} {after : ℕ → ℕ}

theorem segment_eq_zero (h : Packed [bin] size (fun _ => 0) placed after) {p : Placement}
    (hp : p ∈ placed) : p.segment = 0 := by
  obtain ⟨b, -, hb, -⟩ := h.exists_of_mem hp
  obtain ⟨hlt, -⟩ := List.getElem?_eq_some_iff.mp hb
  simpa using hlt

/-- **Blocks find room in a single bin one by one exactly if they have room there together.** -/
theorem exists_singleton_iff {blocks : List Block} :
    (∃ placed after, Packed [bin] size (fun _ => 0) placed after
      ∧ placed.map Placement.block = blocks) ↔ (blocks.map size).sum ≤ bin.capacity := by
  constructor
  · rintro ⟨placed, after, h, rfl⟩
    have hload : Placement.load placed 0 = (placed.map Placement.size).sum := by
      have hall : placed.filter (·.segment == 0) = placed :=
        List.filter_eq_self.mpr fun p hp => by simp [h.segment_eq_zero hp]
      rw [Placement.load, hall]
    have hsizes : (placed.map Placement.block).map size = placed.map Placement.size := by
      rw [List.map_map]
      exact List.map_congr_left fun p hp => (h.size_eq p hp).symm
    rw [hsizes, ← hload]
    exact h.load_le 0 bin rfl
  · intro hroom
    obtain ⟨after, h⟩ := Placement.packed_stack (fun _ => 0) ((Nat.zero_add _).trans_le hroom)
    exact ⟨_, after, h, Placement.map_block_stack _ _⟩

end Packed

namespace Layout

variable {blocks : Blocks} {mode : Mode} {bin : Bin} {base : UInt16} {l k : Layout}

/-- **Blocks are placed over a single bin exactly if it has room for their total size.** -/
theorem exists_allocate_singleton_iff (hsteps : blocks.maxSteps ≤ 0xFFFF)
    (hbin : Bin.checkAll [bin] = .ok ()) :
    (∃ l, allocate blocks (.chunked [bin]) = .ok l) ↔ blocks.totalSize ≤ bin.capacity := by
  have hsum : ((Filling.order blocks).map blocks.size).sum = blocks.totalSize := by
    rw [(blocks.perm_order.map blocks.size).sum_eq, blocks.sum_size_all]
  rw [exists_allocate_iff hsteps, Mode.Fits, Packed.exists_singleton_iff, hsum]
  exact and_iff_right (Bin.checkAll_eq_ok_iff.mp hbin)

/-! ## What becomes of the range -/

/-- A layout that has blocks in one range of addresses. -/
structure Fills (l : Layout) (blocks : Blocks) (base : UInt16) : Prop where
  /-- There is a single segment, which holds as many bytes as the blocks have. -/
  segment : ∃ bytes, l.segments = [⟨base, bytes⟩] ∧ bytes.length = blocks.totalSize
  /-- The range starts with the header. -/
  header : l.addressOf? .header = some base

/-- Whichever way blocks are placed, the header is the first of them. -/
theorem head?_placed {placements : List Placement} {addresses : List UInt16}
    (h : place blocks mode = .ok (placements, addresses)) :
    ((mode.placed blocks).map Placement.block).head? = some .header := by
  cases mode with
  | contiguous base =>
      rw [Mode.placed, Placement.map_block_stack]
      rfl
  | chunked bins =>
      obtain ⟨-, hstuck, -⟩ := Placement.firstFit_eq_ok_iff.mp h
      have hblocks : (Filling.ofBlocks blocks bins).placed.map Placement.block
          = Filling.order blocks := Filling.map_block_placed hstuck
      rw [Mode.placed, hblocks]
      rfl

/-- **In a single range the header is in front**, since it is placed first. -/
theorem addressOf?_header (h : allocate blocks mode = .ok l) (hbins : mode.bins = [bin]) :
    l.addressOf? .header = some bin.address := by
  obtain ⟨-, placements, addresses, hplace, rfl⟩ := allocate_eq_ok_iff.mp h
  have hhead := head?_placed hplace
  obtain ⟨-, number, used, ⟨⟨after, hpacked⟩, -⟩, -, rfl, -⟩ := arranged_placed hplace
  cases hplaced : mode.placed blocks with
  | nil => simp [hplaced] at hhead
  | cons p behind =>
      have hblock : p.block = .header := by simpa [hplaced] using hhead
      have hfirst : Packed [bin] blocks.size (fun _ => 0) ([] ++ p :: behind) after :=
        hbins ▸ hplaced ▸ hpacked
      have hsegment := hfirst.segment_eq_zero List.mem_cons_self
      obtain ⟨b, hb, haddress, -⟩ := hfirst.exists_cursor
      obtain rfl : bin = b := by simpa [hsegment] using hb
      have hbase : p.address = bin.address := by
        rw [haddress]
        refine UInt16.toNat_inj.mp ((toNat_addressAt _).trans ?_)
        exact Nat.min_eq_left (Nat.le_of_lt_succ bin.address.toNat_lt)
      rw [addressOf?, ofPlacements, Placement.addressOf?, ← hbase]
      simp [Placement.renumber, hblock]

/-- **In a single range there is one segment**: the header needs one, and no two segments go to the
same bin. -/
theorem IsImage.exists_segment (h : l.IsImage blocks [bin]) :
    ∃ bytes, l.segments = [⟨bin.address, bytes⟩] ∧ bytes.length = blocks.totalSize := by
  obtain ⟨p, hp, -⟩ := exists_placement h.placed (List.mem_cons_self : .header ∈ blocks.all)
  have hpos := (Nat.zero_le _).trans_lt (h.segment_lt p hp)
  have htotal := h.totalBytes_eq
  obtain ⟨used, hsublist, hsegments⟩ := h.segments
  rw [totalBytes] at htotal
  generalize l.segments = segments at hsegments hpos htotal
  rcases List.sublist_singleton.mp hsublist with rfl | rfl
  · cases hsegments
    cases hpos
  · obtain ⟨s, _, ⟨haddress, -⟩, hnil, rfl⟩ := List.forall₂_cons_left_iff.mp hsegments
    cases hnil
    refine ⟨s.bytes, by rw [← haddress], ?_⟩
    simpa using htotal

theorem fills_of_allocate (h : allocate blocks mode = .ok l) (hbins : mode.bins = [bin]) :
    l.Fills blocks bin.address := by
  refine ⟨?_, addressOf?_header h hbins⟩
  obtain ⟨-, placements, addresses, hplace, rfl⟩ := allocate_eq_ok_iff.mp h
  exact (hbins ▸ isImage_ofPlacements hplace).exists_segment

/-! ## Two ways to fill a range -/

/-- Two layouts of the same blocks in one range of addresses that tell of the same sizes, and have
the same bytes of each block, if not at the same address. -/
structure Agree (l k : Layout) (blocks : Blocks) (base : UInt16) : Prop where
  fills : l.Fills blocks base ∧ k.Fills blocks base
  summary_eq : l.summary = k.summary
  /-- The same blocks are placed, each with the same size. -/
  placements : (l.placements.map fun p => (p.block, p.size)).Perm
    (k.placements.map fun p => (p.block, p.size))
  /-- Once the segments are loaded, every script and every table has the same bytes in both, each
  read at its own address, whatever was in memory before. -/
  bytes_eq : ∀ block ∈ blocks.all, block ≠ .header → ∃ a b, l.addressOf? block = some a
    ∧ k.addressOf? block = some b ∧ ∀ m n : Memory,
      (m.loadAll l.segments).bytes a.toNat (blocks.size block)
        = (n.loadAll k.segments).bytes b.toNat (blocks.size block)

theorem summary_of_allocate (h : allocate blocks mode = .ok l) :
    l.summary = ⟨blocks.scripts.length, blocks.maxSteps, (blocks.tableBytes 0).length,
      blocks.headerSize, blocks.tablesSize, blocks.scriptsSize⟩ := by
  obtain ⟨-, placements, addresses, -, rfl⟩ := allocate_eq_ok_iff.mp h
  rw [ofPlacements, summarize, length_headerOf]

/-- Every block is placed, with its size. -/
theorem map_block_size_of_allocate (h : allocate blocks mode = .ok l) :
    (l.placements.map fun p => (p.block, p.size)).Perm
      (blocks.all.map fun block => (block, blocks.size block)) := by
  obtain ⟨-, placements, addresses, hplace, rfl⟩ := allocate_eq_ok_iff.mp h
  have himage := isImage_ofPlacements hplace
  refine List.Perm.trans (.of_eq ?_) (himage.placed.map fun block => (block, blocks.size block))
  rw [List.map_map]
  exact List.map_congr_left fun p hp => congrArg (p.block, ·) (himage.size_eq p hp)

/-- A script or a table is found at its address. -/
theorem bytes_of_allocate (h : allocate blocks mode = .ok l) {block : Block}
    (hblock : block ∈ blocks.all) (hheader : block ≠ .header) :
    ∃ a, l.addressOf? block = some a ∧ ∀ m : Memory,
      (m.loadAll l.segments).bytes a.toNat (blocks.size block) = blockBytes blocks [] block := by
  obtain ⟨-, placements, addresses, hplace, rfl⟩ := allocate_eq_ok_iff.mp h
  obtain ⟨p, hp, -, -, hsome⟩ := exists_placement (map_block_of_place hplace) hblock
  refine ⟨_, hsome, fun m => (bytes_addressIn hplace m hblock).trans ?_⟩
  -- the bytes of the header are those of no other block
  cases block with
  | header => exact absurd rfl hheader
  | table index => rfl
  | script object => rfl

/-- **Two layouts of the same blocks in one range agree**, whichever way each of them is found. -/
theorem agree_of_allocate {mode' : Mode} {bin' : Bin} (h : allocate blocks mode = .ok l)
    (h' : allocate blocks mode' = .ok k) (hbins : mode.bins = [bin]) (hbins' : mode'.bins = [bin'])
    (hbase : bin.address = base) (hbase' : bin'.address = base) : l.Agree k blocks base := by
  constructor
  case fills =>
    exact ⟨hbase ▸ fills_of_allocate h hbins, hbase' ▸ fills_of_allocate h' hbins'⟩
  case summary_eq => rw [summary_of_allocate h, summary_of_allocate h']
  case placements => exact (map_block_size_of_allocate h).trans (map_block_size_of_allocate h').symm
  case bytes_eq =>
    intro block hblock hheader
    obtain ⟨a, ha, hbytes⟩ := bytes_of_allocate h hblock hheader
    obtain ⟨b, hb, hbytes'⟩ := bytes_of_allocate h' hblock hheader
    exact ⟨a, b, ha, hb, fun m n => (hbytes m).trans (hbytes' n).symm⟩

/-- What is expected of blocks in one range of addresses. -/
structure OneRange (blocks : Blocks) (base : UInt16) : Prop where
  /-- The blocks are placed in one piece exactly if they are placed over the rest of the address
  space as a bin. -/
  exists_iff : (∃ l, allocate blocks (.contiguous base) = .ok l) ↔
    ∃ k, allocate blocks (.chunked [Bin.above base]) = .ok k
  /-- A bin that can be filled has room for the blocks exactly if it has room for their total
  size. -/
  room_iff : ∀ bin, Bin.checkAll [bin] = .ok () →
    ((∃ k, allocate blocks (.chunked [bin]) = .ok k) ↔ blocks.totalSize ≤ bin.capacity)
  /-- In one piece and over a bin at its base, whatever the capacity of that is, the layouts
  agree. -/
  agree : ∀ l k bin, bin.address = base → allocate blocks (.contiguous base) = .ok l →
    allocate blocks (.chunked [bin]) = .ok k → l.Agree k blocks base

/-- **One piece and a single bin come to the same.** -/
theorem oneRange (hsteps : blocks.maxSteps ≤ 0xFFFF) (base : UInt16) : OneRange blocks base := by
  constructor
  case exists_iff =>
    have hbase : base.toNat < addressSpace := base.toNat_lt
    have hbin := Bin.checkAll_eq_ok_iff.mpr (Mode.usable_contiguous base)
    rw [exists_allocate_iff hsteps, exists_allocate_singleton_iff hsteps hbin]
    show base.toNat + blocks.totalSize ≤ addressSpace ↔
      blocks.totalSize ≤ addressSpace - base.toNat
    omega
  case room_iff => exact fun bin hbin => exists_allocate_singleton_iff hsteps hbin
  case agree =>
    rintro l k bin rfl hl hk
    exact agree_of_allocate hl hk rfl rfl rfl rfl

end Layout

/-! ## A range that is filled up

The blocks of `Blocks.scattered` in one piece that ends with the address space, and in a bin of just
their size.
-/

/-- The scripts come before the tables. -/
def Layout.stacked : Layout where
  placements := [⟨.header, 0xFFEC, 12, 0⟩, ⟨.script 0, 0xFFF8, 3, 0⟩, ⟨.script 1, 0xFFFB, 0, 0⟩,
    ⟨.script 2, 0xFFFB, 1, 0⟩, ⟨.table 0, 0xFFFC, 2, 0⟩, ⟨.table 1, 0xFFFE, 2, 0⟩,
    ⟨.table 2, 0xFFFF, 0, 0⟩]
  segments := [⟨0xFFEC, [0xF8, 0xFB, 0xFB, 255, 255, 255, 0xFE, 255, 255, 255, 2, 0, 192, 0, 128,
    128, 1, 255, 3, 4]⟩]
  summary := ⟨3, 2, 2, 12, 4, 4⟩

/-- The scripts come last, and the empty one behind the others. -/
def Layout.filled : Layout where
  placements := [⟨.header, 0xFFEC, 12, 0⟩, ⟨.table 0, 0xFFF8, 2, 0⟩, ⟨.table 1, 0xFFFA, 2, 0⟩,
    ⟨.table 2, 0xFFFC, 0, 0⟩, ⟨.script 0, 0xFFFC, 3, 0⟩, ⟨.script 2, 0xFFFF, 1, 0⟩,
    ⟨.script 1, 0xFFFF, 0, 0⟩]
  segments := [⟨0xFFEC, [0xFC, 255, 255, 255, 255, 255, 0xFA, 255, 0xFC, 255, 2, 0, 1, 255, 3, 4,
    192, 0, 128, 128]⟩]
  summary := ⟨3, 2, 2, 12, 4, 4⟩

theorem Layout.oneRange_filled :
    Blocks.scattered.maxSteps ≤ 0xFFFF
      ∧ allocate Blocks.scattered (.contiguous 0xFFEC) = .ok stacked
      ∧ allocate Blocks.scattered (.chunked [.mk 0xFFEC 20]) = .ok filled
      ∧ stacked.Agree filled Blocks.scattered 0xFFEC := by
  have hsteps : Blocks.scattered.maxSteps ≤ 0xFFFF := by decide
  have hstacked : allocate Blocks.scattered (.contiguous 0xFFEC) = .ok stacked := by rfl
  have hfilled : allocate Blocks.scattered (.chunked [.mk 0xFFEC 20]) = .ok filled := by cbv
  exact ⟨hsteps, hstacked, hfilled, (oneRange hsteps 0xFFEC).agree _ _ _ rfl hstacked hfilled⟩

end DeltaScript
