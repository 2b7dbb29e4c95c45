import Mathlib
import DeltaScript.Proofs.Memory
import DeltaScript.Proofs.Segments

/-!
# A layout is an image of its blocks

Addresses are found in one pass and bytes are laid down in another, after the bins were renumbered.
The two agree: once the segments are loaded, every block is where its placement says.

* `Layout.headerOf`, `Layout.headerBytes_eq` — the header of blocks that all have an address.  It is
  never refused, so **a layout that is refused is refused before its header.**
* `Layout.allocate_eq_ok_iff`, `Layout.allocate_eq_error_iff` — what an allocation decides.
* `Layout.IsImage` — what is expected of a layout.
* `Layout.isImage_of_allocate` — every layout is an image.
-/

namespace DeltaScript

/-! ## The header -/

/-- The address of a block is that of its placement, where no block is placed twice. -/
theorem Placement.addressOf?_of_mem {placements : List Placement}
    (hnodup : (placements.map Placement.block).Nodup) {p : Placement} (hp : p ∈ placements) :
    addressOf? placements p.block = some p.address := by
  induction placements with
  | nil => cases hp
  | cons q rest ih =>
      obtain ⟨hnot, hrest⟩ := List.nodup_cons.mp hnodup
      rw [addressOf?, List.find?_cons]
      rcases List.mem_cons.mp hp with rfl | hp
      · simp
      · have hne : (q.block == p.block) = false :=
          beq_eq_false_iff_ne.mpr fun h => hnot (h ▸ List.mem_map_of_mem hp)
        rw [hne]
        exact ih hrest hp

namespace Layout

variable {blocks : Blocks} {placements : List Placement}

/-- The header, once every block has an address. -/
def headerOf (blocks : Blocks) (address : Block → UInt16) : List UInt8 :=
  (blocks.scriptBlocks.map address).map UInt16.toUInt8
    ++ (blocks.scriptBlocks.map address).map (fun a => (a / 256).toUInt8)
    ++ ((blocks.tableBlocks.drop 1).map address).flatMap wordBytes
    ++ wordBytes (UInt16.ofNat blocks.maxSteps)

/-- **The header is never refused**, where every block is placed. -/
theorem headerBytes_eq {address : Block → UInt16}
    (h : ∀ block ∈ blocks.all, Placement.addressOf? placements block = some (address block)) :
    headerBytes blocks placements = .ok (headerOf blocks address) := by
  have href : ∀ block ∈ blocks.all, reference placements block = .ok (address block) := by
    intro block hblock
    simp only [reference, h block hblock]
  have hscripts : blocks.scriptBlocks.mapM (reference placements)
      = .ok (blocks.scriptBlocks.map address) :=
    mapM_eq_ok_map fun block hblock => href block (by simp [Blocks.all, hblock])
  have htables : (blocks.tableBlocks.drop 1).mapM (reference placements)
      = .ok ((blocks.tableBlocks.drop 1).map address) :=
    mapM_eq_ok_map fun block hblock =>
      href block (by simp [Blocks.all, List.mem_of_mem_drop hblock])
  rw [headerBytes, bind_eq_ok_iff]
  exact ⟨_, hscripts, bind_eq_ok_iff.mpr ⟨_, htables, rfl⟩⟩

theorem length_flatMap_wordBytes (words : List UInt16) :
    (words.flatMap wordBytes).length = 2 * words.length := by
  induction words with
  | nil => rfl
  | cons w words ih =>
      rw [List.flatMap_cons, List.length_append, ih]
      simp only [wordBytes, List.length_cons, List.length_nil]
      omega

theorem length_headerOf (blocks : Blocks) (address : Block → UInt16) :
    (headerOf blocks address).length = blocks.headerSize := by
  rw [headerOf, Blocks.headerSize, List.length_append, List.length_append, List.length_append,
    length_flatMap_wordBytes]
  simp only [Blocks.scriptBlocks, Blocks.tableBlocks, wordBytes, List.length_map, List.length_drop,
    List.length_range, List.length_cons, List.length_nil]
  omega

/-- The address that a block is looked up at; meant for blocks that are placed. -/
def addressIn (placements : List Placement) (block : Block) : UInt16 :=
  (Placement.addressOf? placements block).getD 0

theorem addressIn_block (hperm : (placements.map Placement.block).Perm blocks.all) {p : Placement}
    (hp : p ∈ placements) :
    Placement.addressOf? placements p.block = some p.address
      ∧ addressIn placements p.block = p.address := by
  have hsome := Placement.addressOf?_of_mem (hperm.nodup_iff.mpr blocks.nodup_all) hp
  exact ⟨hsome, by rw [addressIn, hsome]; rfl⟩

/-- **The address that is looked up is that of the placement of the block.** -/
theorem exists_placement (hperm : (placements.map Placement.block).Perm blocks.all) {block : Block}
    (hblock : block ∈ blocks.all) :
    ∃ p ∈ placements, p.block = block ∧ addressIn placements block = p.address
      ∧ Placement.addressOf? placements block = some (addressIn placements block) := by
  obtain ⟨p, hp, rfl⟩ := List.mem_map.mp (hperm.mem_iff.mpr hblock)
  obtain ⟨hsome, haddress⟩ := addressIn_block hperm hp
  exact ⟨p, hp, rfl, haddress, haddress ▸ hsome⟩

/-! ## What an allocation decides -/

theorem map_block_of_place {mode : Mode} {addresses : List UInt16}
    (h : place blocks mode = .ok (placements, addresses)) :
    (placements.map Placement.block).Perm blocks.all := by
  obtain ⟨-, placed, number, used, -, hperm, rfl, -⟩ := arranged_of_place h
  rw [List.map_map]
  exact hperm

/-- **The header is never refused**, where placements are found. -/
theorem headerBytes_of_place {mode : Mode} {addresses : List UInt16}
    (h : place blocks mode = .ok (placements, addresses)) :
    headerBytes blocks placements = .ok (headerOf blocks (addressIn placements)) := by
  refine headerBytes_eq fun block hblock => ?_
  obtain ⟨p, -, -, -, hsome⟩ := exists_placement (map_block_of_place h) hblock
  exact hsome

/-- The layout that is made of placements. -/
def ofPlacements (blocks : Blocks) (placements : List Placement) (addresses : List UInt16) :
    Layout where
  placements := placements
  segments := segmentsAt blocks (headerOf blocks (addressIn placements)) placements addresses
  summary := summarize blocks (headerOf blocks (addressIn placements))

/-- **An allocation succeeds if the longest track is not too long and placements are found.** -/
theorem allocate_eq_ok_iff {mode : Mode} {l : Layout} :
    allocate blocks mode = .ok l ↔ blocks.maxSteps ≤ 0xFFFF ∧ ∃ placements addresses,
      place blocks mode = .ok (placements, addresses)
        ∧ l = ofPlacements blocks placements addresses := by
  rw [allocate]
  split_ifs with hsteps
  · simp [not_le.mpr hsteps]
  · rw [bind_eq_ok_iff]
    constructor
    · rintro ⟨⟨placements, addresses⟩, hplace, h⟩
      obtain ⟨header, hbytes, h⟩ := bind_eq_ok_iff.mp h
      obtain rfl := Except.ok.inj ((headerBytes_of_place hplace).symm.trans hbytes)
      exact ⟨not_lt.mp hsteps, placements, addresses, hplace, (Except.ok.inj h).symm⟩
    · rintro ⟨-, placements, addresses, hplace, rfl⟩
      exact ⟨(placements, addresses), hplace,
        bind_eq_ok_iff.mpr ⟨_, headerBytes_of_place hplace, rfl⟩⟩

theorem allocate_of_steps {mode : Mode} (h : 0xFFFF < blocks.maxSteps) :
    allocate blocks mode = .error (.tooManySteps blocks.maxSteps) := by
  rw [allocate, if_pos h]

/-- **An allocation fails as finding placements does**, where the longest track is not too long. -/
theorem allocate_eq_error_iff {mode : Mode} (hsteps : blocks.maxSteps ≤ 0xFFFF) {e : Failure} :
    allocate blocks mode = .error e ↔ place blocks mode = .error e := by
  rw [allocate, if_neg (not_lt.mpr hsteps), bind_eq_error_iff]
  refine ⟨?_, Or.inl⟩
  rintro (h | ⟨⟨placements, addresses⟩, hplace, h⟩)
  · exact h
  · rcases bind_eq_error_iff.mp h with h | ⟨_, _, h⟩
    · rw [headerBytes_of_place hplace] at h
      cases h
    · cases h

@[simp] theorem getElem?_segmentsAt (blocks : Blocks) (header : List UInt8)
    (placements : List Placement) (addresses : List UInt16) (k : ℕ) :
    (segmentsAt blocks header placements addresses)[k]?
      = addresses[k]?.map fun address => ⟨address, segmentBytes blocks header placements k⟩ := by
  simp [segmentsAt, List.getElem?_zipIdx, Function.comp_def]

@[simp] theorem length_segmentsAt (blocks : Blocks) (header : List UInt8)
    (placements : List Placement) (addresses : List UInt16) :
    (segmentsAt blocks header placements addresses).length = addresses.length := by
  simp [segmentsAt]

end Layout

/-! ## The segments of arranged blocks -/

namespace Arranged

variable {bins used : List Bin} {blocks : Blocks} {header : List UInt8} {placed : List Placement}
  {number : ℕ → ℕ}

/-- The segments of arranged blocks. -/
abbrev segments (blocks : Blocks) (header : List UInt8) (placed : List Placement)
    (number : ℕ → ℕ) (used : List Bin) : List Segment :=
  Layout.segmentsAt blocks header (placed.map (Placement.renumber number)) (used.map Bin.address)

/-- **A bin that holds bytes becomes a segment** at its address, with its bytes. -/
theorem getElem?_segments (h : Arranged bins blocks.size placed number used)
    (hheader : header.length = blocks.headerSize) {slot : ℕ} {bin : Bin}
    (hbin : bins[slot]? = some bin) (hslot : 0 < Placement.load placed slot) :
    (segments blocks header placed number used)[number slot]?
      = some ⟨bin.address, Layout.segmentBytes blocks header placed slot⟩ := by
  rw [Layout.getElem?_segmentsAt, List.getElem?_map, h.used_number slot bin hbin hslot,
    h.segmentBytes_number hheader hslot]
  rfl

/-- **Every segment starts with its bin, is not empty, and stays inside its bin.** -/
theorem forall₂_segments (h : Arranged bins blocks.size placed number used)
    (hheader : header.length = blocks.headerSize) :
    List.Forall₂ (fun bin s => s.address = bin.address ∧ s.bytes ≠ [] ∧ s.stop ≤ bin.stop) used
      (segments blocks header placed number used) := by
  refine List.forall₂_iff_get.mpr ⟨by simp, fun k hk hk' => ?_⟩
  obtain ⟨slot, hslot, rfl⟩ := h.exists_slot k hk
  obtain ⟨bin, hbin, hroom⟩ := h.exists_bin hslot
  have hlength := Packed.length_segmentBytes hheader h.size_eq slot
  have hused : used.get ⟨number slot, hk⟩ = bin :=
    (List.getElem?_eq_some_iff.mp (h.used_number slot bin hbin hslot)).2
  have hsegment := (List.getElem?_eq_some_iff.mp (h.getElem?_segments hheader hbin hslot)).2
  rw [hused, List.get_eq_getElem, hsegment]
  refine ⟨rfl, ?_, ?_⟩
  · rw [← List.length_pos_iff, hlength]
    exact hslot
  · simp only [Segment.stop, Bin.stop, hlength]
    omega

theorem pairwise_segments (h : Arranged bins blocks.size placed number used)
    (hheader : header.length = blocks.headerSize) (hbins : bins.Pairwise Bin.Apart) :
    (segments blocks header placed number used).Pairwise Segment.Apart := by
  obtain ⟨hlength, hall⟩ := List.forall₂_iff_get.mp (h.forall₂_segments hheader)
  refine List.pairwise_iff_getElem.mpr fun i j hi hj hij => ?_
  have hbin := List.pairwise_iff_getElem.mp (hbins.sublist h.sublist) i j (hlength ▸ hi)
    (hlength ▸ hj) hij
  obtain ⟨hi', -, hi''⟩ := hall i (hlength ▸ hi) hi
  obtain ⟨hj', -, hj''⟩ := hall j (hlength ▸ hj) hj
  simp only [List.get_eq_getElem] at hi' hi'' hj' hj''
  simp only [Segment.Apart, Bin.Apart, hi', hj'] at hbin ⊢
  omega

theorem stop_le_of_mem_segments (h : Arranged bins blocks.size placed number used)
    (hheader : header.length = blocks.headerSize) (hbins : ∀ b ∈ bins, b.stop ≤ addressSpace)
    {s : Segment} (hs : s ∈ segments blocks header placed number used) : s.stop ≤ addressSpace := by
  obtain ⟨k, hk, rfl⟩ := List.mem_iff_getElem.mp hs
  obtain ⟨hlength, hall⟩ := List.forall₂_iff_get.mp (h.forall₂_segments hheader)
  obtain ⟨-, -, hstop⟩ := hall k (hlength ▸ hk) hk
  exact le_trans hstop (hbins _ (h.sublist.subset (List.get_mem ..)))

/-- **A block that is not empty lies within its segment, and its bytes are found there**: it stands
in its segment where it stands in its bin. -/
theorem exists_segment (h : Arranged bins blocks.size placed number used)
    (hheader : header.length = blocks.headerSize) (hbins : Bin.Usable bins) {p : Placement}
    (hp : p ∈ placed) (hpos : 0 < p.size) :
    ∃ s before behind, (segments blocks header placed number used)[number p.segment]? = some s
      ∧ p.address.toNat = s.address.toNat + before.length
      ∧ s.bytes = before ++ Layout.blockBytes blocks header p.block ++ behind := by
  obtain ⟨after, hpacked⟩ := h.packed
  obtain ⟨bin, before, behind, hbin, haddress, hroom, hbytes⟩ :=
    hpacked.exists_segmentBytes hheader hp
  have hslot : 0 < Placement.load placed p.segment := Placement.load_pos_iff.mpr ⟨p, hp, rfl, hpos⟩
  refine ⟨_, before, behind, h.getElem?_segments hheader hbin hslot, ?_, hbytes⟩
  rw [Nat.zero_add] at haddress hroom
  rw [haddress]
  exact Packed.toNat_addressAt_of_lt (hbins.stop_le bin (List.mem_of_getElem? hbin)) hpos hroom

/-- **Once the segments are loaded, every block is where its placement says.** -/
theorem bytes_loadAll (h : Arranged bins blocks.size placed number used)
    (hheader : header.length = blocks.headerSize) (hbins : Bin.Usable bins) (m : Memory)
    {p : Placement} (hp : p ∈ placed) :
    (m.loadAll (segments blocks header placed number used)).bytes p.address.toNat p.size
      = Layout.blockBytes blocks header p.block := by
  have hlength : (Layout.blockBytes blocks header p.block).length = p.size := by
    rw [Packed.length_blockBytes hheader, h.size_eq p hp]
  rcases Nat.eq_zero_or_pos p.size with hzero | hpos
  · rw [hzero] at hlength ⊢
    exact (List.eq_nil_of_length_eq_zero hlength).symm
  · obtain ⟨s, before, behind, hs, haddress, hbytes⟩ := h.exists_segment hheader hbins hp hpos
    have hfound := m.bytes_loadAll
      (fun t ht => h.stop_le_of_mem_segments hheader hbins.stop_le ht)
      (h.pairwise_segments hheader hbins.apart) (List.mem_of_getElem? hs) hbytes
    rwa [hlength, ← haddress] at hfound

end Arranged

/-- Where every block has a segment, the segments hold all bytes. -/
theorem Placement.sum_load {placements : List Placement} {n : ℕ}
    (h : ∀ p ∈ placements, p.segment < n) :
    ∑ k ∈ Finset.range n, load placements k = (placements.map Placement.size).sum := by
  induction placements with
  | nil => simp
  | cons p placements ih =>
      have hp : p.segment ∈ Finset.range n := Finset.mem_range.mpr (h p (by simp))
      simp only [load_cons, Finset.sum_add_distrib, Finset.sum_ite_eq, if_pos hp, List.map_cons,
        List.sum_cons]
      rw [ih fun q hq => h q (List.mem_cons_of_mem p hq)]

namespace Layout

theorem length_flatMap_segmentsAt (blocks : Blocks) (header : List UInt8)
    (placements : List Placement) (addresses : List UInt16) :
    ((segmentsAt blocks header placements addresses).flatMap Segment.bytes).length
      = ∑ k ∈ Finset.range addresses.length, (segmentBytes blocks header placements k).length := by
  rw [List.length_flatMap]
  have hmap : (segmentsAt blocks header placements addresses).map (fun s => s.bytes.length)
      = (List.range addresses.length).map fun k =>
          (segmentBytes blocks header placements k).length := by
    apply List.ext_getElem (by simp)
    intro k hk hk'
    simp [segmentsAt]
  rw [hmap]
  rfl

theorem totalBytes_summarize {blocks : Blocks} {header : List UInt8}
    (hheader : header.length = blocks.headerSize) :
    (summarize blocks header).totalBytes = blocks.totalSize := by
  simp only [summarize, Summary.totalBytes, Blocks.totalSize, hheader]

/-! ## Images -/

/-- A layout is an image of blocks in bins. -/
structure IsImage (l : Layout) (blocks : Blocks) (bins : List Bin) : Prop where
  /-- Every block is placed. -/
  placed : (l.placements.map Placement.block).Perm blocks.all
  /-- No block is placed twice. -/
  nodup : (l.placements.map Placement.block).Nodup
  /-- Each placement has the size of its block. -/
  size_eq : ∀ p ∈ l.placements, p.size = blocks.size p.block
  /-- What is not empty lies within one bin. -/
  within : ∀ p ∈ l.placements, 0 < p.size → ∃ bin ∈ bins,
    bin.address.toNat ≤ p.address.toNat ∧ p.stop ≤ bin.stop
  /-- What is not empty shares no address with anything else. -/
  apart : l.placements.Pairwise fun p q => 0 < p.size → 0 < q.size → p.Apart q
  /-- Every block has a segment. -/
  segment_lt : ∀ p ∈ l.placements, p.segment < l.segments.length
  /-- What is not empty lies within its segment. -/
  within_segment : ∀ p ∈ l.placements, 0 < p.size → ∃ s, l.segments[p.segment]? = some s
    ∧ s.address.toNat ≤ p.address.toNat ∧ p.stop ≤ s.stop
  /-- Each segment belongs to a bin of its own, in the order of the bins: it starts with the bin, is
  not empty, and stays inside the bin. -/
  segments : ∃ used, used.Sublist bins ∧ List.Forall₂ (fun bin s =>
    s.address = bin.address ∧ s.bytes ≠ [] ∧ s.stop ≤ bin.stop) used l.segments
  /-- No two segments start at one address. -/
  distinct : (l.segments.map Segment.address).Nodup
  /-- Once the segments are loaded, each block is where its placement says, whatever was in memory
  before. -/
  loaded : ∃ header, headerBytes blocks l.placements = .ok header ∧
    ∀ (m : Memory), ∀ p ∈ l.placements,
      (m.loadAll l.segments).bytes p.address.toNat p.size = blockBytes blocks header p.block
  /-- The segments hold the bytes of the blocks and no others. -/
  totalBytes_eq : l.totalBytes = blocks.totalSize
  /-- As many bytes are reported. -/
  summary_eq : l.summary.totalBytes = blocks.totalSize

end Layout

namespace Arranged

variable {bins used : List Bin} {blocks : Blocks} {header : List UInt8} {placed : List Placement}
  {number : ℕ → ℕ}

theorem length_segments (h : Arranged bins blocks.size placed number used)
    (hheader : header.length = blocks.headerSize)
    (hperm : (placed.map Placement.block).Perm blocks.all) :
    ((segments blocks header placed number used).flatMap Segment.bytes).length
      = blocks.totalSize := by
  have hsize : ∀ p ∈ placed.map (Placement.renumber number), p.size = blocks.size p.block := by
    intro p hp
    obtain ⟨q, hq, rfl⟩ := List.mem_map.mp hp
    exact h.size_eq q hq
  have hsegment : ∀ p ∈ placed.map (Placement.renumber number), p.segment < used.length := by
    intro p hp
    obtain ⟨q, hq, rfl⟩ := List.mem_map.mp hp
    exact h.number_lt q hq
  calc ((segments blocks header placed number used).flatMap Segment.bytes).length
      = ∑ k ∈ Finset.range used.length,
          Placement.load (placed.map (Placement.renumber number)) k := by
        rw [Layout.length_flatMap_segmentsAt, List.length_map]
        exact Finset.sum_congr rfl fun k _ => Packed.length_segmentBytes hheader hsize k
    _ = ((placed.map (Placement.renumber number)).map Placement.size).sum :=
        Placement.sum_load hsegment
    _ = ((placed.map Placement.block).map blocks.size).sum := by
        rw [List.map_map, List.map_map]
        exact congrArg List.sum (List.map_congr_left fun p hp => h.size_eq p hp)
    _ = (blocks.all.map blocks.size).sum := (hperm.map blocks.size).sum_eq
    _ = blocks.totalSize := blocks.sum_size_all

theorem nodup_addresses (h : Arranged bins blocks.size placed number used)
    (hbins : Bin.Usable bins) : (used.map Bin.address).Nodup := by
  refine List.pairwise_map.mpr ((hbins.apart.sublist h.sublist).imp_of_mem ?_)
  intro a b ha hb hapart heq
  have hposA := hbins.capacity_pos a (h.sublist.subset ha)
  have hposB := hbins.capacity_pos b (h.sublist.subset hb)
  simp only [Bin.Apart, Bin.stop, heq] at hapart
  omega

end Arranged

namespace Layout

/-- Placements that are found make an image. -/
theorem isImage_ofPlacements {blocks : Blocks} {mode : Mode} {placements : List Placement}
    {addresses : List UInt16} (h : place blocks mode = .ok (placements, addresses)) :
    IsImage (ofPlacements blocks placements addresses) blocks mode.bins := by
  have hbytes := headerBytes_of_place h
  have hblocks := map_block_of_place h
  obtain ⟨hbins, placed, number, used, harranged, hperm, rfl, rfl⟩ := arranged_of_place h
  obtain ⟨after, hpacked⟩ := harranged.packed
  have hheader := length_headerOf blocks (addressIn (placed.map (Placement.renumber number)))
  constructor
  case placed => exact hblocks
  case nodup => exact hblocks.nodup_iff.mpr blocks.nodup_all
  case size_eq =>
    intro p hp
    obtain ⟨q, hq, rfl⟩ := List.mem_map.mp hp
    exact harranged.size_eq q hq
  case within =>
    intro p hp hpos
    obtain ⟨q, hq, rfl⟩ := List.mem_map.mp hp
    obtain ⟨bin, hbin, hlow, hhigh⟩ := hpacked.within hbins.stop_le hq hpos
    exact ⟨bin, List.mem_of_getElem? hbin, hlow, hhigh⟩
  case apart =>
    exact List.pairwise_map.mpr (hpacked.pairwise_apart hbins.stop_le hbins.apart)
  case segment_lt =>
    intro p hp
    obtain ⟨q, hq, rfl⟩ := List.mem_map.mp hp
    rw [ofPlacements, length_segmentsAt, List.length_map]
    exact harranged.number_lt q hq
  case within_segment =>
    intro p hp hpos
    obtain ⟨q, hq, rfl⟩ := List.mem_map.mp hp
    obtain ⟨s, before, behind, hs, haddress, hcontent⟩ :=
      harranged.exists_segment hheader hbins hq hpos
    have hlength := congrArg List.length hcontent
    rw [List.length_append, List.length_append, Packed.length_blockBytes hheader,
      ← harranged.size_eq q hq] at hlength
    refine ⟨s, hs, ?_, ?_⟩
    · simp only [Placement.renumber]
      omega
    · simp only [Placement.stop, Segment.stop, Placement.renumber]
      omega
  case segments => exact ⟨used, harranged.sublist, harranged.forall₂_segments hheader⟩
  case distinct =>
    have haddresses : (ofPlacements blocks (placed.map (Placement.renumber number))
        (used.map Bin.address)).segments.map Segment.address = used.map Bin.address := by
      apply List.ext_getElem (by simp [ofPlacements])
      intro k hk hk'
      simp [ofPlacements, segmentsAt]
    rw [haddresses]
    exact harranged.nodup_addresses hbins
  case loaded =>
    refine ⟨_, hbytes, fun m p hp => ?_⟩
    obtain ⟨q, hq, rfl⟩ := List.mem_map.mp hp
    have hfound := harranged.bytes_loadAll hheader hbins m hq
    exact hfound
  case totalBytes_eq => exact harranged.length_segments hheader hperm
  case summary_eq => exact totalBytes_summarize hheader

/-- **A block is found where it is looked up.** -/
theorem bytes_addressIn {blocks : Blocks} {mode : Mode} {placements : List Placement}
    {addresses : List UInt16} (h : place blocks mode = .ok (placements, addresses)) (m : Memory)
    {block : Block} (hblock : block ∈ blocks.all) :
    (m.loadAll (ofPlacements blocks placements addresses).segments).bytes
        (addressIn placements block).toNat (blocks.size block)
      = blockBytes blocks (headerOf blocks (addressIn placements)) block := by
  have himage := isImage_ofPlacements h
  obtain ⟨header, hheader, hloaded⟩ := himage.loaded
  obtain rfl := Except.ok.inj ((headerBytes_of_place h).symm.trans hheader)
  obtain ⟨p, hp, rfl, haddress, -⟩ := exists_placement (map_block_of_place h) hblock
  rw [haddress, ← himage.size_eq p hp]
  exact hloaded m p hp

theorem addressIn_add_size_le {blocks : Blocks} {mode : Mode} {placements : List Placement}
    {addresses : List UInt16} (h : place blocks mode = .ok (placements, addresses)) {block : Block}
    (hblock : block ∈ blocks.all) (hpos : 0 < blocks.size block) :
    (addressIn placements block).toNat + blocks.size block ≤ addressSpace := by
  have himage := isImage_ofPlacements h
  obtain ⟨p, hp, rfl, haddress, -⟩ := exists_placement (map_block_of_place h) hblock
  have hsize : p.size = blocks.size p.block := himage.size_eq p hp
  obtain ⟨bin, hbin, -, hstop⟩ := himage.within p hp (hsize ▸ hpos)
  have hspace := (arranged_of_place h).1.stop_le bin hbin
  rw [haddress, ← hsize]
  exact le_trans hstop hspace

/-- **Every layout is an image of its blocks**, whatever the mode (the ends of its bins
are machine words). -/
theorem isImage_of_allocate {blocks : Blocks} {mode : Mode} {l : Layout}
    (h : allocate blocks mode = .ok l) : IsImage l blocks mode.bins := by
  obtain ⟨-, placements, addresses, hplace, rfl⟩ := allocate_eq_ok_iff.mp h
  exact isImage_ofPlacements hplace

end Layout

/-! ## Blocks over five bins

Two blocks are empty, one bin ends with the address space, and one is not used.
-/

/-- A script and a table are empty. -/
def Blocks.scattered : Blocks where
  scripts := [⟨0, [192, 0, 128]⟩, ⟨1, []⟩, ⟨2, [128]⟩]
  tables := [[1, 255], [3, 4], []]
  maxSteps := 2

/-- The bins are out of order. -/
def Bin.scattered : List Bin :=
  [.mk 0xFFFC 4, .mk 0x2000 12, .mk 0x2800 2, .mk 0x3000 100, .mk 0x4000 16]

/-- What becomes of them.  The empty blocks are placed behind the last address, which counts as the
last one. -/
def Layout.scattered : Layout where
  placements := [⟨.header, 0x2000, 12, 1⟩, ⟨.table 0, 0xFFFC, 2, 0⟩, ⟨.table 1, 0xFFFE, 2, 0⟩,
    ⟨.table 2, 0xFFFF, 0, 0⟩, ⟨.script 0, 0x3000, 3, 3⟩, ⟨.script 2, 0x2800, 1, 2⟩,
    ⟨.script 1, 0xFFFF, 0, 0⟩]
  segments := [⟨0xFFFC, [1, 255, 3, 4]⟩,
    ⟨0x2000, [0, 255, 0, 0x30, 255, 0x28, 0xFE, 255, 255, 255, 2, 0]⟩, ⟨0x2800, [128]⟩,
    ⟨0x3000, [192, 0, 128]⟩]
  summary := ⟨3, 2, 2, 12, 4, 4⟩

theorem Layout.isImage_scattered :
    allocate Blocks.scattered (.chunked Bin.scattered) = .ok scattered
      ∧ IsImage scattered Blocks.scattered Bin.scattered := by
  have h : allocate Blocks.scattered (.chunked Bin.scattered) = .ok scattered := by cbv
  exact ⟨h, isImage_of_allocate h⟩

end DeltaScript
