import Mathlib
import DeltaScript.Proofs.Layout

/-!
# The header leads to the blocks

The header is given its room before any address is known, and is written once all of them are.  It
holds the addresses of the scripts as two columns of bytes, those of the tables but the first as
words, and the length of the longest track.

* `Placement.position`, `Mode.position?` — where a block is put, before an address is made of that;
  `Layout.exists_position`: the address is the position, where the position is an address.
* `Layout.wordIn` — a word whose two bytes stand at two places.
* `Layout.wordIn_script`, `Layout.wordIn_table`, `Layout.wordIn_steps` — **what the header says.**
* `Layout.Resolves` — what is expected of a header.
* `Layout.resolves_of_allocate` — every layout has a header that leads to all blocks.
-/

namespace DeltaScript

/-! ## Positions -/

namespace Placement

variable {bins : List Bin} {placed : List Placement}

/-- Where a block is put: behind the first address of its bin and the blocks that were put into the
bin before. -/
def position (bins : List Bin) (placed : List Placement) (p : Placement) : ℕ :=
  (bins[p.segment]?.map fun bin => bin.address.toNat).getD 0
    + load (placed.takeWhile (·.block != p.block)) p.segment

theorem takeWhile_block_ne {before after : List Placement} {p : Placement}
    (h : p.block ∉ before.map Placement.block) :
    (before ++ p :: after).takeWhile (·.block != p.block) = before := by
  have hbefore : ∀ q ∈ before, (q.block != p.block) = true := by
    intro q hq
    rw [bne_iff_ne]
    intro heq
    exact h (List.mem_map.mpr ⟨q, hq, heq⟩)
  rw [List.takeWhile_append_of_pos hbefore, List.takeWhile_cons_of_neg (by simp), List.append_nil]

end Placement

/-- **The address of a packed block is made of its position**, which the block does not pass the end
of the address space from. -/
theorem Packed.address_eq {bins : List Bin} {size : Block → ℕ} {placed : List Placement}
    {after : ℕ → ℕ} (h : Packed bins size (fun _ => 0) placed after)
    (hstop : ∀ b ∈ bins, b.stop ≤ addressSpace) (hnodup : (placed.map Placement.block).Nodup)
    {p : Placement} (hp : p ∈ placed) :
    p.address = addressAt (p.position bins placed)
      ∧ p.position bins placed + p.size ≤ addressSpace := by
  obtain ⟨before, behind, rfl⟩ := List.append_of_mem hp
  have hnot : p.block ∉ before.map Placement.block := by
    rw [List.map_append, List.map_cons] at hnodup
    intro hmem
    exact (List.nodup_append.mp hnodup).2.2 _ hmem _ List.mem_cons_self rfl
  obtain ⟨bin, hbin, haddress, hroom, -⟩ := h.exists_cursor
  have hposition : p.position bins (before ++ p :: behind)
      = bin.address.toNat + Placement.load before p.segment := by
    rw [Placement.position, hbin, Placement.takeWhile_block_ne hnot]
    rfl
  have hspace := hstop bin (List.mem_of_getElem? hbin)
  simp only [Bin.stop] at hspace
  rw [Nat.zero_add] at haddress hroom
  rw [hposition]
  exact ⟨haddress, by omega⟩

/-- Where a mode puts a block. -/
def Mode.position? (mode : Mode) (blocks : Blocks) (block : Block) : Option ℕ :=
  ((mode.placed blocks).find? (·.block == block)).map
    (Placement.position mode.bins (mode.placed blocks))

/-! ## Words of the header -/

/-- A word is the sum of its two bytes. -/
theorem toNat_low_add_high (w : UInt16) :
    w.toUInt8.toNat + 256 * (w / 256).toUInt8.toNat = w.toNat := by
  have hw := w.toNat_lt
  simp only [UInt16.toNat_toUInt8, UInt16.toNat_div, UInt16.reduceToNat, Nat.reducePow] at *
  omega

namespace Layout

/-- The word whose low and high byte stand at two places. -/
def wordIn (bytes : List UInt8) (low high : ℕ) : ℕ :=
  (bytes.getD low 0).toNat + 256 * (bytes.getD high 0).toNat

theorem wordIn_append_left {front : List UInt8} (back : List UInt8) {low high : ℕ}
    (hlow : low < front.length) (hhigh : high < front.length) :
    wordIn (front ++ back) low high = wordIn front low high := by
  rw [wordIn, List.getD_append _ _ _ _ hlow, List.getD_append _ _ _ _ hhigh]
  rfl

theorem wordIn_append_right {front : List UInt8} (back : List UInt8) {n : ℕ}
    (hn : front.length = n) (low high : ℕ) :
    wordIn (front ++ back) (n + low) (n + high) = wordIn back low high := by
  subst hn
  rw [wordIn, List.getD_append_right _ _ _ _ (Nat.le_add_right ..),
    List.getD_append_right _ _ _ _ (Nat.le_add_right ..), Nat.add_sub_cancel_left,
    Nat.add_sub_cancel_left]
  rfl

/-- Words in two columns, that of the low bytes before that of the high bytes. -/
theorem wordIn_columns {words : List UInt16} {length n : ℕ} (hlength : words.length = length)
    (hn : n < words.length) :
    wordIn (words.map UInt16.toUInt8 ++ words.map fun w => (w / 256).toUInt8) n (length + n)
      = words[n].toNat := by
  subst hlength
  have hlow : (words.map UInt16.toUInt8)[n]? = some words[n].toUInt8 := by simp [hn]
  have hhigh : (words.map fun w => (w / 256).toUInt8)[n]? = some (words[n] / 256).toUInt8 := by
    simp [hn]
  rw [← toNat_low_add_high words[n], wordIn, List.getD_append _ _ _ _ (by simpa using hn),
    List.getD_append_right _ _ _ _ (by simp), List.length_map, Nat.add_sub_cancel_left,
    List.getD_eq_getElem?_getD, List.getD_eq_getElem?_getD, hlow, hhigh]
  rfl

/-- Words one after the other. -/
theorem wordIn_flatMap (words : List UInt16) {n : ℕ} (hn : n < words.length) :
    wordIn (words.flatMap wordBytes) (2 * n) (2 * n + 1) = words[n].toNat := by
  induction words generalizing n with
  | nil => simp at hn
  | cons w words ih =>
      cases n with
      | zero => exact toNat_low_add_high w
      | succ n => exact ih (Nat.lt_of_succ_lt_succ hn)

section Header

variable (blocks : Blocks) (address : Block → UInt16)

theorem length_scriptBlocks : blocks.scriptBlocks.length = blocks.scripts.length := by
  simp [Blocks.scriptBlocks]

theorem length_tableBlocks : blocks.tableBlocks.length = blocks.tables.length := by
  simp [Blocks.tableBlocks]

/-- **The header tells the address of every script.** -/
theorem wordIn_script {object : ℕ} (hobject : object < blocks.scripts.length) :
    wordIn (headerOf blocks address) object (blocks.scripts.length + object)
      = (address (.script object)).toNat := by
  have hlength : (blocks.scriptBlocks.map address).length = blocks.scripts.length := by
    rw [List.length_map, length_scriptBlocks]
  have hcolumns := wordIn_columns hlength (hlength.symm ▸ hobject)
  rw [headerOf, List.append_assoc, wordIn_append_left, hcolumns]
  · simp [Blocks.scriptBlocks]
  · simp only [List.length_append, List.length_map, length_scriptBlocks]
    omega
  · simp only [List.length_append, List.length_map, length_scriptBlocks]
    omega

/-- **The header tells the address of every table but the first.** -/
theorem wordIn_table {index : ℕ} (hindex : index + 1 < blocks.tables.length) :
    wordIn (headerOf blocks address) (2 * blocks.scripts.length + 2 * index)
      (2 * blocks.scripts.length + (2 * index + 1)) = (address (.table (index + 1))).toNat := by
  have hlength : ((blocks.tableBlocks.drop 1).map address).length = blocks.tables.length - 1 := by
    rw [List.length_map, List.length_drop, length_tableBlocks]
  have hword : index < ((blocks.tableBlocks.drop 1).map address).length := by omega
  have hwords := wordIn_flatMap _ hword
  rw [headerOf, List.append_assoc, wordIn_append_right, wordIn_append_left, hwords]
  · simp [Blocks.tableBlocks]
  · rw [length_flatMap_wordBytes]
    omega
  · rw [length_flatMap_wordBytes]
    omega
  · simp only [List.length_append, List.length_map, length_scriptBlocks]
    omega

/-- **The last word of the header is the length of the longest track.** -/
theorem wordIn_steps (hsteps : blocks.maxSteps ≤ 0xFFFF) :
    wordIn (headerOf blocks address) (blocks.headerSize - 2) (blocks.headerSize - 1)
      = blocks.maxSteps := by
  have hlength : ((blocks.scriptBlocks.map address).map UInt16.toUInt8
      ++ (blocks.scriptBlocks.map address).map (fun a => (a / 256).toUInt8)
      ++ ((blocks.tableBlocks.drop 1).map address).flatMap wordBytes).length
        = blocks.headerSize - 2 := by
    simp only [List.length_append, List.length_map, length_flatMap_wordBytes, List.length_drop,
      length_scriptBlocks, length_tableBlocks, Blocks.headerSize]
    omega
  have hlast : blocks.headerSize - 1 = blocks.headerSize - 2 + 1 := by
    simp only [Blocks.headerSize]
    omega
  have hword := wordIn_append_right (wordBytes (UInt16.ofNat blocks.maxSteps)) hlength 0 1
  rw [headerOf, hlast]
  refine hword.trans ((toNat_low_add_high _).trans ?_)
  rw [UInt16.toNat_ofNat']
  exact Nat.mod_eq_of_lt (by omega)

end Header

/-! ## Layouts -/

/-- A header leads to all blocks of a layout. -/
structure Resolves (l : Layout) (blocks : Blocks) (mode : Mode) (header : List UInt8) : Prop where
  /-- The header is as long as the room that was set aside for it. -/
  length_eq : header.length = blocks.headerSize
  /-- The header stands in a segment, at its address. -/
  placed : ∃ p ∈ l.placements, p.block = .header ∧ p.size = blocks.headerSize
    ∧ l.addressOf? .header = some p.address
    ∧ ∃ s before behind, l.segments[p.segment]? = some s
      ∧ p.address.toNat = s.address.toNat + before.length ∧ s.bytes = before ++ header ++ behind
  /-- The low and the high byte of the address of each script stand in two columns. -/
  script : ∀ object < blocks.scripts.length, ∃ a, l.addressOf? (.script object) = some a
    ∧ wordIn header object (blocks.scripts.length + object) = a.toNat
  /-- The addresses of the tables but the first follow. -/
  table : ∀ index, 1 ≤ index → index < blocks.tables.length →
    ∃ a, l.addressOf? (.table index) = some a
      ∧ wordIn header (2 * blocks.scripts.length + 2 * (index - 1))
        (2 * blocks.scripts.length + 2 * (index - 1) + 1) = a.toNat
  /-- The last word is the length of the longest track. -/
  steps : wordIn header (blocks.headerSize - 2) (blocks.headerSize - 1) = blocks.maxSteps
  /-- Once the segments are loaded, each block is found at its address, whatever was in memory
  before. -/
  found : ∀ block ∈ blocks.all, ∃ a, l.addressOf? block = some a
    ∧ (0 < blocks.size block → a.toNat + blocks.size block ≤ addressSpace)
    ∧ ∀ m : Memory, (m.loadAll l.segments).bytes a.toNat (blocks.size block)
      = blockBytes blocks header block
  /-- Each block is put at a position, which is its address.  Only an empty block is put behind the
  last address, and its address is the last one. -/
  position : ∀ block ∈ blocks.all, ∃ position a, mode.position? blocks block = some position
    ∧ l.addressOf? block = some a ∧ position + blocks.size block ≤ addressSpace
    ∧ (position < addressSpace → a.toNat = position)
    ∧ (position = addressSpace → blocks.size block = 0 ∧ a = 0xFFFF)

variable {blocks : Blocks} {mode : Mode} {placements : List Placement} {addresses : List UInt16}

/-- A lookup among renumbered placements finds the address of the placement that was renumbered. -/
theorem addressOf?_map_renumber (number : ℕ → ℕ) (placed : List Placement) (block : Block) :
    Placement.addressOf? (placed.map (Placement.renumber number)) block
      = (placed.find? (·.block == block)).map Placement.address := by
  rw [Placement.addressOf?, List.find?_map, Option.map_map]
  rfl

/-- **The address of every block is made of its position.** -/
theorem exists_position (h : place blocks mode = .ok (placements, addresses)) {block : Block}
    (hblock : block ∈ blocks.all) :
    ∃ position, mode.position? blocks block = some position
      ∧ Placement.addressOf? placements block = some (addressAt position)
      ∧ position + blocks.size block ≤ addressSpace := by
  obtain ⟨hbins, number, used, harranged, hperm, rfl, -⟩ := arranged_placed h
  obtain ⟨after, hpacked⟩ := harranged.packed
  have hnodup := hperm.nodup_iff.mpr blocks.nodup_all
  obtain ⟨q, hq, hqblock⟩ := List.mem_map.mp (hperm.mem_iff.mpr hblock)
  obtain ⟨p, hfind⟩ : ∃ p, (mode.placed blocks).find? (·.block == block) = some p := by
    rw [← Option.isSome_iff_exists, List.find?_isSome]
    exact ⟨q, hq, by simp [hqblock]⟩
  have hp := List.mem_of_find?_eq_some hfind
  have hpblock : p.block = block := by simpa using List.find?_some hfind
  obtain ⟨haddress, hroom⟩ := hpacked.address_eq hbins.stop_le hnodup hp
  refine ⟨p.position mode.bins (mode.placed blocks), ?_, ?_, ?_⟩
  · rw [Mode.position?, hfind]
    rfl
  · rw [addressOf?_map_renumber, hfind]
    exact congrArg some haddress
  · rwa [← hpblock, ← harranged.size_eq p hp]

/-- What is not empty stands in its segment, at its address. -/
theorem exists_segment_of_place (h : place blocks mode = .ok (placements, addresses))
    {p : Placement} (hp : p ∈ placements) (hpos : 0 < p.size) :
    ∃ s before behind, (ofPlacements blocks placements addresses).segments[p.segment]? = some s
      ∧ p.address.toNat = s.address.toNat + before.length
      ∧ s.bytes = before ++ blockBytes blocks (headerOf blocks (addressIn placements)) p.block
        ++ behind := by
  obtain ⟨hbins, placed, number, used, harranged, -, rfl, rfl⟩ := arranged_of_place h
  obtain ⟨q, hq, rfl⟩ := List.mem_map.mp hp
  exact harranged.exists_segment (length_headerOf blocks _) hbins hq hpos

/-- **Every layout has a header that leads to all blocks**, whatever the mode (the ends of its bins
are machine words). -/
theorem resolves_of_allocate {l : Layout} (h : allocate blocks mode = .ok l) :
    ∃ header, l.Resolves blocks mode header := by
  obtain ⟨hsteps, placements, addresses, hplace, rfl⟩ := allocate_eq_ok_iff.mp h
  have haddress : ∀ block ∈ blocks.all, Placement.addressOf? placements block
      = some (addressIn placements block) := by
    intro block hblock
    obtain ⟨-, -, -, -, hsome⟩ := exists_placement (map_block_of_place hplace) hblock
    exact hsome
  refine ⟨headerOf blocks (addressIn placements), ?_⟩
  constructor
  case length_eq => exact length_headerOf blocks _
  case placed =>
    have hperm := map_block_of_place hplace
    have hheader : .header ∈ blocks.all := List.mem_cons_self
    obtain ⟨p, hp, hblock, -, -⟩ := exists_placement hperm hheader
    have hsize : p.size = blocks.headerSize := by
      rw [(isImage_ofPlacements hplace).size_eq p hp, hblock]
      rfl
    have hpos : 0 < p.size := by simp [hsize, Blocks.headerSize]
    have hsome := Placement.addressOf?_of_mem (hperm.nodup_iff.mpr blocks.nodup_all) hp
    have hsegment := exists_segment_of_place hplace hp hpos
    rw [hblock] at hsome hsegment
    exact ⟨p, hp, hblock, hsize, hsome, hsegment⟩
  case script =>
    intro object hobject
    refine ⟨_, haddress _ ?_, wordIn_script blocks _ hobject⟩
    simp [Blocks.all, Blocks.scriptBlocks, hobject]
  case table =>
    intro index hpos hindex
    obtain ⟨n, rfl⟩ := Nat.exists_eq_succ_of_ne_zero (Nat.pos_iff_ne_zero.mp hpos)
    refine ⟨_, haddress _ ?_, wordIn_table blocks _ hindex⟩
    simp [Blocks.all, Blocks.tableBlocks, hindex]
  case steps => exact wordIn_steps blocks _ hsteps
  case found =>
    intro block hblock
    refine ⟨_, haddress block hblock, ?_, ?_⟩
    · intro hpos
      exact addressIn_add_size_le hplace hblock hpos
    · intro m
      exact bytes_addressIn hplace m hblock
  case position =>
    intro block hblock
    obtain ⟨position, hposition, hsome, hroom⟩ := exists_position hplace hblock
    refine ⟨position, addressAt position, hposition, hsome, hroom, ?_, ?_⟩
    · intro hlt
      rw [toNat_addressAt]
      simp only [addressSpace] at hlt
      omega
    · rintro rfl
      exact ⟨by omega, rfl⟩

end Layout

/-! ## Empty tables at the end of the address space

The header and the one script fill the address space, so that all tables are put behind the last
address.
-/

/-- The tables are empty. -/
def Blocks.brimful : Blocks where
  scripts := [⟨0, [128]⟩]
  tables := [[], [], []]
  maxSteps := 1

/-- The addresses of the tables do not start over at the first address. -/
def Layout.brimful : Layout where
  placements := [⟨.header, 0xFFF7, 8, 0⟩, ⟨.script 0, 0xFFFF, 1, 0⟩, ⟨.table 0, 0xFFFF, 0, 0⟩,
    ⟨.table 1, 0xFFFF, 0, 0⟩, ⟨.table 2, 0xFFFF, 0, 0⟩]
  segments := [⟨0xFFF7, [255, 255, 255, 255, 255, 255, 1, 0, 128]⟩]
  summary := ⟨1, 1, 0, 8, 0, 1⟩

theorem Layout.resolves_brimful :
    allocate Blocks.brimful (.contiguous 0xFFF7) = .ok brimful
      ∧ (Mode.contiguous 0xFFF7).position? Blocks.brimful (.table 1) = some 0x10000
      ∧ ∃ header, brimful.Resolves Blocks.brimful (.contiguous 0xFFF7) header := by
  have h : allocate Blocks.brimful (.contiguous 0xFFF7) = .ok brimful := by rfl
  exact ⟨h, by rfl, resolves_of_allocate h⟩

end DeltaScript
