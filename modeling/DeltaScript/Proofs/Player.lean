import Mathlib
import DeltaScript.Playback.Player
import DeltaScript.Proofs.Codec
import DeltaScript.Proofs.Layout
import DeltaScript.Proofs.Ranking

/-!
# What a player finds

A player is told where the header and the first table are and finds the rest from there.  What it
finds is what was laid down.

* `Player.scriptPosition_eq`, `Player.tablePosition_eq`, `Player.stepCount_eq` — **the header leads
  to every block it refers to**, and tells the length of the longest track.
* `Memory.instructionsUpToEnd_of_bytes` — a script in memory is read up to its end and no further.
* `signedByte_toByte` — a component that fits a signed byte is read back from its table.
* `Layout.playerOf` — the player of a layout; `Layout.bytes_tablePosition`,
  `Layout.bytes_scriptPosition`: **it finds every table and every script.**
-/

namespace DeltaScript

/-! ## The header -/

namespace Player

variable {p : Player} {blocks : Blocks} {address : Block → UInt16}

/-- The memory of a player holds a header where the player looks for it. -/
structure HasHeader (p : Player) (blocks : Blocks) (address : Block → UInt16) : Prop where
  objects_eq : p.objects = blocks.scripts.length
  attributes_eq : p.attributes = blocks.tables.length
  attributes_pos : 0 < blocks.tables.length
  maxSteps_le : blocks.maxSteps ≤ 0xFFFF
  bytes_eq : p.memory.bytes p.header blocks.headerSize = Layout.headerOf blocks address

/-- The four parts of a header follow one another. -/
theorem HasHeader.parts (h : p.HasHeader blocks address) :
    p.memory.bytes p.header p.objects = (blocks.scriptBlocks.map address).map UInt16.toUInt8
      ∧ p.memory.bytes (p.header + p.objects) p.objects
        = (blocks.scriptBlocks.map address).map (fun a => (a / 256).toUInt8)
      ∧ p.memory.bytes (p.header + 2 * p.objects) (2 * (p.attributes - 1))
        = ((blocks.tableBlocks.drop 1).map address).flatMap wordBytes
      ∧ p.memory.bytes (p.header + 2 * p.objects + 2 * (p.attributes - 1)) 2
        = wordBytes (UInt16.ofNat blocks.maxSteps) := by
  have hbytes := h.bytes_eq
  have hscripts : blocks.scriptBlocks.length = p.objects := by
    rw [h.objects_eq, Blocks.scriptBlocks, List.length_map, List.length_range]
  have htables : (((blocks.tableBlocks.drop 1).map address).flatMap wordBytes).length
      = 2 * (p.attributes - 1) := by
    rw [Layout.length_flatMap_wordBytes, List.length_map, List.length_drop, Blocks.tableBlocks,
      List.length_map, List.length_range, h.attributes_eq]
  obtain ⟨hfront, hsteps⟩ := Memory.bytes_of_append hbytes
  obtain ⟨hfront, htable⟩ := Memory.bytes_of_append hfront
  obtain ⟨hlow, hhigh⟩ := Memory.bytes_of_append hfront
  simp only [List.length_append, List.length_map, hscripts, htables] at hlow hhigh htable hsteps
  rw [← Nat.add_assoc, ← Nat.two_mul] at hsteps
  rw [← Nat.two_mul] at htable
  exact ⟨hlow, hhigh, htable, hsteps⟩

/-- **The two halves of the address of a script are found.** -/
theorem scriptPosition_eq (h : p.HasHeader blocks address) {object : ℕ}
    (hobject : object < p.objects) :
    p.scriptPosition object = (address (.script object)).toNat := by
  obtain ⟨hlow, hhigh, -, -⟩ := h.parts
  have hlength : blocks.scriptBlocks.length = p.objects := by
    rw [h.objects_eq, Blocks.scriptBlocks, List.length_map, List.length_range]
  have hlow := Memory.byte_of_bytes hlow (k := object) (by simpa [hlength] using hobject)
  have hhigh := Memory.byte_of_bytes hhigh (k := object) (by simpa [hlength] using hobject)
  rw [scriptPosition, hlow, hhigh]
  simp only [List.getElem_map, wordOf_wordBytes, Blocks.scriptBlocks, List.getElem_range]

/-- **The address of every table but the first is found.** -/
theorem tablePosition_eq (h : p.HasHeader blocks address) {index : ℕ}
    (hindex : index + 1 < p.attributes) :
    p.tablePosition (index + 1) = (address (.table (index + 1))).toNat := by
  obtain ⟨-, -, htables, -⟩ := h.parts
  have hlength : index < ((blocks.tableBlocks.drop 1).map address).length := by
    rw [List.length_map, List.length_drop, Blocks.tableBlocks, List.length_map, List.length_range,
      ← h.attributes_eq]
    omega
  rw [tablePosition, Memory.word_of_bytes htables hlength]
  simp only [List.getElem_map, List.getElem_drop, Blocks.tableBlocks, List.getElem_range,
    Nat.add_comm 1]

theorem stepCount_eq (h : p.HasHeader blocks address) : p.stepCount = blocks.maxSteps := by
  obtain ⟨-, -, -, hsteps⟩ := h.parts
  have hone : wordBytes (UInt16.ofNat blocks.maxSteps)
      = [UInt16.ofNat blocks.maxSteps].flatMap wordBytes := by simp
  have hword := Memory.word_of_bytes (hsteps.trans hone) (n := 0) (by simp)
  have hmax := h.maxSteps_le
  rw [stepCount, ← Nat.add_zero (_ + 2 * (p.attributes - 1)), hword, List.getElem_singleton,
    UInt16.toNat_ofNat']
  exact Nat.mod_eq_of_lt (by omega)

end Player

/-! ## Scripts -/

namespace Memory

variable {m : Memory} {position length : ℕ}

/-- An encoded instruction in memory is read. -/
theorem instructionAt_of_bytes {i : Instruction} {rest : List UInt8}
    (hbytes : m.bytes position length = i.encode ++ rest)
    (hspace : position + length ≤ addressSpace) :
    m.instructionAt position = some i.masked := by
  obtain ⟨hfront, -⟩ := bytes_of_append hbytes
  have hlength : i.size + rest.length = length := by
    rw [← i.length_encode, ← List.length_append, ← hbytes, length_bytes]
  have hsize : i.size ≤ 3 := by cases i <;> simp [Instruction.size]
  obtain ⟨n, hn⟩ : ∃ n, min 3 (addressSpace - position) = i.size + n :=
    Nat.exists_eq_add_of_le (by omega)
  rw [i.length_encode] at hfront
  rw [instructionAt, hn, bytes_add, hfront, Instruction.decode_encode]
  rfl

/-- **A script in memory is read up to its end**, by induction on what stands before the end. -/
theorem instructionsUpToEnd_of_bytes {body : List Instruction}
    (hbody : Instruction.finish ∉ body) (hcanonical : ∀ i ∈ body, i.IsCanonical)
    (hbytes : m.bytes position length = (body ++ [Instruction.finish]).flatMap Instruction.encode)
    (hspace : position + length ≤ addressSpace) :
    m.instructionsUpToEnd position = some (body ++ [.finish]) := by
  induction body generalizing position length with
  | nil =>
      have hencode : [Instruction.finish].flatMap Instruction.encode
          = Instruction.finish.encode ++ [] := rfl
      have hfinish := instructionAt_of_bytes (hbytes.trans hencode) hspace
      have hlength := congrArg List.length hbytes
      simp only [length_bytes, List.nil_append, List.flatMap_cons, List.flatMap_nil,
        Instruction.encode, List.length_append, List.length_cons, List.length_nil] at hlength
      rw [instructionsUpToEnd, dif_pos (by omega), hfinish]
      rfl
  | cons i body ih =>
      have hi : i.masked = i := Instruction.masked_of_isCanonical (hcanonical i (by simp))
      have hne : i ≠ .finish := fun h => hbody (by simp [h])
      rw [List.cons_append, List.flatMap_cons] at hbytes
      have hlength := congrArg List.length hbytes
      rw [length_bytes, List.length_append, i.length_encode] at hlength
      have hread := instructionAt_of_bytes hbytes hspace
      have hsize := i.size_pos
      obtain ⟨-, hrest⟩ := bytes_of_append hbytes
      have htail := ih (fun h => hbody (List.mem_cons_of_mem i h))
        (fun j hj => hcanonical j (List.mem_cons_of_mem i hj)) hrest
        (by rw [i.length_encode]; omega)
      rw [hi] at hread
      rw [instructionsUpToEnd, dif_pos (by omega), hread, List.cons_append]
      rw [i.length_encode] at htail
      cases i with
      | finish => exact absurd rfl hne
      | _ => simp [htail]

end Memory

/-! ## Tables -/

/-- **A component that fits a signed byte is read back.** -/
theorem signedByte_toByte {component : ℤ} (hlow : -128 ≤ component) (hhigh : component ≤ 127) :
    signedByte (Ranking.toByte component) = component := by
  have hbyte : ((Ranking.toByte component).toNat : ℤ) = component % 256 := by
    rw [Ranking.toByte, UInt8.toNat_ofNat', Nat.mod_eq_of_lt (by omega)]
    omega
  rw [signedByte]
  split_ifs with h
  · omega
  · omega

/-- **A delta whose components fit signed bytes is read back from the tables.** -/
theorem Player.delta_eq {p : Player} {r : Ranking} {index : ℕ} {delta : Delta}
    (htables : ∀ a < p.attributes, p.memory.bytes (p.tablePosition a) r.size = r.table a)
    (hdelta : r.delta? index = some delta) (hlength : delta.length = p.attributes)
    (hbyte : ∀ a < p.attributes, -128 ≤ delta.getD a 0 ∧ delta.getD a 0 ≤ 127) :
    p.delta index = delta := by
  obtain ⟨e, he, rfl⟩ := Option.map_eq_some_iff.mp hdelta
  obtain ⟨hindex, rfl⟩ := List.getElem?_eq_some_iff.mp he
  refine List.ext_getElem (by simp [Player.delta, hlength]) fun a ha hdelta => ?_
  have ha : a < p.attributes := by omega
  have hread := Memory.byte_of_bytes (htables a ha) (k := index)
    (by rw [Ranking.table, List.length_map]; exact hindex)
  obtain ⟨hlow, hhigh⟩ := hbyte a ha
  simp only [Player.delta, List.getElem_map, List.getElem_range, hread, Ranking.table]
  rw [signedByte_toByte hlow hhigh, List.getD_eq_getElem _ _ hdelta]

/-! ## The player of a layout -/

namespace Layout

variable {blocks : Blocks} {mode : Mode} {placements : List Placement} {addresses : List UInt16}

/-- The player of the layout that is made of placements. -/
def playerOf (blocks : Blocks) (placements : List Placement) (addresses : List UInt16)
    (m : Memory) : Player where
  memory := m.loadAll (ofPlacements blocks placements addresses).segments
  header := (addressIn placements .header).toNat
  firstTable := (addressIn placements (.table 0)).toNat
  objects := blocks.scripts.length
  attributes := blocks.tables.length

theorem table_mem_all {a : ℕ} (ha : a < blocks.tables.length) : Block.table a ∈ blocks.all := by
  simp [Blocks.all, Blocks.tableBlocks, ha]

theorem script_mem_all {object : ℕ} (hobject : object < blocks.scripts.length) :
    Block.script object ∈ blocks.all := by
  simp [Blocks.all, Blocks.scriptBlocks, hobject]

/-- A layout with a table has a player. -/
theorem player_ofPlacements (h : place blocks mode = .ok (placements, addresses))
    (htables : 0 < blocks.tables.length) (m : Memory) :
    (ofPlacements blocks placements addresses).player m blocks.scripts.length blocks.tables.length
      = some (playerOf blocks placements addresses m) := by
  have hperm := map_block_of_place h
  obtain ⟨_, -, -, -, hheader⟩ := exists_placement hperm (List.mem_cons_self : .header ∈ blocks.all)
  obtain ⟨_, -, -, -, htable⟩ := exists_placement hperm (table_mem_all htables)
  rw [player, addressOf?, addressOf?]
  simp only [ofPlacements, hheader, htable]
  rfl

/-- **The player of a layout finds a header.** -/
theorem hasHeader_playerOf (h : place blocks mode = .ok (placements, addresses))
    (htables : 0 < blocks.tables.length) (hsteps : blocks.maxSteps ≤ 0xFFFF) (m : Memory) :
    (playerOf blocks placements addresses m).HasHeader blocks (addressIn placements) where
  objects_eq := rfl
  attributes_eq := rfl
  attributes_pos := htables
  maxSteps_le := hsteps
  bytes_eq := bytes_addressIn h m List.mem_cons_self

/-- **Every table is found**, the first one where the player is told, the others through the
header. -/
theorem bytes_tablePosition (h : place blocks mode = .ok (placements, addresses))
    (hsteps : blocks.maxSteps ≤ 0xFFFF) (m : Memory) {a : ℕ} (ha : a < blocks.tables.length) :
    (playerOf blocks placements addresses m).memory.bytes
        ((playerOf blocks placements addresses m).tablePosition a) (blocks.tableBytes a).length
      = blocks.tableBytes a := by
  have hfound := bytes_addressIn h m (table_mem_all ha)
  cases a with
  | zero => exact hfound
  | succ a =>
      rw [Player.tablePosition_eq (hasHeader_playerOf h (Nat.zero_lt_of_lt ha) hsteps m) ha]
      exact hfound

/-- **Every script is found through the header.** -/
theorem bytes_scriptPosition (h : place blocks mode = .ok (placements, addresses))
    (htables : 0 < blocks.tables.length) (hsteps : blocks.maxSteps ≤ 0xFFFF) (m : Memory)
    {object : ℕ} (hobject : object < blocks.scripts.length) :
    (playerOf blocks placements addresses m).memory.bytes
        ((playerOf blocks placements addresses m).scriptPosition object)
        (blocks.scriptBytes object).length
      = blocks.scriptBytes object := by
  rw [Player.scriptPosition_eq (hasHeader_playerOf h htables hsteps m) hobject]
  exact bytes_addressIn h m (script_mem_all hobject)

/-- A script ends within the address space. -/
theorem scriptPosition_add_le (h : place blocks mode = .ok (placements, addresses))
    (htables : 0 < blocks.tables.length) (hsteps : blocks.maxSteps ≤ 0xFFFF) (m : Memory)
    {object : ℕ} (hobject : object < blocks.scripts.length)
    (hpos : 0 < (blocks.scriptBytes object).length) :
    (playerOf blocks placements addresses m).scriptPosition object
      + (blocks.scriptBytes object).length ≤ addressSpace := by
  rw [Player.scriptPosition_eq (hasHeader_playerOf h htables hsteps m) hobject]
  exact addressIn_add_size_le h (script_mem_all hobject) hpos

end Layout

end DeltaScript
