import DeltaScript.Placement.Symbols
import DeltaScript.Proofs.Printing
import DeltaScript.Proofs.References
import DeltaScript.Proofs.Splitting

/-!
# The symbol listing

The symbol listing is all that tells an assembler where the blocks are.  It is sorted once more
before it is printed, since blocks are placed in an order that depends on their sizes and on the
mode.

* `Block.listedBefore_iff` — the order of the listing is that of keys, which no two blocks share.
* `Block.symbol_injective` — no two blocks have one symbol.
* `Symbol.read?_line` — **a line is read back as the symbol that it was printed for.**
* `Layout.symbolTable_eq` — **the listing is that of the blocks, whatever the placements are.**
* `Layout.IsCharted`, `Layout.exists_isCharted` — what is expected of a listing, and that it holds
  of every layout.
* `Layout.isCharted_of_allocate` — and the names in it are the same in every mode.

Sorting as text would put the script of object 10 before that of object 2.  The keys hold numbers.
-/

namespace DeltaScript

/-! ## The order of a listing -/

namespace Block

theorem listingKey_injective {a b : Block} (h : a.listingKey = b.listingKey) : a = b := by
  cases a <;> cases b <;> simp_all [listingKey]

/-- Blocks are listed by their keys. -/
theorem listedBefore_iff {a b : Block} :
    a.listedBefore b ↔ toLex a.listingKey ≤ toLex b.listingKey := by
  simp [listedBefore, Prod.Lex.le_iff]

theorem listedBefore_trans (a b c : Block) :
    a.listedBefore b → b.listedBefore c → a.listedBefore c := by
  simp only [listedBefore_iff]
  exact le_trans

theorem listedBefore_total (a b : Block) : a.listedBefore b || b.listedBefore a := by
  rw [Bool.or_eq_true, listedBefore_iff, listedBefore_iff]
  exact le_total _ _

theorem listedBefore_antisymm {a b : Block} (hab : a.listedBefore b) (hba : b.listedBefore a) :
    a = b :=
  listingKey_injective
    (toLex.injective (le_antisymm (listedBefore_iff.mp hab) (listedBefore_iff.mp hba)))

/-- Symbols are made of letters, digits and underscores. -/
theorem isWordChar_of_mem_symbol (b : Block) : ∀ c ∈ b.symbol.toList, Piece.isWordChar c := by
  have hnumber : ∀ n, ∀ c ∈ Nat.toDigits 10 n, Piece.isWordChar c := fun n =>
    (Radix.decimal.writes_toDigits n).isWordChar
  cases b with
  | header => simp [symbol, Piece.isWordChar]
  | table index => simpa [symbol, Text.toString_eq, Piece.isWordChar] using hnumber index
  | script object => simpa [symbol, Text.toString_eq, Piece.isWordChar] using hnumber object

/-- **No two blocks have one symbol.** -/
theorem symbol_injective {a b : Block} (h : a.symbol = b.symbol) : a = b := by
  have hlist := congrArg String.toList h
  cases a <;> cases b <;> simp [symbol, Text.toString_eq] at hlist ⊢
  case table.table => exact Text.toDigits_injective hlist
  case script.script => exact Text.toDigits_injective hlist

end Block

namespace Blocks

variable (blocks : Blocks)

/-- All blocks in listing order: the header, the tables, the scripts. -/
def listed : List Block :=
  .header :: (blocks.tableBlocks ++ blocks.scriptBlocks)

theorem perm_listed : blocks.listed.Perm blocks.all :=
  List.perm_append_comm.cons _

theorem pairwise_listed : blocks.listed.Pairwise fun a b => a.listedBefore b := by
  have hrange : ∀ n, (List.range n).Pairwise (· < ·) := fun n => List.pairwise_lt_range
  refine List.pairwise_cons.mpr ⟨?_, List.pairwise_append.mpr ⟨?_, ?_, ?_⟩⟩
  · intro b hb
    cases b <;> simp_all [Block.listedBefore, Block.listingKey, tableBlocks, scriptBlocks]
  · refine List.pairwise_map.mpr ((hrange _).imp fun h => ?_)
    simp [Block.listedBefore, Block.listingKey, h.le]
  · refine List.pairwise_map.mpr ((hrange _).imp fun h => ?_)
    simp [Block.listedBefore, Block.listingKey, h.le]
  · intro a ha b hb
    obtain ⟨i, -, rfl⟩ := List.mem_map.mp ha
    obtain ⟨j, -, rfl⟩ := List.mem_map.mp hb
    rfl

/-- The tables are behind the header. -/
theorem getElem?_listed_table {index : ℕ} (h : index < blocks.tables.length) :
    blocks.listed[1 + index]? = some (.table index) := by
  rw [listed, Nat.add_comm, List.getElem?_cons_succ, List.getElem?_append_left] <;>
    simp [tableBlocks, h]

/-- The scripts are behind the tables. -/
theorem getElem?_listed_script {object : ℕ} (h : object < blocks.scripts.length) :
    blocks.listed[1 + blocks.tables.length + object]? = some (.script object) := by
  have hlength := Layout.length_tableBlocks blocks
  rw [listed, Nat.add_assoc, Nat.add_comm, List.getElem?_cons_succ, List.getElem?_append_right,
    hlength, Nat.add_sub_cancel_left] <;> simp [scriptBlocks, hlength, h]

end Blocks

/-! ## Lines -/

namespace Symbol

open Text

theorem behind?_append (start rest : List Char) : behind? start (start ++ rest) = some rest := by
  simp [behind?]

/-- The parts of a line.  There is at least one blank between the name and the address. -/
theorem toList_line (s : Symbol) : s.line.toList = s.name.toList
    ++ (List.replicate (20 - s.name.toList.length + 1) ' ' ++ (['=', ' ', '$']
    ++ ((hexUpper 4 s.address.toNat).toList ++ ([' ', ';', ' '] ++ ((toString s.size).toList
    ++ [' ', 'b', 'y', 't', 'e', 's']))))) := by
  simp [line, column, toString_eq, List.rightpad, List.replicate_succ']

/-- **A line is read back as the symbol that it was printed for**, if no blank is in the name. -/
theorem read?_line {s : Symbol} (hname : ' ' ∉ s.name.toList) : read? s.line.toList = some s := by
  have hcut : s.line.toList.takeWhile (· != ' ') = s.name.toList := by
    rw [toList_line]
    refine takeWhile_append ?_ ?_
    · intro c hc
      rw [bne_iff_ne]
      rintro rfl
      exact hname hc
    · simp [List.replicate_succ]
  have hrest : (s.line.toList.drop s.name.toList.length).dropWhile (· == ' ') = ['=', ' ', '$']
      ++ ((hexUpper 4 s.address.toNat).toList ++ ([' ', ';', ' '] ++ ((toString s.size).toList
      ++ [' ', 'b', 'y', 't', 'e', 's']))) := by
    rw [toList_line, List.drop_left, List.dropWhile_append_of_pos (by simp)]
    rfl
  have haddress : (hexUpper 4 s.address.toNat).toList.length = 4 :=
    length_hexUpper (by decide) s.address.toNat_lt
  have hposition := Radix.value?_eq_some_iff.mpr (writes_hexUpper 4 s.address.toNat)
  have hdigits : ((toString s.size).toList ++ [' ', 'b', 'y', 't', 'e', 's']).takeWhile Char.isDigit
      = (toString s.size).toList :=
    takeWhile_append (isDigit_of_mem_toString s.size) (by simp)
  have hsize := Radix.value?_eq_some_iff.mpr (writes_toString s.size)
  simp only [read?, hcut, hrest, behind?_append, List.take_left' haddress, hposition,
    List.drop_left' haddress, hdigits, hsize, List.drop_left, Option.bind_eq_bind, Option.bind_some]
  simp

example : read? "ANIM_SCRIPT_10       = $401C ; 2 bytes".toList
    = some ⟨"ANIM_SCRIPT_10", 0x401C, 2⟩ := by cbv

theorem read?_nil : read? [] = none := rfl

/-- A line holds no newline, unless the name does. -/
theorem newline_notMem_line {s : Symbol} (hname : '\n' ∉ s.name.toList) :
    '\n' ∉ s.line.toList := by
  have haddress := newline_notMem_hexUpper 4 s.address.toNat
  have hsize := newline_notMem_toDigits s.size
  rw [toList_line]
  simp [hname, haddress, hsize]

end Symbol

namespace Layout

variable {blocks : Blocks} {mode : Mode} {placements : List Placement} {addresses : List UInt16}

/-! ## The listing -/

/-- Sorted for a listing, the blocks stand in one order, whatever order they were placed in. -/
theorem map_block_mergeSort (h : (placements.map Placement.block).Perm blocks.all) :
    (placements.mergeSort fun p q => p.block.listedBefore q.block).map Placement.block
      = blocks.listed := by
  have hsorted : (placements.mergeSort fun p q => p.block.listedBefore q.block).Pairwise
      fun p q => p.block.listedBefore q.block := List.pairwise_mergeSort
    (fun p q r => Block.listedBefore_trans p.block q.block r.block)
    (fun p q => Block.listedBefore_total p.block q.block) placements
  refine List.Perm.eq_of_pairwise ?_ (List.pairwise_map.mpr hsorted) blocks.pairwise_listed ?_
  · intro a b _ _ hab hba
    exact Block.listedBefore_antisymm hab hba
  · exact ((List.mergeSort_perm placements _).map _).trans (h.trans blocks.perm_listed.symm)

/-- What a listing tells of a block. -/
def symbolOf (blocks : Blocks) (placements : List Placement) (block : Block) : Symbol :=
  ⟨block.symbol, addressIn placements block, blocks.size block⟩

/-- **The listing is that of the blocks**, whatever the placements are. -/
theorem symbolTable_eq (h : place blocks mode = .ok (placements, addresses)) :
    (ofPlacements blocks placements addresses).symbolTable
      = blocks.listed.map (symbolOf blocks placements) := by
  have hperm := map_block_of_place h
  rw [← map_block_mergeSort hperm, List.map_map]
  refine List.map_congr_left ?_
  intro p hp
  have hp : p ∈ placements := List.mem_mergeSort.mp hp
  obtain ⟨-, haddress⟩ := addressIn_block hperm hp
  have hsize := (isImage_ofPlacements h).size_eq p hp
  simp [Symbol.ofPlacement, symbolOf, haddress, hsize]

theorem toList_symbols (l : Layout) :
    l.symbols.toList = (l.symbolTable.map fun s => s.line.toList).flatMap (· ++ ['\n']) := by
  simp [symbols, String.toList_join, List.flatMap_map]

/-- The names in a listing, read back from its lines. -/
def listedNames (l : Layout) : List String :=
  (l.symbols.toList.splitOn '\n').filterMap fun line => (Symbol.read? line).map Symbol.name

/-- What is found in memory at the address of the header. -/
def headerIn (l : Layout) (blocks : Blocks) (m : Memory) : List UInt8 :=
  (m.loadAll l.segments).bytes ((l.addressOf? .header).getD 0).toNat blocks.headerSize

/-- The lines of a listing tell where the blocks of a layout are. -/
structure IsCharted (l : Layout) (blocks : Blocks) (lines : List (List Char)) : Prop where
  /-- There is a newline behind each line, also behind the last one. -/
  splitOn_eq : l.symbols.toList.splitOn '\n' = lines ++ [[]]
  length_eq : lines.length = 1 + blocks.tables.length + blocks.scripts.length
  /-- The header, the tables and the scripts follow one another by number.  A line tells the symbol,
  the address and the size of its block. -/
  read : List.Forall₂ (fun block line => ∃ a, l.addressOf? block = some a
    ∧ Symbol.read? line = some ⟨block.symbol, a, blocks.size block⟩) blocks.listed lines
  names_eq : l.listedNames = blocks.listed.map Block.symbol
  nodup : l.listedNames.Nodup
  /-- The line of a script tells the address that the header does, as it is found in memory. -/
  script : ∀ object < blocks.scripts.length, ∃ line s,
    lines[1 + blocks.tables.length + object]? = some line ∧ Symbol.read? line = some s
      ∧ s.name = (Block.script object).symbol
      ∧ ∀ m, wordIn (l.headerIn blocks m) object (blocks.scripts.length + object) = s.address.toNat
  /-- So does the line of a table that the header refers to. -/
  table : ∀ index, 1 ≤ index → index < blocks.tables.length → ∃ line s,
    lines[1 + index]? = some line ∧ Symbol.read? line = some s
      ∧ s.name = (Block.table index).symbol
      ∧ ∀ m, wordIn (l.headerIn blocks m) (2 * blocks.scripts.length + 2 * (index - 1))
        (2 * blocks.scripts.length + 2 * (index - 1) + 1) = s.address.toNat

/-- The lines of the listing of placements. -/
def listingLines (blocks : Blocks) (placements : List Placement) : List (List Char) :=
  blocks.listed.map fun block => (symbolOf blocks placements block).line.toList

theorem read?_symbolOf (block : Block) :
    Symbol.read? (symbolOf blocks placements block).line.toList
      = some (symbolOf blocks placements block) := by
  refine Symbol.read?_line ?_
  intro hmem
  exact absurd (block.isWordChar_of_mem_symbol ' ' hmem) (by decide)

theorem splitOn_symbols (h : place blocks mode = .ok (placements, addresses)) :
    (ofPlacements blocks placements addresses).symbols.toList.splitOn '\n'
      = listingLines blocks placements ++ [[]] := by
  have hlines : ∀ line ∈ listingLines blocks placements, '\n' ∉ line := by
    intro line hline
    obtain ⟨block, -, rfl⟩ := List.mem_map.mp hline
    refine Symbol.newline_notMem_line ?_
    intro hmem
    exact absurd (block.isWordChar_of_mem_symbol '\n' hmem) (by decide)
  rw [toList_symbols, symbolTable_eq h, List.map_map]
  exact Text.splitOn_lines hlines

/-- **The names that are listed are those of the blocks**, in the order of the listing. -/
theorem listedNames_eq (h : place blocks mode = .ok (placements, addresses)) :
    (ofPlacements blocks placements addresses).listedNames = blocks.listed.map Block.symbol := by
  have hread : ∀ block,
      (Symbol.read? (symbolOf blocks placements block).line.toList).map Symbol.name
        = some block.symbol := by
    intro block
    rw [read?_symbolOf]
    rfl
  rw [listedNames, splitOn_symbols h, listingLines, List.filterMap_append, List.filterMap_map]
  simp [hread, Symbol.read?_nil]

/-- In memory, the header is what it was written as. -/
theorem headerIn_ofPlacements (h : place blocks mode = .ok (placements, addresses)) (m : Memory) :
    (ofPlacements blocks placements addresses).headerIn blocks m
      = headerOf blocks (addressIn placements) :=
  bytes_addressIn h m (List.mem_cons_self : Block.header ∈ blocks.all)

/-- **The listing of a layout tells where its blocks are.** -/
theorem exists_isCharted {l : Layout} (h : allocate blocks mode = .ok l) :
    ∃ lines, l.IsCharted blocks lines := by
  obtain ⟨-, placements, addresses, hplace, rfl⟩ := allocate_eq_ok_iff.mp h
  refine ⟨listingLines blocks placements, ?_⟩
  constructor
  case splitOn_eq => exact splitOn_symbols hplace
  case length_eq =>
    simp only [listingLines, Blocks.listed, List.length_map, List.length_cons, List.length_append,
      length_tableBlocks, length_scriptBlocks]
    omega
  case read =>
    refine List.forall₂_map_right_iff.mpr (List.forall₂_same.mpr ?_)
    intro block hblock
    obtain ⟨-, -, -, -, hsome⟩ :=
      exists_placement (map_block_of_place hplace) (blocks.perm_listed.mem_iff.mp hblock)
    exact ⟨_, hsome, read?_symbolOf block⟩
  case names_eq => exact listedNames_eq hplace
  case nodup =>
    have hnodup := blocks.perm_listed.nodup_iff.mpr blocks.nodup_all
    rw [listedNames_eq hplace]
    exact hnodup.map fun _ _ => Block.symbol_injective
  case script =>
    intro object hobject
    refine ⟨_, symbolOf blocks placements (.script object), ?_, read?_symbolOf _, rfl, ?_⟩
    · rw [listingLines, List.getElem?_map, blocks.getElem?_listed_script hobject]
      rfl
    · intro m
      rw [headerIn_ofPlacements hplace]
      exact wordIn_script blocks _ hobject
  case table =>
    intro index hpos hindex
    obtain ⟨n, rfl⟩ := Nat.exists_eq_succ_of_ne_zero (Nat.pos_iff_ne_zero.mp hpos)
    refine ⟨_, symbolOf blocks placements (.table (n + 1)), ?_, read?_symbolOf _, rfl, ?_⟩
    · rw [listingLines, List.getElem?_map, blocks.getElem?_listed_table hindex]
      rfl
    · intro m
      rw [headerIn_ofPlacements hplace]
      exact wordIn_table blocks _ hindex

/-- **The listing of a layout tells where its blocks are**, and names the same blocks in every
mode. -/
theorem isCharted_of_allocate {l : Layout} (h : allocate blocks mode = .ok l) :
    (∃ lines, l.IsCharted blocks lines)
      ∧ ∀ {mode' k}, allocate blocks mode' = .ok k → k.listedNames = l.listedNames := by
  obtain ⟨lines, hlines⟩ := exists_isCharted h
  refine ⟨⟨lines, hlines⟩, ?_⟩
  intro mode' k hk
  obtain ⟨_, hother⟩ := exists_isCharted hk
  rw [hother.names_eq, hlines.names_eq]

end Layout

/-! ## Eleven scripts

The longest script is the last one, and is placed before the others.
-/

/-- Object 10 sleeps before it ends. -/
def Blocks.eleven : Blocks where
  scripts := (List.range 10).map (⟨·, [128]⟩) ++ [⟨10, [192, 128]⟩]
  tables := [[1], [2]]
  maxSteps := 2

/-- The first bin has room for one script. -/
def Bin.eleven : List Bin :=
  [.mk 0x4000 30, .mk 0x2000 64]

def Layout.eleven : Layout where
  placements := [⟨.header, 0x4000, 26, 0⟩, ⟨.table 0, 0x401A, 1, 0⟩, ⟨.table 1, 0x401B, 1, 0⟩,
    ⟨.script 10, 0x401C, 2, 0⟩] ++ (List.range 10).map fun n => ⟨.script n, 0x2000 + .ofNat n, 1, 1⟩
  segments := [⟨0x4000, [0, 1, 2, 3, 4, 5, 6, 7, 8, 9, 0x1C] ++ List.replicate 10 0x20
    ++ [0x40, 0x1B, 0x40, 2, 0, 1, 2, 192, 128]⟩, ⟨0x2000, List.replicate 10 128⟩]
  summary := ⟨11, 2, 1, 26, 2, 12⟩

theorem Layout.isCharted_eleven : ∃ k,
    allocate Blocks.eleven (.chunked Bin.eleven) = .ok eleven
      ∧ allocate Blocks.eleven (.contiguous 0xC000) = .ok k
      ∧ (∃ lines, eleven.IsCharted Blocks.eleven lines) ∧ k.listedNames = eleven.listedNames := by
  have h : allocate Blocks.eleven (.chunked Bin.eleven) = .ok eleven := by cbv
  obtain ⟨k, hk⟩ : ∃ k, allocate Blocks.eleven (.contiguous 0xC000) = .ok k := ⟨_, rfl⟩
  obtain ⟨hcharted, hnames⟩ := isCharted_of_allocate h
  exact ⟨k, h, hk, hcharted, hnames hk⟩

end DeltaScript
