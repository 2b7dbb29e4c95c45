import DeltaScript.Placement.Basic

/-!
# Layouts

A layout is the memory image of all blocks in segments.  No byte is laid down before every address
is known, since the header holds the addresses of the blocks behind it.

* `Mode` — one piece, or over bins.
* `Layout.headerBytes` — the header: the low bytes of the script addresses, their high bytes, the
  address of each table but the first, and the length of the longest track.  The first table is
  referred to by nothing but the symbol listing.
* `Layout.allocate` — places the blocks and lays down their bytes.
* `Layout.addressOf?`, `Layout.totalBytes` — what is looked up in a layout.
-/

namespace DeltaScript

/-- How blocks are distributed over memory. -/
inductive Mode
  /-- In one piece from a base address. -/
  | contiguous (base : UInt16)
  /-- Over ranges of addresses, the ends of which are machine words (`Bin.stop_le`). -/
  | chunked (bins : List Bin)
  deriving DecidableEq, Repr

/-- The sizes of a layout by kind of block. -/
structure Summary where
  objects : Nat
  steps : Nat
  deltas : Nat
  headerBytes : Nat
  tableBytes : Nat
  scriptBytes : Nat
  deriving DecidableEq, Repr

def Summary.totalBytes (s : Summary) : Nat :=
  s.headerBytes + s.tableBytes + s.scriptBytes

/-- All blocks, placed and laid down. -/
structure Layout where
  /-- The placements, in the order in which the blocks were laid down. -/
  placements : List Placement
  segments : List Segment
  summary : Summary
  deriving DecidableEq, Repr

namespace Layout

/-! ## The header -/

/-- The address of a block that the header refers to. -/
def reference (placements : List Placement) (block : Block) : Except Failure UInt16 :=
  match Placement.addressOf? placements block with
  | some address => .ok address
  | none => .error (.unplaced block)

def headerBytes (blocks : Blocks) (placements : List Placement) : Except Failure (List UInt8) := do
  let scripts ← blocks.scriptBlocks.mapM (reference placements)
  let tables ← (blocks.tableBlocks.drop 1).mapM (reference placements)
  return scripts.map UInt16.toUInt8 ++ scripts.map (fun address => (address / 256).toUInt8)
    ++ tables.flatMap wordBytes ++ wordBytes (UInt16.ofNat blocks.maxSteps)

/-! ## The segments -/

def blockBytes (blocks : Blocks) (header : List UInt8) : Block → List UInt8
  | .header => header
  | .table index => blocks.tableBytes index
  | .script object => blocks.scriptBytes object

/-- The bytes of the segment with a given number: those of its blocks, one after the other. -/
def segmentBytes (blocks : Blocks) (header : List UInt8) (placements : List Placement)
    (segment : Nat) : List UInt8 :=
  (placements.filter (·.segment == segment)).flatMap fun p => blockBytes blocks header p.block

/-- The segments at the given addresses. -/
def segmentsAt (blocks : Blocks) (header : List UInt8) (placements : List Placement)
    (addresses : List UInt16) : List Segment :=
  addresses.zipIdx.map fun (address, segment) =>
    ⟨address, segmentBytes blocks header placements segment⟩

def summarize (blocks : Blocks) (header : List UInt8) : Summary where
  objects := blocks.scripts.length
  steps := blocks.maxSteps
  deltas := (blocks.tableBytes 0).length
  headerBytes := header.length
  tableBytes := blocks.tablesSize
  scriptBytes := blocks.scriptsSize

/-- The placements in a mode, and the addresses of the segments. -/
def place (blocks : Blocks) : Mode → Except Failure (List Placement × List UInt16)
  | .contiguous base =>
      (Placement.contiguous blocks base).map fun placements => (placements, [base])
  | .chunked bins => Placement.firstFit blocks bins

/-- **Places blocks and lays down their bytes.**  The length of the longest track has to fit a word
whatever the mode. -/
def allocate (blocks : Blocks) (mode : Mode) : Except Failure Layout :=
  if 0xFFFF < blocks.maxSteps then .error (.tooManySteps blocks.maxSteps)
  else do
    let (placements, addresses) ← place blocks mode
    let header ← headerBytes blocks placements
    return {
      placements
      segments := segmentsAt blocks header placements addresses
      summary := summarize blocks header }

/-! ## Looking up -/

def addressOf? (l : Layout) (block : Block) : Option UInt16 :=
  Placement.addressOf? l.placements block

def totalBytes (l : Layout) : Nat :=
  (l.segments.flatMap Segment.bytes).length

end Layout

end DeltaScript
