import DeltaScript.Failure.Basic
import DeltaScript.Image.Chunk
import DeltaScript.Placement.Layout

/-!
# Memory images

An image is the whole address space, each address either free or holding a byte.  Labelled data is
injected at addresses; the image keeps track of the runs in use, and everything from the lowest to
the highest used address can be taken out as one segment.

* `Image.inject` — injects data.  Data that runs past the last address or meets a used one is
  refused, in this order, and the image stays as it was; no data at all is accepted anywhere.
* `Image.segment?` — the used part as one segment, the gaps filled.
* `Image.ofLayout` — the segments of a layout, injected one after the other.
-/

namespace DeltaScript

/-- The address space with what has been injected. -/
structure Image where
  /-- The byte at each address, if it is used. -/
  cells : Vector (Option UInt8) addressSpace
  chunks : List Chunk
  /-- The byte that stands for a free address. -/
  fill : UInt8

namespace Image

open Text

/-- The image in which every address is free. -/
def empty (fill : UInt8) : Image where
  cells := Vector.replicate addressSpace none
  chunks := []
  fill := fill

/-- The byte at an address, if it is used. -/
def byte? (m : Image) (address : Nat) : Option UInt8 :=
  m.cells[address]?.join

/-- Cells with bytes stored from an address on. -/
def store (cells : Vector (Option UInt8) addressSpace) (address : Nat) :
    List UInt8 → Vector (Option UInt8) addressSpace
  | [] => cells
  | b :: rest => store (cells.setIfInBounds address (some b)) (address + 1) rest

/-- Whether one of the addresses from the first on is used. -/
def meets (m : Image) (first size : Nat) : Bool :=
  (List.range size).any fun k => (m.byte? (first + k)).isSome

/-- **Injects labelled data at an address.** -/
def inject (m : Image) (label : String) (address : UInt16) (data : List UInt8) :
    Except Failure Image :=
  let first := address.toNat
  let size := data.length
  if size = 0 then .ok m
  else if addressSpace < first + size then .error (.injectionPastEnd label)
  else if m.meets first size then .error (.injectionOverlap label)
  else .ok {
    cells := store m.cells first data
    chunks := Chunk.absorb m.chunks label first (first + size - 1)
    fill := m.fill }

def lowest? (m : Image) : Option Nat :=
  (m.chunks.map Chunk.first).min?

def highest? (m : Image) : Option Nat :=
  (m.chunks.map Chunk.last).max?

/-- Everything from the lowest to the highest used address, the gaps filled. -/
def segment? (m : Image) : Option Segment := do
  let low ← m.lowest?
  let high ← m.highest?
  return ⟨addressAt low,
    (List.range' low (high + 1 - low)).map fun address => (m.byte? address).getD m.fill⟩

/-- The label of a segment: its load address. -/
def segmentLabel (s : Segment) : String :=
  s!"segment ${hexUpper 4 s.address.toNat}"

def injectAll (m : Image) (segments : List Segment) : Except Failure Image :=
  segments.foldlM (fun m s => m.inject (segmentLabel s) s.address s.bytes) m

/-- The segments of a layout in an image. -/
def ofLayout (l : Layout) (fill : UInt8) : Except Failure Image :=
  (empty fill).injectAll l.segments

end Image

end DeltaScript
