/-!
# Chunks

A chunk is a run of used addresses with the labels of the data in it.  Data injected next to a chunk
joins it, and data that closes a gap joins two chunks.

* `Chunk.absorb` — the chunks after data was injected at free addresses.  A chunk that grows keeps
  its place in the list; of two chunks that are joined the lower one stays; data that touches no
  chunk becomes a new last one.
-/

namespace DeltaScript

/-- A run of used addresses. -/
structure Chunk where
  first : Nat
  last : Nat
  /-- The labels of the data in the run, in the order of the addresses. -/
  labels : List String
  deriving DecidableEq, Repr

namespace Chunk

def size (c : Chunk) : Nat :=
  c.last - c.first + 1

/-- The number of the chunk that ends just before an address. -/
def endingAt? (chunks : List Chunk) (first : Nat) : Option Nat :=
  chunks.findIdx? fun c => c.last + 1 == first

/-- The number of the chunk that starts just behind an address. -/
def startingAfter? (chunks : List Chunk) (last : Nat) : Option Nat :=
  chunks.findIdx? fun c => c.first == last + 1

/-- The run with data behind it, up to an address. -/
def extend (c : Chunk) (label : String) (last : Nat) : Chunk :=
  { c with last, labels := c.labels ++ [label] }

/-- The run with data in front of it, from an address on. -/
def extendDown (c : Chunk) (label : String) (first : Nat) : Chunk :=
  { c with first, labels := label :: c.labels }

/-- The run with data and another run behind it. -/
def join (c : Chunk) (label : String) (next : Chunk) : Chunk :=
  { c with last := next.last, labels := c.labels ++ label :: next.labels }

/-- The chunks after data with a label was injected from a first to a last address. -/
def absorb (chunks : List Chunk) (label : String) (first last : Nat) : List Chunk :=
  match endingAt? chunks first, startingAfter? chunks last with
  | some below, some above =>
      match chunks[above]? with
      | some next => (chunks.modify below (·.join label next)).eraseIdx above
      | none => chunks
  | some below, none => chunks.modify below (·.extend label last)
  | none, some above => chunks.modify above (·.extendDown label first)
  | none, none => chunks ++ [⟨first, last, [label]⟩]

end Chunk

end DeltaScript
