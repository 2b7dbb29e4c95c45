/-!
# Blocks

What is placed in memory are blocks: one header, a delta table for each attribute and a script for
each object.  A block has a name for messages and a symbol for listings.
-/

namespace DeltaScript

/-- A block of the output. -/
inductive Block
  | header
  | table (index : Nat)
  | script (object : Nat)
  deriving DecidableEq, Repr

namespace Block

/-- The name of a block in a message. -/
def name : Block → String
  | header => "header"
  | table index => s!"delta table {index}"
  | script object => s!"script {object}"

/-- The symbol of a block in a listing. -/
def symbol : Block → String
  | header => "ANIM_HEADER"
  | table index => s!"ANIM_DELTA_{index}"
  | script object => s!"ANIM_SCRIPT_{object}"

/-- The place of a block in a listing: the header, the tables by attribute, the scripts by
object. -/
def listingKey : Block → Nat × Nat
  | header => (0, 0)
  | table index => (1, index)
  | script object => (2, object)

/-- Whether a block is listed before another one, or in its place. -/
def listedBefore (a b : Block) : Bool :=
  let (p, i) := a.listingKey
  let (q, j) := b.listingKey
  p < q || (p == q && i ≤ j)

end Block

end DeltaScript
