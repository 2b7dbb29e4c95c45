import DeltaScript.Instruction.Codec
import DeltaScript.Segment

/-!
# Memory

The memory of the machine that plays scripts: a byte at each address.

* `Memory.load` — the memory once a segment is loaded.  What does not fit below the end of the
  address space is not loaded.
* `Memory.byte`, `Memory.word`, `Memory.bytes` — what stands at a position.
* `Memory.instructionAt`, `Memory.instructionsUpToEnd` — the instructions from a position on, up to
  the first end, which has to come before memory does.

**A position is a number**, so that the one past the last address is none of them; reading there
starts over at the first address.
-/

namespace DeltaScript

/-- A byte at each address. -/
abbrev Memory := UInt16 → UInt8

namespace Memory

def load (m : Memory) (s : Segment) : Memory := fun address =>
  if s.address ≤ address then s.bytes.getD (address.toNat - s.address.toNat) (m address)
  else m address

/-- The memory with segments loaded one after the other. -/
def loadAll (m : Memory) (segments : List Segment) : Memory :=
  segments.foldl load m

def byte (m : Memory) (position : Nat) : UInt8 :=
  m (UInt16.ofNat position)

/-- The word at a position, low byte first. -/
def word (m : Memory) (position : Nat) : UInt16 :=
  wordOf (m.byte position) (m.byte (position + 1))

def bytes (m : Memory) (position length : Nat) : List UInt8 :=
  (List.range length).map fun k => m.byte (position + k)

/-- The instruction at a position, which has to end within the address space.  None is longer than
three bytes. -/
def instructionAt (m : Memory) (position : Nat) : Option Instruction :=
  (Instruction.decode (m.bytes position (min 3 (addressSpace - position)))).map Prod.fst

/-- The instructions from a position on, up to and with the first end; `none` if there is no end. -/
def instructionsUpToEnd (m : Memory) (position : Nat) : Option (List Instruction) :=
  if _h : position < addressSpace then
    match m.instructionAt position with
    | none => none
    | some .finish => some [.finish]
    | some i =>
        have := i.size_pos
        (m.instructionsUpToEnd (position + i.size)).map (i :: ·)
  else none
termination_by addressSpace - position

/-- Outside a segment nothing changes. -/
theorem load_of_lt {m : Memory} {s : Segment} {address : UInt16} (h : address < s.address) :
    m.load s address = m address := by
  simp [load, Nat.not_le.mpr (UInt16.lt_iff_toNat_lt.mp h), UInt16.le_iff_toNat_le]

/-- Within a segment its bytes are found. -/
theorem load_of_le {m : Memory} {s : Segment} {address : UInt16} (h : s.address ≤ address)
    {b : UInt8} (hb : s.bytes[address.toNat - s.address.toNat]? = some b) :
    m.load s address = b := by
  simp [load, h, List.getD, hb]

/-- Behind a segment nothing changes. -/
theorem load_of_stop_le {m : Memory} {s : Segment} {address : UInt16}
    (h : s.stop ≤ address.toNat) : m.load s address = m address := by
  unfold load
  split
  · rw [List.getD, List.getElem?_eq_none (by simp only [Segment.stop] at h; omega)]
    rfl
  · rfl

end Memory

end DeltaScript
