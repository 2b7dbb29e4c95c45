/-!
# Segments

Bytes that are loaded at one address, and the two forms they have in a file: with the load address
in front, low byte first, or without.

* `wordBytes`, `wordOf` — a 16-bit word as its low and its high byte, and back.
* `Segment.encode`, `Segment.decode?` — the form with the load address, and what is read from it.
-/

namespace DeltaScript

/-- The number of addresses. -/
def addressSpace : Nat := 65536

/-- The address of a position, where a position past the last address counts as the last one.  Only
something empty can lie there, and it must not wrap around to the first address. -/
def addressAt (position : Nat) : UInt16 :=
  UInt16.ofNat (min position 0xFFFF)

/-- The low byte of a word and its high byte. -/
def wordBytes (w : UInt16) : List UInt8 :=
  [w.toUInt8, (w / 256).toUInt8]

/-- The word with the given low and high byte. -/
def wordOf (low high : UInt8) : UInt16 :=
  low.toUInt16 + high.toUInt16 * 256

/-- Bytes to be loaded at an address. -/
structure Segment where
  address : UInt16
  bytes : List UInt8
  deriving DecidableEq, Repr

namespace Segment

/-- One past the last address of the segment. -/
def stop (s : Segment) : Nat :=
  s.address.toNat + s.bytes.length

/-- The content of a file that holds the segment, with the load address in front or without. -/
def encode (withAddress : Bool) (s : Segment) : List UInt8 :=
  if withAddress then wordBytes s.address ++ s.bytes else s.bytes

/-- The segment in a file with a load address; `none` if the file is too short to hold one. -/
def decode? : List UInt8 → Option Segment
  | low :: high :: bytes => some ⟨wordOf low high, bytes⟩
  | _ => none

end Segment

theorem toNat_addressAt (position : Nat) : (addressAt position).toNat = min position 0xFFFF := by
  rw [addressAt, UInt16.toNat_ofNat']
  exact Nat.mod_eq_of_lt (Nat.lt_of_le_of_lt (Nat.min_le_right position 0xFFFF) (by decide))

end DeltaScript
