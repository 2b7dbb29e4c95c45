import DeltaScript.Proofs.Decoding
import DeltaScript.Proofs.Printing
import DeltaScript.Proofs.Splitting

/-!
# Scripts and their listings

The bytes of a script can be read by hand: its listing has a line for each instruction, and in front
of it the offset of its first byte.

* `Script.Spells`, `Script.exists_spells` — **what the bytes of a script spell, and what its listing
  shows of them.**
* `Script.exact_encoding` — encoding and decoding undo each other, on single instructions and on
  whole scripts.
-/

namespace DeltaScript

/-! ## Listings -/

theorem Instruction.newline_notMem_text (i : Instruction) : '\n' ∉ i.text.toList := by
  have hdigits := Text.newline_notMem_toDigits
  cases i with
  | delta index => simp [text, Text.toString_eq, hdigits]
  | sleep n => simp [text, Text.toString_eq, hdigits]
  | state x y angle => simp [text, Text.toString_eq, hdigits]
  | finish => simp [text]

namespace Script

open Instruction

theorem map_snd_withOffsets (offset : ℕ) (instructions : List Instruction) :
    (withOffsets offset instructions).map Prod.snd = instructions := by
  induction instructions generalizing offset with
  | nil => rfl
  | cons i rest ih => simp [withOffsets, ih]

/-- A line that shows an instruction behind its offset, in at least four hexadecimal digits. -/
def IsLineOf (p : ℕ × Instruction) (line : List Char) : Prop :=
  ∃ digits, Radix.hexadecimal.Writes p.1 digits ∧ 4 ≤ digits.length
    ∧ line = digits ++ ' ' :: ' ' :: p.2.text.toList

/-- What the bytes of a script spell: instructions at offsets, and bytes that are left. -/
structure Spells (s : Script) (found : List (ℕ × Instruction)) (left : List UInt8) : Prop where
  /-- Decoding goes from one of the offsets to the next, and stops in front of what is left. -/
  decodes : Decodes 0 s.bytes found left
  /-- Decoding at the offset of an instruction gives that instruction. -/
  starts : ∀ p ∈ found, ∃ rest, decode (s.bytes.drop p.1) = some (p.2, rest)
  instructions_eq : s.instructions = found.map Prod.snd
  /-- Encoded again, the instructions are the bytes in front of what is left. -/
  bytes_eq : s.instructions.flatMap encode ++ left = s.bytes
  /-- Nothing is left but a state that is cut short. -/
  left_eq : left = [] ∨ IsCutShort left
  /-- The lines of the listing: one that names the object, then one for each instruction. -/
  lines : ∃ shown, List.Forall₂ IsLineOf found shown
    ∧ s.listing.toList.splitOn '\n'
      = s!"; object {s.object} ({s.size} bytes)".toList :: shown ++ [[]]

/-- The lines of the listing of a script. -/
def listingLines (s : Script) : List (List Char) :=
  s!"; object {s.object} ({s.size} bytes)".toList
    :: (withOffsets 0 s.instructions).map fun p =>
      (Text.hexUpper 4 p.1).toList ++ ' ' :: ' ' :: p.2.text.toList

theorem toList_listing (s : Script) :
    s.listing.toList = s.listingLines.flatMap (· ++ ['\n']) := by
  simp [listing, listingLine, listingLines, Text.toString_eq, String.toList_join, List.flatMap_map]

theorem newline_notMem_of_mem_listingLines {s : Script} :
    ∀ line ∈ s.listingLines, '\n' ∉ line := by
  have hdigits := Text.newline_notMem_toDigits
  rw [listingLines, List.forall_mem_cons]
  refine ⟨by simp [Text.toString_eq, hdigits], ?_⟩
  intro line hline
  obtain ⟨p, -, rfl⟩ := List.mem_map.mp hline
  have hoffset := Text.newline_notMem_hexUpper 4 p.1
  have hinstruction := p.2.newline_notMem_text
  simp [hoffset, hinstruction]

theorem splitOn_listing (s : Script) : s.listing.toList.splitOn '\n' = s.listingLines ++ [[]] := by
  rw [toList_listing, Text.splitOn_lines newline_notMem_of_mem_listingLines]

/-- **All bytes spell instructions**, up to a state that is cut short. -/
theorem exists_spells (s : Script) : ∃ found left, s.Spells found left := by
  obtain ⟨left, h⟩ := decodes_decodeAll 0 s.bytes
  have hinstructions : s.instructions = (withOffsets 0 (decodeAll s.bytes)).map Prod.snd :=
    (map_snd_withOffsets 0 _).symm
  refine ⟨_, left, h, ?_, hinstructions, ?_, h.left_eq, _, ?_, s.splitOn_listing⟩
  · intro p hp
    obtain ⟨k, rest, hk, hdecode⟩ := h.decode_drop p hp
    exact ⟨rest, by rwa [hk, Nat.zero_add]⟩
  · rw [hinstructions]
    exact h.encode_append
  · rw [List.forall₂_map_right_iff]
    refine List.forall₂_same.mpr ?_
    intro p _
    exact ⟨_, Text.writes_hexUpper 4 p.1, Text.le_length_hexUpper 4 p.1, rfl⟩

/-- **Encoding and decoding undo each other.**  A script of instructions whose fields fit is read
back, and is as long as all of them together; an instruction alone, whatever stands behind it, is
read back with the low bits of its fields, which is itself exactly if they fit; and any bytes spell
instructions that are encoded as those bytes, up to a state that is cut short. -/
theorem exact_encoding :
    (∀ (object : ℕ) (instructions : List Instruction), (∀ i ∈ instructions, i.IsCanonical) →
      (ofInstructions object instructions).instructions = instructions
        ∧ (ofInstructions object instructions).size = (instructions.map Instruction.size).sum)
    ∧ (∀ (i : Instruction) (rest : List UInt8), decode (i.encode ++ rest) = some (i.masked, rest)
        ∧ (decode (i.encode ++ rest) = some (i, rest) ↔ i.IsCanonical))
    ∧ ∀ s : Script, ∃ found left, s.Spells found left := by
  refine ⟨?_, ?_, exists_spells⟩
  · intro object instructions hcanonical
    exact ⟨decodeAll_flatMap_encode hcanonical, length_flatMap_encode instructions⟩
  · intro i rest
    refine ⟨decode_encode i rest, ?_⟩
    rw [decode_encode, ← masked_eq_iff]
    simp

/-- Bytes of states look like a sleep, an end and the start of a state. -/
def disguised : List Instruction :=
  [.state 383 128 31, .finish, .state 192 200 0, .sleep 63, .delta 127]

theorem exact_encoding_disguised :
    (∀ i ∈ disguised, i.IsCanonical)
      ∧ (ofInstructions 0 disguised).bytes = [255, 127, 128, 128, 192, 192, 200, 191, 127]
      ∧ (ofInstructions 0 disguised).instructions = disguised
      ∧ (ofInstructions 0 disguised).size = 9 := by
  have h : ∀ i ∈ disguised, i.IsCanonical := by decide
  exact ⟨h, by rfl, exact_encoding.1 0 disguised h⟩

end Script

end DeltaScript
