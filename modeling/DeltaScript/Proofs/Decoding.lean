import DeltaScript.Instruction.Script
import DeltaScript.Proofs.Codec

/-!
# Decoding any bytes

Instructions differ in length, and a byte inside a state may look like the start of any instruction.
So what a byte means depends on where decoding stands when it comes to it.

**One instruction.**  `Instruction.encode_append_of_decode`: what is decoded is encoded as the bytes
that it was decoded from.  `Instruction.masked_eq_iff`: exactly the instructions whose fields fit
come back as they were.  `Instruction.decode_eq_none_iff`: decoding stops **behind the last byte, or
at a state that is cut short**, and nowhere else.

**All of them.**  `Instruction.Decodes` follows decoding from offset to offset.  Decoding comes to
an end on all bytes (`Instruction.decodes_decodeAll`); what is found, encoded again, is what was in
front of the bytes that are left (`Instruction.Decodes.encode_append`); and decoding anew at the
offset of an instruction gives that instruction (`Instruction.Decodes.decode_drop`).
-/

namespace DeltaScript.Instruction

/-! ## One instruction -/

/-- What the encoding keeps of an instruction fits the encoding. -/
theorem isCanonical_masked (i : Instruction) : i.masked.IsCanonical := by
  cases i with
  | delta index =>
      show (index % 128).toNat ≤ 127
      simp only [UInt8.toNat_mod, UInt8.toNat_ofNat, Nat.reducePow, Nat.reduceMod]
      omega
  | sleep n =>
      rw [masked]
      split_ifs with hzero
      · trivial
      · show 1 ≤ (n % 64).toNat ∧ (n % 64).toNat ≤ 63
        rw [← UInt8.toNat_inj] at hzero
        simp only [UInt8.toNat_mod, UInt8.toNat_ofNat, Nat.reducePow, Nat.reduceMod] at hzero ⊢
        omega
  | state x y angle =>
      show (x % 512).toNat ≤ 511 ∧ (angle % 32).toNat ≤ 31
      simp only [UInt8.toNat_mod, UInt16.toNat_mod, UInt8.toNat_ofNat, UInt16.toNat_ofNat,
        Nat.reducePow, Nat.reduceMod]
      omega
  | finish => trivial

/-- **Exactly the instructions whose fields fit come back as they were.** -/
theorem masked_eq_iff {i : Instruction} : i.masked = i ↔ i.IsCanonical := by
  constructor
  · intro h
    rw [← h]
    exact i.isCanonical_masked
  · exact masked_of_isCanonical

/-- **All that decoding one instruction can do**: the first byte tells which instruction it is. -/
theorem decode_cases {bytes rest : List UInt8} {i : Instruction}
    (h : decode bytes = some (i, rest)) :
    (∃ b, b.toNat < 128 ∧ bytes = b :: rest ∧ i = .delta b)
      ∨ (bytes = 128 :: rest ∧ i = .finish)
      ∨ (∃ b, 128 < b.toNat ∧ b.toNat < 192 ∧ bytes = b :: rest ∧ i = .sleep (b % 64))
      ∨ ∃ b low y, 192 ≤ b.toNat ∧ bytes = b :: low :: y :: rest
        ∧ i = .state ((b % 2).toUInt16 * 256 + low.toUInt16) y (b / 2 % 32) := by
  cases bytes with
  | nil => simp [decode] at h
  | cons b tail =>
      simp only [decode, UInt8.lt_iff_toNat_lt] at h
      split_ifs at h with hdelta hfinish hsleep
      · cases h
        exact Or.inl ⟨b, hdelta, rfl, rfl⟩
      · cases h
        exact Or.inr (Or.inl ⟨by rw [hfinish], rfl⟩)
      · cases h
        refine Or.inr (Or.inr (Or.inl ⟨b, ?_, hsleep, rfl, rfl⟩))
        rw [← UInt8.toNat_inj] at hfinish
        simp only [UInt8.toNat_ofNat, Nat.reducePow, Nat.reduceMod] at hdelta hfinish
        omega
      · rcases tail with _ | ⟨low, _ | ⟨y, tail⟩⟩
        · simp at h
        · simp at h
        · cases h
          refine Or.inr (Or.inr (Or.inr ⟨b, low, y, ?_, rfl, rfl⟩))
          simp only [UInt8.toNat_ofNat, Nat.reducePow, Nat.reduceMod] at hsleep
          omega

/-- **What is decoded is encoded as the bytes it was decoded from.** -/
theorem encode_append_of_decode {bytes rest : List UInt8} {i : Instruction}
    (h : decode bytes = some (i, rest)) : i.encode ++ rest = bytes := by
  rcases decode_cases h with
    ⟨b, hb, rfl, rfl⟩ | ⟨rfl, rfl⟩ | ⟨b, hlow, hhigh, rfl, rfl⟩ | ⟨b, low, y, hb, rfl, rfl⟩
  · have hbyte : b % 128 = b := by
      apply UInt8.toNat.inj
      rw [UInt8.toNat_mod]
      exact Nat.mod_eq_of_lt hb
    simp [encode, hbyte]
  · rfl
  · have hbyte : 128 + b % 64 % 64 = b := by
      apply UInt8.toNat.inj
      simp only [UInt8.toNat_add, UInt8.toNat_mod, UInt8.toNat_ofNat, Nat.reducePow,
        Nat.reduceMod]
      omega
    simp [encode, hbyte]
  · have hlow := low.toNat_lt
    have hlt := b.toNat_lt
    have hx : ((b % 2).toUInt16 * 256 + low.toUInt16).toNat = b.toNat % 2 * 256 + low.toNat := by
      simp only [UInt16.toNat_add, UInt16.toNat_mul, UInt8.toNat_toUInt16, UInt8.toNat_mod,
        UInt8.toNat_ofNat, UInt16.toNat_ofNat, Nat.reducePow, Nat.reduceMod]
      omega
    have hfirst : 192 + b / 2 % 32 % 32 * 2
        + (((b % 2).toUInt16 * 256 + low.toUInt16) / 256).toUInt8 % 2 = b := by
      apply UInt8.toNat.inj
      rw [toNat_stateByte, hx]
      simp only [UInt8.toNat_mod, UInt8.toNat_div, UInt8.toNat_ofNat, Nat.reducePow,
        Nat.reduceMod]
      omega
    have hsecond : ((b % 2).toUInt16 * 256 + low.toUInt16).toUInt8 = low := by
      apply UInt8.toNat.inj
      rw [UInt16.toNat_toUInt8, hx]
      omega
    simp only [encode, hfirst, hsecond, List.cons_append, List.nil_append]

/-- The beginning of a state of which one byte or two are missing. -/
structure IsCutShort (bytes : List UInt8) : Prop where
  length : bytes.length = 1 ∨ bytes.length = 2
  first : ∃ b ∈ bytes.head?, 192 ≤ b.toNat

/-- **Decoding stops behind the last byte, or at a state that is cut short.** -/
theorem decode_eq_none_iff {bytes : List UInt8} :
    decode bytes = none ↔ bytes = [] ∨ IsCutShort bytes := by
  cases bytes with
  | nil => simp [decode]
  | cons b tail =>
      simp only [decode, UInt8.lt_iff_toNat_lt]
      constructor
      · intro h
        split_ifs at h with hdelta hfinish hsleep
        refine Or.inr ⟨?_, b, by simp, by simpa using hsleep⟩
        rcases tail with _ | ⟨low, _ | ⟨y, tail⟩⟩
        · simp
        · simp
        · simp at h
      · rintro (h | ⟨hlength, b', hfirst, hb⟩)
        · cases h
        · obtain rfl : b = b' := by simpa using hfirst
          have hdelta : ¬ b.toNat < UInt8.toNat 128 := by
            simp only [UInt8.toNat_ofNat, Nat.reducePow, Nat.reduceMod]
            omega
          have hsleep : ¬ b.toNat < UInt8.toNat 192 := by
            simp only [UInt8.toNat_ofNat, Nat.reducePow, Nat.reduceMod]
            omega
          have hfinish : b ≠ 128 := by
            rintro rfl
            simp at hb
          simp only [hdelta, hfinish, hsleep, if_false]
          rcases tail with _ | ⟨low, _ | ⟨y, tail⟩⟩
          · rfl
          · rfl
          · simp at hlength

/-! ## All instructions -/

/-- Decoding from an offset on: the instructions that are found, each with the offset of its first
byte, and the bytes that are left. -/
inductive Decodes : ℕ → List UInt8 → List (ℕ × Instruction) → List UInt8 → Prop
  /-- Where nothing can be decoded, decoding is over. -/
  | stop {offset : ℕ} {bytes : List UInt8} (h : decode bytes = none) : Decodes offset bytes [] bytes
  /-- Behind an instruction, decoding goes on: the offset grows by the bytes that are used up. -/
  | next {offset : ℕ} {bytes rest left : List UInt8} {i : Instruction}
      {later : List (ℕ × Instruction)} (h : decode bytes = some (i, rest))
      (hlater : Decodes (offset + (bytes.length - rest.length)) rest later left) :
      Decodes offset bytes ((offset, i) :: later) left

namespace Decodes

variable {offset : ℕ} {bytes left : List UInt8} {found : List (ℕ × Instruction)}

/-- **The instructions that are found are encoded as the bytes they were found in.** -/
theorem encode_append (h : Decodes offset bytes found left) :
    (found.map Prod.snd).flatMap encode ++ left = bytes := by
  induction h with
  | stop h => rfl
  | next h hlater ih =>
      rw [List.map_cons, List.flatMap_cons, List.append_assoc, ih]
      exact encode_append_of_decode h

/-- What is left is no instruction. -/
theorem left_eq (h : Decodes offset bytes found left) : left = [] ∨ IsCutShort left := by
  induction h with
  | stop h => exact decode_eq_none_iff.mp h
  | next _ _ ih => exact ih

/-- **Decoding at the offset of an instruction gives that instruction.** -/
theorem decode_drop (h : Decodes offset bytes found left) :
    ∀ p ∈ found, ∃ k rest, p.1 = offset + k ∧ decode (bytes.drop k) = some (p.2, rest) := by
  induction h with
  | stop h => simp
  | @next offset bytes rest left i later h hlater ih =>
      rw [List.forall_mem_cons]
      refine ⟨⟨0, rest, rfl, h⟩, ?_⟩
      intro p hp
      obtain ⟨k, rest', hk, hdecode⟩ := ih p hp
      refine ⟨bytes.length - rest.length + k, rest', by rw [hk, Nat.add_assoc], ?_⟩
      have hdrop : bytes.drop (bytes.length - rest.length) = rest := by
        simp [← encode_append_of_decode h]
      rw [← List.drop_drop, hdrop, hdecode]

end Decodes

/-- Encoded instructions are as long as all of them together. -/
theorem length_flatMap_encode (instructions : List Instruction) :
    (instructions.flatMap encode).length = (instructions.map size).sum := by
  simp [List.length_flatMap, length_encode]

/-- **Decoding comes to an end on all bytes**, and finds the instructions that they spell.  The
induction is that of the recursion: the bytes behind an instruction are fewer. -/
theorem decodes_decodeAll (offset : ℕ) (bytes : List UInt8) :
    ∃ left, Decodes offset bytes (Script.withOffsets offset (decodeAll bytes)) left := by
  induction bytes using decodeAll.induct generalizing offset with
  | case1 bytes h =>
      rw [decodeAll_of_none h]
      exact ⟨bytes, .stop h⟩
  | case2 bytes i rest h hlt ih =>
      obtain ⟨left, hlater⟩ := ih (offset + i.size)
      have hsize : bytes.length - rest.length = i.size := by
        have hlength := length_of_decode h
        omega
      rw [decodeAll_of_some h]
      exact ⟨left, .next h (by rwa [hsize])⟩

end DeltaScript.Instruction
