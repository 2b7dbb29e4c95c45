import Mathlib
import DeltaScript.Instruction.Codec

/-!
# Encoding and decoding

What comes back when an encoded instruction is decoded, whatever stands behind it.

* `Instruction.masked` — an instruction with the low bits of its fields, which is what the encoding
  keeps.  A sleep of no frames is the end.
* `Instruction.decode_encode` — **decoding an encoded instruction gives its masked form, and stops
  right behind it.**
* `Instruction.masked_of_isCanonical` — an instruction whose fields fit loses nothing.
* `Instruction.decodeAll_flatMap_encode` — a whole script of such instructions is read back.
-/

namespace DeltaScript.Instruction

/-! ## One instruction -/

/-- The instruction with the low bits of its fields. -/
def masked : Instruction → Instruction
  | delta index => delta (index % 128)
  | sleep n => if n % 64 = 0 then finish else sleep (n % 64)
  | state x y angle => state (x % 512) y (angle % 32)
  | finish => finish

theorem length_encode (i : Instruction) : i.encode.length = i.size := by
  cases i <;> rfl

/-- The first byte of a state, as a number. -/
theorem toNat_stateByte (x : UInt16) (angle : UInt8) :
    (192 + angle % 32 * 2 + (x / 256).toUInt8 % 2).toNat
      = 192 + angle.toNat % 32 * 2 + x.toNat / 256 % 2 := by
  have hx := x.toNat_lt
  have hangle := angle.toNat_lt
  simp only [UInt8.toNat_add, UInt8.toNat_mul, UInt8.toNat_mod, UInt16.toNat_toUInt8,
    UInt16.toNat_div, UInt8.toNat_ofNat, UInt16.toNat_ofNat, Nat.reducePow, Nat.reduceMod]
  omega

/-- **Decoding an encoded instruction gives its masked form**, and stops right behind it. -/
theorem decode_encode (i : Instruction) (rest : List UInt8) :
    decode (i.encode ++ rest) = some (i.masked, rest) := by
  cases i with
  | delta index =>
      have hlt : index % 128 < 128 := by
        rw [UInt8.lt_iff_toNat_lt, UInt8.toNat_mod]
        exact Nat.mod_lt _ (by decide)
      simp [encode, decode, masked, hlt]
  | sleep n =>
      have hn := n.toNat_lt
      have hbyte : (128 + n % 64).toNat = 128 + n.toNat % 64 := by
        simp only [UInt8.toNat_add, UInt8.toNat_mod, UInt8.toNat_ofNat, Nat.reducePow,
          Nat.reduceMod]
        omega
      have hge : ¬ 128 + n % 64 < 128 := by
        rw [UInt8.lt_iff_toNat_lt, hbyte]
        simp
      have hlt : 128 + n % 64 < 192 := by
        rw [UInt8.lt_iff_toNat_lt, hbyte]
        simp only [UInt8.toNat_ofNat, Nat.reducePow, Nat.reduceMod]
        omega
      have hmod : (128 + n % 64) % 64 = n % 64 := by
        apply UInt8.toNat.inj
        rw [UInt8.toNat_mod, hbyte, UInt8.toNat_mod]
        simp only [UInt8.toNat_ofNat, Nat.reducePow, Nat.reduceMod]
        omega
      have hzero : 128 + n % 64 = 128 ↔ n % 64 = 0 := by
        rw [← UInt8.toNat_inj, hbyte, ← UInt8.toNat_inj, UInt8.toNat_mod]
        simp only [UInt8.toNat_ofNat, Nat.reducePow, Nat.reduceMod]
        omega
      simp only [encode, List.cons_append, List.nil_append, decode, hge, hlt, hmod, hzero,
        if_false, if_true, masked]
      split_ifs <;> rfl
  | state x y angle =>
      have hx := x.toNat_lt
      have hangle := angle.toNat_lt
      have hfirst := toNat_stateByte x angle
      have hge : ¬ 192 + angle % 32 * 2 + (x / 256).toUInt8 % 2 < 192 := by
        rw [UInt8.lt_iff_toNat_lt, hfirst]
        simp only [UInt8.toNat_ofNat, Nat.reducePow, Nat.reduceMod]
        omega
      have hdelta : ¬ 192 + angle % 32 * 2 + (x / 256).toUInt8 % 2 < 128 := by
        rw [UInt8.lt_iff_toNat_lt, hfirst]
        simp only [UInt8.toNat_ofNat, Nat.reducePow, Nat.reduceMod]
        omega
      have hend : ¬ 192 + angle % 32 * 2 + (x / 256).toUInt8 % 2 = 128 := by
        rw [← UInt8.toNat_inj, hfirst]
        simp only [UInt8.toNat_ofNat, Nat.reducePow, Nat.reduceMod]
        omega
      have hx' : ((192 + angle % 32 * 2 + (x / 256).toUInt8 % 2) % 2).toUInt16 * 256
          + x.toUInt8.toUInt16 = x % 512 := by
        apply UInt16.toNat.inj
        simp only [UInt16.toNat_add, UInt16.toNat_mul, UInt8.toNat_toUInt16, UInt8.toNat_mod,
          hfirst, UInt16.toNat_toUInt8, UInt16.toNat_mod, UInt8.toNat_ofNat, UInt16.toNat_ofNat,
          Nat.reducePow, Nat.reduceMod]
        omega
      have hangle' : (192 + angle % 32 * 2 + (x / 256).toUInt8 % 2) / 2 % 32 = angle % 32 := by
        apply UInt8.toNat.inj
        simp only [UInt8.toNat_mod, UInt8.toNat_div, hfirst, UInt8.toNat_ofNat, Nat.reducePow,
          Nat.reduceMod]
        omega
      simp only [encode, List.cons_append, List.nil_append, decode, hdelta, hend, hge, if_false,
        hx', hangle', masked]
  | finish => rfl

/-- **An instruction whose fields fit loses nothing.** -/
theorem masked_of_isCanonical {i : Instruction} (h : i.IsCanonical) : i.masked = i := by
  cases i with
  | delta index =>
      have hindex : index % 128 = index := by
        apply UInt8.toNat.inj
        rw [UInt8.toNat_mod]
        exact Nat.mod_eq_of_lt (Nat.lt_succ_of_le h)
      rw [masked, hindex]
  | sleep n =>
      have hn : n % 64 = n := by
        apply UInt8.toNat.inj
        rw [UInt8.toNat_mod]
        exact Nat.mod_eq_of_lt (Nat.lt_succ_of_le h.2)
      have hpos : n ≠ 0 := by
        rintro rfl
        exact absurd h.1 (by decide)
      rw [masked, hn, if_neg hpos]
  | state x y angle =>
      have hx : x % 512 = x := by
        apply UInt16.toNat.inj
        rw [UInt16.toNat_mod]
        exact Nat.mod_eq_of_lt (Nat.lt_succ_of_le h.1)
      have hangle : angle % 32 = angle := by
        apply UInt8.toNat.inj
        rw [UInt8.toNat_mod]
        exact Nat.mod_eq_of_lt (Nat.lt_succ_of_le h.2)
      rw [masked, hx, hangle]
  | finish => rfl

/-! ## Whole scripts -/

theorem decodeAll_of_none {bytes : List UInt8} (h : decode bytes = none) :
    decodeAll bytes = [] := by
  rw [decodeAll]
  split
  · rfl
  · next heq => simp [h] at heq

theorem decodeAll_of_some {bytes rest : List UInt8} {i : Instruction}
    (h : decode bytes = some (i, rest)) : decodeAll bytes = i :: decodeAll rest := by
  rw [decodeAll]
  split
  · next heq => simp [h] at heq
  · next heq =>
    rw [h] at heq
    cases heq
    rfl

/-- The instructions of bytes that start with an encoded one. -/
theorem decodeAll_encode_append (i : Instruction) (rest : List UInt8) :
    decodeAll (i.encode ++ rest) = i.masked :: decodeAll rest :=
  decodeAll_of_some (decode_encode i rest)

/-- **A script of instructions whose fields fit is read back.** -/
theorem decodeAll_flatMap_encode {instructions : List Instruction}
    (h : ∀ i ∈ instructions, i.IsCanonical) :
    decodeAll (instructions.flatMap encode) = instructions := by
  induction instructions with
  | nil => exact decodeAll_of_none rfl
  | cons i rest ih =>
      rw [List.flatMap_cons, decodeAll_encode_append, masked_of_isCanonical (h i (by simp)),
        ih fun j hj => h j (by simp [hj])]

end DeltaScript.Instruction
