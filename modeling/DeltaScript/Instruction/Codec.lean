import DeltaScript.Instruction.Basic

/-!
# The encoding of instructions

The top bits of a byte tell which instruction it starts.

| bits       | instruction                               | bytes |
|------------|-------------------------------------------|-------|
| `0iiiiiii` | delta with index `i`                      | 1     |
| `10000000` | end                                       | 1     |
| `10nnnnnn` | sleep of `n` frames, `n` from 1           | 1     |
| `11aaaaax` | state: angle, bit 8 of x; then low x, y   | 3     |

* `Instruction.encode` — the bytes of an instruction.  Fields that are too wide lose their high
  bits, so a sleep of a multiple of 64 frames is encoded as the end.
* `Instruction.decode` — the instruction that bytes start with, and the bytes behind it; `none`
  where there is no byte, or where a state is cut short.
* `Instruction.decodeAll` — the instructions of a byte string, up to where the bytes run out.  An
  end is decoded like any other instruction.
-/

namespace DeltaScript.Instruction

/-- The bytes of an instruction. -/
def encode : Instruction → List UInt8
  | delta index => [index % 128]
  | sleep n => [128 + n % 64]
  | state x y angle => [192 + angle % 32 * 2 + (x / 256).toUInt8 % 2, x.toUInt8, y]
  | finish => [128]

/-- The instruction that bytes start with, and the bytes behind it. -/
def decode : List UInt8 → Option (Instruction × List UInt8)
  | [] => none
  | b :: rest =>
      if b < 128 then some (.delta b, rest)
      else if b = 128 then some (.finish, rest)
      else if b < 192 then some (.sleep (b % 64), rest)
      else
        match rest with
        | low :: y :: rest =>
            some (.state ((b % 2).toUInt16 * 256 + low.toUInt16) y (b / 2 % 32), rest)
        | _ => none

theorem size_pos (i : Instruction) : 0 < i.size := by
  cases i <;> simp [size]

/-- Decoding uses up the bytes of the instruction. -/
theorem length_of_decode {bytes rest : List UInt8} {i : Instruction}
    (h : decode bytes = some (i, rest)) : rest.length + i.size = bytes.length := by
  match bytes with
  | [] => simp [decode] at h
  | b :: tail =>
      unfold decode at h
      dsimp only at h
      split at h
      · cases h; rfl
      · split at h
        · cases h; rfl
        · split at h
          · cases h; rfl
          · split at h <;> cases h
            rfl

/-- The instructions of a byte string, up to where the bytes run out. -/
def decodeAll (bytes : List UInt8) : List Instruction :=
  match h : decode bytes with
  | none => []
  | some (i, rest) =>
      have : rest.length < bytes.length := by
        have := length_of_decode h
        have := i.size_pos
        omega
      i :: decodeAll rest
termination_by bytes.length

end DeltaScript.Instruction
