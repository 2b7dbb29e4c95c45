import DeltaScript.Settings

/-!
# Instructions

A script is a sequence of instructions to the playback engine.  Each of them accounts for a number
of frames: a delta and a state for one, a sleep for as many as it says, the end for none.

* `Instruction` — the four instructions.  Their fields are as wide as the machine's registers, which
  is wider than the encoding; `Instruction.IsCanonical` holds of those that the encoding can tell
  apart.
* `Instruction.ofIndex` — the delta instruction for a dictionary index.
* `Instruction.ofValues` — the state instruction for the values of a frame, under either way to
  treat a value that does not fit.
* `Instruction.sleeps` — the sleeps that last a number of frames, as few as possible.
-/

namespace DeltaScript

/-- An instruction of a script. -/
inductive Instruction
  /-- Apply the delta with this index. -/
  | delta (index : UInt8)
  /-- Hold everything for this many frames. -/
  | sleep (frames : UInt8)
  /-- Take these values. -/
  | state (x : UInt16) (y : UInt8) (angle : UInt8)
  /-- The script is over. -/
  | finish
  deriving DecidableEq, Repr

namespace Instruction

/-- The longest time that one sleep lasts. -/
def maxSleep : Nat := 63

def maxIndex : Nat := 127

def size : Instruction → Nat
  | state _ _ _ => 3
  | _ => 1

/-- The number of frames that an instruction accounts for. -/
def frames : Instruction → Nat
  | delta _ => 1
  | sleep n => n.toNat
  | state _ _ _ => 1
  | finish => 0

def text : Instruction → String
  | delta index => s!"delta #{index.toNat}"
  | sleep n => s!"sleep {n.toNat}"
  | state x y angle => s!"state {x.toNat},{y.toNat},{angle.toNat}"
  | finish => "end"

/-- An instruction whose fields fit the encoding. -/
def IsCanonical : Instruction → Prop
  | delta index => index.toNat ≤ 127
  | sleep n => 1 ≤ n.toNat ∧ n.toNat ≤ 63
  | state x _ angle => x.toNat ≤ 511 ∧ angle.toNat ≤ 31
  | finish => True

instance : DecidablePred IsCanonical
  | delta index => inferInstanceAs (Decidable (index.toNat ≤ 127))
  | sleep n => inferInstanceAs (Decidable (1 ≤ n.toNat ∧ n.toNat ≤ 63))
  | state x _ angle => inferInstanceAs (Decidable (x.toNat ≤ 511 ∧ angle.toNat ≤ 31))
  | finish => inferInstanceAs (Decidable True)

/-! ## Making instructions -/

/-- The delta instruction for a dictionary index. -/
def ofIndex (index : Nat) : Except Failure Instruction :=
  if index ≤ maxIndex then .ok (.delta (UInt8.ofNat index)) else .error (.deltaIndex index)

/-- The values that the fields of a state instruction are to take.  A value that is missing reads as
zero. -/
def fieldValues (values : Values) : List (Field × Int) :=
  [(.x, values.getD 0 0), (.y, values.getD 1 0), (.angle, values.getD 2 0)]

/-- The first field whose value does not fit, with the value. -/
def misfit? (values : Values) : Option (Field × Int) :=
  (fieldValues values).find? fun (field, value) => value < 0 || (field.width : Int) ≤ value

/-- The state instruction whose fields take the low bits of the values. -/
def truncated (values : Values) : Instruction :=
  .state (UInt16.ofNat (values.getD 0 0 % 512).toNat) (UInt8.ofNat (values.getD 1 0 % 256).toNat)
    (UInt8.ofNat (values.getD 2 0 % 32).toNat)

/-- The state instruction for the values of a frame.  `object` is named if a value is refused. -/
def ofValues (overflow : Overflow) (object : Option Nat) (values : Values) :
    Except Failure Instruction :=
  match overflow, misfit? values with
  | .strict, some (field, value) => .error (.fieldRange object field value)
  | _, _ => .ok (truncated values)

/-- The sleeps for a number of frames: full ones first, the rest in a last one. -/
def sleeps (frames : Nat) : List Instruction :=
  List.replicate (frames / maxSleep) (.sleep (UInt8.ofNat maxSleep))
    ++ if frames % maxSleep = 0 then [] else [.sleep (UInt8.ofNat (frames % maxSleep))]

end Instruction

end DeltaScript
