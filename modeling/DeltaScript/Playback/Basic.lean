import DeltaScript.Attribute
import DeltaScript.Cue

/-!
# Playback

What instructions show, frame by frame.  A player keeps the values of one object as integers, which
a delta may lead anywhere; it knows nothing of the recording.

* `Instruction.shift` — values after a delta.
* `Instruction.play` — the frames that instructions show, up to the first end.  There are none if an
  index names no delta.
* `Instruction.length_play` — **as many frames are shown as there are cues before the end**,
  whatever the deltas are.
-/

namespace DeltaScript.Instruction

/-- Values with a delta added component by component.  A value without a component stays. -/
def shift : Values → Delta → Values
  | value :: values, d :: change => (value + d) :: shift values change
  | values, _ => values

/-- The frames that instructions show from given values on; `none` if an index names no delta. -/
def play (delta? : Nat → Option Delta) (now : Values) : List Instruction → Option (List Values)
  | [] => some []
  | .finish :: _ => some []
  | .sleep n :: rest => (play delta? now rest).map (List.replicate n.toNat now ++ ·)
  | .state x y angle :: rest =>
      let next : Values := [x.toNat, y.toNat, angle.toNat]
      (play delta? next rest).map (next :: ·)
  | .delta index :: rest =>
      match delta? index.toNat with
      | none => none
      | some change =>
          let next := shift now change
          (play delta? next rest).map (next :: ·)

/-- The instructions before the first end. -/
def beforeEnd (instructions : List Instruction) : List Instruction :=
  instructions.takeWhile (· != .finish)

theorem beforeEnd_cons {i : Instruction} (h : i ≠ .finish) (rest : List Instruction) :
    beforeEnd (i :: rest) = i :: beforeEnd rest := by
  rw [beforeEnd, List.takeWhile_cons, if_pos (bne_iff_ne.mpr h), ← beforeEnd]

theorem length_play {delta? : Nat → Option Delta} {now : Values} {instructions : List Instruction}
    {shown : List Values} (h : play delta? now instructions = some shown) :
    shown.length = (Cue.unpack (beforeEnd instructions)).length := by
  induction instructions generalizing now shown with
  | nil =>
      obtain rfl := Option.some.inj h
      rfl
  | cons i rest ih =>
      cases i with
      | finish =>
          obtain rfl := Option.some.inj h
          rfl
      | sleep n =>
          obtain ⟨later, hl, rfl⟩ := Option.map_eq_some_iff.1 h
          rw [beforeEnd_cons (by simp), Cue.unpack_cons, List.length_append, List.length_append,
            ih hl, Cue.ofInstruction, List.length_replicate, List.length_replicate]
      | state x y angle =>
          obtain ⟨later, hl, rfl⟩ := Option.map_eq_some_iff.1 h
          rw [beforeEnd_cons (by simp), Cue.unpack_cons, List.length_append, List.length_cons,
            ih hl, Cue.ofInstruction_of_isPlain (i := .state x y angle) trivial,
            List.length_singleton, Nat.add_comm]
      | delta index =>
          rw [play] at h
          split at h
          · cases h
          · obtain ⟨later, hl, rfl⟩ := Option.map_eq_some_iff.1 h
            rw [beforeEnd_cons (by simp), Cue.unpack_cons, List.length_append, List.length_cons,
              ih hl, Cue.ofInstruction_of_isPlain (i := .delta index) trivial,
              List.length_singleton, Nat.add_comm]

end DeltaScript.Instruction
