import DeltaScript.Instruction.Basic

/-!
# Cues

What the playback engine has to do in one frame of an object is a cue: either everything is held, or
one instruction is played.  Runs of holds are packed into sleeps.

* `Cue.pack` — the instructions for cues, each run of holds as sleeps.
* `Cue.unpack` — the cues that instructions stand for.
* `Cue.unpack_pack` — **packing loses nothing**, as long as no cue plays a sleep itself.
-/

namespace DeltaScript

/-- What happens in one frame. -/
inductive Cue
  /-- Everything stays as it is. -/
  | hold
  /-- An instruction is played. -/
  | play (i : Instruction)
  deriving DecidableEq, Repr

namespace Cue

/-! ## Packing -/

/-- One step of packing, from the back: the length of the run of holds that is still open at the
front, and the instructions behind it. -/
def packStep (c : Cue) (packed : Nat × List Instruction) : Nat × List Instruction :=
  match c with
  | hold => (packed.1 + 1, packed.2)
  | play i => (0, i :: (Instruction.sleeps packed.1 ++ packed.2))

/-- The instructions for cues, with `tail` behind them. -/
def pack (cues : List Cue) (tail : List Instruction) : List Instruction :=
  let (holds, rest) := cues.foldr packStep (0, tail)
  Instruction.sleeps holds ++ rest

/-! ## Unpacking -/

/-- The cues that an instruction stands for: a sleep holds as often as it says. -/
def ofInstruction : Instruction → List Cue
  | .sleep n => List.replicate n.toNat hold
  | i => [play i]

/-- The cues that instructions stand for. -/
def unpack (instructions : List Instruction) : List Cue :=
  instructions.flatMap ofInstruction

/-- A cue that plays no sleep. -/
def IsPlain : Cue → Prop
  | hold => True
  | play (.sleep _) => False
  | play _ => True

theorem ofInstruction_of_isPlain {i : Instruction} (h : (play i).IsPlain) :
    ofInstruction i = [play i] := by
  cases i with
  | sleep n => exact absurd h id
  | _ => rfl

theorem unpack_cons (i : Instruction) (rest : List Instruction) :
    unpack (i :: rest) = ofInstruction i ++ unpack rest :=
  List.flatMap_cons

theorem unpack_append (xs ys : List Instruction) : unpack (xs ++ ys) = unpack xs ++ unpack ys :=
  List.flatMap_append

/-- Full sleeps hold for their whole length. -/
theorem unpack_replicate_maxSleep (n : Nat) :
    unpack (List.replicate n (.sleep (UInt8.ofNat Instruction.maxSleep)))
      = List.replicate (n * Instruction.maxSleep) hold := by
  induction n with
  | zero => simp [unpack]
  | succ n ih =>
      rw [List.replicate_succ, unpack_cons, ih, Nat.succ_mul, Nat.add_comm,
        ← List.replicate_append_replicate]
      rfl

/-- Sleeps hold for exactly as long as they are asked to. -/
theorem unpack_sleeps (frames : Nat) :
    unpack (Instruction.sleeps frames) = List.replicate frames hold := by
  have hsplit := Nat.div_add_mod' frames Instruction.maxSleep
  have hlt : frames % Instruction.maxSleep < Instruction.maxSleep := Nat.mod_lt _ (by decide)
  rw [Instruction.sleeps, unpack_append, unpack_replicate_maxSleep]
  split
  · next h =>
    rw [h, Nat.add_zero] at hsplit
    simp [unpack, hsplit]
  · have hbyte : (UInt8.ofNat (frames % Instruction.maxSleep)).toNat
        = frames % Instruction.maxSleep := by
      rw [UInt8.toNat_ofNat']
      exact Nat.mod_eq_of_lt (Nat.lt_trans hlt (by decide))
    rw [unpack_cons, ofInstruction, hbyte, unpack, List.flatMap_nil, List.append_nil,
      List.replicate_append_replicate, hsplit]

/-- Unpacking gives packed cues back. -/
theorem unpack_pack {cues : List Cue} (h : ∀ c ∈ cues, c.IsPlain) (tail : List Instruction) :
    unpack (pack cues tail) = cues ++ unpack tail := by
  induction cues with
  | nil => simp [pack, unpack_append, unpack_sleeps]
  | cons c cues ih =>
      have hc : c.IsPlain := h c (by simp)
      have ih := ih fun c hc => h c (by simp [hc])
      simp only [pack, List.foldr_cons, unpack_append, unpack_sleeps] at ih ⊢
      cases c with
      | hold =>
          simp only [packStep]
          rw [List.replicate_succ, List.cons_append, ih, List.cons_append]
      | play i =>
          simp only [packStep, List.replicate_zero, List.nil_append, unpack_cons, unpack_append,
            unpack_sleeps, ofInstruction_of_isPlain hc, ih, List.cons_append]

end Cue

end DeltaScript
