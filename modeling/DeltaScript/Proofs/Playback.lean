import DeltaScript.Playback.Basic
import DeltaScript.Proofs.Fields

/-!
# Playing cues

A script is packed cues.  What it shows can be said of the cues alone, one frame to a cue, so that
no proof about a script has to look into its sleeps.

* `Cue.Shows` — the frames that cues show from given values on.
* `Instruction.play_sleeps` — sleeps hold the values for as long as they are asked to.
* `Cue.Shows.play_pack` — **a packed script shows what its cues show.**
* `Cue.Shows.length_eq` — one frame is shown for each cue.
* `Instruction.play_mono` — a player that knows more deltas shows the same.
-/

namespace DeltaScript

variable {delta? : ℕ → Option Delta} {now : Values}

/-! ## The frames of cues -/

/-- The frames that cues show from given values on. -/
inductive Cue.Shows (delta? : ℕ → Option Delta) : Values → List Cue → List Values → Prop
  /-- No cues show nothing. -/
  | done {now : Values} : Shows delta? now [] []
  /-- A hold shows the same values again. -/
  | hold {now : Values} {cues : List Cue} {shown : List Values} :
      Shows delta? now cues shown → Shows delta? now (.hold :: cues) (now :: shown)
  /-- A state shows its fields. -/
  | state {now : Values} {x : UInt16} {y angle : UInt8} {cues : List Cue} {shown : List Values} :
      Shows delta? [(x.toNat : ℤ), y.toNat, angle.toNat] cues shown →
      Shows delta? now (.play (.state x y angle) :: cues)
        ([(x.toNat : ℤ), y.toNat, angle.toNat] :: shown)
  /-- A delta shows the values moved by it. -/
  | delta {now : Values} {index : UInt8} {change : Delta} {cues : List Cue} {shown : List Values} :
      delta? index.toNat = some change →
      Shows delta? (Instruction.shift now change) cues shown →
      Shows delta? now (.play (.delta index) :: cues) (Instruction.shift now change :: shown)

theorem Cue.Shows.length_eq {cues : List Cue} {shown : List Values}
    (h : Cue.Shows delta? now cues shown) : shown.length = cues.length := by
  induction h with
  | done => rfl
  | hold _ ih => rw [List.length_cons, ih, List.length_cons]
  | state _ ih => rw [List.length_cons, ih, List.length_cons]
  | delta _ _ ih => rw [List.length_cons, ih, List.length_cons]

/-- Holds show the same values as often as there are holds. -/
theorem Cue.Shows.replicate_hold {cues : List Cue} {shown : List Values}
    (h : Cue.Shows delta? now cues shown) (n : ℕ) :
    Cue.Shows delta? now (List.replicate n .hold ++ cues) (List.replicate n now ++ shown) := by
  induction n with
  | zero => exact h
  | succ n ih => exact .hold ih

/-! ## Packed cues -/

namespace Instruction

/-- Full sleeps hold the values for their whole length. -/
theorem play_replicate_maxSleep (n : ℕ) (rest : List Instruction) :
    play delta? now (List.replicate n (.sleep (UInt8.ofNat maxSleep)) ++ rest)
      = (play delta? now rest).map (List.replicate (n * maxSleep) now ++ ·) := by
  induction n with
  | zero => simp
  | succ n ih =>
      rw [List.replicate_succ, List.cons_append, play, ih, Option.map_map]
      congr 1
      funext shown
      rw [Function.comp_apply, ← List.append_assoc, List.replicate_append_replicate,
        Nat.succ_mul, Nat.add_comm]
      rfl

/-- **Sleeps hold the values for exactly as long as they are asked to.** -/
theorem play_sleeps (frames : ℕ) (rest : List Instruction) :
    play delta? now (sleeps frames ++ rest)
      = (play delta? now rest).map (List.replicate frames now ++ ·) := by
  have hsplit := Nat.div_add_mod' frames maxSleep
  have hlt : frames % maxSleep < maxSleep := Nat.mod_lt _ (by decide)
  rw [sleeps, List.append_assoc, play_replicate_maxSleep]
  split_ifs with hzero
  · rw [hzero, Nat.add_zero] at hsplit
    rw [List.nil_append, hsplit]
  · have hbyte : (UInt8.ofNat (frames % maxSleep)).toNat = frames % maxSleep := by
      rw [UInt8.toNat_ofNat']
      exact Nat.mod_eq_of_lt (Nat.lt_trans hlt (by decide))
    rw [List.singleton_append, play, hbyte, Option.map_map]
    congr 1
    funext shown
    rw [Function.comp_apply, ← List.append_assoc, List.replicate_append_replicate, hsplit]

end Instruction

namespace Cue

/-- A packed hold is one more frame of the same values. -/
theorem play_pack_hold (cues : List Cue) (tail : List Instruction) :
    Instruction.play delta? now (pack (hold :: cues) tail)
      = (Instruction.play delta? now (pack cues tail)).map (now :: ·) := by
  simp only [pack, List.foldr_cons, packStep]
  rw [Instruction.play_sleeps, Instruction.play_sleeps, Option.map_map]
  rfl

theorem pack_play (i : Instruction) (cues : List Cue) (tail : List Instruction) :
    pack (play i :: cues) tail = i :: pack cues tail := by
  simp only [pack, List.foldr_cons, packStep]
  rfl

/-- **A packed script shows what its cues show.** -/
theorem Shows.play_pack {cues : List Cue} {shown : List Values}
    (h : Cue.Shows delta? now cues shown) :
    Instruction.play delta? now (pack cues [.finish]) = some shown := by
  induction h with
  | done => rfl
  | hold _ ih => rw [play_pack_hold, ih, Option.map_some]
  | state _ ih => rw [pack_play, Instruction.play, ih, Option.map_some]
  | delta hchange _ ih =>
      rw [pack_play, Instruction.play, hchange]
      dsimp only
      rw [ih, Option.map_some]

/-- What stands behind packed cues does not change how they are packed. -/
theorem foldr_packStep (cues : List Cue) (tail : List Instruction) :
    cues.foldr packStep (0, tail)
      = ((cues.foldr packStep (0, [])).1, (cues.foldr packStep (0, [])).2 ++ tail) := by
  induction cues with
  | nil => rfl
  | cons c cues ih =>
      rw [List.foldr_cons, List.foldr_cons, ih]
      cases c with
      | hold => rfl
      | play i => simp [packStep]

theorem pack_eq_append (cues : List Cue) (tail : List Instruction) :
    pack cues tail = pack cues [] ++ tail := by
  rw [pack, foldr_packStep, pack]
  exact (List.append_assoc ..).symm

/-- The instructions of packed cues are sleeps, instructions that a cue plays, and what stands
behind them. -/
theorem mem_pack {cues : List Cue} {tail : List Instruction} {i : Instruction}
    (h : i ∈ pack cues tail) :
    (∃ frames, i ∈ Instruction.sleeps frames) ∨ play i ∈ cues ∨ i ∈ tail := by
  induction cues with
  | nil =>
      rcases List.mem_append.mp h with h | h
      · exact Or.inl ⟨0, h⟩
      · exact Or.inr (Or.inr h)
  | cons c cues ih =>
      have hrest : i ∈ pack cues tail → (∃ frames, i ∈ Instruction.sleeps frames)
          ∨ play i ∈ c :: cues ∨ i ∈ tail := fun h =>
        (ih h).imp_right (Or.imp_left (List.mem_cons_of_mem c))
      cases c with
      | hold =>
          simp only [pack, List.foldr_cons, packStep] at h
          rcases List.mem_append.mp h with h | h
          · exact Or.inl ⟨_, h⟩
          · exact hrest (List.mem_append_right _ h)
      | play j =>
          rw [pack_play] at h
          rcases List.mem_cons.mp h with rfl | h
          · exact Or.inr (Or.inl List.mem_cons_self)
          · exact hrest h

theorem Shows.finish_notMem {cues : List Cue} {shown : List Values}
    (h : Cue.Shows delta? now cues shown) : play .finish ∉ cues := by
  induction h with
  | done => simp
  | hold _ ih => simp [ih]
  | state _ ih => simp [ih]
  | delta _ _ ih => simp [ih]

/-- Packing adds no end. -/
theorem finish_notMem_pack {cues : List Cue} (h : play .finish ∉ cues) :
    .finish ∉ pack cues [] := by
  intro hmem
  rcases mem_pack hmem with ⟨frames, hsleep⟩ | hcue | htail
  · obtain ⟨n, hn⟩ := Instruction.exists_eq_sleep_of_mem_sleeps hsleep
    cases hn
  · exact h hcue
  · cases htail

/-- **A packed script has one end**, which stands behind everything else. -/
theorem Shows.exists_body {cues : List Cue} {shown : List Values}
    (h : Cue.Shows delta? now cues shown) :
    ∃ body, pack cues [.finish] = body ++ [.finish] ∧ .finish ∉ body :=
  ⟨pack cues [], pack_eq_append cues _, finish_notMem_pack h.finish_notMem⟩

end Cue

/-! ## More deltas -/

/-- **A player that knows more deltas shows the same.** -/
theorem Instruction.play_mono {delta?' : ℕ → Option Delta}
    (hmore : ∀ index change, delta? index = some change → delta?' index = some change)
    {instructions : List Instruction} {shown : List Values}
    (h : play delta? now instructions = some shown) :
    play delta?' now instructions = some shown := by
  induction instructions generalizing now shown with
  | nil => exact h
  | cons i rest ih =>
      cases i with
      | finish => exact h
      | sleep n =>
          obtain ⟨later, hlater, rfl⟩ := Option.map_eq_some_iff.mp h
          rw [play, ih hlater, Option.map_some]
      | state x y angle =>
          obtain ⟨later, hlater, rfl⟩ := Option.map_eq_some_iff.mp h
          rw [play, ih hlater, Option.map_some]
      | delta index =>
          rw [play] at h
          cases hchange : delta? index.toNat with
          | none => simp [hchange] at h
          | some change =>
              rw [hchange] at h
              obtain ⟨later, hlater, rfl⟩ := Option.map_eq_some_iff.mp h
              rw [play, hmore _ _ hchange]
              dsimp only
              rw [ih hlater, Option.map_some]

end DeltaScript
