import DeltaScript.Proofs.Direction
import DeltaScript.Proofs.Ranking

/-!
# Sleeps are as few as they can be

A script does not tell its frames apart: a run of frames in which nothing changes becomes a few
sleeps, wherever the run starts and however long it is.  Replacing each sleep by its holds gives the
frames back one by one, and the sleeps of a run are as few as can hold that long.

* `Cue.Tight` — every sleep holds for 1 to 63 frames, and **none but a full one is followed by
  another one.**  `Cue.tight_pack`: packed cues are tight.
* `Cue.exists_split` — what instructions stand for can be cut where the instructions are cut, unless
  there are holds on both sides of the cut.
* `Cue.Tight.exists_run` — a run of `r` holds is played by as many sleeps as 63 goes into `r`,
  rounded up.
* `Direction.Answers` — what is played in a frame behind the first visible one.
* `Direction.Performs`, `Direction.performs_of_instructions` — **the instructions of an object,
  frame by frame.**
-/

namespace DeltaScript

namespace Cue

/-! ## Tight instructions -/

/-- Two neighbours are not both sleeps, unless the first one is full. -/
def Adjoin (i j : Instruction) : Prop :=
  ∀ m n, i = .sleep m → j = .sleep n → m.toNat = 63

/-- Instructions whose sleeps cannot be fewer. -/
structure Tight (instructions : List Instruction) : Prop where
  /-- A sleep holds for 1 to 63 frames. -/
  bounds : ∀ n, Instruction.sleep n ∈ instructions → 1 ≤ n.toNat ∧ n.toNat ≤ 63
  /-- A sleep is followed by another one only if it is full. -/
  chain : instructions.IsChain Adjoin

theorem Tight.of_isInfix {instructions part : List Instruction} (h : Tight instructions)
    (hpart : part <:+: instructions) : Tight part where
  bounds n hn := h.bounds n (hpart.subset hn)
  chain := List.IsChain.infix h.chain hpart

theorem tight_nil : Tight [] where
  bounds := by simp
  chain := .nil

/-- What is no sleep can stand in front of anything. -/
theorem Tight.cons {i : Instruction} {rest : List Instruction} (h : Tight rest)
    (hi : ∀ n, i ≠ .sleep n) : Tight (i :: rest) where
  bounds n hn := by
    rcases List.mem_cons.mp hn with rfl | hn
    · exact absurd rfl (hi n)
    · exact h.bounds n hn
  chain := List.isChain_cons.mpr ⟨fun _ _ m _ hm _ => absurd hm (hi m), h.chain⟩

/-- Full sleeps can stand in front of anything. -/
theorem isChain_replicate_append {rest : List Instruction} (h : rest.IsChain Adjoin) (n : ℕ) :
    (List.replicate n (Instruction.sleep (UInt8.ofNat Instruction.maxSleep)) ++ rest).IsChain
      Adjoin := by
  induction n with
  | zero => exact h
  | succ n ih =>
      rw [List.replicate_succ, List.cons_append, List.isChain_cons]
      refine ⟨?_, ih⟩
      intro _ _ m _ hm _
      cases hm
      rfl

/-- **Sleeps can stand in front of anything that does not start with a sleep.** -/
theorem Tight.sleeps_append {rest : List Instruction} (h : Tight rest)
    (hrest : ∀ n, rest.head? ≠ some (.sleep n)) (frames : ℕ) :
    Tight (Instruction.sleeps frames ++ rest) where
  bounds n hn := by
    rcases List.mem_append.mp hn with hn | hn
    · exact Instruction.isCanonical_of_mem_sleeps hn
    · exact h.bounds n hn
  chain := by
    rw [Instruction.sleeps, List.append_assoc]
    refine isChain_replicate_append ?_ _
    split_ifs
    · exact h.chain
    · -- the last sleep need not be full, since no sleep follows
      rw [List.singleton_append, List.isChain_cons]
      refine ⟨?_, h.chain⟩
      rintro j hj _ n - rfl
      exact absurd hj (hrest n)

/-- While cues are packed from the back, what is behind the open run of holds does not start with a
sleep. -/
theorem tight_foldr {cues : List Cue} (hcues : ∀ c ∈ cues, c.IsPlain)
    {tail : List Instruction} (htail : Tight tail) (hhead : ∀ n, tail.head? ≠ some (.sleep n)) :
    Tight (cues.foldr packStep (0, tail)).2
      ∧ ∀ n, (cues.foldr packStep (0, tail)).2.head? ≠ some (.sleep n) := by
  induction cues with
  | nil => exact ⟨htail, hhead⟩
  | cons c cues ih =>
      obtain ⟨htight, hfirst⟩ := ih fun c hc => hcues c (List.mem_cons_of_mem _ hc)
      cases c with
      | hold => exact ⟨htight, hfirst⟩
      | play i =>
          have hi : ∀ n, i ≠ .sleep n := by
            rintro n rfl
            exact hcues _ List.mem_cons_self
          refine ⟨(htight.sleeps_append hfirst _).cons hi, ?_⟩
          intro n hn
          exact hi n (Option.some.inj hn)

/-- **Packed cues are tight.** -/
theorem tight_pack {cues : List Cue} (hcues : ∀ c ∈ cues, c.IsPlain)
    {tail : List Instruction} (htail : Tight tail) (hhead : ∀ n, tail.head? ≠ some (.sleep n)) :
    Tight (pack cues tail) := by
  obtain ⟨htight, hfirst⟩ := tight_foldr hcues htail hhead
  exact htight.sleeps_append hfirst _

/-! ## Runs of holds -/

/-- Only holds can be cut apart within one instruction. -/
theorem eq_hold_of_ofInstruction {i : Instruction} {before behind : List Cue}
    (h : ofInstruction i = before ++ behind) (hbefore : before ≠ []) (hbehind : behind ≠ []) :
    ∀ c ∈ ofInstruction i, c = hold := by
  have hlength := congrArg List.length h
  have hpos := List.length_pos_iff.mpr hbefore
  have hpos' := List.length_pos_iff.mpr hbehind
  rw [List.length_append] at hlength
  cases i with
  | sleep n => exact fun c hc => List.eq_of_mem_replicate hc
  | delta index =>
      simp only [ofInstruction, List.length_singleton] at hlength
      omega
  | state x y angle =>
      simp only [ofInstruction, List.length_singleton] at hlength
      omega
  | finish =>
      simp only [ofInstruction, List.length_singleton] at hlength
      omega

/-- **Cues are cut where instructions are**, unless there are holds on both sides, which may belong
to one sleep. -/
theorem exists_split {instructions : List Instruction} {before behind : List Cue}
    (h : unpack instructions = before ++ behind)
    (hborder : before.getLast? = some hold → behind.head? ≠ some hold) :
    ∃ front back, instructions = front ++ back ∧ unpack front = before
      ∧ unpack back = behind := by
  induction instructions generalizing before with
  | nil =>
      obtain ⟨rfl, rfl⟩ := List.nil_eq_append_iff.mp h
      exact ⟨[], [], rfl, rfl, rfl⟩
  | cons i rest ih =>
      rcases eq_or_ne before [] with rfl | hbefore
      · exact ⟨[], i :: rest, rfl, rfl, h⟩
      rw [unpack_cons, List.append_eq_append_iff] at h
      rcases h with ⟨middle, rfl, hrest⟩ | ⟨middle, hinstruction, rfl⟩
      · obtain ⟨front, back, rfl, rfl, rfl⟩ := ih hrest fun hlast => hborder (by
          rw [List.getLast?_append, hlast, Option.some_or])
        exact ⟨i :: front, back, rfl, unpack_cons i front, rfl⟩
      · rcases eq_or_ne middle [] with rfl | hmiddle
        · rw [List.append_nil] at hinstruction
          refine ⟨[i], rest, rfl, ?_, rfl⟩
          rw [unpack_cons, hinstruction]
          exact List.append_nil before
        · -- the cut goes through a sleep, so that there is a hold on either side of it
          have hhold := eq_hold_of_ofInstruction hinstruction hbefore hmiddle
          rw [hinstruction] at hhold
          obtain ⟨first, last, rfl⟩ := (List.eq_nil_or_concat' before).resolve_left hbefore
          obtain ⟨next, tail, rfl⟩ := List.exists_cons_of_ne_nil hmiddle
          have hlast : last = hold := hhold last (by simp)
          have hnext : next = hold := hhold next (by simp)
          refine absurd ?_ (hborder ?_)
          · rw [hnext]
            rfl
          · rw [hlast, List.getLast?_concat]

/-- Instructions that do nothing but hold start with a sleep. -/
theorem exists_sleep_of_unpack {i : Instruction} {rest : List Instruction} {frames : ℕ}
    (h : unpack (i :: rest) = List.replicate frames hold) :
    ∃ n later, i = .sleep n ∧ frames = n.toNat + later
      ∧ unpack rest = List.replicate later hold := by
  rw [unpack_cons, List.append_eq_replicate_iff] at h
  obtain ⟨hlength, hi, hrest⟩ := h
  cases i with
  | sleep n =>
      refine ⟨n, _, rfl, ?_, hrest⟩
      rw [← hlength]
      exact congrArg (· + _) List.length_replicate
  | delta index => simp [ofInstruction] at hi
  | state x y angle => simp [ofInstruction] at hi
  | finish => simp [ofInstruction] at hi

/-- **Tight instructions that do nothing but hold are as few as can hold that long.** -/
theorem Tight.length_bytes {sleeps : List Instruction} (h : Tight sleeps) {frames : ℕ}
    (hunpack : unpack sleeps = List.replicate frames hold) :
    (sleeps.flatMap Instruction.encode).length = (frames + 62) / 63 := by
  induction sleeps generalizing frames with
  | nil =>
      obtain rfl : frames = 0 := by simpa [unpack] using hunpack
      rfl
  | cons i rest ih =>
      obtain ⟨n, later, rfl, rfl, hrest⟩ := exists_sleep_of_unpack hunpack
      have hlength := ih (h.of_isInfix (List.suffix_cons ..).isInfix) hrest
      obtain ⟨hpos, hle⟩ := h.bounds n List.mem_cons_self
      rw [List.flatMap_cons, List.length_append, hlength]
      simp only [Instruction.encode, List.length_singleton]
      cases rest with
      | nil =>
          obtain rfl : later = 0 := by simpa [unpack] using hrest
          omega
      | cons j rest =>
          obtain ⟨m, _, rfl, -, -⟩ := exists_sleep_of_unpack hrest
          have hfull : n.toNat = 63 := (List.isChain_cons_cons.mp h.chain).1 n m rfl rfl
          omega

/-- **A whole run of holds is played by as few sleeps as can hold that long.** -/
theorem Tight.exists_run {instructions : List Instruction} (h : Tight instructions)
    {before behind : List Cue} {frames : ℕ}
    (hrun : unpack instructions = before ++ List.replicate frames hold ++ behind)
    (hbefore : before.getLast? ≠ some hold) (hbehind : behind.head? ≠ some hold) :
    ∃ front sleeps back, instructions = front ++ sleeps ++ back ∧ unpack front = before
      ∧ unpack sleeps = List.replicate frames hold ∧ unpack back = behind
      ∧ (sleeps.flatMap Instruction.encode).length = (frames + 62) / 63 := by
  rw [List.append_assoc] at hrun
  obtain ⟨front, rest, rfl, hfront, hrest⟩ :=
    exists_split hrun fun hlast => absurd hlast hbefore
  obtain ⟨sleeps, back, rfl, hsleeps, hback⟩ := exists_split hrest fun _ => hbehind
  have htight : Tight sleeps := h.of_isInfix ⟨front, back, List.append_assoc ..⟩
  exact ⟨front, sleeps, back, (List.append_assoc ..).symm, hfront, hsleeps, hback,
    htight.length_bytes hsleeps⟩

end Cue

/-! ## The frames of an object -/

theorem Step.isStill_eq_true_iff {step : Step} :
    step.isStill = true ↔ ∃ delta, step.delta = some delta ∧ ∀ c ∈ delta, c = 0 := by
  rw [isStill]
  cases step.delta with
  | none => simp
  | some delta => simp

namespace Direction

variable {d : Direction} {object : ℕ} {steps : List Step} {instructions : List Instruction}

/-- What is played in a frame behind the first visible one. -/
inductive Answers (d : Direction) (step : Step) : Cue → Prop
  /-- Nothing changed. -/
  | hold {delta : Delta} (hdelta : step.delta = some delta) (hzero : ∀ c ∈ delta, c = 0) :
      Answers d step .hold
  /-- The change has an index. -/
  | delta {delta : Delta} {index : UInt8} (hdelta : step.delta = some delta)
      (hchange : ∃ c ∈ delta, c ≠ 0) (hindex : d.ranking.index? delta = some index.toNat) :
      Answers d step (.play (.delta index))
  /-- There is a change without an index. -/
  | state (hdelta : ∀ delta, step.delta = some delta →
        (∃ c ∈ delta, c ≠ 0) ∧ d.ranking.index? delta = none)
      (hfits : d.overflow = .strict → Instruction.Fits step.state) :
      Answers d step (.play (Instruction.truncated step.state))

/-- The instructions of an object perform its steps. -/
structure Performs (d : Direction) (object : ℕ) (steps : List Step)
    (instructions : List Instruction) : Prop where
  /-- Sleeps replaced by their holds, there is one cue for each frame: the object is parked up to
  the first frame in which it is seen, that frame is a state, each later one is answered by itself,
  and nothing but the end follows. -/
  frames : ∃ f first later cues, FirstSeen d.visibility object steps f
    ∧ steps.drop f = first :: later ∧ List.Forall₂ d.Answers later cues
    ∧ (0 < f → d.overflow = .strict → Instruction.Fits d.sentinel)
    ∧ (d.overflow = .strict → Instruction.Fits first.state)
    ∧ Cue.unpack instructions
      = d.parked f ++ .play (Instruction.truncated first.state) :: cues ++ [.play .finish]
  /-- A sleep holds for 1 to 63 frames. -/
  bounds : ∀ n, Instruction.sleep n ∈ instructions → 1 ≤ n.toNat ∧ n.toNat ≤ 63
  /-- A sleep is followed by another one only if it holds for 63 frames. -/
  full : instructions.IsChain fun i j =>
    ∀ m n, i = .sleep m → j = .sleep n → m.toNat = 63
  /-- A run of still frames takes as many bytes as 63 goes into its length, rounded up. -/
  runs : ∀ before frames behind,
    Cue.unpack instructions = before ++ List.replicate frames .hold ++ behind →
    before.getLast? ≠ some .hold → behind.head? ≠ some .hold →
    ∃ front sleeps back, instructions = front ++ sleeps ++ back ∧ Cue.unpack front = before
      ∧ Cue.unpack sleeps = List.replicate frames .hold ∧ Cue.unpack back = behind
      ∧ (sleeps.flatMap Instruction.encode).length = (frames + 62) / 63

theorem Answers.isPlain {step : Step} {cue : Cue} (h : d.Answers step cue) : cue.IsPlain := by
  cases h <;> trivial

theorem isPlain_of_mem_parked {frames : ℕ} {cue : Cue} (h : cue ∈ d.parked frames) :
    cue.IsPlain := by
  cases frames with
  | zero => cases h
  | succ n =>
      rcases List.mem_cons.mp h with rfl | h
      · trivial
      · rw [List.eq_of_mem_replicate h]
        trivial

/-- **A later frame is answered by itself**: what is played does not depend on any other frame. -/
theorem answers_of_cueFor
    (hranking : ∀ delta index, d.ranking.index? delta = some index → index < 128) {step : Step}
    {cue : Cue} (h : d.cueFor object step = .ok cue) : d.Answers step cue := by
  have hchange : ∀ delta, step.isStill = false → step.delta = some delta →
      ∃ c ∈ delta, c ≠ 0 := by
    intro delta hstill hdelta
    by_contra hzero
    push Not at hzero
    rw [Step.isStill_eq_true_iff.mpr ⟨delta, hdelta, hzero⟩] at hstill
    cases hstill
  rcases (cueFor_eq_ok_iff hranking).mp h with
    ⟨hstill, rfl⟩ | ⟨hstill, delta, index, hdelta, hindex, rfl⟩ | ⟨hstill, hnone, hfits, rfl⟩
  · obtain ⟨delta, hdelta, hzero⟩ := Step.isStill_eq_true_iff.mp hstill
    exact .hold hdelta hzero
  · have hbyte : (UInt8.ofNat index).toNat = index := by
      have hlt := hranking delta index hindex
      rw [UInt8.toNat_ofNat']
      exact Nat.mod_eq_of_lt (by omega)
    exact .delta hdelta (hchange delta hstill hdelta) (by rwa [hbyte])
  · refine .state (fun delta hdelta => ⟨hchange delta hstill hdelta, ?_⟩) hfits
    rwa [hdelta, Option.bind_some] at hnone

/-- **The instructions of an object, frame by frame**, with as few sleeps as can be. -/
theorem performs_of_instructions (hsize : d.ranking.size ≤ Ranking.capacity)
    (h : d.instructions object steps = .ok instructions) :
    d.Performs object steps instructions := by
  have hranking : ∀ delta index, d.ranking.index? delta = some index → index < 128 :=
    fun delta index hindex => Nat.lt_of_lt_of_le (Ranking.index?_lt_size hindex) hsize
  obtain ⟨cues, hcues, rfl⟩ := map_eq_ok_iff.mp h
  rcases hidden_or_seen d.visibility object steps with
    hhidden | ⟨before, first, later, rfl, hhidden, hseen⟩
  · rw [cues_of_hidden hhidden] at hcues
    cases hcues
  obtain ⟨hsentinel, hfirst, rest, hrest, rfl⟩ :=
    (cues_append_eq_ok_iff hhidden hseen).mp hcues
  have hanswers : List.Forall₂ d.Answers later rest :=
    (mapM_eq_ok_iff.mp hrest).imp fun step cue => answers_of_cueFor hranking
  have hplain : ∀ c ∈ d.parked before.length
      ++ .play (Instruction.truncated first.state) :: rest, c.IsPlain := by
    intro c hc
    rcases List.mem_append.mp hc with hc | hc
    · exact isPlain_of_mem_parked hc
    rcases List.mem_cons.mp hc with rfl | hc
    · trivial
    · obtain ⟨step, -, hstep⟩ := exists_mem_of_mapM hrest hc
      exact (answers_of_cueFor hranking hstep).isPlain
  have htight := Cue.tight_pack hplain (Cue.tight_nil.cons (i := .finish) (by simp)) (by simp)
  refine ⟨⟨_, first, later, rest, firstSeen_append hhidden hseen, List.drop_left, hanswers,
    hsentinel, hfirst, ?_⟩, htight.bounds, htight.chain, ?_⟩
  · rw [Cue.unpack_pack hplain]
    rfl
  · intro front frames back
    exact htight.exists_run

/-! ## A late entrance and a long rest

The object is off the screen for three frames.  It rests for 70 frames, more than one sleep can
hold, and its last two frames are an indexed delta and a state.
-/

/-- One delta has an index. -/
def unhurried : Direction where
  ranking := ⟨[⟨[1, -2], 5⟩]⟩
  visibility := Screen.shows {}
  sentinel := [500, 0]
  overflow := .strict

def unhurriedSteps : List Step :=
  [⟨[345, 9], none⟩, ⟨[345, 9], some [0, 0]⟩, ⟨[344, 9], some [-1, 0]⟩, ⟨[343, 9], some [-1, 0]⟩]
    ++ List.replicate 70 ⟨[343, 9], some [0, 0]⟩
    ++ [⟨[344, 7], some [1, -2]⟩, ⟨[344, 17], some [0, 10]⟩]

def unhurriedInstructions : List Instruction :=
  [.state 500 0 0, .sleep 2, .state 343 9 0, .sleep 63, .sleep 7, .delta 0, .state 344 17 0,
    .finish]

theorem performs_unhurried : unhurried.ranking.size ≤ Ranking.capacity
    ∧ unhurried.instructions 0 unhurriedSteps = .ok unhurriedInstructions
    ∧ unhurried.Performs 0 unhurriedSteps unhurriedInstructions := by
  have hsize : unhurried.ranking.size ≤ Ranking.capacity := by decide
  have h : unhurried.instructions 0 unhurriedSteps = .ok unhurriedInstructions := by rfl
  exact ⟨hsize, h, performs_of_instructions hsize h⟩

end Direction

end DeltaScript
