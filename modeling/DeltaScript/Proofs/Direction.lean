import DeltaScript.Direction
import DeltaScript.Proofs.Stages
import DeltaScript.Proofs.Playback
import DeltaScript.Proofs.Codec

/-!
# The cues of an object

`Direction.cues` cuts the steps of an object at the first frame in which it is seen.  All that it
can do is said here for the two parts, so that later proofs do not unfold it.

* `Direction.FirstSeen` — a frame is the first in which an object is seen.
* `Direction.hidden_or_seen` — an object is never seen, or its steps fall into those before and
  those from the first in which it is.
* `Direction.cues_of_hidden`, `Direction.cues_append` — what becomes of the steps in either case.
* `Direction.cueFor_eq_ok_iff`, `Direction.cueFor_eq_error_iff` — **a later frame is a hold, an
  indexed delta, or a state**, and only a state can be refused while all indices fit.
* `Direction.isCanonical_of_mem_instructions` — compiled instructions fit the encoding.
-/

namespace DeltaScript.Direction

variable {d : Direction} {object : ℕ}

/-! ## The first frame in which an object is seen -/

/-- The frame with a given number is the first one in which an object is seen. -/
structure FirstSeen (visibility : Visibility) (object : ℕ) (steps : List Step) (frame : ℕ) :
    Prop where
  seen : ∃ s, steps[frame]? = some s ∧ visibility object s.state = true
  hidden : ∀ k s, k < frame → steps[k]? = some s → visibility object s.state = false

theorem FirstSeen.unique {visibility : Visibility} {steps : List Step} {f g : ℕ}
    (hf : FirstSeen visibility object steps f) (hg : FirstSeen visibility object steps g) :
    f = g := by
  obtain ⟨s, hs, hseen⟩ := hf.seen
  obtain ⟨t, ht, hseen'⟩ := hg.seen
  rcases Nat.lt_trichotomy f g with hlt | heq | hlt
  · simp [hg.hidden f s hlt hs] at hseen
  · exact heq
  · simp [hf.hidden g t hlt ht] at hseen'

/-- The first step with a property, at the end of those without it, is the first one seen. -/
theorem firstSeen_append {visibility : Visibility} {before later : List Step} {first : Step}
    (hhidden : ∀ s ∈ before, visibility object s.state = false)
    (hseen : visibility object first.state = true) :
    FirstSeen visibility object (before ++ first :: later) before.length where
  seen := ⟨first, by simp, hseen⟩
  hidden := by
    intro k s hk hs
    rw [List.getElem?_append_left hk] at hs
    exact hhidden s (List.mem_of_getElem? hs)

/-- **An object is never seen, or there is a first step in which it is.** -/
theorem hidden_or_seen (visibility : Visibility) (object : ℕ) (steps : List Step) :
    (∀ s ∈ steps, visibility object s.state = false)
      ∨ ∃ before first later, steps = before ++ first :: later
        ∧ (∀ s ∈ before, visibility object s.state = false)
        ∧ visibility object first.state = true := by
  induction steps with
  | nil => exact Or.inl (by simp)
  | cons s steps ih =>
      cases hs : visibility object s.state with
      | true => exact Or.inr ⟨[], s, steps, rfl, by simp, hs⟩
      | false =>
          rcases ih with hhidden | ⟨before, first, later, rfl, hhidden, hseen⟩
          · exact Or.inl (by simpa [hs] using hhidden)
          · exact Or.inr ⟨s :: before, first, later, rfl, by simpa [hs] using hhidden, hseen⟩

theorem not_exists_firstSeen_iff {visibility : Visibility} {steps : List Step} :
    (¬ ∃ f, FirstSeen visibility object steps f) ↔
      ∀ s ∈ steps, visibility object s.state = false := by
  constructor
  · intro hnone
    rcases hidden_or_seen visibility object steps with
      hhidden | ⟨before, first, later, rfl, hhidden, hseen⟩
    · exact hhidden
    · exact absurd ⟨_, firstSeen_append hhidden hseen⟩ hnone
  · rintro hhidden ⟨f, hf⟩
    obtain ⟨s, hs, hseen⟩ := hf.seen
    simp [hhidden s (List.mem_of_getElem? hs)] at hseen

/-- The number of frames before the first one in which the object is seen. -/
theorem hiddenFrames_append {before later : List Step} {first : Step}
    (hhidden : ∀ s ∈ before, d.visibility object s.state = false)
    (hseen : d.visibility object first.state = true) :
    d.hiddenFrames object (before ++ first :: later) = before.length := by
  rw [hiddenFrames, List.takeWhile_append_of_pos (by simpa using hhidden), List.takeWhile_cons]
  simp [hseen]

/-! ## The cues of single frames -/

theorem stateFor_eq_ok_iff {values : Values} {i : Instruction} :
    d.stateFor object values = .ok i ↔ (d.overflow = .strict → Instruction.Fits values)
      ∧ i = Instruction.truncated values :=
  Instruction.ofValues_eq_ok_iff

/-- **A later frame is a hold if nothing changed, a delta if its delta has an index, and a state
otherwise.**  The first two are never refused. -/
theorem cueFor_eq_ok_iff
    (hranking : ∀ delta index, d.ranking.index? delta = some index → index < 128)
    {step : Step} {cue : Cue} : d.cueFor object step = .ok cue ↔
      (step.isStill = true ∧ cue = .hold)
      ∨ (step.isStill = false ∧ ∃ delta index, step.delta = some delta
          ∧ d.ranking.index? delta = some index ∧ cue = .play (.delta (UInt8.ofNat index)))
      ∨ (step.isStill = false ∧ step.delta.bind d.ranking.index? = none
          ∧ (d.overflow = .strict → Instruction.Fits step.state)
          ∧ cue = .play (Instruction.truncated step.state)) := by
  rw [cueFor]
  cases hstill : step.isStill with
  | true => simp [eq_comm]
  | false =>
      cases hindex : step.delta.bind d.ranking.index? with
      | some index =>
          obtain ⟨delta, hdelta, hrank⟩ := Option.bind_eq_some_iff.mp hindex
          simp [(Instruction.ofIndex_eq_ok (hranking _ _ hrank)).1, Except.map, hdelta, hrank,
            eq_comm]
      | none =>
          have hno : ∀ delta index, step.delta = some delta →
              d.ranking.index? delta ≠ some index := by
            intro delta index hdelta hrank
            simp [hdelta, hrank] at hindex
          simp only [Bool.false_eq_true, if_false, map_eq_ok_iff, stateFor_eq_ok_iff]
          constructor
          · rintro ⟨i, ⟨hfits, rfl⟩, rfl⟩
            exact Or.inr (Or.inr ⟨trivial, trivial, hfits, rfl⟩)
          · rintro (⟨h, -⟩ | ⟨-, delta, index, hdelta, hrank, -⟩ | ⟨-, -, hfits, rfl⟩)
            · cases h
            · exact absurd hrank (hno delta index hdelta)
            · exact ⟨_, ⟨hfits, rfl⟩, rfl⟩

/-- **A later frame is refused if it has to be a state and its values do not fit.** -/
theorem cueFor_eq_error_iff
    (hranking : ∀ delta index, d.ranking.index? delta = some index → index < 128) {step : Step}
    {e : Failure} : d.cueFor object step = .error e ↔
      step.isStill = false ∧ step.delta.bind d.ranking.index? = none
        ∧ d.stateFor object step.state = .error e := by
  rw [cueFor]
  cases hstill : step.isStill with
  | true => simp
  | false =>
      cases hindex : step.delta.bind d.ranking.index? with
      | some index =>
          obtain ⟨delta, -, hrank⟩ := Option.bind_eq_some_iff.mp hindex
          simp [(Instruction.ofIndex_eq_ok (hranking _ _ hrank)).1, Except.map]
      | none => simp [map_eq_error_iff]

/-! ## The cues of all frames -/

/-- The cues of frames in which the object is parked. -/
def parked (d : Direction) : ℕ → List Cue
  | 0 => []
  | n + 1 => .play (Instruction.truncated d.sentinel) :: List.replicate n .hold

theorem parkedCues_eq_ok_iff {frames : ℕ} {cues : List Cue} :
    d.parkedCues object frames = .ok cues ↔
      (0 < frames → d.overflow = .strict → Instruction.Fits d.sentinel)
        ∧ cues = d.parked frames := by
  cases frames with
  | zero => simp [parkedCues, parked, eq_comm]
  | succ n =>
      rw [parkedCues, bind_eq_ok_iff]
      simp only [stateFor_eq_ok_iff, Nat.succ_pos, forall_true_left]
      constructor
      · rintro ⟨_, ⟨hfits, rfl⟩, h⟩
        exact ⟨hfits, (Except.ok.inj h).symm⟩
      · rintro ⟨hfits, rfl⟩
        exact ⟨_, ⟨hfits, rfl⟩, rfl⟩

theorem cues_of_hidden {steps : List Step}
    (h : ∀ s ∈ steps, d.visibility object s.state = false) :
    d.cues object steps = .error (.neverVisible object steps.length) := by
  have hall : d.hiddenFrames object steps = steps.length := by
    rw [hiddenFrames, List.takeWhile_eq_self_iff.mpr (by simpa using h)]
  rw [cues, hall, List.drop_length]

/-- **The cues of an object that is seen**: parked ones, a state, and one for each later frame. -/
theorem cues_append {before later : List Step} {first : Step}
    (hhidden : ∀ s ∈ before, d.visibility object s.state = false)
    (hseen : d.visibility object first.state = true) :
    d.cues object (before ++ first :: later) = (do
      let parked ← d.parkedCues object before.length
      let entrance ← d.stateFor object first.state
      let rest ← later.mapM (d.cueFor object)
      return parked ++ .play entrance :: rest) := by
  rw [cues, hiddenFrames_append hhidden hseen, List.drop_left]

theorem cues_append_eq_ok_iff {before later : List Step} {first : Step}
    (hhidden : ∀ s ∈ before, d.visibility object s.state = false)
    (hseen : d.visibility object first.state = true) {cues : List Cue} :
    d.cues object (before ++ first :: later) = .ok cues ↔
      (0 < before.length → d.overflow = .strict → Instruction.Fits d.sentinel)
        ∧ (d.overflow = .strict → Instruction.Fits first.state)
        ∧ ∃ rest, later.mapM (d.cueFor object) = .ok rest
          ∧ cues = d.parked before.length ++ .play (Instruction.truncated first.state) :: rest := by
  rw [cues_append hhidden hseen]
  simp only [bind_eq_ok_iff, parkedCues_eq_ok_iff, stateFor_eq_ok_iff]
  constructor
  · rintro ⟨_, ⟨hsentinel, rfl⟩, _, ⟨hfirst, rfl⟩, rest, hrest, h⟩
    exact ⟨hsentinel, hfirst, rest, hrest, (Except.ok.inj h).symm⟩
  · rintro ⟨hsentinel, hfirst, rest, hrest, rfl⟩
    exact ⟨_, ⟨hsentinel, rfl⟩, _, ⟨hfirst, rfl⟩, rest, hrest, rfl⟩

/-! ## The encoding -/

theorem isCanonical_of_mem_parked {frames : ℕ} {i : Instruction}
    (h : Cue.play i ∈ d.parked frames) : i.IsCanonical := by
  cases frames with
  | zero => cases h
  | succ n =>
      rcases List.mem_cons.mp h with h | h
      · cases h
        exact Instruction.isCanonical_truncated _
      · cases List.eq_of_mem_replicate h

theorem isCanonical_of_cueFor
    (hranking : ∀ delta index, d.ranking.index? delta = some index → index < 128) {step : Step}
    {i : Instruction} (h : d.cueFor object step = .ok (.play i)) : i.IsCanonical := by
  rcases (cueFor_eq_ok_iff hranking).mp h with
    ⟨-, h⟩ | ⟨-, delta, index, -, hrank, h⟩ | ⟨-, -, -, h⟩
  · cases h
  · cases h
    have hindex := hranking delta index hrank
    rw [Instruction.IsCanonical, (Instruction.ofIndex_eq_ok hindex).2]
    omega
  · cases h
    exact Instruction.isCanonical_truncated _

/-- **Compiled instructions fit the encoding.** -/
theorem isCanonical_of_mem_instructions
    (hranking : ∀ delta index, d.ranking.index? delta = some index → index < 128)
    {steps : List Step} {instructions : List Instruction}
    (h : d.instructions object steps = .ok instructions) {i : Instruction}
    (hi : i ∈ instructions) : i.IsCanonical := by
  obtain ⟨cues, hcues, rfl⟩ := map_eq_ok_iff.mp h
  rcases hidden_or_seen d.visibility object steps with
    hhidden | ⟨before, first, later, rfl, hhidden, hseen⟩
  · rw [cues_of_hidden hhidden] at hcues
    cases hcues
  obtain ⟨-, -, rest, hrest, rfl⟩ := (cues_append_eq_ok_iff hhidden hseen).mp hcues
  rcases Cue.mem_pack hi with ⟨frames, hsleep⟩ | hcue | htail
  · exact Instruction.isCanonical_of_mem_sleeps hsleep
  · rcases List.mem_append.mp hcue with hcue | hcue
    · exact isCanonical_of_mem_parked hcue
    · rcases List.mem_cons.mp hcue with hcue | hcue
      · cases hcue
        exact Instruction.isCanonical_truncated _
      · obtain ⟨step, -, hstep⟩ := exists_mem_of_mapM hrest hcue
        exact isCanonical_of_cueFor hranking hstep
  · rw [List.mem_singleton.mp htail]
    trivial

end DeltaScript.Direction
