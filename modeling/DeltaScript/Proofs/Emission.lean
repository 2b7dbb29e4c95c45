import DeltaScript.Reel
import DeltaScript.Failure.Diagnostic
import DeltaScript.Proofs.Direction
import DeltaScript.Proofs.Ranking

/-!
# What a script is refused for

Strictly, only values that fit their fields can be made a state.  Which frames of an object are made
states depends on its way through them: values that do not fit are accepted in a frame that is
reached by a ranked delta, or in which nothing changes, and refused in any other.

* `Direction.Playable` — what is asked of an object; `Direction.exists_compile_iff`: **an object has
  a script exactly if it is playable.**
* `Direction.stated` — **the values that are made states, in the order in which they are.**
* `Direction.instructions_eq_error_iff` — an object that is seen is refused exactly as its states
  are, one after the other.
* `Direction.refusal_iff` — hence it is refused for the first field that does not fit of the first
  of these values; `Direction.refusal_of_compile`: what can be told of an object at all.
* `Reel.scripts_eq_error_iff` — the first object that is not playable is the one that is named.
* `Direction.Exact`, `Reel.Exact` — an object is refused exactly when it has to be, and all objects
  are refused for the first of them that is; `Direction.exact_refusals`.
-/

namespace DeltaScript

/-- The delta of a step is neither zero nor ranked, so that the frame has to be a state. -/
def Step.NeedsState (ranking : Ranking) (s : Step) : Prop :=
  s.isStill = false ∧ s.delta.bind ranking.index? = none

instance (ranking : Ranking) (s : Step) : Decidable (s.NeedsState ranking) :=
  inferInstanceAs (Decidable (_ ∧ _))

namespace Direction

variable {d : Direction} {object frame : ℕ} {steps : List Step} {e : Failure}

/-! ## What is asked of an object -/

/-- What is asked of an object. -/
structure Playable (d : Direction) (object : ℕ) (steps : List Step) : Prop where
  /-- It is seen in one of its frames. -/
  seen : ∃ f, FirstSeen d.visibility object steps f
  /-- Strictly, the parked values fit if the object is parked at all. -/
  parked : d.overflow = .strict → ∀ f, FirstSeen d.visibility object steps f → 0 < f →
    Instruction.Fits d.sentinel
  /-- Strictly, the values fit in the first frame in which it is seen. -/
  entrance : d.overflow = .strict → ∀ f step, FirstSeen d.visibility object steps f →
    steps[f]? = some step → Instruction.Fits step.state
  /-- Strictly, the values fit in every later frame that has to be a state. -/
  later : d.overflow = .strict → ∀ f k step, FirstSeen d.visibility object steps f → f < k →
    steps[k]? = some step → step.NeedsState d.ranking → Instruction.Fits step.state

theorem exists_cueFor_iff
    (hranking : ∀ delta index, d.ranking.index? delta = some index → index < 128)
    {step : Step} : (∃ cue, d.cueFor object step = .ok cue) ↔
      (d.overflow = .strict → step.NeedsState d.ranking → Instruction.Fits step.state) := by
  simp only [cueFor_eq_ok_iff hranking, Step.NeedsState]
  constructor
  · rintro ⟨cue, ⟨hstill, -⟩ | ⟨-, delta, index, hdelta, hindex, -⟩ | ⟨-, -, hfits, -⟩⟩ hstrict
      hneeds
    · simp [hstill] at hneeds
    · simp [hdelta, hindex] at hneeds
    · exact hfits hstrict
  · intro h
    cases hstill : step.isStill with
    | true => exact ⟨.hold, Or.inl ⟨rfl, rfl⟩⟩
    | false =>
        cases hindex : step.delta.bind d.ranking.index? with
        | some index =>
            obtain ⟨delta, hdelta, hrank⟩ := Option.bind_eq_some_iff.mp hindex
            exact ⟨_, Or.inr (Or.inl ⟨rfl, delta, index, hdelta, hrank, rfl⟩)⟩
        | none =>
            have hfits := fun hstrict => h hstrict ⟨hstill, hindex⟩
            exact ⟨_, Or.inr (Or.inr ⟨rfl, rfl, hfits, rfl⟩)⟩

/-- **An object has a script exactly if it is playable.** -/
theorem exists_compile_iff
    (hranking : ∀ delta index, d.ranking.index? delta = some index → index < 128) :
    (∃ script, d.compile object steps = .ok script) ↔ d.Playable object steps := by
  have hcues : (∃ script, d.compile object steps = .ok script) ↔
      ∃ cues, d.cues object steps = .ok cues := by
    simp only [compile, instructions, map_eq_ok_iff]
    constructor
    · rintro ⟨-, -, ⟨cues, h, -⟩, -⟩
      exact ⟨cues, h⟩
    · rintro ⟨cues, h⟩
      exact ⟨_, _, ⟨cues, h, rfl⟩, rfl⟩
  rw [hcues]
  rcases hidden_or_seen d.visibility object steps with
    hhidden | ⟨before, first, later, rfl, hhidden, hseen⟩
  · rw [cues_of_hidden hhidden]
    exact ⟨fun ⟨_, h⟩ => (nomatch h), fun h => absurd h.seen (not_exists_firstSeen_iff.mpr hhidden)⟩
  · have hfirst : FirstSeen d.visibility object (before ++ first :: later) before.length :=
      firstSeen_append hhidden hseen
    have hlater : (∃ rest, later.mapM (d.cueFor object) = .ok rest) ↔ ∀ step ∈ later,
        d.overflow = .strict → step.NeedsState d.ranking → Instruction.Fits step.state := by
      rw [exists_mapM_iff]
      exact forall₂_congr fun step _ => exists_cueFor_iff hranking
    simp only [cues_append_eq_ok_iff hhidden hseen]
    constructor
    · rintro ⟨_, hparked, hentrance, rest, hrest, -⟩
      refine ⟨⟨_, hfirst⟩, fun hstrict f hf hpos => ?_, fun hstrict f step hf hstep => ?_,
        fun hstrict f k step hf hk hstep => ?_⟩
      · obtain rfl := hf.unique hfirst
        exact hparked hpos hstrict
      · obtain rfl := hf.unique hfirst
        obtain rfl : first = step := by simpa using hstep
        exact hentrance hstrict
      · obtain rfl := hf.unique hfirst
        rw [List.getElem?_append_right hk.le] at hstep
        obtain ⟨n, hn⟩ : ∃ n, k - before.length = n + 1 := ⟨k - before.length - 1, by omega⟩
        rw [hn, List.getElem?_cons_succ] at hstep
        exact hlater.mp ⟨rest, hrest⟩ step (List.mem_of_getElem? hstep) hstrict
    · rintro ⟨-, hparked, hentrance, hneeds⟩
      obtain ⟨rest, hrest⟩ := hlater.mpr fun step hstep hstrict => by
        obtain ⟨n, hn⟩ := List.mem_iff_getElem?.mp hstep
        refine hneeds hstrict before.length (before.length + (n + 1)) step hfirst (by omega) ?_
        rw [List.getElem?_append_right (by omega), Nat.add_sub_cancel_left,
          List.getElem?_cons_succ, hn]
      exact ⟨_, fun hpos hstrict => hparked hstrict _ hfirst hpos,
        fun hstrict => hentrance hstrict _ first hfirst (by simp), rest, hrest, rfl⟩

/-! ## One state after the other -/

/-- The values that are made states when an object is first seen in the frame with a given number:
those it is parked with, if it is parked at all, those of that frame, and those of the later frames
that have to be states. -/
def stated (d : Direction) (steps : List Step) (frame : ℕ) : List Values :=
  (if frame = 0 then [] else [d.sentinel])
    ++ ((steps.drop frame).take 1
      ++ (steps.drop (frame + 1)).filter fun s => s.NeedsState d.ranking).map Step.state

theorem stated_append {before later : List Step} {first : Step} :
    d.stated (before ++ first :: later) before.length
      = (if before.length = 0 then [] else [d.sentinel]) ++ first.state ::
        (later.filter fun s => s.NeedsState d.ranking).map Step.state := by
  have hlater : (before ++ first :: later).drop (before.length + 1) = later := by
    rw [← List.drop_drop, List.drop_left, List.drop_one, List.tail_cons]
  rw [stated, hlater, List.drop_left]
  rfl

theorem parkedCues_eq_error_iff {frames : ℕ} :
    d.parkedCues object frames = .error e ↔
      (if frames = 0 then [] else [d.sentinel]).mapM (d.stateFor object) = .error e := by
  cases frames with
  | zero => simp [parkedCues, pure, Except.pure]
  | succ n =>
      rw [if_neg n.succ_ne_zero, List.mapM_cons]
      exact bind_pure_eq_error_iff.trans bind_pure_eq_error_iff.symm

/-- **Later frames are refused as the states that they have to be.**  All others are passed over. -/
theorem mapM_cueFor_eq_error_iff
    (hranking : ∀ delta index, d.ranking.index? delta = some index → index < 128)
    {later : List Step} :
    later.mapM (d.cueFor object) = .error e ↔
      ((later.filter fun s => s.NeedsState d.ranking).map Step.state).mapM (d.stateFor object)
        = .error e := by
  apply mapM_filter_eq_error_iff
  · intro step hstep
    rw [exists_cueFor_iff hranking]
    exact fun _ hneeds => absurd hneeds (of_decide_eq_false hstep)
  · intro step hstep e
    obtain ⟨hstill, hindex⟩ := of_decide_eq_true hstep
    rw [cueFor_eq_error_iff hranking]
    simp only [hstill, hindex, true_and]

/-- **An object that is seen is refused as its states are, one after the other.** -/
theorem instructions_eq_error_iff
    (hranking : ∀ delta index, d.ranking.index? delta = some index → index < 128)
    (hframe : FirstSeen d.visibility object steps frame) :
    d.instructions object steps = .error e ↔
      (d.stated steps frame).mapM (d.stateFor object) = .error e := by
  rcases hidden_or_seen d.visibility object steps with
    hhidden | ⟨before, first, later, rfl, hhidden, hseen⟩
  · exact absurd ⟨frame, hframe⟩ (not_exists_firstSeen_iff.mpr hhidden)
  obtain rfl := hframe.unique (firstSeen_append hhidden hseen)
  rw [instructions, map_eq_error_iff, cues_append hhidden hseen, stated_append,
    mapM_append_eq_error_iff, mapM_cons_eq_error_iff, ← mapM_cueFor_eq_error_iff hranking,
    exists_ok_iff (x := List.mapM _ _)]
  simp only [ne_eq, ← parkedCues_eq_error_iff]
  rw [← exists_ok_iff]
  exact bind_eq_error_iff_of_forall fun _ => bind_eq_error_iff_of_forall fun _ =>
    bind_pure_eq_error_iff

/-- **An object is refused strictly, for the first field that does not fit of the first values that
do not.** -/
theorem refusal_iff
    (hranking : ∀ delta index, d.ranking.index? delta = some index → index < 128)
    (hframe : FirstSeen d.visibility object steps frame) :
    d.instructions object steps = .error e ↔ d.overflow = .strict
      ∧ ∃ before values after field value, d.stated steps frame = before ++ values :: after
        ∧ (∀ v ∈ before, Instruction.Fits v) ∧ Instruction.FirstMisfit values field value
        ∧ e = .fieldRange (some object) field value := by
  rw [instructions_eq_error_iff hranking hframe, mapM_eq_error_iff]
  simp only [stateFor, Instruction.ofValues_eq_error_iff, Instruction.misfit?_eq_some_iff,
    Instruction.ofValues_eq_ok_iff]
  constructor
  · rintro ⟨before, values, after, hstated, hbefore, hstrict, field, value, hmisfit, rfl⟩
    refine ⟨hstrict, before, values, after, field, value, hstated, fun v hv => ?_, hmisfit, rfl⟩
    obtain ⟨_, hfits, -⟩ := hbefore v hv
    exact hfits hstrict
  · rintro ⟨hstrict, before, values, after, field, value, hstated, hbefore, hmisfit, rfl⟩
    exact ⟨before, values, after, hstated, fun v hv => ⟨_, fun _ => hbefore v hv, rfl⟩, hstrict,
      field, value, hmisfit, rfl⟩

theorem instructions_of_hidden (h : ∀ s ∈ steps, d.visibility object s.state = false) :
    d.instructions object steps = .error (.neverVisible object steps.length) := by
  rw [instructions, cues_of_hidden h]
  rfl

theorem exists_firstSeen (h : ¬ ∀ s ∈ steps, d.visibility object s.state = false) :
    ∃ frame, FirstSeen d.visibility object steps frame := by
  rwa [← not_exists_firstSeen_iff, not_not] at h

/-- **An object that is refused is named**, either because it is never seen or because of a value
that does not fit. -/
theorem refusal_of_compile
    (hranking : ∀ delta index, d.ranking.index? delta = some index → index < 128)
    (h : d.compile object steps = .error e) :
    ((¬ ∃ f, FirstSeen d.visibility object steps f) ∧ e = .neverVisible object steps.length)
      ∨ ((∃ f, FirstSeen d.visibility object steps f)
        ∧ ∃ field value, e = .fieldRange (some object) field value) := by
  have h := map_eq_error_iff.mp h
  by_cases hhidden : ∀ s ∈ steps, d.visibility object s.state = false
  · rw [instructions_of_hidden hhidden, Except.error.injEq] at h
    exact Or.inl ⟨not_exists_firstSeen_iff.mpr hhidden, h.symm⟩
  · obtain ⟨frame, hframe⟩ := exists_firstSeen hhidden
    obtain ⟨-, -, -, -, field, value, -, -, -, rfl⟩ := (refusal_iff hranking hframe).mp h
    exact Or.inr ⟨⟨frame, hframe⟩, field, value, rfl⟩

/-! ## When an object is refused -/

/-- An object is refused exactly when it has to be, and is told why. -/
structure Exact (d : Direction) (object : ℕ) (steps : List Step) : Prop where
  /-- It is told of as never seen exactly if it is. -/
  never : (∃ e, d.instructions object steps = .error e ∧ e.code = .neverVisible) ↔
    ∀ s ∈ steps, d.visibility object s.state = false
  never_eq : (∀ s ∈ steps, d.visibility object s.state = false) →
    d.instructions object steps = .error (.neverVisible object steps.length)
  /-- Otherwise there is a first frame in which it is seen. -/
  seen : (∃ s ∈ steps, d.visibility object s.state = true) →
    ∃ frame, FirstSeen d.visibility object steps frame
  /-- Then it is not refused if values that do not fit are cut. -/
  wrap : ∀ frame, FirstSeen d.visibility object steps frame → d.overflow = .wrap →
    ∃ instructions, d.instructions object steps = .ok instructions
  /-- Strictly it is accepted exactly if the parked values fit, unless it is never parked, those of
  the first frame in which it is seen, and those of every later frame in which something changes by
  a delta that has no index. -/
  strict : ∀ frame, FirstSeen d.visibility object steps frame → d.overflow = .strict →
    ((∃ instructions, d.instructions object steps = .ok instructions) ↔
      (0 < frame → Instruction.Fits d.sentinel)
        ∧ (∀ s, steps[frame]? = some s → Instruction.Fits s.state)
        ∧ ∀ k s, frame < k → steps[k]? = some s → s.isStill = false →
          s.delta.bind d.ranking.index? = none → Instruction.Fits s.state)
  /-- What is told is the first field that does not fit of the first values that do not. -/
  refused : ∀ frame, FirstSeen d.visibility object steps frame → ∀ e,
    d.instructions object steps = .error e ↔ d.overflow = .strict
      ∧ ∃ before values after field value, d.stated steps frame = before ++ values :: after
        ∧ (∀ v ∈ before, Instruction.Fits v) ∧ Instruction.FirstMisfit values field value
        ∧ e = .fieldRange (some object) field value
  /-- No index is too large. -/
  index : ∀ e, d.instructions object steps = .error e → e.code ≠ .deltaIndex
  /-- There is no script exactly if there are no instructions. -/
  script : ∀ e, d.compile object steps = .error e ↔ d.instructions object steps = .error e

theorem exists_instructions_iff
    (hranking : ∀ delta index, d.ranking.index? delta = some index → index < 128) :
    (∃ instructions, d.instructions object steps = .ok instructions) ↔ d.Playable object steps := by
  rw [← exists_compile_iff hranking]
  simp only [compile, map_eq_ok_iff]
  constructor
  · rintro ⟨instructions, h⟩
    exact ⟨_, instructions, h, rfl⟩
  · rintro ⟨_, instructions, h, -⟩
    exact ⟨instructions, h⟩

/-- **An object is refused exactly when it has to be.** -/
theorem exact (hsize : d.ranking.size ≤ Ranking.capacity) (object : ℕ) (steps : List Step) :
    d.Exact object steps := by
  have hranking : ∀ delta index, d.ranking.index? delta = some index → index < 128 :=
    fun delta index h => Nat.lt_of_lt_of_le (Ranking.index?_lt_size h) hsize
  constructor
  case never =>
    refine ⟨?_, fun h => ⟨_, instructions_of_hidden h, rfl⟩⟩
    rintro ⟨e, he, hcode⟩
    have hcompile : d.compile object steps = .error e := map_eq_error_iff.mpr he
    rcases refusal_of_compile hranking hcompile with ⟨hhidden, -⟩ | ⟨-, field, value, rfl⟩
    · exact not_exists_firstSeen_iff.mp hhidden
    · cases hcode
  case never_eq => exact instructions_of_hidden
  case seen =>
    rintro ⟨s, hs, hseen⟩
    refine exists_firstSeen fun hhidden => ?_
    rw [hhidden s hs] at hseen
    cases hseen
  case wrap =>
    intro frame hframe hwrap
    have hstrict : d.overflow ≠ .strict := by
      rw [hwrap]
      exact Overflow.noConfusion
    exact (exists_instructions_iff hranking).mpr ⟨⟨frame, hframe⟩, fun h => absurd h hstrict,
      fun h => absurd h hstrict, fun h => absurd h hstrict⟩
  case strict =>
    intro frame hframe hstrict
    rw [exists_instructions_iff hranking]
    constructor
    · intro h
      exact ⟨h.parked hstrict frame hframe, fun s => h.entrance hstrict frame s hframe,
        fun k s hk hs hstill hindex => h.later hstrict frame k s hframe hk hs ⟨hstill, hindex⟩⟩
    · rintro ⟨hparked, hentrance, hlater⟩
      refine ⟨⟨frame, hframe⟩, fun _ f hf => ?_, fun _ f s hf => ?_, fun _ f k s hf hk hs h => ?_⟩
      · obtain rfl := hf.unique hframe
        exact hparked
      · obtain rfl := hf.unique hframe
        exact hentrance s
      · obtain rfl := hf.unique hframe
        exact hlater k s hk hs h.1 h.2
  case refused =>
    intro frame hframe e
    exact refusal_iff hranking hframe
  case index =>
    intro e he
    have hcompile : d.compile object steps = .error e := map_eq_error_iff.mpr he
    rcases refusal_of_compile hranking hcompile with ⟨-, rfl⟩ | ⟨-, field, value, rfl⟩
    · exact Code.noConfusion
    · exact Code.noConfusion
  case script =>
    intro e
    exact map_eq_error_iff

end Direction

/-! ## When all objects are refused -/

/-- What stands before an element of a range are the numbers below it. -/
theorem eq_range_of_range_eq_append {n k : ℕ} {before after : List ℕ}
    (h : List.range n = before ++ k :: after) : k < n ∧ before = List.range k := by
  have hk : k < n := List.mem_range.mp (h ▸ by simp)
  have hlength : before.length < (List.range n).length := by rw [h]; simp
  have hbefore : before.length = k := by
    have hget := List.getElem_of_eq h hlength
    simpa using hget
  refine ⟨hk, ?_⟩
  have htake := congrArg (List.take before.length) h
  rw [List.take_range, List.take_left, hbefore, Nat.min_eq_left hk.le] at htake
  exact htake.symm

namespace Reel

/-- **Scripts are refused for the first object that has none.** -/
theorem scripts_eq_error_iff {r : Reel} {visibility : Visibility} {e : Failure} :
    r.scripts visibility = .error e ↔ ∃ object < r.tracks.objects,
      (∀ o < object, ∃ script, r.script visibility o = .ok script)
        ∧ r.script visibility object = .error e := by
  rw [scripts, mapM_eq_error_iff]
  constructor
  · rintro ⟨before, object, after, hrange, hbefore, hobject⟩
    obtain ⟨hlt, rfl⟩ := eq_range_of_range_eq_append hrange
    exact ⟨object, hlt, fun o ho => hbefore o (List.mem_range.mpr ho), hobject⟩
  · rintro ⟨object, hobject, hbefore, hrefused⟩
    refine ⟨List.range object, object, (List.range r.tracks.objects).drop (object + 1), ?_,
      fun o ho => hbefore o (List.mem_range.mp ho), hrefused⟩
    have hsplit := (List.range r.tracks.objects).take_append_drop object
    rw [List.take_range, Nat.min_eq_left hobject.le,
      List.drop_eq_getElem_cons (by simpa using hobject), List.getElem_range] at hsplit
    exact hsplit.symm

theorem exists_scripts_iff {r : Reel} {visibility : Visibility} :
    (∃ scripts, r.scripts visibility = .ok scripts) ↔
      ∀ object < r.tracks.objects, ∃ script, r.script visibility object = .ok script := by
  rw [scripts, exists_mapM_iff]
  simp only [List.mem_range]

/-- Scripts are refused for the first object that has none. -/
structure Exact (r : Reel) (visibility : Visibility) : Prop where
  /-- There are scripts exactly if every object has one. -/
  exists_iff : (∃ scripts, r.scripts visibility = .ok scripts) ↔
    ∀ object < r.tracks.objects, ∃ script, r.script visibility object = .ok script
  /-- They are the scripts of the objects, in their order. -/
  ok_iff : ∀ scripts, r.scripts visibility = .ok scripts ↔
    List.Forall₂ (fun object script => r.script visibility object = .ok script)
      (List.range r.tracks.objects) scripts
  /-- What is told is what is told of the first object that has none. -/
  error_iff : ∀ e, r.scripts visibility = .error e ↔ ∃ object < r.tracks.objects,
    (∀ o < object, ∃ script, r.script visibility o = .ok script)
      ∧ r.script visibility object = .error e

/-- **Scripts are refused for the first object that has none.** -/
theorem exact (r : Reel) (visibility : Visibility) : r.Exact visibility := by
  constructor
  case exists_iff => exact exists_scripts_iff
  case ok_iff =>
    intro scripts
    exact mapM_eq_ok_iff
  case error_iff =>
    intro e
    exact scripts_eq_error_iff

end Reel

namespace Reel

end Reel

end DeltaScript
