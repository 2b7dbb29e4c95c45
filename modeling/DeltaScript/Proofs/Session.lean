import DeltaScript.Session
import DeltaScript.Failure.Diagnostic
import DeltaScript.Proofs.Stages
import DeltaScript.Proofs.Settings
import DeltaScript.Proofs.Ranking

/-!
# What recording keeps

A session is reached from a fresh one by taking down frames, in any order of the objects.  Whatever
holds of a fresh session and is kept by every frame holds of all sessions that are reached.

* `Session.extend`, `Session.record_eq_ok_iff`, `Session.record_eq_error_iff` — **all that taking
  down a frame can do**, and the two ways in which it is refused.  Later proofs look no further.
* `Session.recordAll_preserves` — the induction over a recording.
* `Linked` — the steps of one object: each has the delta that leads to it from the step before.
* `Session.Recorded` — the invariant of a recording, and `Session.recorded_of_recordAll`: every
  session that is reached satisfies it.
-/

namespace DeltaScript

/-! ## The steps of one object -/

/-- Steps each of which, but the first, has the delta that leads to it. -/
structure Linked (attributes : List Attribute) (steps : List Step) : Prop where
  width : ∀ s ∈ steps, s.state.length = attributes.length
  head : ∀ s ∈ steps.head?, s.delta = none
  link : steps.IsChain fun s t => t.delta = some (Attribute.deltas attributes s.state t.state)

namespace Linked

variable {attributes : List Attribute} {steps : List Step}

theorem nil : Linked attributes [] := ⟨by simp, by simp, List.isChain_nil⟩

/-- What follows the first step is linked in the same way, but for its own first step. -/
theorem link_of_append {before after : List Step} (h : Linked attributes (before ++ after)) :
    after.IsChain fun s t => t.delta = some (Attribute.deltas attributes s.state t.state) :=
  (List.isChain_append.mp h.link).2.1

/-- **One more frame keeps the steps linked.** -/
theorem add {t : Track} (h : Linked attributes t.steps) {values : Values}
    (hvalues : values.length = attributes.length) :
    Linked attributes (t.add (t.next attributes values)).steps := by
  have hlast : t.newestFirst.head? = t.steps.getLast? := by simp [Track.steps]
  rw [Track.steps_add]
  refine ⟨?_, ?_, ?_⟩
  · intro s hs
    rcases List.mem_append.mp hs with hs | hs
    · exact h.width s hs
    · rw [List.mem_singleton.mp hs]
      exact hvalues
  · intro s hs
    rw [List.head?_append] at hs
    cases hfirst : t.steps.head? with
    | some first =>
        rw [hfirst] at hs
        obtain rfl := Option.mem_some_iff.mp hs
        exact h.head _ hfirst
    | none =>
        rw [hfirst] at hs
        obtain rfl := Option.mem_some_iff.mp hs
        have hnil : t.steps = [] := List.head?_eq_none_iff.mp hfirst
        simp [Track.next, hlast, hnil]
  · refine List.isChain_append.mpr ⟨h.link, List.isChain_singleton _, ?_⟩
    intro s hs u hu
    obtain rfl := Option.mem_some_iff.mp hu
    simp [Track.next, hlast, Option.mem_def.mp hs]

end Linked

/-- There are no steps before any frame comes. -/
theorem Tracks.steps_ofCount (objects : ℕ) (attributes : List Attribute) (object : ℕ) :
    (ofCount objects attributes).steps object = [] := by
  rw [steps, ofCount, List.getD_eq_getElem?_getD, List.getElem?_replicate]
  split_ifs <;> rfl

namespace Session

/-! ## One frame -/

/-- The session with one more frame on a track. -/
def extend (s : Session) (object : ℕ) (track : Track) (values : Values) : Session :=
  let step := track.next s.tracks.attributes values
  { s with
    tracks := { s.tracks with tracks := s.tracks.tracks.set object (track.add step) }
    tally := step.delta.elim s.tally s.tally.add }

/-- **A frame is taken down exactly if its object is tracked and it has a value for each
attribute.** -/
theorem record_eq_ok_iff {s s' : Session} {object : ℕ} {values : Values} :
    s.record object values = .ok s' ↔ ∃ track, s.tracks.tracks[object]? = some track
      ∧ values.length = s.tracks.attributes.length ∧ s' = s.extend object track values := by
  rw [record, map_eq_ok_iff, Tracks.record]
  cases htrack : s.tracks.tracks[object]? with
  | none => simp
  | some track =>
      by_cases hvalues : values.length = s.tracks.attributes.length
      · cases hdelta : (track.next s.tracks.attributes values).delta with
        | none => simp [hvalues, extend, hdelta, eq_comm]
        | some delta => simp [hvalues, extend, hdelta, eq_comm]
      · simp [hvalues]

/-- **A frame is refused because its object is not tracked, or else because it has too few or too
many values.** -/
theorem record_eq_error_iff {s : Session} {object : ℕ} {values : Values} {e : Failure} :
    s.record object values = .error e ↔
      (s.tracks.objects ≤ object ∧ e = .unknownObject object s.tracks.objects)
      ∨ (object < s.tracks.objects ∧ values.length ≠ s.tracks.attributes.length
        ∧ e = .valueCount object s.tracks.attributes.length values.length) := by
  rw [record, map_eq_error_iff, Tracks.record]
  cases htrack : s.tracks.tracks[object]? with
  | none =>
      have hobject : s.tracks.objects ≤ object := List.getElem?_eq_none_iff.mp htrack
      simp [hobject, hobject.not_gt, eq_comm]
  | some track =>
      have hobject : object < s.tracks.objects := (List.getElem?_eq_some_iff.mp htrack).1
      by_cases hvalues : values.length = s.tracks.attributes.length
      · simp [hobject, hobject.not_ge, hvalues]
      · simp [hobject, hobject.not_ge, hvalues, eq_comm]

/-! ## All frames -/

theorem recordAll_nil (s : Session) : s.recordAll [] = .ok s := rfl

theorem recordAll_cons (s : Session) (object : ℕ) (values : Values)
    (rest : List (ℕ × Values)) :
    s.recordAll ((object, values) :: rest)
      = s.record object values >>= fun s => s.recordAll rest := by
  rw [recordAll, recordWhile]
  cases s.record object values with
  | error e => rfl
  | ok s' => rfl

/-- **What every frame keeps is kept by a recording.** -/
theorem recordAll_preserves {P : Session → Prop}
    (hstep : ∀ {s s' : Session} {object : ℕ} {values : Values},
      P s → s.record object values = .ok s' → P s')
    {s s' : Session} {frames : List (ℕ × Values)} (hs : P s)
    (h : s.recordAll frames = .ok s') : P s' := by
  induction frames generalizing s with
  | nil =>
      obtain rfl := Except.ok.inj h
      exact hs
  | cons frame rest ih =>
      rw [recordAll_cons] at h
      obtain ⟨next, hnext, h⟩ := bind_eq_ok_iff.mp h
      exact ih (hstep hs hnext) h

/-! ## What is recorded of an object -/

/-- A frame is added to the steps of its object and to no others. -/
theorem states_record {s s' : Session} {object : ℕ} {values : Values}
    (h : s.record object values = .ok s') (other : ℕ) :
    (s'.tracks.steps other).map Step.state = (s.tracks.steps other).map Step.state
      ++ if object = other then [values] else [] := by
  obtain ⟨track, htrack, -, rfl⟩ := record_eq_ok_iff.mp h
  obtain ⟨hlt, hget⟩ := List.getElem?_eq_some_iff.mp htrack
  by_cases heq : object = other
  · subst heq
    simp [extend, Tracks.steps, List.getD_eq_getElem?_getD, hget, hlt, Track.next]
  · simp [extend, Tracks.steps, List.getD_eq_getElem?_getD, heq]

/-- **The steps of an object hold the values of its frames, in the order in which they came.** -/
theorem states_recordAll {s s' : Session} {frames : List (ℕ × Values)}
    (h : s.recordAll frames = .ok s') (object : ℕ) :
    (s'.tracks.steps object).map Step.state = (s.tracks.steps object).map Step.state
      ++ (frames.filter (·.1 = object)).map Prod.snd := by
  induction frames generalizing s with
  | nil =>
      obtain rfl := Except.ok.inj h
      simp
  | cons frame rest ih =>
      obtain ⟨other, values⟩ := frame
      rw [recordAll_cons] at h
      obtain ⟨next, hnext, h⟩ := bind_eq_ok_iff.mp h
      rw [ih h, states_record hnext]
      by_cases heq : other = object
      · simp [heq]
      · simp [heq]

/-! ## The invariant -/

/-- What is known of a session in which a recording is taken down. -/
structure Recorded (objects : ℕ) (settings : Settings) (s : Session) : Prop where
  settings_eq : s.settings = settings
  attributes_eq : s.tracks.attributes = settings.attributes
  objects_eq : s.tracks.objects = objects
  linked : ∀ track ∈ s.tracks.tracks, Linked settings.attributes track.steps
  tallied : ∀ e ∈ s.tally.entries, e.delta.length = settings.attributes.length

theorem start_eq_ok_iff {objects : ℕ} {settings : Settings} {s : Session} :
    Session.start objects settings = .ok s ↔ settings.IsValid
      ∧ s = { settings, tracks := Tracks.ofCount objects settings.attributes } := by
  rw [Session.start, bind_eq_ok_iff, ← Settings.check_eq_ok_iff]
  constructor
  · rintro ⟨_, hcheck, h⟩
    exact ⟨hcheck, (Except.ok.inj h).symm⟩
  · rintro ⟨hcheck, rfl⟩
    exact ⟨(), hcheck, rfl⟩

theorem start_eq_error_iff {objects : ℕ} {settings : Settings} {e : Failure} :
    Session.start objects settings = .error e ↔ settings.check = .error e := by
  rw [Session.start, bind_eq_error_iff]
  constructor
  · rintro (h | ⟨_, _, h⟩)
    · exact h
    · cases h
  · exact Or.inl

/-- A fresh session satisfies the invariant. -/
theorem recorded_fresh (objects : ℕ) (settings : Settings) :
    Recorded objects settings
      { settings, tracks := Tracks.ofCount objects settings.attributes } where
  settings_eq := rfl
  attributes_eq := rfl
  objects_eq := by simp [Tracks.objects, Tracks.ofCount]
  linked := by
    intro track htrack
    rw [List.eq_of_mem_replicate htrack]
    exact Linked.nil
  tallied := by simp

/-- **Every frame keeps the invariant.** -/
theorem Recorded.record {objects : ℕ} {settings : Settings} {s s' : Session} {object : ℕ}
    {values : Values} (hs : Recorded objects settings s) (h : s.record object values = .ok s') :
    Recorded objects settings s' := by
  obtain ⟨track, htrack, hvalues, rfl⟩ := record_eq_ok_iff.mp h
  have hmem : track ∈ s.tracks.tracks := List.mem_of_getElem? htrack
  have hwidth : values.length = settings.attributes.length := by rw [hvalues, hs.attributes_eq]
  refine ⟨hs.settings_eq, hs.attributes_eq, ?_, ?_, ?_⟩
  · rw [← hs.objects_eq]
    exact List.length_set
  · intro t ht
    rcases List.mem_or_eq_of_mem_set ht with ht | rfl
    · exact hs.linked t ht
    · rw [hs.attributes_eq]
      exact (hs.linked track hmem).add hwidth
  · intro e he
    cases hlast : track.newestFirst.head? with
    | none =>
        have he : e ∈ s.tally.entries := by simpa [extend, Track.next, hlast] using he
        exact hs.tallied e he
    | some last =>
        have hstate : last.state.length = settings.attributes.length :=
          (hs.linked track hmem).width last (List.mem_reverse.mpr (List.mem_of_head? hlast))
        have hdelta : e.delta ∈ (s.tally.add
            (Attribute.deltas settings.attributes last.state values)).entries.map Entry.delta := by
          have hdelta := List.mem_map_of_mem (f := Entry.delta) he
          simpa [extend, Track.next, hlast, hs.attributes_eq] using hdelta
        rcases Tally.mem_deltas_add.mp hdelta with hold | hnew
        · obtain ⟨e', he', heq⟩ := List.mem_map.mp hold
          rw [← heq]
          exact hs.tallied e' he'
        · rw [hnew]
          simp [Attribute.deltas, hstate, hwidth]

/-- **Every session that a recording reaches satisfies the invariant.** -/
theorem recorded_of_recordAll {objects : ℕ} {settings : Settings} {start s : Session}
    {frames : List (ℕ × Values)} (hstart : Session.start objects settings = .ok start)
    (h : start.recordAll frames = .ok s) : Recorded objects settings s := by
  obtain ⟨-, rfl⟩ := start_eq_ok_iff.mp hstart
  exact recordAll_preserves Recorded.record (recorded_fresh objects settings) h

theorem states_of_recordAll {objects : ℕ} {settings : Settings} {start s : Session}
    {frames : List (ℕ × Values)} (hstart : Session.start objects settings = .ok start)
    (h : start.recordAll frames = .ok s) (object : ℕ) :
    (s.tracks.steps object).map Step.state
      = (frames.filter (·.1 = object)).map Prod.snd := by
  obtain ⟨-, rfl⟩ := start_eq_ok_iff.mp hstart
  rw [states_recordAll h, Tracks.steps_ofCount, List.map_nil, List.nil_append]

/-- The steps of every object are linked; an object that is not tracked has none. -/
theorem Recorded.linked_steps {objects : ℕ} {settings : Settings} {s : Session}
    (hs : Recorded objects settings s) (object : ℕ) :
    Linked settings.attributes (s.tracks.steps object) := by
  rw [Tracks.steps, List.getD_eq_getElem?_getD]
  cases htrack : s.tracks.tracks[object]? with
  | none => exact Linked.nil
  | some track => exact hs.linked track (List.mem_of_getElem? htrack)

end Session

end DeltaScript
