import DeltaScript.Proofs.Circle
import DeltaScript.Proofs.Packing
import DeltaScript.Proofs.Refusals
import DeltaScript.Proofs.Tally

/-!
# The history of a session

A session keeps two records of the frames that it takes down: the steps of every object, and the
tally of all deltas.  Both follow from the frames alone.

* `changes` — the deltas that frames lead to, in the order in which the frames come.
* `Session.tally_eq` — **the tally is that of the changes, one after the other.**
* `Session.tally_eq_and_deltas_perm` — **the deltas of all steps are the changes**, object by
  object.  So the two records agree whatever the objects' frames are mixed with.
* `Session.after`, `Session.afterAll`, `Session.accepted` — frames are tried one after the other,
  and those that are refused are skipped.
* `Session.Keeps` — what is expected of a session; `Session.keeps_afterAll`.
-/

namespace DeltaScript

/-! ## Deltas of frames -/

/-- The deltas that frames lead to, in the order of the frames.  A frame leads to the delta from the
last frame of its object before it, if there is one. -/
def changes (attributes : List Attribute) (frames : List (ℕ × Values)) : List Delta :=
  (List.range frames.length).filterMap fun k => do
    let (object, values) ← frames[k]?
    let (_, last) ← ((frames.take k).filter (·.1 = object)).getLast?
    return Attribute.deltas attributes last values

theorem changes_concat (attributes : List Attribute) (frames : List (ℕ × Values)) (object : ℕ)
    (values : Values) :
    changes attributes (frames ++ [(object, values)]) = changes attributes frames
      ++ ((frames.filter (·.1 = object)).getLast?.map fun last =>
        Attribute.deltas attributes last.2 values).toList := by
  rw [changes, List.length_append, List.length_singleton, List.range_succ, List.filterMap_append]
  congr 1
  · rw [changes]
    refine List.filterMap_congr fun k hk => ?_
    have hlt : k < frames.length := List.mem_range.mp hk
    rw [List.getElem?_append_left hlt, List.take_append_of_le_length hlt.le]
  · simp only [List.filterMap_cons, List.filterMap_nil, List.getElem?_concat_length,
      Option.bind_eq_bind, Option.bind_some, List.take_left]
    cases (frames.filter (·.1 = object)).getLast? with
    | none => rfl
    | some last => rfl

/-! ## Deltas of steps -/

/-- The deltas of all steps, object by object. -/
def Tracks.deltas (t : Tracks) : List Delta :=
  t.tracks.flatMap fun track => track.steps.filterMap Step.delta

namespace Tracks

variable (t : Tracks)

theorem map_steps_range : (List.range t.objects).map t.steps = t.tracks.map Track.steps := by
  have hmap := congrArg (List.map Track.steps) (Blocks.map_getD_range t.tracks {})
  rwa [List.map_map] at hmap

theorem deltas_eq : t.deltas = (List.range t.objects).flatMap fun object =>
    (t.steps object).filterMap Step.delta := by
  have hmap := congrArg (List.flatMap (List.filterMap Step.delta)) t.map_steps_range
  rw [List.flatMap_map, List.flatMap_map] at hmap
  exact hmap.symm

/-- A delta occurs as often as there are steps that have it. -/
theorem count_deltas (delta : Delta) : t.deltas.count delta
    = ((List.range t.objects).map fun object =>
        (t.steps object).countP fun step => step.delta = some delta).sum := by
  rw [deltas_eq, List.count_flatMap]
  congr 1
  refine List.map_congr_left fun object _ => ?_
  simp only [Function.comp_apply, List.count_filterMap]
  exact List.countP_congr fun step _ => by simp

/-- A track that is replaced by one with a step more has the delta of that step more. -/
theorem deltas_set {object : ℕ} {track : Track} (htrack : t.tracks[object]? = some track)
    (step : Step) :
    ({ t with tracks := t.tracks.set object (track.add step) } : Tracks).deltas.Perm
      (t.deltas ++ step.delta.toList) := by
  obtain ⟨hlt, rfl⟩ := List.getElem?_eq_some_iff.mp htrack
  rw [deltas, deltas, List.set_eq_take_append_cons_drop, if_pos hlt]
  conv_rhs => rw [← List.take_append_drop object t.tracks, List.drop_eq_getElem_cons hlt]
  simp only [List.flatMap_append, List.flatMap_cons, Track.steps_add, List.filterMap_append,
    List.append_assoc]
  refine List.Perm.append_left _ (List.Perm.append_left _ ?_)
  have hdelta : List.filterMap Step.delta [step] = step.delta.toList := by
    cases h : step.delta <;> simp [h]
  rw [hdelta]
  exact List.perm_append_comm

end Tracks

/-- Two steps in a row are linked by the delta of the second. -/
theorem Linked.delta_eq {attributes : List Attribute} {steps : List Step}
    (h : Linked attributes steps) {k : ℕ} {before after : Step} (hbefore : steps[k]? = some before)
    (hafter : steps[k + 1]? = some after) :
    after.delta = some (Attribute.deltas attributes before.state after.state) := by
  obtain ⟨hk, rfl⟩ := List.getElem?_eq_some_iff.mp hbefore
  obtain ⟨hk', rfl⟩ := List.getElem?_eq_some_iff.mp hafter
  exact List.isChain_iff_getElem.mp h.link k hk'

/-- **The deltas of linked steps are those between one state and the next.** -/
theorem Linked.filterMap_delta {attributes : List Attribute} {steps : List Step}
    (h : Linked attributes steps) : steps.filterMap Step.delta
      = List.zipWith (Attribute.deltas attributes) (steps.map Step.state)
        (steps.map Step.state).tail := by
  cases steps with
  | nil => rfl
  | cons first later =>
      have hfirst : first.delta = none := h.head first rfl
      rw [List.filterMap_cons, hfirst]
      have hchain := h.link
      clear h hfirst
      show later.filterMap Step.delta = List.zipWith (Attribute.deltas attributes)
        ((first :: later).map Step.state) (later.map Step.state)
      induction later generalizing first with
      | nil => rfl
      | cons next later ih =>
          obtain ⟨hnext, hlater⟩ := List.isChain_cons_cons.mp hchain
          rw [List.filterMap_cons, hnext, List.map_cons, List.map_cons, List.zipWith_cons_cons]
          exact congrArg _ (ih next hlater)

/-- Every step but the first has a delta. -/
theorem Linked.length_filterMap {attributes : List Attribute} {steps : List Step}
    (h : Linked attributes steps) : (steps.filterMap Step.delta).length = steps.length - 1 := by
  rw [h.filterMap_delta, List.length_zipWith, List.length_tail, List.length_map]
  omega

namespace Session

variable {objects : ℕ} {settings : Settings} {start s s' : Session} {frames : List (ℕ × Values)}

/-! ## Both records -/

/-- The last frame that is taken down comes behind the others. -/
theorem recordAll_concat_eq_ok_iff {object : ℕ} {values : Values} :
    s.recordAll (frames ++ [(object, values)]) = .ok s' ↔
      ∃ next, s.recordAll frames = .ok next ∧ next.record object values = .ok s' := by
  induction frames generalizing s with
  | nil =>
      simp only [List.nil_append, recordAll_cons, recordAll_nil, bind_eq_ok_iff, Except.ok.injEq,
        exists_eq_left', exists_eq_right]
  | cons frame rest ih =>
      obtain ⟨other, others⟩ := frame
      simp only [List.cons_append, recordAll_cons, bind_eq_ok_iff, ih]
      constructor
      · rintro ⟨first, hfirst, next, hnext, h⟩
        exact ⟨next, ⟨first, hfirst, hnext⟩, h⟩
      · rintro ⟨next, ⟨first, hfirst, hnext⟩, h⟩
        exact ⟨first, hfirst, next, hnext, h⟩

/-- **One frame more**: the step that it adds has the delta from the last frame of its object, which
is what the tally counts. -/
theorem exists_step_of_record {object : ℕ} {values : Values}
    (h : s.record object values = .ok s') :
    ∃ delta : Option Delta, s'.tally = delta.elim s.tally s.tally.add
      ∧ s'.tracks.deltas.Perm (s.tracks.deltas ++ delta.toList)
      ∧ delta = ((s.tracks.steps object).map Step.state).getLast?.map fun last =>
          Attribute.deltas s.tracks.attributes last values := by
  obtain ⟨track, htrack, -, rfl⟩ := record_eq_ok_iff.mp h
  have hsteps : s.tracks.steps object = track.steps := by
    rw [Tracks.steps, List.getD_eq_getElem?_getD, htrack, Option.getD_some]
  refine ⟨(track.next s.tracks.attributes values).delta, rfl, s.tracks.deltas_set htrack _, ?_⟩
  rw [hsteps, Track.next, Track.steps, List.map_reverse, List.getLast?_reverse, List.head?_map,
    Option.map_map]
  rfl

/-- What the tally counts is what the steps hold, both taken from the frames; by induction on the
frames, the last of them first. -/
theorem tally_eq_and_deltas_perm (hstart : Session.start objects settings = .ok start)
    (h : start.recordAll frames = .ok s) :
    s.tally = .ofDeltas (changes settings.attributes frames)
      ∧ s.tracks.deltas.Perm (changes settings.attributes frames) := by
  induction frames using List.reverseRecOn generalizing s with
  | nil =>
      obtain ⟨-, rfl⟩ := start_eq_ok_iff.mp hstart
      obtain rfl := Except.ok.inj h
      refine ⟨rfl, ?_⟩
      simp [Tracks.deltas, Tracks.ofCount, changes]
  | append_singleton frames frame ih =>
      obtain ⟨object, values⟩ := frame
      obtain ⟨next, hnext, h⟩ := recordAll_concat_eq_ok_iff.mp h
      obtain ⟨htally, hperm⟩ := ih hnext
      obtain ⟨delta, htally', hperm', hdelta⟩ := exists_step_of_record h
      rw [states_of_recordAll hstart hnext, (recorded_of_recordAll hstart hnext).attributes_eq,
        List.getLast?_map, Option.map_map] at hdelta
      have hchanges : changes settings.attributes (frames ++ [(object, values)])
          = changes settings.attributes frames ++ delta.toList := by
        rw [changes_concat, hdelta]
        rfl
      rw [hchanges]
      refine ⟨?_, hperm'.trans (hperm.append_right _)⟩
      rw [htally', htally]
      cases delta with
      | none => simp
      | some delta => exact (Tally.ofDeltas_concat _ delta).symm

/-- **The tally is that of the changes, one after the other.** -/
theorem tally_eq (hstart : Session.start objects settings = .ok start)
    (h : start.recordAll frames = .ok s) :
    s.tally = .ofDeltas (changes settings.attributes frames) :=
  (tally_eq_and_deltas_perm hstart h).1

/-- **The tally counts the deltas of all steps.** -/
theorem counts_deltas (hstart : Session.start objects settings = .ok start)
    (h : start.recordAll frames = .ok s) : s.tally.Counts s.tracks.deltas := by
  obtain ⟨htally, hperm⟩ := tally_eq_and_deltas_perm hstart h
  rw [htally]
  exact (Tally.counts_ofDeltas _).of_perm hperm.symm

/-! ## Frames that are tried -/

/-- The session after a frame was tried. -/
def after (s : Session) (frame : ℕ × Values) : Session :=
  (s.recordWhile [frame]).1

def afterAll (s : Session) (tried : List (ℕ × Values)) : Session :=
  tried.foldl after s

/-- The frames that are taken down, of several that are tried one after the other. -/
def accepted (s : Session) : List (ℕ × Values) → List (ℕ × Values)
  | [] => []
  | (object, values) :: rest =>
      match s.record object values with
      | .ok s' => (object, values) :: s'.accepted rest
      | .error _ => s.accepted rest

theorem after_of_ok {object : ℕ} {values : Values} (h : s.record object values = .ok s') :
    s.after (object, values) = s' := by
  simp only [after, recordWhile, h]

theorem after_of_error {object : ℕ} {values : Values} {e : Failure}
    (h : s.record object values = .error e) : s.after (object, values) = s := by
  simp only [after, recordWhile, h]

/-- **A frame that is refused leaves no trace**: taking down the accepted frames alone leads to the
same session. -/
theorem recordAll_accepted (s : Session) (tried : List (ℕ × Values)) :
    s.recordAll (s.accepted tried) = .ok (s.afterAll tried) := by
  induction tried generalizing s with
  | nil => rfl
  | cons frame rest ih =>
      obtain ⟨object, values⟩ := frame
      show s.recordAll (s.accepted ((object, values) :: rest))
        = .ok ((s.after (object, values)).afterAll rest)
      cases h : s.record object values with
      | ok s' =>
          rw [after_of_ok h, ← ih s']
          simp only [accepted, h, recordAll_cons]
          rfl
      | error e =>
          rw [after_of_error h, ← ih s]
          simp only [accepted, h]

/-! ## What a session keeps -/

/-- What a session for a number of objects keeps of frames. -/
structure Keeps (objects : ℕ) (attributes : List Attribute) (frames : List (ℕ × Values))
    (s : Session) : Prop where
  /-- The steps of an object hold the values of its frames, in the order of the frames. -/
  states : ∀ object, (s.tracks.steps object).map Step.state
    = (frames.filter (·.1 = object)).map Prod.snd
  /-- The first step of an object has no delta. -/
  first : ∀ object, ∀ step ∈ (s.tracks.steps object).head?, step.delta = none
  /-- Every later step has a delta, which is the wrapped difference of each attribute. -/
  later : ∀ (object k : ℕ) (before after : Step), (s.tracks.steps object)[k]? = some before →
    (s.tracks.steps object)[k + 1]? = some after →
    ∃ delta, after.delta = some delta ∧ delta.length = attributes.length
      ∧ ∀ (i : ℕ) (a : Attribute) (x y : ℤ), attributes[i]? = some a → before.state[i]? = some x →
        after.state[i]? = some y → delta[i]? = some (a.wrap (y - x))
  /-- A delta is counted once for every step that has it. -/
  count : ∀ delta, s.tally.count delta = ((List.range objects).map fun object =>
    (s.tracks.steps object).countP fun step => step.delta = some delta).sum
  /-- No delta has two entries. -/
  nodup : (s.tally.entries.map Entry.delta).Nodup
  /-- The deltas that have an entry are those that occurred. -/
  occurred : ∀ delta, delta ∈ s.tally.entries.map Entry.delta ↔ delta ∈ changes attributes frames
  /-- The entries stand in the order in which their deltas first occurred. -/
  order : (s.tally.entries.map Entry.delta).Pairwise fun v w =>
    (changes attributes frames).idxOf v < (changes attributes frames).idxOf w
  /-- All counts together tell how many steps there are that are not the first of their object. -/
  total : (s.tally.entries.map Entry.count).sum
    = ((List.range objects).map fun object => (s.tracks.steps object).length - 1).sum

theorem keeps_of_recordAll (hstart : Session.start objects settings = .ok start)
    (h : start.recordAll frames = .ok s) : Keeps objects settings.attributes frames s := by
  have hs := recorded_of_recordAll hstart h
  have hcounts := counts_deltas hstart h
  refine ⟨states_of_recordAll hstart h, fun object => (hs.linked_steps object).head, ?_, ?_,
    hcounts.nodup, ?_, ?_, ?_⟩
  · intro object k before after hbefore hafter
    have hlinked := hs.linked_steps object
    have hdelta := hlinked.delta_eq hbefore hafter
    have hx := hlinked.width before (List.mem_of_getElem? hbefore)
    have hy := hlinked.width after (List.mem_of_getElem? hafter)
    refine ⟨_, hdelta, by simp [Attribute.deltas, hx, hy], ?_⟩
    intro i a x y ha hx hy
    exact Attribute.getElem?_deltas ha hx hy
  · intro delta
    rw [hcounts.count, Tracks.count_deltas, hs.objects_eq]
  · intro delta
    rw [tally_eq hstart h]
    exact (Tally.counts_ofDeltas _).mem_iff delta
  · rw [tally_eq hstart h]
    exact Tally.pairwise_ofDeltas _
  · rw [hcounts.sum_counts, Tracks.deltas_eq, List.length_flatMap, hs.objects_eq]
    congr 1
    exact List.map_congr_left fun object _ => (hs.linked_steps object).length_filterMap

/-- **The history of a session.**  However many frames are tried, the next one is refused for its
object or else for the number of its values, and then leaves the session as it is; the session keeps
the frames that were accepted; and when it is finished, the steps stay what they are, and as many
deltas are reported as there are different ones among the steps. -/
theorem keeps_afterAll (hstart : Session.start objects settings = .ok start)
    (tried : List (ℕ × Values)) :
    (∀ object values,
      ((∃ e, (start.afterAll tried).record object values = .error e) ↔
        objects ≤ object ∨ values.length ≠ settings.attributes.length)
      ∧ ∀ e, (start.afterAll tried).record object values = .error e →
        e.code.text = (if objects ≤ object then "E001" else "E002")
          ∧ (start.afterAll tried).after (object, values) = start.afterAll tried)
    ∧ (start.afterAll tried).Keeps objects settings.attributes (start.accepted tried)
    ∧ (∀ object, (start.afterAll tried).finish.tracks.steps object
      = (start.afterAll tried).tracks.steps object)
    ∧ (start.afterAll tried).finish.recorded
      = ((List.range objects).flatMap fun object =>
          ((start.afterAll tried).tracks.steps object).filterMap Step.delta).toFinset.card := by
  have h := recordAll_accepted start tried
  have hs := recorded_of_recordAll hstart h
  refine ⟨?_, keeps_of_recordAll hstart h, fun object => rfl, ?_⟩
  · intro object values
    refine ⟨?_, ?_⟩
    · simp only [record_eq_error_iff, hs.objects_eq, hs.attributes_eq, exists_or, exists_and_left,
        exists_eq, and_true]
      by_cases hobject : objects ≤ object
      · simp [hobject]
      · simp [hobject, not_le.mp hobject]
    · intro e he
      refine ⟨?_, after_of_error he⟩
      rw [record_eq_error_iff, hs.objects_eq, hs.attributes_eq] at he
      rcases he with ⟨hobject, rfl⟩ | ⟨hobject, -, rfl⟩
      · rw [if_pos hobject]
        rfl
      · rw [if_neg (not_le.mpr hobject)]
        rfl
  · show (start.afterAll tried).tally.size = _
    rw [(counts_deltas hstart h).size_eq, Tracks.deltas_eq, hs.objects_eq]

/-! ## A recording that stumbles

Two objects move in turn.  One frame names a third object, and one has a value too few.
-/

/-- Frames of which the second and the fifth are refused. -/
def stumblingFrames : List (ℕ × Values) :=
  [(0, [10, 10]), (2, [0, 0]), (1, [50, 20]), (0, [11, 10]), (1, [50]), (1, [51, 20]),
    (0, [11, 10])]

/-- The session before the frames come. -/
def beforeStumbling : Session where
  settings := .ofCount 2
  tracks := ⟨List.replicate 2 {}, List.replicate 2 {}⟩

/-- Both objects move by the same delta, and the first object then stays where it is. -/
theorem keeps_afterAll_stumbling :
    Session.start 2 (.ofCount 2) = .ok beforeStumbling
      ∧ (beforeStumbling.afterAll stumblingFrames).Keeps 2 (List.replicate 2 {})
          [(0, [10, 10]), (1, [50, 20]), (0, [11, 10]), (1, [51, 20]), (0, [11, 10])]
      ∧ (beforeStumbling.afterAll stumblingFrames).tally.entries = [⟨[1, 0], 2⟩, ⟨[0, 0], 1⟩]
      ∧ (beforeStumbling.afterAll stumblingFrames).finish.recorded = 2 := by
  have hstart : Session.start 2 (.ofCount 2) = .ok beforeStumbling := by rfl
  exact ⟨hstart, (keeps_afterAll hstart stumblingFrames).2.1, by rfl, by rfl⟩

end Session

end DeltaScript
