import DeltaScript.Proofs.History

/-!
# The order between objects

Frames of different objects may come in any order.  The steps do not depend on it, and the tally
depends on it in the order of its entries only.  That order decides between deltas of equal count,
so that the ranking depends on it there and nowhere else.

* `Linked.ext` — **the steps of an object follow from the values of its frames.**
* `Tally.map_count_rank` — entries in another order are ranked with the same counts.
* `Ranking.SameButTies` — two rankings differ among deltas of equal count only.
* `Tally.sameButTies_rank` — **so do the rankings of tallies with the same entries.**
* `Session.same_of_interleaved` — what two sessions have in common if every object has the same
  frames in both.
-/

namespace DeltaScript

attribute [ext] Step Tracks

/-! ## Steps -/

/-- **The steps of an object follow from the values of its frames.** -/
theorem Linked.ext {attributes : List Attribute} {steps others : List Step}
    (h : Linked attributes steps) (h' : Linked attributes others)
    (hstates : steps.map Step.state = others.map Step.state) : steps = others := by
  have hlength : steps.length = others.length := by
    simpa using congrArg List.length hstates
  refine List.ext_getElem hlength fun k hk hk' => ?_
  have hstate : ∀ (i : ℕ) (hi : i < steps.length) (hi' : i < others.length),
      steps[i].state = others[i].state := by
    intro i hi hi'
    simpa [hi, hi'] using congrArg (·[i]?) hstates
  have hdelta : steps[k].delta = others[k].delta := by
    cases k with
    | zero =>
        rw [h.head _ (by simp [List.head?_eq_getElem?, hk]),
          h'.head _ (by simp [List.head?_eq_getElem?, hk'])]
    | succ k =>
        have hlast : k < steps.length := Nat.lt_of_succ_lt hk
        have hlast' : k < others.length := Nat.lt_of_succ_lt hk'
        rw [h.delta_eq (List.getElem?_eq_getElem hlast) (List.getElem?_eq_getElem hk),
          h'.delta_eq (List.getElem?_eq_getElem hlast') (List.getElem?_eq_getElem hk'),
          hstate k hlast hlast', hstate (k + 1) hk hk']
  exact Step.ext (hstate k hk hk') hdelta

/-- Tracks are told by the steps of their objects. -/
theorem Tracks.ext_steps {t t' : Tracks} (hattributes : t.attributes = t'.attributes)
    (hobjects : t.objects = t'.objects) (hsteps : ∀ object, t.steps object = t'.steps object) :
    t = t' := by
  have hmap : t.tracks.map Track.steps = t'.tracks.map Track.steps := by
    rw [← t.map_steps_range, ← t'.map_steps_range, hobjects]
    exact List.map_congr_left fun object _ => hsteps object
  have hinjective : Function.Injective Track.steps := by
    rintro ⟨xs⟩ ⟨ys⟩ h
    exact congrArg Track.mk (List.reverse_injective h)
  exact Tracks.ext hattributes (List.map_injective_iff.mpr hinjective hmap)

/-! ## Ranks -/

namespace Tally

variable {t t' : Tally}

/-- **Entries in another order are sorted with the same counts.** -/
theorem map_count_sorted (h : t.entries.Perm t'.entries) :
    t.sorted.map Entry.count = t'.sorted.map Entry.count := by
  have hperm : t.sorted.Perm t'.sorted := t.perm_sorted.trans (h.trans t'.perm_sorted.symm)
  have hsorted : ∀ u : Tally, (u.sorted.map Entry.count).Pairwise (· ≥ ·) := by
    intro u
    exact List.pairwise_map.mpr u.pairwise_sorted
  refine List.Perm.eq_of_pairwise ?_ (hsorted t) (hsorted t') (hperm.map _)
  intro m n _ _ hle hge
  exact le_antisymm hge hle

theorem map_count_rank (h : t.entries.Perm t'.entries) :
    t.rank.entries.map Entry.count = t'.rank.entries.map Entry.count := by
  rw [entries_rank, entries_rank, List.map_take, List.map_take, map_count_sorted h]

end Tally

namespace Ranking

/-- What one ranking names and another leaves out has the count of the last delta of the other one,
which is full. -/
def CutAtTies (count : Delta → ℕ) (r r' : Ranking) : Prop :=
  ∀ delta index, r.index? delta = some index → r'.index? delta = none →
    r'.size = capacity ∧ ∀ last ∈ r'.entries.getLast?, last.count = count delta

/-- Two rankings that differ among deltas of equal count only. -/
structure SameButTies (count : Delta → ℕ) (r r' : Ranking) : Prop where
  size_eq : r.size = r'.size
  /-- Rank by rank, the counts are the same. -/
  counts_eq : r.entries.map Entry.count = r'.entries.map Entry.count
  /-- Deltas that have the same rank, one in each ranking, have the same count. -/
  ranks : ∀ index v w, r.delta? index = some v → r'.delta? index = some w → count v = count w
  left : CutAtTies count r r'
  right : CutAtTies count r' r

end Ranking

namespace Tally

variable {t t' : Tally}

/-- **A delta is left out for another one of the same count only.**  Everything that is left out
counts no more than the last one that is not, and that one has the same count in both rankings. -/
theorem count_eq_of_cut (h : t.entries.Perm t'.entries) {e : Entry} (he : e ∈ t.rank.entries)
    (he' : e ∉ t'.rank.entries) : t'.rank.size = Ranking.capacity
      ∧ ∀ last ∈ t'.rank.entries.getLast?, last.count = e.count := by
  rw [entries_rank] at he he'
  have hmem : e ∈ t'.sorted := by
    rw [t'.perm_sorted.mem_iff, ← h.mem_iff, ← t.perm_sorted.mem_iff]
    exact List.mem_of_mem_take he
  have hsplit := List.take_append_drop Ranking.capacity t'.sorted
  have hdrop : e ∈ t'.sorted.drop Ranking.capacity := by
    rw [← hsplit, List.mem_append] at hmem
    exact hmem.resolve_left he'
  have hfull : Ranking.capacity < t'.sorted.length := by
    have hpos := List.length_pos_of_mem hdrop
    rw [List.length_drop] at hpos
    omega
  have hsize : t'.rank.size = Ranking.capacity := by
    rw [Ranking.size, entries_rank, List.length_take]
    omega
  refine ⟨hsize, fun last hlast => le_antisymm ?_ ?_⟩
  · have hcount : e.count ∈ t'.rank.entries.map Entry.count := by
      rw [← map_count_rank h]
      exact List.mem_map_of_mem he
    have hsorted : (t'.rank.entries.map Entry.count).Pairwise (· ≥ ·) :=
      List.pairwise_map.mpr (t'.pairwise_sorted.sublist (List.take_sublist ..))
    obtain ⟨hne, rfl⟩ := List.mem_getLast?_eq_getLast hlast
    have hlast := hsorted.rel_getLast hcount
    rwa [List.getLast_map] at hlast
  · have hpairwise := t'.pairwise_sorted
    rw [← hsplit, List.pairwise_append] at hpairwise
    exact hpairwise.2.2 last (List.mem_of_getLast? hlast) e hdrop

theorem cutAtTies_rank (h : t.entries.Perm t'.entries) {count : Delta → ℕ}
    (hcount : ∀ e ∈ t.entries, e.count = count e.delta) :
    Ranking.CutAtTies count t.rank t'.rank := by
  intro delta index hindex hnone
  obtain ⟨e, he, rfl⟩ := Ranking.exists_mem_of_delta? (Ranking.delta?_of_index? hindex)
  have he' : e ∉ t'.rank.entries := by
    intro hmem
    have hne := List.findIdx?_eq_none_iff.mp hnone e hmem
    simp at hne
  rw [← hcount e (mem_rank he)]
  exact count_eq_of_cut h he he'

/-- **Tallies with the same entries are ranked the same but for ties.** -/
theorem sameButTies_rank (h : t.entries.Perm t'.entries) {count : Delta → ℕ}
    (hcount : ∀ e ∈ t.entries, e.count = count e.delta) :
    Ranking.SameButTies count t.rank t'.rank := by
  have hcounts := map_count_rank h
  have hcount' : ∀ e ∈ t'.entries, e.count = count e.delta := by
    intro e he
    exact hcount e (h.mem_iff.mpr he)
  have hsize : t.rank.size = t'.rank.size := by
    simpa [Ranking.size] using congrArg List.length hcounts
  refine ⟨hsize, hcounts, ?_, cutAtTies_rank h hcount, cutAtTies_rank h.symm hcount'⟩
  intro index v w hv hw
  obtain ⟨e, he, rfl⟩ := Option.map_eq_some_iff.mp hv
  obtain ⟨e', he', rfl⟩ := Option.map_eq_some_iff.mp hw
  rw [← hcount e (mem_rank (List.mem_of_getElem? he)),
    ← hcount' e' (mem_rank (List.mem_of_getElem? he'))]
  simpa [he, he'] using congrArg (·[index]?) hcounts

end Tally

/-! ## Sessions -/

namespace Session

variable {objects : ℕ} {settings : Settings} {start s s' : Session}
  {frames frames' : List (ℕ × Values)}

/-- **The tracks follow from the frames of each object.** -/
theorem tracks_eq_of_interleaved (hstart : Session.start objects settings = .ok start)
    (h : start.recordAll frames = .ok s) (h' : start.recordAll frames' = .ok s')
    (hframes : ∀ object, (frames.filter (·.1 = object)).map Prod.snd
      = (frames'.filter (·.1 = object)).map Prod.snd) : s.tracks = s'.tracks := by
  have hs := recorded_of_recordAll hstart h
  have hs' := recorded_of_recordAll hstart h'
  refine Tracks.ext_steps ?_ ?_ fun object => ?_
  · rw [hs.attributes_eq, hs'.attributes_eq]
  · rw [hs.objects_eq, hs'.objects_eq]
  · refine (hs.linked_steps object).ext (hs'.linked_steps object) ?_
    rw [states_of_recordAll hstart h, states_of_recordAll hstart h', hframes]

/-- **The order between the objects decides ties and nothing else.**  Two sessions take down the
same frames of each object, mixed in two ways.  Then they hold the same steps, count every delta
equally often, and rank the deltas alike but for those of equal count. -/
theorem same_of_interleaved (hstart : Session.start objects settings = .ok start)
    (h : start.recordAll frames = .ok s) (h' : start.recordAll frames' = .ok s')
    (hframes : ∀ object, (frames.filter (·.1 = object)).map Prod.snd
      = (frames'.filter (·.1 = object)).map Prod.snd) :
    (∀ object, s.tracks.steps object = s'.tracks.steps object)
    ∧ (∀ delta, s.tally.count delta = s'.tally.count delta)
    ∧ s.finish.tracks.maxSteps = s'.finish.tracks.maxSteps
    ∧ s.finish.recorded = s'.finish.recorded
    ∧ Ranking.SameButTies s.tally.count s.finish.ranking s'.finish.ranking := by
  have htracks := tracks_eq_of_interleaved hstart h h' hframes
  have hcounts := counts_deltas hstart h
  have hcounts' : s'.tally.Counts s.tracks.deltas := by
    rw [htracks]
    exact counts_deltas hstart h'
  have hperm : s.tally.entries.Perm s'.tally.entries := hcounts.perm hcounts'
  have hsettings : s.settings = s'.settings := by
    rw [(recorded_of_recordAll hstart h).settings_eq, (recorded_of_recordAll hstart h').settings_eq]
  refine ⟨fun object => by rw [htracks], ?_, ?_, hperm.length_eq, ?_⟩
  · intro delta
    rw [hcounts.count, hcounts'.count]
  · show s.tracks.maxSteps = s'.tracks.maxSteps
    rw [htracks]
  · -- pruning looks at an entry alone, so that what is left is still the same but for its order
    have hpruned : (s.tally.prune s.settings.ranges).entries.Perm
        (s'.tally.prune s'.settings.ranges).entries := by
      rw [hsettings]
      exact hperm.filter _
    refine Tally.sameButTies_rank hpruned fun e he => ?_
    rw [hcounts.count, hcounts.count_eq e (Tally.mem_prune.mp he).1]

/-! ## Two objects that move in opposite directions -/

/-- The first object, frame by frame, and then the second. -/
def inTurn : List (ℕ × Values) :=
  [(0, [10, 10]), (0, [11, 10]), (0, [12, 10]), (1, [50, 20]), (1, [49, 20]), (1, [48, 20])]

/-- The same frames, those of the second object first. -/
def theOtherFirst : List (ℕ × Values) :=
  [(1, [50, 20]), (1, [49, 20]), (0, [10, 10]), (1, [48, 20]), (0, [11, 10]), (0, [12, 10])]

/-- The two deltas are equally frequent and trade ranks. -/
theorem same_of_interleaved_opposite :
    (beforeStumbling.afterAll inTurn).finish.ranking.entries = [⟨[1, 0], 2⟩, ⟨[-1, 0], 2⟩]
      ∧ (beforeStumbling.afterAll theOtherFirst).finish.ranking.entries
        = [⟨[-1, 0], 2⟩, ⟨[1, 0], 2⟩]
      ∧ Ranking.SameButTies (beforeStumbling.afterAll inTurn).tally.count
          (beforeStumbling.afterAll inTurn).finish.ranking
          (beforeStumbling.afterAll theOtherFirst).finish.ranking := by
  have hstart : Session.start 2 (.ofCount 2) = .ok beforeStumbling := by rfl
  have h : beforeStumbling.recordAll inTurn = .ok (beforeStumbling.afterAll inTurn) := by rfl
  have h' : beforeStumbling.recordAll theOtherFirst
      = .ok (beforeStumbling.afterAll theOtherFirst) := by rfl
  have hframes : ∀ object, (inTurn.filter (·.1 = object)).map Prod.snd
      = (theOtherFirst.filter (·.1 = object)).map Prod.snd := by
    rintro (_ | _ | object)
    · rfl
    · rfl
    · simp [inTurn, theOtherFirst]
  exact ⟨by cbv, by cbv, (same_of_interleaved hstart h h' hframes).2.2.2.2⟩

end Session

end DeltaScript
