import DeltaScript.Proofs.Indexing

/-!
# Tallies with a table of places

To count a delta is to find its entry first.  A dictionary keeps the entries of a tally, and beside
them a table that tells where the entry of each delta stands, so that none is searched for.  The
same data is there twice, and what is done to one copy has to be done to the other: counting a new
delta adds to both, and pruning moves every entry that stands behind one that is dropped.

* `Dictionary.add`, `Dictionary.count`, `Dictionary.prune` — counting, looking up, and dropping,
  each by way of the table.
* `Dictionary.Keeps` — the dictionary has the entries of a tally, and **its table tells the place of
  each of them and nothing else**.  Every operation keeps that (`Keeps.add`, `Keeps.prune`), and
  while it holds a look-up finds the count (`Keeps.count_eq`).
* `Dictionary.Refines`, `Dictionary.refines_updateAll` — **a dictionary that is counted into and
  pruned in turn is the multiset of the occurrences that are left**, in the order in which these
  came.
-/

namespace DeltaScript

/-- A tally, and where in it the entry of each delta is found. -/
structure Dictionary where
  entries : List Entry := []
  /-- The place of the entry of each delta. -/
  places : Std.HashMap Delta ℕ := ∅

namespace Dictionary

/-- The places of entries, in a table that is built anew. -/
def placesOf (entries : List Entry) : Std.HashMap Delta ℕ :=
  .ofList (entries.map Entry.delta).zipIdx

/-- Counts one more occurrence of a delta. -/
def add (d : Dictionary) (delta : Delta) : Dictionary :=
  match d.places[delta]? with
  | some place =>
      { d with entries := d.entries.modify place fun e => { e with count := e.count + 1 } }
  | none => ⟨d.entries ++ [⟨delta, 1⟩], d.places.insert delta d.entries.length⟩

def count (d : Dictionary) (delta : Delta) : ℕ :=
  match d.places[delta]?.bind (d.entries[·]?) with
  | some e => e.count
  | none => 0

/-- Drops every delta that leaves the range of one of its attributes, and tells how many there
were. -/
def prune (d : Dictionary) (ranges : List DeltaRange) : ℕ × Dictionary :=
  let kept := d.entries.filter fun e => Tally.within ranges e.delta
  (d.entries.length - kept.length, ⟨kept, placesOf kept⟩)

def update (d : Dictionary) : Tally.Update → Dictionary
  | .add delta => d.add delta
  | .prune ranges => (d.prune ranges).2

/-- An empty dictionary after updates, one after the other. -/
def updateAll (updates : List Tally.Update) : Dictionary :=
  updates.foldl update {}

theorem updateAll_concat (updates : List Tally.Update) (u : Tally.Update) :
    updateAll (updates ++ [u]) = (updateAll updates).update u := by
  simp [updateAll]

/-! ## One tally, kept twice -/

/-- A dictionary has the entries of a tally, and its table tells the places of all of them. -/
structure Keeps (d : Dictionary) (t : Tally) : Prop where
  entries_eq : d.entries = t.entries
  places_iff : ∀ (delta : Delta) (place : ℕ),
    d.places[delta]? = some place ↔ (t.entries.map Entry.delta)[place]? = some delta

/-- What stands in a list with one more element at the end. -/
theorem getElem?_concat_eq_some_iff {α : Type} {xs : List α} {x y : α} {i : ℕ} :
    (xs ++ [x])[i]? = some y ↔ xs[i]? = some y ∨ (i = xs.length ∧ x = y) := by
  rcases Nat.lt_trichotomy i xs.length with hlt | rfl | hgt
  · simp [List.getElem?_append_left hlt, hlt.ne]
  · simp
  · have hend : (xs ++ [x]).length ≤ i := by simpa using hgt
    simp [List.getElem?_eq_none hend, List.getElem?_eq_none hgt.le, hgt.ne']

namespace Keeps

variable {d : Dictionary} {t : Tally} {deltas : List Delta} {delta : Delta}

theorem empty : Dictionary.Keeps {} {} :=
  ⟨rfl, by simp⟩

theorem places_eq_none_iff (h : d.Keeps t) :
    d.places[delta]? = none ↔ delta ∉ t.entries.map Entry.delta := by
  rw [Option.eq_none_iff_forall_ne_some, List.mem_iff_getElem?, not_exists]
  exact forall_congr' fun place => not_congr (h.places_iff delta place)

/-- **Counting a delta keeps the table in step**: an entry that is counted up stays where it is, and
a new one comes last. -/
theorem add (h : d.Keeps t) (hnodup : (t.entries.map Entry.delta).Nodup) (delta : Delta) :
    (d.add delta).Keeps (t.add delta) := by
  unfold Dictionary.add
  cases hplace : d.places[delta]? with
  | some place =>
      have hfound := (h.places_iff delta place).mp hplace
      constructor
      · rw [h.entries_eq, Tally.add, Tally.bump_eq_modify hnodup hfound]
      · intro other place'
        rw [Tally.add, Tally.deltas_bump, if_pos (List.mem_of_getElem? hfound), List.append_nil]
        exact h.places_iff other place'
  | none =>
      have hnew := h.places_eq_none_iff.mp hplace
      constructor
      · rw [h.entries_eq, Tally.add, Tally.bump_of_notMem hnew]
      · intro other place
        rw [Tally.add, Tally.deltas_bump, if_neg hnew, Std.HashMap.getElem?_insert,
          getElem?_concat_eq_some_iff, ← h.places_iff, List.length_map, h.entries_eq]
        split_ifs with heq
        · -- the delta had no place before
          rw [← eq_of_beq heq, hplace]
          simp [eq_comm]
        · simp [ne_of_beq_false (Bool.eq_false_of_not_eq_true heq)]

/-- **Pruning keeps the table in step**: it is built anew, from entries whose deltas differ. -/
theorem prune (h : d.Keeps t) (hnodup : (t.entries.map Entry.delta).Nodup)
    (ranges : List DeltaRange) : (d.prune ranges).2.Keeps (t.prune ranges) := by
  have hentries : (d.prune ranges).2.entries = (t.prune ranges).entries := by
    rw [Dictionary.prune, Tally.prune, h.entries_eq]
  refine ⟨hentries, fun other place => ?_⟩
  have hkeys : (((t.prune ranges).entries.map Entry.delta).zipIdx.map Prod.fst).Nodup := by
    rw [List.zipIdx_map_fst]
    exact Tally.nodup_prune hnodup ranges
  show (placesOf (d.prune ranges).2.entries)[other]? = some place ↔ _
  rw [hentries, placesOf, getElem?_ofList_eq_some_iff hkeys, List.mk_mem_zipIdx_iff_getElem?]

/-- **What is found at the place of a delta is its count.** -/
theorem count_eq (h : d.Keeps t) (hcounts : t.Counts deltas) (delta : Delta) :
    d.count delta = deltas.count delta := by
  rw [Dictionary.count]
  cases hplace : d.places[delta]? with
  | some place =>
      have hfound := (h.places_iff delta place).mp hplace
      rw [List.getElem?_map, Option.map_eq_some_iff] at hfound
      obtain ⟨e, he, rfl⟩ := hfound
      rw [h.entries_eq, Option.bind_some, he]
      exact hcounts.count_eq e (List.mem_of_getElem? he)
  | none =>
      have hnew := h.places_eq_none_iff.mp hplace
      rw [hcounts.mem_iff] at hnew
      exact (List.count_eq_zero_of_not_mem hnew).symm

theorem count_pos_iff (h : d.Keeps t) (hcounts : t.Counts deltas) :
    0 < d.count delta ↔ delta ∈ t.entries.map Entry.delta := by
  rw [h.count_eq hcounts, List.count_pos_iff, hcounts.mem_iff]

/-- A delta that is counted for the first time comes last. -/
theorem entries_add_of_count_eq_zero (h : d.Keeps t) (hcounts : t.Counts deltas)
    (hzero : d.count delta = 0) : (d.add delta).entries = d.entries ++ [⟨delta, 1⟩] := by
  have hnew : delta ∉ t.entries.map Entry.delta := by
    rw [← h.count_pos_iff hcounts, hzero]
    exact Nat.lt_irrefl 0
  rw [(h.add hcounts.nodup delta).entries_eq, Tally.add, Tally.bump_of_notMem hnew, h.entries_eq]

end Keeps

/-- Pruning drops as many entries as it tells. -/
theorem fst_prune (d : Dictionary) (ranges : List DeltaRange) :
    (d.prune ranges).1 = d.entries.countP (· ∉ (d.prune ranges).2.entries) := by
  have hgone : ∀ e ∈ d.entries,
      decide (e ∉ (d.prune ranges).2.entries) = true
        ↔ decide (¬ Tally.within ranges e.delta = true) = true := by
    intro e he
    simp [prune, he]
  have hsplit := List.length_eq_countP_add_countP (fun e => Tally.within ranges e.delta)
    (l := d.entries)
  rw [List.countP_congr hgone, prune, ← List.countP_eq_length_filter]
  omega

/-- **A dictionary that is updated keeps the tally that is updated in the same way.** -/
theorem keeps_updateAll (updates : List Tally.Update) :
    (updateAll updates).Keeps (Tally.updateAll updates) := by
  induction updates using List.reverseRecOn with
  | nil => exact Keeps.empty
  | append_singleton updates u ih =>
      have hnodup := Tally.nodup_updateAll updates
      rw [updateAll_concat, Tally.updateAll_concat]
      cases u with
      | add delta => exact ih.add hnodup delta
      | prune ranges => exact ih.prune hnodup ranges

/-! ## The occurrences that are left -/

/-- A dictionary that is the ordered multiset of the occurrences which updates leave. -/
structure Refines (d : Dictionary) (updates : List Tally.Update) : Prop where
  /-- The entries are those of a tally. -/
  entries_eq : d.entries = (Tally.updateAll updates).entries
  nodup : (d.entries.map Entry.delta).Nodup
  /-- They are the distinct occurrences that are left, in the order in which these first come, each
  with the number of times that it comes. -/
  entries_eq_map : d.entries = (Tally.remaining updates).eraseDups.map fun delta =>
    ⟨delta, (Tally.remaining updates).count delta⟩
  /-- The table tells where the entry of each delta stands, and nothing else. -/
  places_iff : ∀ (delta : Delta) (place : ℕ),
    d.places[delta]? = some place ↔ ∃ e, d.entries[place]? = some e ∧ e.delta = delta
  /-- What is looked up is the number of occurrences left. -/
  count_eq : ∀ delta, d.count delta = (Tally.remaining updates).count delta
    ∧ d.count delta = (Tally.updateAll updates).count delta
  /-- A delta that is there is counted in its place. -/
  known : ∀ delta, 0 < d.count delta → (d.add delta).entries
    = d.entries.map fun e => if e.delta = delta then { e with count := e.count + 1 } else e
  /-- A delta that is not there comes last. -/
  fresh : ∀ delta, d.count delta = 0 → (d.add delta).entries = d.entries ++ [⟨delta, 1⟩]
  /-- Pruning keeps the entries all of whose components are within their ranges, in their order and
  with their counts. -/
  kept : ∀ ranges, (d.prune ranges).2.entries.Sublist d.entries
    ∧ ∀ e, e ∈ (d.prune ranges).2.entries ↔ e ∈ d.entries
      ∧ ∀ (a : ℕ) (n : ℤ) (range : DeltaRange), e.delta[a]? = some n → ranges[a]? = some range →
        range.low ≤ n ∧ n ≤ range.high
  /-- It tells how many it drops. -/
  dropped : ∀ ranges, (d.prune ranges).1 = d.entries.countP (· ∉ (d.prune ranges).2.entries)
  /-- A delta that was dropped comes last again, with count one, whatever else happens meanwhile. -/
  again : ∀ ranges later delta, Tally.within ranges delta = false → .add delta ∉ later →
    (updateAll (updates ++ .prune ranges :: later)).count delta = 0
      ∧ (updateAll (updates ++ .prune ranges :: later ++ [.add delta])).entries
        = (updateAll (updates ++ .prune ranges :: later)).entries ++ [⟨delta, 1⟩]
  /-- It does not matter by which ranges is pruned first. -/
  comm : ∀ ranges ranges', ((d.prune ranges).2.prune ranges').2.entries
    = ((d.prune ranges').2.prune ranges).2.entries
  /-- Pruning a second time drops nothing. -/
  idem : ∀ ranges, ((d.prune ranges).2.prune ranges).1 = 0
    ∧ ((d.prune ranges).2.prune ranges).2.entries = (d.prune ranges).2.entries

/-- **A dictionary is the ordered multiset of the occurrences that counting and pruning leave.** -/
theorem refines_updateAll (updates : List Tally.Update) : (updateAll updates).Refines updates := by
  have hkeeps := keeps_updateAll updates
  have hcounts := Tally.counts_updateAll updates
  constructor
  case entries_eq => exact hkeeps.entries_eq
  case nodup =>
    rw [hkeeps.entries_eq]
    exact hcounts.nodup
  case entries_eq_map =>
    rw [hkeeps.entries_eq, Tally.updateAll_eq_ofDeltas]
    exact Tally.entries_ofDeltas _
  case places_iff =>
    intro delta place
    rw [hkeeps.places_iff, hkeeps.entries_eq, List.getElem?_map, Option.map_eq_some_iff]
  case count_eq =>
    intro delta
    rw [hcounts.count]
    exact ⟨hkeeps.count_eq hcounts delta, hkeeps.count_eq hcounts delta⟩
  case known =>
    intro delta hpos
    have hmem := (hkeeps.count_pos_iff hcounts).mp hpos
    rw [(hkeeps.add hcounts.nodup delta).entries_eq, Tally.add,
      Tally.bump_of_mem hcounts.nodup hmem, hkeeps.entries_eq]
  case fresh =>
    intro delta hzero
    exact hkeeps.entries_add_of_count_eq_zero hcounts hzero
  case kept =>
    intro ranges
    refine ⟨List.filter_sublist, fun e => ?_⟩
    rw [← Tally.within_iff]
    exact List.mem_filter
  case dropped =>
    intro ranges
    exact fst_prune _ ranges
  case again =>
    intro ranges later delta hdropped hlater
    have hkeeps' := keeps_updateAll (updates ++ .prune ranges :: later)
    have hcounts' := Tally.counts_updateAll (updates ++ .prune ranges :: later)
    have hzero : (updateAll (updates ++ .prune ranges :: later)).count delta = 0 := by
      rw [hkeeps'.count_eq hcounts']
      exact List.count_eq_zero_of_not_mem (Tally.notMem_remaining hdropped hlater)
    refine ⟨hzero, ?_⟩
    rw [updateAll_concat]
    exact hkeeps'.entries_add_of_count_eq_zero hcounts' hzero
  case comm =>
    intro ranges ranges'
    exact List.filter_comm _ _ _
  case idem =>
    intro ranges
    have hsame : ((updateAll updates).prune ranges).2.entries.filter
        (fun e => Tally.within ranges e.delta) = ((updateAll updates).prune ranges).2.entries := by
      simp only [prune, List.filter_filter, Bool.and_self]
    refine ⟨?_, hsame⟩
    show _ - (((updateAll updates).prune ranges).2.entries.filter _).length = 0
    rw [hsame, Nat.sub_self]

end Dictionary

end DeltaScript
