import Mathlib
import DeltaScript.Proofs.Tally

/-!
# Indices of deltas

A delta gets its index from the counts of all deltas of a tally, and from the order in which they
were first seen.  There are never two entries of one delta, however a tally was counted into and
pruned, and both directions of the look-up depend on that alone.

* `getElem?_ofList_eq_some_iff` — what a table holds that is built from distinct keys.
* `Ranking.lookup` — the index bytes of all ranked deltas in a table, which holds what
  `Ranking.index?` finds (`Ranking.getElem?_lookup`).
* `Ranking.index?_eq_some_iff`, `Ranking.getElem?_lookup_eq_some_iff` — both are inverse to
  `Ranking.delta?`.
* `Ranking.Ranks` — what is expected of the ranking of a tally; `Tally.ranks_rank`.
* `Tally.index?_rank_prune` — **pruning moves an index up by the deltas that are dropped before
  it**, since what is kept is sorted like the whole tally.
* `Ranking.MovesUp`, `Tally.movesUp_prune` — hence no order changes, and no index grows.
* `Tally.ranks_updateAll` — all of this for every tally that can be reached.
-/

namespace DeltaScript

/-! ## Looking up -/

/-- **A table holds what it was built from**, where no key is repeated. -/
theorem getElem?_ofList_eq_some_iff {κ ν : Type} [BEq κ] [LawfulBEq κ] [Hashable κ]
    {pairs : List (κ × ν)} (h : (pairs.map Prod.fst).Nodup) {key : κ} {value : ν} :
    (Std.HashMap.ofList pairs)[key]? = some value ↔ (key, value) ∈ pairs := by
  have hdistinct : pairs.Pairwise fun a b => (a.1 == b.1) = false := by
    rw [List.Nodup, List.pairwise_map] at h
    exact h.imp fun hne => by simpa using hne
  have hget : ∀ {v : ν}, (key, v) ∈ pairs → (Std.HashMap.ofList pairs)[key]? = some v := fun hmem =>
    Std.HashMap.getElem?_ofList_of_mem (beq_self_eq_true key) hdistinct hmem
  refine ⟨fun hvalue => ?_, hget⟩
  by_cases hkey : key ∈ pairs.map Prod.fst
  · obtain ⟨⟨_, v⟩, hmem, rfl⟩ := List.mem_map.mp hkey
    rw [hget hmem, Option.some_inj] at hvalue
    rwa [← hvalue]
  · rw [Std.HashMap.getElem?_ofList_of_contains_eq_false (by simpa using hkey)] at hvalue
    cases hvalue

namespace Ranking

variable {r : Ranking} {delta : Delta} {index : ℕ}

/-- **The two look-ups are inverse** where no delta has two entries. -/
theorem index?_eq_some_iff (hnodup : (r.entries.map Entry.delta).Nodup) :
    r.index? delta = some index ↔ index < r.size ∧ r.delta? index = some delta := by
  constructor
  · intro h
    exact ⟨index?_lt_size h, delta?_of_index? h⟩
  · rintro ⟨hlt, hdelta⟩
    have heq : r.entries[index].delta = delta := by
      simpa [delta?, List.getElem?_eq_getElem hlt] using hdelta
    rw [index?, List.findIdx?_eq_some_iff_getElem]
    refine ⟨hlt, by simpa using heq, ?_⟩
    -- an entry before it with the same delta would be a second one
    rw [List.Nodup, List.pairwise_map, List.pairwise_iff_getElem] at hnodup
    intro before hbefore hsame
    exact hnodup before index _ hlt hbefore ((eq_of_beq hsame).trans heq.symm)

/-- The index byte of every ranked delta, in a table that is built once for all look-ups. -/
def lookup (r : Ranking) : Std.HashMap Delta UInt8 :=
  .ofList (r.entries.zipIdx.map fun (e, index) => (e.delta, UInt8.ofNat index))

/-- **The table holds the indices that are found one by one.** -/
theorem getElem?_lookup (hnodup : (r.entries.map Entry.delta).Nodup) (delta : Delta) :
    r.lookup[delta]? = (r.index? delta).map UInt8.ofNat := by
  have hkeys : (r.entries.zipIdx.map fun (e, index) => (e.delta, UInt8.ofNat index)).map Prod.fst
      = r.entries.map Entry.delta := by
    conv_rhs => rw [← List.zipIdx_map_fst 0 r.entries, List.map_map]
    rw [List.map_map]
    rfl
  refine Option.ext fun byte => ?_
  rw [lookup, getElem?_ofList_eq_some_iff (hkeys ▸ hnodup), Option.map_eq_some_iff, List.mem_map]
  simp only [index?_eq_some_iff hnodup]
  constructor
  · rintro ⟨⟨e, index⟩, hmem, heq⟩
    obtain ⟨rfl, rfl⟩ := Prod.mk.inj heq
    have he := List.mk_mem_zipIdx_iff_getElem?.mp hmem
    exact ⟨index, ⟨(List.getElem?_eq_some_iff.mp he).1, congrArg (Option.map Entry.delta) he⟩, rfl⟩
  · rintro ⟨index, ⟨-, hdelta⟩, rfl⟩
    obtain ⟨e, he, rfl⟩ := Option.map_eq_some_iff.mp hdelta
    exact ⟨(e, index), List.mk_mem_zipIdx_iff_getElem?.mpr he, rfl⟩

/-- **The table is inverse to the ranked deltas as well**: their indices fit a byte. -/
theorem getElem?_lookup_eq_some_iff (hnodup : (r.entries.map Entry.delta).Nodup)
    (hsize : r.size ≤ capacity) {byte : UInt8} :
    r.lookup[delta]? = some byte ↔ byte.toNat < r.size ∧ r.delta? byte.toNat = some delta := by
  rw [getElem?_lookup hnodup, ← index?_eq_some_iff hnodup, Option.map_eq_some_iff]
  constructor
  · rintro ⟨index, hindex, rfl⟩
    have hlt : index < 128 := Nat.lt_of_lt_of_le (index?_lt_size hindex) hsize
    rwa [UInt8.toNat_ofNat_of_lt' (hlt.trans (by decide))]
  · intro h
    exact ⟨byte.toNat, h, UInt8.ofNat_toNat⟩

/-! ## The order of ranking -/

/-- The ranking that is expected of a tally. -/
structure Ranks (r : Ranking) (t : Tally) : Prop where
  size_eq : r.size = min capacity t.size
  /-- The ranked entries are entries of the tally, with their counts. -/
  kept : ∀ e ∈ r.entries, e ∈ t.entries
  /-- They stand by descending counts, and those of equal count in the order of the tally. -/
  order : r.entries.Pairwise (Outranks Entry.count t.entries)
  /-- What is left out would come after the last of them. -/
  left_out : ∀ e ∈ t.entries, e ∉ r.entries →
    ∃ last, r.entries[r.size - 1]? = some last ∧ Outranks Entry.count t.entries last e
  index?_eq_some_iff : ∀ delta index,
    r.index? delta = some index ↔ index < r.size ∧ r.delta? index = some delta
  lookup_eq_some_iff : ∀ delta (byte : UInt8),
    r.lookup[delta]? = some byte ↔ byte.toNat < r.size ∧ r.delta? byte.toNat = some delta

/-- A ranking beside another one that names fewer deltas, of which `kept` are still to be named. -/
structure MovesUp (r r' : Ranking) (kept : List Delta) : Prop where
  /-- Two deltas that have an index in both rankings are in the same order in both. -/
  lt_iff : ∀ v w i j i' j', r.index? v = some i → r.index? w = some j →
    r'.index? v = some i' → r'.index? w = some j' → (i < j ↔ i' < j')
  /-- A delta that is kept still has an index, and not a greater one. -/
  le : ∀ v ∈ kept, ∀ i, r.index? v = some i → ∃ i' ≤ i, r'.index? v = some i'

end Ranking

namespace Tally

variable {t : Tally} {ranges : List DeltaRange} {v w : Delta} {i j : ℕ}

theorem nodup_rank (h : (t.entries.map Entry.delta).Nodup) :
    (t.rank.entries.map Entry.delta).Nodup := by
  have hsorted := (t.perm_sorted.map Entry.delta).nodup_iff.mpr h
  exact hsorted.sublist ((List.take_sublist _ _).map _)

theorem pairwise_outranks_sorted (h : (t.entries.map Entry.delta).Nodup) :
    t.sorted.Pairwise (Outranks Entry.count t.entries) :=
  pairwise_outranks_mergeSort Entry.count h.of_map

/-- **A tally without repetition is ranked as expected.** -/
theorem ranks_rank (h : (t.entries.map Entry.delta).Nodup) : t.rank.Ranks t := by
  have hsize : t.rank.size = min Ranking.capacity t.size := by
    rw [Ranking.size, entries_rank, List.length_take, t.perm_sorted.length_eq, size]
  constructor
  case size_eq => exact hsize
  case kept =>
    intro e he
    exact mem_rank he
  case order => exact (pairwise_outranks_sorted h).sublist (List.take_sublist _ _)
  case left_out =>
    intro e he hout
    have hsplit := t.sorted.take_append_drop Ranking.capacity
    rw [← entries_rank] at hsplit
    have hcut : e ∈ t.sorted.drop Ranking.capacity := by
      have hmem := t.perm_sorted.mem_iff.mpr he
      rw [← hsplit, List.mem_append] at hmem
      exact hmem.resolve_left hout
    -- something is left out of a full ranking only
    have hfull : 0 < t.rank.size := by
      have hlong := List.length_pos_of_mem he
      rw [hsize, size, Ranking.capacity]
      omega
    have hlast : t.rank.size - 1 < t.rank.entries.length := Nat.sub_one_lt (by omega)
    have hpairwise := pairwise_outranks_sorted h
    rw [← hsplit, List.pairwise_append] at hpairwise
    exact ⟨_, List.getElem?_eq_getElem hlast,
      hpairwise.2.2 _ (List.getElem_mem hlast) e hcut⟩
  case index?_eq_some_iff =>
    intro delta index
    exact Ranking.index?_eq_some_iff (nodup_rank h)
  case lookup_eq_some_iff =>
    intro delta byte
    exact Ranking.getElem?_lookup_eq_some_iff (nodup_rank h) t.size_rank_le

/-! ## Pruning before ranking -/

theorem sorted_prune (h : (t.entries.map Entry.delta).Nodup) (ranges : List DeltaRange) :
    (t.prune ranges).sorted = t.sorted.filter fun e => within ranges e.delta :=
  mergeSort_filter h.of_map _

theorem index?_rank_eq_some_iff (h : (t.entries.map Entry.delta).Nodup) :
    t.rank.index? v = some i
      ↔ i < Ranking.capacity ∧ ∃ e, t.sorted[i]? = some e ∧ e.delta = v := by
  rw [Ranking.index?_eq_some_iff (nodup_rank h), Ranking.delta?, Option.map_eq_some_iff,
    Ranking.size, entries_rank]
  constructor
  · rintro ⟨hlt, e, he, hdelta⟩
    have hcapacity : i < Ranking.capacity := Nat.lt_of_lt_of_le hlt (List.length_take_le _ _)
    rw [List.getElem?_take_of_lt hcapacity] at he
    exact ⟨hcapacity, e, he, hdelta⟩
  · rintro ⟨hcapacity, e, he, hdelta⟩
    rw [← List.getElem?_take_of_lt hcapacity] at he
    exact ⟨(List.getElem?_eq_some_iff.mp he).1, e, he, hdelta⟩

/-- **Pruning moves an index up by the deltas that are dropped before it.** -/
theorem index?_rank_prune (h : (t.entries.map Entry.delta).Nodup)
    (hi : t.rank.index? v = some i) (hv : within ranges v = true) :
    (t.prune ranges).rank.index? v
      = some ((t.sorted.take i).countP fun e => within ranges e.delta) := by
  obtain ⟨hcapacity, e, he, rfl⟩ := (index?_rank_eq_some_iff h).mp hi
  rw [index?_rank_eq_some_iff (nodup_prune h ranges), sorted_prune h]
  refine ⟨?_, e, getElem?_filter_countP he hv, rfl⟩
  calc (t.sorted.take i).countP _ ≤ (t.sorted.take i).length := List.countP_le_length
    _ ≤ i := List.length_take_le _ _
    _ < Ranking.capacity := hcapacity

/-- A delta that is named after pruning is within the ranges. -/
theorem within_of_index?_prune (hi : (t.prune ranges).rank.index? v = some i) :
    within ranges v = true := by
  obtain ⟨e, he, rfl⟩ := Ranking.exists_mem_of_delta? (Ranking.delta?_of_index? hi)
  exact (mem_prune.mp (mem_rank he)).2

theorem lt_of_index?_prune (h : (t.entries.map Entry.delta).Nodup) {i' j' : ℕ}
    (hi : t.rank.index? v = some i) (hj : t.rank.index? w = some j)
    (hi' : (t.prune ranges).rank.index? v = some i')
    (hj' : (t.prune ranges).rank.index? w = some j') (hij : i < j) : i' < j' := by
  have hv := within_of_index?_prune hi'
  rw [index?_rank_prune h hi hv, Option.some_inj] at hi'
  rw [index?_rank_prune h hj (within_of_index?_prune hj'), Option.some_inj] at hj'
  obtain ⟨-, e, he, rfl⟩ := (index?_rank_eq_some_iff h).mp hi
  rw [← hi', ← hj']
  exact countP_take_lt he hv hij

/-- **Pruning changes no order, and no index grows.** -/
theorem movesUp_prune (h : (t.entries.map Entry.delta).Nodup) (ranges : List DeltaRange) :
    t.rank.MovesUp (t.prune ranges).rank ((t.prune ranges).entries.map Entry.delta) := by
  constructor
  case lt_iff =>
    intro v w i j i' j' hi hj hi' hj'
    refine ⟨lt_of_index?_prune h hi hj hi' hj', ?_⟩
    intro hlt
    rcases Nat.lt_trichotomy i j with hij | rfl | hij
    · exact hij
    · -- one index names one delta, which has one index after pruning
      have hsame := (Ranking.delta?_of_index? hi).symm.trans (Ranking.delta?_of_index? hj)
      rw [Option.some_inj] at hsame
      rw [hsame, hj', Option.some_inj] at hi'
      omega
    · have hswap := lt_of_index?_prune h hj hi hj' hi' hij
      omega
  case le =>
    intro v hv i hi
    obtain ⟨e, he, rfl⟩ := List.mem_map.mp hv
    refine ⟨_, ?_, index?_rank_prune h hi (mem_prune.mp he).2⟩
    exact List.countP_le_length.trans (List.length_take_le _ _)

/-- **Every tally that is counted into and pruned in turn is ranked exactly**, and pruning it before
it is ranked only removes deltas: it changes no order, and no index grows. -/
theorem ranks_updateAll (updates : List Update) :
    (updateAll updates).rank.Ranks (updateAll updates)
      ∧ ∀ ranges : List DeltaRange,
        ((updateAll updates).prune ranges).entries.Sublist (updateAll updates).entries
          ∧ (updateAll updates).rank.MovesUp ((updateAll updates).prune ranges).rank
            (((updateAll updates).prune ranges).entries.map Entry.delta) := by
  have hnodup := nodup_updateAll updates
  exact ⟨ranks_rank hnodup, fun ranges => ⟨List.filter_sublist, movesUp_prune hnodup ranges⟩⟩

-- a delta that was dropped and is counted again comes after those it once preceded
example : (updateAll
      [.add [9], .add [4], .prune [⟨0, 7⟩], .add [9], .add [5], .add [5]]).rank.entries
    = [⟨[5], 2⟩, ⟨[4], 1⟩, ⟨[9], 1⟩] := by cbv

end Tally

end DeltaScript
