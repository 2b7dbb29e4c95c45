import Mathlib
import DeltaScript.Ranking
import DeltaScript.Proofs.Sorting

/-!
# Tallied and ranked deltas

What a tally counts, what pruning leaves of it, and which of its deltas a ranking names.

* `Tally.deltas_bump` — counting a delta adds it at the end, if it was not there.
* `Tally.within_iff` — a delta is within ranges if each of its components is.
* `Tally.mem_rank` — a ranking holds entries of its tally only.
* `Ranking.delta?_of_index?` — **the index of a delta names that delta.**
* `Ranking.index?_lt_capacity` — an index of a ranked tally fits an instruction.
-/

namespace DeltaScript

namespace Tally

/-- Counting a delta adds it at the end, if it was not there. -/
theorem deltas_bump (delta : Delta) (entries : List Entry) :
    (bump delta entries).map Entry.delta = entries.map Entry.delta
      ++ if delta ∈ entries.map Entry.delta then [] else [delta] := by
  induction entries with
  | nil => simp [bump]
  | cons e rest ih =>
      rw [bump]
      split_ifs with heq hmem hmem
      · simp
      · exact absurd (by simp [heq]) hmem
      · rw [List.map_cons, ih]
        have hrest : delta ∈ rest.map Entry.delta := by
          rw [List.map_cons, List.mem_cons] at hmem
          exact hmem.resolve_left (Ne.symm heq)
        simp [hrest]
      · rw [List.map_cons, ih]
        have hrest : delta ∉ rest.map Entry.delta := fun h => hmem (List.mem_cons_of_mem _ h)
        simp [hrest]

/-- The deltas of a tally with one more occurrence are those it had, and the one counted. -/
theorem mem_deltas_add {t : Tally} {delta other : Delta} :
    other ∈ (t.add delta).entries.map Entry.delta
      ↔ other ∈ t.entries.map Entry.delta ∨ other = delta := by
  rw [add, deltas_bump, List.mem_append]
  split_ifs with h
  · simp only [List.not_mem_nil, or_false]
    exact ⟨Or.inl, fun hother => hother.elim id fun heq => heq ▸ h⟩
  · rw [List.mem_singleton]

/-- A delta is within ranges if each component that has a range lies in it. -/
theorem within_iff {ranges : List DeltaRange} {delta : Delta} :
    within ranges delta ↔ ∀ (a : ℕ) (d : ℤ) (range : DeltaRange), delta[a]? = some d →
      ranges[a]? = some range → range.low ≤ d ∧ d ≤ range.high := by
  simp only [within, List.all_eq_true, DeltaRange.contains, Bool.and_eq_true, decide_eq_true_eq,
    Prod.forall]
  constructor
  · intro h a d range hd hrange
    refine h d range (List.mem_of_getElem? (i := a) ?_)
    exact List.getElem?_zip_eq_some.mpr ⟨hd, hrange⟩
  · intro h d range hmem
    obtain ⟨a, ha⟩ := List.mem_iff_getElem?.mp hmem
    obtain ⟨hd, hrange⟩ := List.getElem?_zip_eq_some.mp ha
    exact h a d range hd hrange

theorem mem_prune {t : Tally} {ranges : List DeltaRange} {e : Entry} :
    e ∈ (t.prune ranges).entries ↔ e ∈ t.entries ∧ within ranges e.delta := by
  rw [prune, List.mem_filter]

theorem mem_rank {t : Tally} {e : Entry} (h : e ∈ t.rank.entries) : e ∈ t.entries :=
  List.mem_mergeSort.mp (List.mem_of_mem_take h)

/-- The entries of a tally, the greatest counts first. -/
def sorted (t : Tally) : List Entry :=
  t.entries.mergeSort fun a b => b.count ≤ a.count

theorem entries_rank (t : Tally) : t.rank.entries = t.sorted.take Ranking.capacity := rfl

theorem perm_sorted (t : Tally) : t.sorted.Perm t.entries :=
  List.mergeSort_perm ..

theorem pairwise_sorted (t : Tally) : t.sorted.Pairwise fun a b => b.count ≤ a.count :=
  pairwise_mergeSort_size Entry.count t.entries

theorem size_rank_le (t : Tally) : t.rank.size ≤ Ranking.capacity :=
  List.length_take_le _ _

end Tally

namespace Ranking

variable {r : Ranking} {delta : Delta} {index : ℕ}

/-- **The index of a delta names that delta.** -/
theorem delta?_of_index? (h : r.index? delta = some index) : r.delta? index = some delta := by
  obtain ⟨hlt, heq, -⟩ := List.findIdx?_eq_some_iff_getElem.mp h
  rw [delta?, List.getElem?_eq_getElem hlt, Option.map_some, eq_of_beq heq]

theorem index?_lt_size (h : r.index? delta = some index) : index < r.size :=
  (List.findIdx?_eq_some_iff_getElem.mp h).1

theorem exists_mem_of_delta? (h : r.delta? index = some delta) :
    ∃ e ∈ r.entries, e.delta = delta := by
  obtain ⟨e, he, rfl⟩ := Option.map_eq_some_iff.mp h
  exact ⟨e, List.mem_of_getElem? he, rfl⟩

theorem index?_lt_capacity {t : Tally} (h : t.rank.index? delta = some index) :
    index < capacity :=
  Nat.lt_of_lt_of_le (index?_lt_size h) t.size_rank_le

end Ranking

end DeltaScript
