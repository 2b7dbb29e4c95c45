import DeltaScript.Proofs.Ranking

/-!
# What a tally counts

A tally is a multiset of deltas that remembers in which order they were first seen.

* `Tally.Counts` — a tally counts the deltas of a list: each of them has one entry, which tells how
  often it occurs.
* `Tally.Counts.perm` — **the order of what is counted matters for the order of the entries only.**
* `Tally.Counts.sum_counts`, `Tally.Counts.size_eq` — all occurrences, and the distinct deltas.
* `Tally.ofDeltas` — the tally of deltas that come one after the other.  It counts them, and its
  entries stand in the order of first occurrence (`Tally.pairwise_ofDeltas`,
  `Tally.entries_ofDeltas`).
* `Tally.updateAll` — a tally that is counted into and pruned in turn.  No delta has two entries in
  it (`Tally.nodup_updateAll`).
* `Tally.remaining` — the occurrences that are left after updates: **a tally is what comes of
  counting these** (`Tally.updateAll_eq_ofDeltas`), since pruning does no more than leave some out.
-/

namespace DeltaScript

attribute [ext] Entry

namespace Tally

/-! ## Counting -/

theorem nodup_add {t : Tally} (h : (t.entries.map Entry.delta).Nodup) (delta : Delta) :
    ((t.add delta).entries.map Entry.delta).Nodup := by
  rw [add, deltas_bump]
  split_ifs with hmem
  · simpa using h
  · exact h.append (List.nodup_singleton delta) (by simpa using hmem)

/-- A delta that has an entry is counted there, where no delta has two of them. -/
theorem bump_of_mem {delta : Delta} {entries : List Entry}
    (hnodup : (entries.map Entry.delta).Nodup) (hmem : delta ∈ entries.map Entry.delta) :
    bump delta entries
      = entries.map fun e => if e.delta = delta then { e with count := e.count + 1 } else e := by
  induction entries with
  | nil => cases hmem
  | cons e rest ih =>
      rw [List.map_cons, List.nodup_cons] at hnodup
      rw [bump, List.map_cons]
      split_ifs with heq
      · -- no entry behind it is that of the same delta
        have hrest : ∀ other ∈ rest, other.delta ≠ delta := by
          rintro other hother rfl
          exact hnodup.1 (heq ▸ List.mem_map_of_mem hother)
        congr 1
        conv_lhs => rw [← List.map_id rest]
        refine List.map_congr_left fun other hother => ?_
        rw [if_neg (hrest other hother), id]
      · rw [List.map_cons, List.mem_cons] at hmem
        rw [ih hnodup.2 (hmem.resolve_left (Ne.symm heq))]

theorem bump_of_notMem {delta : Delta} {entries : List Entry}
    (hmem : delta ∉ entries.map Entry.delta) : bump delta entries = entries ++ [⟨delta, 1⟩] := by
  induction entries with
  | nil => rfl
  | cons e rest ih =>
      rw [List.map_cons, List.mem_cons, not_or] at hmem
      rw [bump, if_neg (Ne.symm hmem.1), ih hmem.2, List.cons_append]

/-- Counting changes one entry in its place. -/
theorem bump_eq_modify {delta : Delta} {entries : List Entry} {place : ℕ}
    (hnodup : (entries.map Entry.delta).Nodup)
    (hplace : (entries.map Entry.delta)[place]? = some delta) :
    bump delta entries
      = entries.modify place fun e => { e with count := e.count + 1 } := by
  induction entries generalizing place with
  | nil => cases hplace
  | cons e rest ih =>
      rw [List.map_cons, List.nodup_cons] at hnodup
      rw [List.map_cons] at hplace
      cases place with
      | zero =>
          have heq : e.delta = delta := by simpa using hplace
          rw [bump, if_pos heq, List.modify_zero_cons]
      | succ place =>
          rw [List.getElem?_cons_succ] at hplace
          have hne : e.delta ≠ delta := by
            rintro rfl
            exact hnodup.1 (List.mem_of_getElem? hplace)
          rw [bump, if_neg hne, List.modify_succ_cons, ih hnodup.2 hplace]

/-- A tally counts the deltas of a list and nothing else. -/
structure Counts (t : Tally) (deltas : List Delta) : Prop where
  nodup : (t.entries.map Entry.delta).Nodup
  mem_iff : ∀ delta, delta ∈ t.entries.map Entry.delta ↔ delta ∈ deltas
  count_eq : ∀ e ∈ t.entries, e.count = deltas.count e.delta

theorem counts_empty : Tally.Counts {} [] :=
  ⟨by simp, by simp, by simp⟩

/-- One more occurrence raises the count of its delta, and of no other, where no delta has two
entries. -/
theorem count_of_mem_bump {delta : Delta} {entries : List Entry} {f : Delta → ℕ}
    (hnodup : (entries.map Entry.delta).Nodup) (hcount : ∀ e ∈ entries, e.count = f e.delta)
    (hnew : delta ∉ entries.map Entry.delta → f delta = 0) :
    ∀ e ∈ bump delta entries, e.count = f e.delta + if delta = e.delta then 1 else 0 := by
  induction entries with
  | nil =>
      intro e he
      simp only [bump, List.mem_singleton] at he
      subst he
      simp [hnew]
  | cons first rest ih =>
      rw [List.map_cons, List.nodup_cons] at hnodup
      rw [List.forall_mem_cons] at hcount
      rw [bump]
      split_ifs with heq
      · intro e he
        rcases List.mem_cons.mp he with rfl | he
        · simpa [heq] using hcount.1
        · have hne : delta ≠ e.delta := by
            intro h
            exact hnodup.1 (heq ▸ h ▸ List.mem_map_of_mem he)
          simp [hne, hcount.2 e he]
      · intro e he
        rcases List.mem_cons.mp he with rfl | he
        · simp [Ne.symm heq, hcount.1]
        · refine ih hnodup.2 hcount.2 ?_ e he
          intro hrest
          exact hnew (by simp [hrest, Ne.symm heq])

namespace Counts

variable {t t' : Tally} {deltas : List Delta}

/-- **One more delta is counted.** -/
theorem add (h : t.Counts deltas) (delta : Delta) : (t.add delta).Counts (deltas ++ [delta]) := by
  refine ⟨nodup_add h.nodup delta, ?_, ?_⟩
  · intro other
    rw [mem_deltas_add, h.mem_iff, List.mem_append, List.mem_singleton]
  · intro e he
    have hnew : delta ∉ t.entries.map Entry.delta → deltas.count delta = 0 := by
      rw [h.mem_iff]
      exact List.count_eq_zero_of_not_mem
    have hbump := count_of_mem_bump (f := (deltas.count ·)) h.nodup h.count_eq hnew e he
    rw [hbump, List.count_append, List.count_singleton]
    simp only [beq_iff_eq]

theorem of_perm {others : List Delta} (h : t.Counts deltas) (hperm : deltas.Perm others) :
    t.Counts others := by
  refine ⟨h.nodup, ?_, ?_⟩
  · intro delta
    rw [h.mem_iff, hperm.mem_iff]
  · intro e he
    rw [h.count_eq e he, hperm.count_eq]

/-- **What is looked up is the number of occurrences.** -/
theorem count (h : t.Counts deltas) (delta : Delta) : t.count delta = deltas.count delta := by
  rw [Tally.count]
  cases hfound : t.entries.find? (·.delta == delta) with
  | some e =>
      have hdelta : e.delta = delta := by simpa using List.find?_some hfound
      show e.count = deltas.count delta
      rw [h.count_eq e (List.mem_of_find?_eq_some hfound), hdelta]
  | none =>
      have hnone : delta ∉ t.entries.map Entry.delta := by simpa using hfound
      rw [h.mem_iff] at hnone
      exact (List.count_eq_zero_of_not_mem hnone).symm

/-- **Two tallies that count the same have the same entries**, in some order. -/
theorem perm (h : t.Counts deltas) (h' : t'.Counts deltas) : t.entries.Perm t'.entries := by
  rw [List.perm_ext_iff_of_nodup h.nodup.of_map h'.nodup.of_map]
  have hsub : ∀ {u u' : Tally}, u.Counts deltas → u'.Counts deltas →
      ∀ e ∈ u.entries, e ∈ u'.entries := by
    intro u u' hu hu' e he
    have hdelta : e.delta ∈ u'.entries.map Entry.delta :=
      (hu'.mem_iff _).mpr ((hu.mem_iff _).mp (List.mem_map_of_mem he))
    obtain ⟨e', he', heq⟩ := List.mem_map.mp hdelta
    have hcount : e'.count = e.count := by rw [hu'.count_eq e' he', hu.count_eq e he, heq]
    rwa [← Entry.ext heq hcount]
  intro e
  exact ⟨hsub h h' e, hsub h' h e⟩

theorem perm_dedup (h : t.Counts deltas) : (t.entries.map Entry.delta).Perm deltas.dedup := by
  rw [List.perm_ext_iff_of_nodup h.nodup deltas.nodup_dedup]
  intro delta
  rw [h.mem_iff, List.mem_dedup]

/-- **The counts sum up to the number of occurrences.** -/
theorem sum_counts (h : t.Counts deltas) : (t.entries.map Entry.count).sum = deltas.length := by
  have hmap : t.entries.map Entry.count = (t.entries.map Entry.delta).map deltas.count := by
    rw [List.map_map]
    exact List.map_congr_left h.count_eq
  rw [hmap, (h.perm_dedup.map _).sum_eq]
  have hinst : (List.instBEq : BEq Delta) = instBEqOfDecidableEq := lawful_beq_subsingleton ..
  rw [hinst]
  exact List.sum_map_count_dedup_eq_length deltas

/-- A tally has an entry for each distinct delta. -/
theorem size_eq (h : t.Counts deltas) : t.size = deltas.toFinset.card := by
  rw [List.card_toFinset, ← h.perm_dedup.length_eq, List.length_map, size]

end Counts

/-! ## Counting from the start -/

/-- The tally of deltas that come one after the other. -/
def ofDeltas (deltas : List Delta) : Tally :=
  deltas.foldl add {}

theorem ofDeltas_concat (deltas : List Delta) (delta : Delta) :
    ofDeltas (deltas ++ [delta]) = (ofDeltas deltas).add delta := by
  simp [ofDeltas]

theorem counts_ofDeltas (deltas : List Delta) : (ofDeltas deltas).Counts deltas := by
  induction deltas using List.reverseRecOn with
  | nil => exact counts_empty
  | append_singleton deltas delta ih =>
      rw [ofDeltas_concat]
      exact ih.add delta

/-- **The entries stand in the order in which their deltas first occur.** -/
theorem pairwise_ofDeltas (deltas : List Delta) :
    ((ofDeltas deltas).entries.map Entry.delta).Pairwise fun v w =>
      deltas.idxOf v < deltas.idxOf w := by
  induction deltas using List.reverseRecOn with
  | nil => exact List.Pairwise.nil
  | append_singleton deltas delta ih =>
      have hmem := (counts_ofDeltas deltas).mem_iff
      have hold : ∀ v ∈ (ofDeltas deltas).entries.map Entry.delta,
          (deltas ++ [delta]).idxOf v = deltas.idxOf v := by
        intro v hv
        exact List.idxOf_append_of_mem ((hmem v).mp hv)
      have hpairwise := ih.imp_of_mem fun {v w} hv hw hlt => by
        rwa [← hold v hv, ← hold w hw] at hlt
      rw [ofDeltas_concat, add, deltas_bump, List.pairwise_append]
      refine ⟨hpairwise, ?_, ?_⟩
      · split_ifs <;> simp
      · intro v hv w hw
        -- a delta that is counted for the first time comes behind all others
        split_ifs at hw with hseen
        · simp at hw
        · rw [List.mem_singleton.mp hw, hold v hv,
            List.idxOf_append_of_notMem (by rwa [hmem] at hseen)]
          have hlt := List.idxOf_lt_length_of_mem ((hmem v).mp hv)
          simpa using hlt

theorem deltas_ofDeltas (deltas : List Delta) :
    (ofDeltas deltas).entries.map Entry.delta = deltas.eraseDups := by
  induction deltas using List.reverseRecOn with
  | nil => rfl
  | append_singleton deltas delta ih =>
      have hmem := (counts_ofDeltas deltas).mem_iff delta
      rw [ofDeltas_concat, add, deltas_bump, ih, List.eraseDups_append]
      rw [ih] at hmem
      congr 1
      split_ifs with h
      · rw [hmem] at h
        simp [List.removeAll, h]
      · rw [hmem] at h
        simp [List.removeAll, h, List.eraseDups_cons]

/-- **The entries tell the distinct deltas in the order in which they first occur, and how often
they do.** -/
theorem entries_ofDeltas (deltas : List Delta) :
    (ofDeltas deltas).entries = deltas.eraseDups.map fun delta => ⟨delta, deltas.count delta⟩ := by
  rw [← deltas_ofDeltas, List.map_map]
  conv_lhs => rw [← List.map_id (ofDeltas deltas).entries]
  refine List.map_congr_left fun e he => ?_
  exact Entry.ext rfl ((counts_ofDeltas deltas).count_eq e he)

/-! ## Counting and pruning in turn -/

/-- What is done to a tally. -/
inductive Update where
  | add (delta : Delta)
  | prune (ranges : List DeltaRange)

def update (t : Tally) : Update → Tally
  | .add delta => t.add delta
  | .prune ranges => t.prune ranges

/-- An empty tally after updates, one after the other. -/
def updateAll (updates : List Update) : Tally :=
  updates.foldl update {}

theorem updateAll_concat (updates : List Update) (u : Update) :
    updateAll (updates ++ [u]) = (updateAll updates).update u := by
  simp [updateAll]

theorem nodup_prune {t : Tally} (h : (t.entries.map Entry.delta).Nodup)
    (ranges : List DeltaRange) : ((t.prune ranges).entries.map Entry.delta).Nodup :=
  h.sublist (List.filter_sublist.map _)

theorem nodup_update {t : Tally} (h : (t.entries.map Entry.delta).Nodup) :
    ∀ u : Update, ((t.update u).entries.map Entry.delta).Nodup
  | .add delta => nodup_add h delta
  | .prune ranges => nodup_prune h ranges

/-- **No delta ever has two entries.** -/
theorem nodup_updateAll (updates : List Update) :
    ((updateAll updates).entries.map Entry.delta).Nodup := by
  induction updates using List.reverseRecOn with
  | nil => exact List.nodup_nil
  | append_singleton updates u ih =>
      rw [updateAll_concat]
      exact nodup_update ih u

/-! ## What remains -/

/-- Counting and dropping commute: a delta that is to be dropped need not be counted. -/
theorem filter_bump (p : Delta → Bool) (delta : Delta) (entries : List Entry) :
    (bump delta entries).filter (fun e => p e.delta)
      = if p delta then bump delta (entries.filter fun e => p e.delta)
        else entries.filter fun e => p e.delta := by
  induction entries with
  | nil => cases hp : p delta <;> simp [bump, hp]
  | cons e rest ih =>
      by_cases heq : e.delta = delta
      · subst heq
        cases hp : p e.delta <;> simp [bump, hp]
      · rw [bump, if_neg heq, List.filter_cons, List.filter_cons, ih]
        cases he : p e.delta <;> cases hp : p delta <;> simp [bump, heq]

/-- **Pruning leaves out occurrences**: it does not matter whether they are counted first. -/
theorem prune_ofDeltas (deltas : List Delta) (ranges : List DeltaRange) :
    (ofDeltas deltas).prune ranges = ofDeltas (deltas.filter (within ranges)) := by
  induction deltas using List.reverseRecOn with
  | nil => rfl
  | append_singleton deltas delta ih =>
      rw [ofDeltas_concat, prune, add, filter_bump (within ranges), List.filter_append]
      rw [prune] at ih
      cases hwithin : within ranges delta with
      | true =>
          rw [if_pos rfl, List.filter_cons_of_pos hwithin, List.filter_nil, ofDeltas_concat, ← ih]
          rfl
      | false =>
          rw [if_neg Bool.false_ne_true, List.filter_cons_of_neg (by simp [hwithin]), List.filter_nil,
            List.append_nil, ih]

/-- The occurrences that one more update leaves: what is counted comes last, and pruning leaves out
what is not within the ranges. -/
def remain (deltas : List Delta) : Update → List Delta
  | .add delta => deltas ++ [delta]
  | .prune ranges => deltas.filter (within ranges)

/-- The occurrences that are left after updates. -/
def remaining (updates : List Update) : List Delta :=
  updates.foldl remain []

theorem remaining_concat (updates : List Update) (u : Update) :
    remaining (updates ++ [u]) = remain (remaining updates) u := by
  simp [remaining]

/-- **Counting and pruning in turn is counting what remains.** -/
theorem updateAll_eq_ofDeltas (updates : List Update) :
    updateAll updates = ofDeltas (remaining updates) := by
  induction updates using List.reverseRecOn with
  | nil => rfl
  | append_singleton updates u ih =>
      rw [updateAll_concat, remaining_concat, ih]
      cases u with
      | add delta => exact (ofDeltas_concat _ delta).symm
      | prune ranges => exact prune_ofDeltas _ ranges

/-- What was dropped remains dropped until it is counted again. -/
theorem notMem_remaining {updates later : List Update} {ranges : List DeltaRange} {delta : Delta}
    (hdropped : within ranges delta = false) (hlater : .add delta ∉ later) :
    delta ∉ remaining (updates ++ .prune ranges :: later) := by
  induction later using List.reverseRecOn with
  | nil =>
      rw [remaining_concat, remain, List.mem_filter, hdropped]
      simp
  | append_singleton later u ih =>
      rw [List.mem_append, not_or, List.mem_singleton] at hlater
      have hbefore := ih hlater.1
      rw [← List.cons_append, ← List.append_assoc, remaining_concat]
      cases u with
      | add other =>
          have hne : delta ≠ other := fun h => hlater.2 (h ▸ rfl)
          simp [remain, hbefore, hne]
      | prune ranges' => simp [remain, hbefore]

theorem counts_updateAll (updates : List Update) : (updateAll updates).Counts (remaining updates) :=
  updateAll_eq_ofDeltas updates ▸ counts_ofDeltas (remaining updates)

end Tally

end DeltaScript
