import Mathlib

/-!
# Sorted and filtered lists

Deltas are ranked by their counts and scripts are placed by their sizes, in both cases the greatest
first, and those that are equally great in the order in which they came.

* `Outranks` — one element of a list goes before another one, for its size or, between equals, for
  its place in the list.
* `pairwise_outranks_mergeSort` — **sorting puts the elements in that order**, since it is stable.
* `mergeSort_filter` — hence what is kept of a list is sorted like the whole list: no two elements
  depend on a third.
* `getElem?_filter_countP` — what is kept of a list moves up by what is dropped before it.
-/

namespace DeltaScript

/-! ## Descending sizes -/

section Descending

variable {α : Type} (size : α → ℕ)

theorem size_trans (a b c : α) : decide (size b ≤ size a) → decide (size c ≤ size b) →
    decide (size c ≤ size a) := by
  simp only [decide_eq_true_eq]
  omega

theorem size_total (a b : α) : decide (size b ≤ size a) || decide (size a ≤ size b) := by
  simp only [Bool.or_eq_true, decide_eq_true_eq]
  omega

theorem pairwise_mergeSort_size (xs : List α) :
    (xs.mergeSort fun a b => size b ≤ size a).Pairwise fun a b => size b ≤ size a :=
  (List.pairwise_mergeSort (size_trans size) (size_total size) xs).imp of_decide_eq_true

end Descending

section Sorted

variable {α : Type} [DecidableEq α] {size : α → ℕ} {a b : α} {xs ys : List α}

/-! ## Places in a list -/

/-- In a list without repetition, what stands before has the lower place. -/
theorem idxOf_lt_of_sublist (hnodup : xs.Nodup) (h : [a, b].Sublist xs) :
    xs.idxOf a < xs.idxOf b := by
  have hplaces : xs.Pairwise fun a b => xs.idxOf a < xs.idxOf b := by
    rw [List.pairwise_iff_getElem]
    intro i j hi hj hij
    rwa [hnodup.idxOf_getElem, hnodup.idxOf_getElem]
  simpa using hplaces.sublist h

theorem sublist_of_idxOf_lt (hb : b ∈ xs) (h : xs.idxOf a < xs.idxOf b) : [a, b].Sublist xs := by
  have ha : a ∈ xs := List.idxOf_lt_length_iff.mp (h.trans (List.idxOf_lt_length_of_mem hb))
  have hfront : [a].Sublist (xs.take (xs.idxOf b)) :=
    List.singleton_sublist.mpr ((List.mem_take_iff_idxOf_lt ha).mpr h)
  have hback : [b].Sublist (xs.drop (xs.idxOf b)) := by
    rw [List.drop_eq_getElem_cons (List.idxOf_lt_length_of_mem hb), List.getElem_idxOf]
    simp
  have hpair := hfront.append hback
  rwa [List.take_append_drop] at hpair

/-! ## The order of sorting -/

/-- An element goes before another one: it is greater, or as great and stands before it. -/
def Outranks (size : α → ℕ) (xs : List α) (a b : α) : Prop :=
  size b < size a ∨ (size b = size a ∧ xs.idxOf a < xs.idxOf b)

theorem Outranks.asymm (h : Outranks size xs a b) : ¬ Outranks size xs b a := by
  unfold Outranks at *
  omega

/-- What outranks in a list outranks in every part of it. -/
theorem Outranks.of_sublist (hnodup : xs.Nodup) (hsub : ys.Sublist xs) (ha : a ∈ ys)
    (h : Outranks size xs a b) : Outranks size ys a b := by
  refine h.imp_right fun ⟨heq, hlt⟩ => ⟨heq, ?_⟩
  rcases Nat.lt_trichotomy (ys.idxOf a) (ys.idxOf b) with hplace | hplace | hplace
  · exact hplace
  · rw [List.idxOf_inj ha] at hplace
    rw [hplace] at hlt
    exact absurd hlt (Nat.lt_irrefl _)
  · have hswap := idxOf_lt_of_sublist hnodup ((sublist_of_idxOf_lt ha hplace).trans hsub)
    omega

variable (size) in
/-- **Sorting is stable**: the greatest come first, and what is equally great keeps its order. -/
theorem pairwise_outranks_mergeSort (hnodup : xs.Nodup) :
    (xs.mergeSort fun a b => size b ≤ size a).Pairwise (Outranks size xs) := by
  have hperm : (xs.mergeSort fun a b => size b ≤ size a).Perm xs := List.mergeSort_perm ..
  have hnodup' := hperm.nodup_iff.mpr hnodup
  have hsorted := pairwise_mergeSort_size size xs
  rw [List.pairwise_iff_forall_sublist] at hsorted ⊢
  intro a b h
  rcases Nat.lt_or_eq_of_le (hsorted h) with hlt | heq
  · exact Or.inl hlt
  refine Or.inr ⟨heq, ?_⟩
  have ha : a ∈ xs := hperm.mem_iff.mp (h.subset (by simp))
  have hplace := idxOf_lt_of_sublist hnodup' h
  rcases Nat.lt_trichotomy (xs.idxOf a) (xs.idxOf b) with hlt | hsame | hgt
  · exact hlt
  · rw [List.idxOf_inj ha] at hsame
    rw [hsame] at hplace
    exact absurd hplace (Nat.lt_irrefl _)
  · -- equals that came in the other order would still be in that order
    have hswap := List.pair_sublist_mergeSort (size_trans size) (size_total size) (by simp [heq])
      (sublist_of_idxOf_lt ha hgt)
    exact absurd (idxOf_lt_of_sublist hnodup' hswap) (Nat.lt_asymm hplace)

/-- **What is kept of a list is sorted like the whole list.** -/
theorem mergeSort_filter (hnodup : xs.Nodup) (p : α → Bool) :
    (xs.filter p).mergeSort (fun a b => size b ≤ size a)
      = (xs.mergeSort fun a b => size b ≤ size a).filter p := by
  have hperm : (xs.mergeSort fun a b => size b ≤ size a).Perm xs := List.mergeSort_perm ..
  have hkept : ((xs.mergeSort fun a b => size b ≤ size a).filter p).Pairwise
      (Outranks size (xs.filter p)) := by
    refine ((pairwise_outranks_mergeSort size hnodup).filter p).imp_of_mem ?_
    intro a b ha _ h
    exact h.of_sublist hnodup List.filter_sublist ((hperm.filter p).mem_iff.mp ha)
  refine List.Perm.eq_of_pairwise ?_ (pairwise_outranks_mergeSort size (hnodup.filter p)) hkept
    ((List.mergeSort_perm ..).trans (hperm.filter p).symm)
  intro a b _ _ hab hba
  exact absurd hba hab.asymm

end Sorted

/-! ## Numbering what is kept of a list -/

section Kept

variable {α : Type} {p : α → Bool} {xs : List α}

/-- What is kept of a list is numbered by counting what is kept before it. -/
theorem getElem?_filter_countP {i : ℕ} {x : α} (hx : xs[i]? = some x) (hp : p x = true) :
    (xs.filter p)[(xs.take i).countP p]? = some x := by
  obtain ⟨hi, rfl⟩ := List.getElem?_eq_some_iff.mp hx
  have hsplit : xs.filter p = (xs.take i).filter p ++ xs[i] :: (xs.drop (i + 1)).filter p := by
    conv_lhs => rw [← List.take_append_drop i xs, List.drop_eq_getElem_cons hi]
    rw [List.filter_append, List.filter_cons_of_pos hp]
  rw [hsplit, List.countP_eq_length_filter, List.getElem?_append_right le_rfl, Nat.sub_self]
  rfl

theorem countP_take_lt {i j : ℕ} {x : α} (hx : xs[i]? = some x) (hp : p x = true) (hij : i < j) :
    (xs.take i).countP p < (xs.take j).countP p := by
  obtain ⟨hi, rfl⟩ := List.getElem?_eq_some_iff.mp hx
  have hsub : (xs.take (i + 1)).Sublist (xs.take j) := (List.take_prefix_take_left hij).sublist
  have hle := hsub.countP_le (p := p)
  rw [List.take_add_one, hx, List.countP_append] at hle
  have hone : [xs[i]].countP p = 1 := by simp [hp]
  simp only [Option.toList_some, hone] at hle
  omega

theorem exists_countP_take {k : ℕ} (hk : k < (xs.filter p).length) :
    ∃ i x, xs[i]? = some x ∧ p x = true ∧ (xs.take i).countP p = k := by
  induction xs generalizing k with
  | nil => cases hk
  | cons x xs ih =>
      by_cases hp : p x = true
      · rw [List.filter_cons_of_pos hp] at hk
        cases k with
        | zero => exact ⟨0, x, rfl, hp, rfl⟩
        | succ k =>
            obtain ⟨i, y, hy, hpy, hcount⟩ := ih (Nat.lt_of_succ_lt_succ hk)
            refine ⟨i + 1, y, hy, hpy, ?_⟩
            rw [List.take_succ_cons, List.countP_cons_of_pos hp, hcount]
      · rw [List.filter_cons_of_neg hp] at hk
        obtain ⟨i, y, hy, hpy, hcount⟩ := ih hk
        refine ⟨i + 1, y, hy, hpy, ?_⟩
        rw [List.take_succ_cons, List.countP_cons_of_neg hp, hcount]

end Kept

end DeltaScript
