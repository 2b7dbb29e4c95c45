import Mathlib
import DeltaScript.Image.Basic

/-!
# Chunks are runs of injections

The list of chunks is kept by looking at the two ends of the data alone.  What comes of it is said
of the injections themselves: each chunk is made of injections that follow one another without a
gap, and between two chunks there always is a gap.

* `Injection` — labelled data with its address; `Injection.Apart`: two of them share no address.
* `Spans` — injections that follow one another from a first address on.
* `Chunk.absorb_cases` — **all that `Chunk.absorb` can do**, up to the order of the chunks.
* `Chunk.IsPartition` — the chunks, each with the injections that it is made of.
* `Chunk.IsPartition.absorb` — one more injection leaves it at that.
-/

namespace DeltaScript

/-! ## Injections -/

/-- Labelled data, and the address that it is to be injected at. -/
structure Injection where
  label : String
  address : UInt16
  data : List UInt8
  deriving DecidableEq, Repr

namespace Injection

/-- One past the last address of the data. -/
def stop (i : Injection) : ℕ :=
  i.address.toNat + i.data.length

/-- An address lies within the data. -/
def Covers (i : Injection) (address : ℕ) : Prop :=
  i.address.toNat ≤ address ∧ address < i.stop

instance (i : Injection) (address : ℕ) : Decidable (i.Covers address) :=
  inferInstanceAs (Decidable (_ ∧ _))

/-- Two injections share no address. -/
def Apart (i j : Injection) : Prop :=
  ∀ address, i.Covers address → ¬ j.Covers address

theorem Apart.symm {i j : Injection} (h : i.Apart j) : j.Apart i := by
  intro address hj hi
  exact h address hi hj

theorem apart_of_beside {i j : Injection}
    (h : i.stop ≤ j.address.toNat ∨ j.stop ≤ i.address.toNat) : i.Apart j := by
  rintro address ⟨hlow, hhigh⟩ ⟨hlow', hhigh'⟩
  omega

theorem address_lt_stop {i : Injection} (h : i.data ≠ []) : i.address.toNat < i.stop := by
  have := List.length_pos_iff.mpr h
  simp only [stop]
  omega

end Injection

/-- Injections that follow one another without a gap, from a first address up to one past the
last. -/
inductive Spans : ℕ → List Injection → ℕ → Prop
  /-- Nothing is left. -/
  | nil {stop : ℕ} : Spans stop [] stop
  /-- The first injection, and what follows where it stops. -/
  | cons {i : Injection} {rest : List Injection} {stop : ℕ} : i.data ≠ [] →
      Spans i.stop rest stop → Spans i.address.toNat (i :: rest) stop

namespace Spans

variable {first middle stop : ℕ} {run rest : List Injection}

theorem singleton {i : Injection} (h : i.data ≠ []) : Spans i.address.toNat [i] i.stop :=
  .cons h .nil

theorem append (h : Spans first run middle) (hrest : Spans middle rest stop) :
    Spans first (run ++ rest) stop := by
  induction h with
  | nil => exact hrest
  | cons hdata _ ih => exact .cons hdata (ih hrest)

theorem le (h : Spans first run stop) : first ≤ stop := by
  induction h with
  | nil => exact le_rfl
  | cons hdata _ ih => exact (Injection.address_lt_stop hdata).le.trans ih

theorem lt (h : Spans first run stop) (hne : run ≠ []) : first < stop := by
  cases h with
  | nil => exact absurd rfl hne
  | cons hdata hrest => exact (Injection.address_lt_stop hdata).trans_le hrest.le

/-- **A run covers all addresses from its first to its last.** -/
theorem exists_covers_iff (h : Spans first run stop) {address : ℕ} :
    (∃ i ∈ run, i.Covers address) ↔ first ≤ address ∧ address < stop := by
  induction h with
  | nil => simp
  | @cons i rest stop hdata hrest ih =>
      have hlt := Injection.address_lt_stop hdata
      have hle := hrest.le
      rw [List.exists_mem_cons_iff, ih, Injection.Covers]
      omega

theorem within (h : Spans first run stop) {i : Injection} (hi : i ∈ run) :
    first ≤ i.address.toNat ∧ i.address.toNat < i.stop ∧ i.stop ≤ stop := by
  induction h with
  | nil => simp at hi
  | @cons j rest stop hdata hrest ih =>
      have hlt := Injection.address_lt_stop hdata
      rcases List.mem_cons.mp hi with rfl | hi
      · exact ⟨le_rfl, hlt, hrest.le⟩
      · obtain ⟨hfirst, hi, hstop⟩ := ih hi
        exact ⟨by omega, hi, hstop⟩

/-- The injections of a run stand in the order of their addresses. -/
theorem pairwise (h : Spans first run stop) :
    run.Pairwise fun i j => i.address.toNat < j.address.toNat := by
  induction h with
  | nil => exact List.Pairwise.nil
  | @cons i rest stop hdata hrest ih =>
      refine List.Pairwise.cons ?_ ih
      intro j hj
      exact (Injection.address_lt_stop hdata).trans_le (hrest.within hj).1

end Spans

/-- Consecutive addresses that are used, between two that are not. -/
structure IsMaximalRun (used : ℕ → Prop) (first last : ℕ) : Prop where
  first_le_last : first ≤ last
  all_used : ∀ address, first ≤ address → address ≤ last → used address
  free_before : ∀ address, address + 1 = first → ¬ used address
  free_behind : ¬ used (last + 1)

/-! ## Chunks -/

namespace Chunk

variable {chunks rest : List Chunk} {label : String} {first last : ℕ}

/-- There is a free address between two chunks. -/
def Separate (c d : Chunk) : Prop :=
  c.last + 1 < d.first ∨ d.last + 1 < c.first

theorem Separate.symm {c d : Chunk} (h : c.Separate d) : d.Separate c :=
  Or.symm h

instance : Std.Symm Separate := ⟨fun _ _ => Separate.symm⟩

section Lists

variable {α : Type} {xs : List α} {x : α}

/-- To modify an element is to put another in its place. -/
theorem perm_modify {n : ℕ} (h : xs[n]? = some x) (f : α → α) :
    ∃ rest, xs.Perm (x :: rest) ∧ (xs.modify n f).Perm (f x :: rest) := by
  induction xs generalizing n with
  | nil => simp at h
  | cons y ys ih =>
      cases n with
      | zero =>
          obtain rfl := Option.some.inj h
          exact ⟨ys, .refl _, .refl _⟩
      | succ n =>
          obtain ⟨rest, hys, hmodify⟩ := ih h
          exact ⟨y :: rest, (hys.cons y).trans (.swap ..), (hmodify.cons y).trans (.swap ..)⟩

theorem exists_perm_cons (h : x ∈ xs) : ∃ rest, xs.Perm (x :: rest) := by
  obtain ⟨before, after, rfl⟩ := List.append_of_mem h
  exact ⟨before ++ after, List.perm_middle⟩

end Lists

theorem endingAt?_eq_some {n : ℕ} (h : endingAt? chunks first = some n) :
    ∃ c, chunks[n]? = some c ∧ c.last + 1 = first := by
  obtain ⟨hn, hlast, -⟩ := List.findIdx?_eq_some_iff_getElem.mp h
  exact ⟨chunks[n], List.getElem?_eq_getElem hn, by simpa using hlast⟩

theorem endingAt?_eq_none (h : endingAt? chunks first = none) :
    ∀ c ∈ chunks, c.last + 1 ≠ first := by
  simpa [endingAt?] using h

theorem startingAfter?_eq_some {n : ℕ} (h : startingAfter? chunks last = some n) :
    ∃ c, chunks[n]? = some c ∧ c.first = last + 1 := by
  obtain ⟨hn, hfirst, -⟩ := List.findIdx?_eq_some_iff_getElem.mp h
  exact ⟨chunks[n], List.getElem?_eq_getElem hn, by simpa using hfirst⟩

theorem startingAfter?_eq_none (h : startingAfter? chunks last = none) :
    ∀ c ∈ chunks, c.first ≠ last + 1 := by
  simpa [startingAfter?] using h

/-- What becomes of chunks when data is injected at free addresses. -/
inductive Absorbs (chunks : List Chunk) (label : String) (first last : ℕ) (result : List Chunk) :
    Prop
  /-- The data closes the gap between two chunks. -/
  | join (below above : Chunk) (rest : List Chunk) :
      chunks.Perm (below :: above :: rest) → below.last + 1 = first → above.first = last + 1 →
      result.Perm (below.join label above :: rest) → Absorbs chunks label first last result
  /-- The data follows a chunk. -/
  | extend (below : Chunk) (rest : List Chunk) :
      chunks.Perm (below :: rest) → below.last + 1 = first →
      (∀ c ∈ chunks, c.first ≠ last + 1) →
      result.Perm (below.extend label last :: rest) → Absorbs chunks label first last result
  /-- A chunk follows the data. -/
  | extendDown (above : Chunk) (rest : List Chunk) :
      chunks.Perm (above :: rest) → above.first = last + 1 → (∀ c ∈ chunks, c.last + 1 ≠ first) →
      result.Perm (above.extendDown label first :: rest) → Absorbs chunks label first last result
  /-- The data touches no chunk. -/
  | fresh : (∀ c ∈ chunks, c.last + 1 ≠ first) → (∀ c ∈ chunks, c.first ≠ last + 1) →
      result.Perm (⟨first, last, [label]⟩ :: chunks) → Absorbs chunks label first last result

/-- **All that absorbing data can do.** -/
theorem absorb_cases (hchunks : ∀ c ∈ chunks, c.first ≤ c.last) (hle : first ≤ last)
    (label : String) : Absorbs chunks label first last (absorb chunks label first last) := by
  rw [absorb]
  cases hbelow : endingAt? chunks first with
  | none =>
      have hnone := endingAt?_eq_none hbelow
      cases habove : startingAfter? chunks last with
      | none =>
          exact .fresh hnone (startingAfter?_eq_none habove) (List.perm_append_singleton ..)
      | some n =>
          obtain ⟨above, hn, hfirst⟩ := startingAfter?_eq_some habove
          obtain ⟨rest, hperm, hresult⟩ := perm_modify hn (·.extendDown label first)
          exact .extendDown above rest hperm hfirst hnone hresult
  | some k =>
      obtain ⟨below, hk, hlast⟩ := endingAt?_eq_some hbelow
      cases habove : startingAfter? chunks last with
      | none =>
          obtain ⟨rest, hperm, hresult⟩ := perm_modify hk (·.extend label last)
          exact .extend below rest hperm hlast (startingAfter?_eq_none habove) hresult
      | some n =>
          obtain ⟨above, hn, hfirst⟩ := startingAfter?_eq_some habove
          obtain ⟨others, hperm, hmodify⟩ := perm_modify hk (·.join label above)
          -- the two chunks differ, since the data lies between them
          have hle' := hchunks below (List.mem_of_getElem? hk)
          have hne : above ≠ below := by
            rintro rfl
            omega
          have hkn : k ≠ n := by
            rintro rfl
            exact hne (Option.some.inj (hn.symm.trans hk))
          have hmem : above ∈ others :=
            (List.mem_cons.mp (hperm.mem_iff.mp (List.mem_of_getElem? hn))).resolve_left hne
          obtain ⟨rest, hothers⟩ := exists_perm_cons hmem
          refine .join below above rest (hperm.trans (hothers.cons below)) hlast hfirst ?_
          simp only [hn]
          have hkept : (chunks.modify k (·.join label above))[n]? = some above := by
            rw [List.getElem?_modify_ne _ _ hkn, hn]
          obtain ⟨hlt, habove⟩ := List.getElem?_eq_some_iff.mp hkept
          have herase := List.getElem_cons_eraseIdx_perm hlt
          rw [habove] at herase
          have hresult := herase.trans (hmodify.trans (hothers.cons (below.join label above)))
          exact (hresult.trans (.swap ..)).cons_inv

/-- Data lies within a chunk. -/
def encloses (c : Chunk) (i : Injection) : Bool :=
  c.first ≤ i.address.toNat ∧ i.stop ≤ c.last + 1

/-- A chunk is made of injections that follow one another. -/
structure MadeOf (c : Chunk) (run : List Injection) : Prop where
  ne_nil : run ≠ []
  spans : Spans c.first run (c.last + 1)
  labels_eq : c.labels = run.map Injection.label

theorem MadeOf.first_le_last {c : Chunk} {run : List Injection} (h : c.MadeOf run) :
    c.first ≤ c.last :=
  Nat.le_of_lt_succ (h.spans.lt h.ne_nil)

namespace MadeOf

variable {c d : Chunk} {run run' : List Injection} {i : Injection}

theorem singleton (hdata : i.data ≠ []) (hstop : last + 1 = i.stop) :
    (⟨i.address.toNat, last, [i.label]⟩ : Chunk).MadeOf [i] :=
  ⟨by simp, hstop ▸ Spans.singleton hdata, rfl⟩

theorem extend (h : c.MadeOf run) (hdata : i.data ≠ []) (hlast : c.last + 1 = i.address.toNat)
    (hstop : last + 1 = i.stop) : (c.extend i.label last).MadeOf (run ++ [i]) := by
  obtain ⟨-, hspans, hlabels⟩ := h
  rw [hlast] at hspans
  refine ⟨by simp, ?_, by simp [Chunk.extend, hlabels]⟩
  simpa [Chunk.extend, hstop] using hspans.append (Spans.singleton hdata)

theorem extendDown (h : c.MadeOf run) (hdata : i.data ≠ []) (hfirst : c.first = i.stop) :
    (c.extendDown i.label i.address.toNat).MadeOf (i :: run) := by
  obtain ⟨-, hspans, hlabels⟩ := h
  rw [hfirst] at hspans
  exact ⟨by simp, .cons hdata hspans, by simp [Chunk.extendDown, hlabels]⟩

theorem join (h : c.MadeOf run) (h' : d.MadeOf run') (hdata : i.data ≠ [])
    (hlast : c.last + 1 = i.address.toNat) (hfirst : d.first = i.stop) :
    (c.join i.label d).MadeOf (run ++ i :: run') := by
  obtain ⟨-, hspans, hlabels⟩ := h
  obtain ⟨-, hspans', hlabels'⟩ := h'
  rw [hlast] at hspans
  rw [hfirst] at hspans'
  exact ⟨by simp, hspans.append (.cons hdata hspans'), by simp [Chunk.join, hlabels, hlabels']⟩

end MadeOf

/-- Where injections share no address, a chunk lies on one side of data that it does not hold. -/
theorem MadeOf.beside {c : Chunk} {run : List Injection} (h : c.MadeOf run) {i : Injection}
    (hdata : i.data ≠ []) (hapart : ∀ j ∈ run, i.Apart j) :
    c.last < i.address.toNat ∨ i.stop ≤ c.first := by
  by_contra hmeet
  have hle := h.first_le_last
  have hlt := Injection.address_lt_stop hdata
  obtain ⟨j, hj, hcovers⟩ : ∃ j ∈ run, j.Covers (max c.first i.address.toNat) := by
    rw [h.spans.exists_covers_iff]
    omega
  refine hapart j hj _ ?_ hcovers
  rw [Injection.Covers]
  omega

/-- Chunks, each with the injections that it is made of. -/
structure IsPartition (chunks : List Chunk) (injections : List Injection)
    (parts : List (Chunk × List Injection)) : Prop where
  made : ∀ part ∈ parts, part.1.MadeOf part.2
  separate : (parts.map Prod.fst).Pairwise Separate
  chunks_perm : chunks.Perm (parts.map Prod.fst)
  injections_perm : injections.Perm (parts.flatMap Prod.snd)

namespace IsPartition

variable {injections : List Injection} {parts others : List (Chunk × List Injection)}

theorem nil : IsPartition [] [] [] :=
  ⟨by simp, .nil, .nil, .nil⟩

theorem of_perm (h : IsPartition chunks injections parts) (hperm : parts.Perm others) :
    IsPartition chunks injections others := by
  refine ⟨?_, ?_, h.chunks_perm.trans (hperm.map _),
    h.injections_perm.trans (hperm.flatMap_right _)⟩
  · intro part hpart
    exact h.made part (hperm.mem_iff.mpr hpart)
  · exact ((hperm.map Prod.fst).pairwise_iff fun hcd => hcd.symm).mp h.separate

theorem mem_injections (h : IsPartition chunks injections parts) {part : Chunk × List Injection}
    (hpart : part ∈ parts) {i : Injection} (hi : i ∈ part.2) : i ∈ injections :=
  h.injections_perm.mem_iff.mpr (List.mem_flatMap.mpr ⟨part, hpart, hi⟩)

theorem exists_run (h : IsPartition chunks injections parts) {c : Chunk} (hc : c ∈ chunks) :
    ∃ run, (c, run) ∈ parts ∧ c.MadeOf run := by
  obtain ⟨⟨c, run⟩, hpart, rfl⟩ := List.mem_map.mp (h.chunks_perm.mem_iff.mp hc)
  exact ⟨run, hpart, h.made _ hpart⟩

theorem first_le_last (h : IsPartition chunks injections parts) :
    ∀ c ∈ chunks, c.first ≤ c.last := by
  intro c hc
  obtain ⟨run, -, hmade⟩ := h.exists_run hc
  exact hmade.first_le_last

/-- Any chunk can be taken out. -/
theorem exists_part {c : Chunk} (hperm : (c :: rest).Perm (parts.map Prod.fst)) :
    ∃ run others, parts.Perm ((c, run) :: others) ∧ rest.Perm (others.map Prod.fst) := by
  have hc : c ∈ parts.map Prod.fst := hperm.mem_iff.mp List.mem_cons_self
  obtain ⟨⟨c, run⟩, hpart, rfl⟩ := List.mem_map.mp hc
  obtain ⟨others, hothers⟩ := exists_perm_cons hpart
  exact ⟨run, others, hothers, (hperm.trans (hothers.map Prod.fst)).cons_inv⟩

/-- Some chunks are replaced by one that holds their injections and one more. -/
theorem replace (old : List (Chunk × List Injection)) {i : Injection} {result : List Chunk}
    {c : Chunk} {run : List Injection} (h : IsPartition chunks injections (old ++ others))
    (hmade : c.MadeOf run) (hrun : run.Perm (i :: old.flatMap Prod.snd))
    (hseparate : ∀ d ∈ others.map Prod.fst, c.Separate d)
    (hresult : result.Perm (c :: others.map Prod.fst)) :
    IsPartition result (i :: injections) ((c, run) :: others) := by
  refine ⟨?_, ?_, hresult, ?_⟩
  · intro part hpart
    rcases List.mem_cons.mp hpart with rfl | hpart
    · exact hmade
    · exact h.made part (List.mem_append_right old hpart)
  · have hpairwise := h.separate
    rw [List.map_append] at hpairwise
    exact List.Pairwise.cons hseparate (List.pairwise_append.mp hpairwise).2.1
  · have hinjections := h.injections_perm
    rw [List.flatMap_append] at hinjections
    exact (hinjections.cons i).trans (hrun.symm.append_right (others.flatMap Prod.snd))

/-- **One more injection, at free addresses, leaves the chunks what they are.** -/
theorem absorb (h : IsPartition chunks injections parts) {i : Injection} (hdata : i.data ≠ [])
    (hapart : ∀ j ∈ injections, i.Apart j) :
    ∃ parts, IsPartition (Chunk.absorb chunks i.label i.address.toNat (i.stop - 1))
      (i :: injections) parts := by
  have hlt := Injection.address_lt_stop hdata
  have hle := h.first_le_last
  have hbeside : ∀ c ∈ chunks, c.last < i.address.toNat ∨ i.stop ≤ c.first := by
    intro c hc
    obtain ⟨run, hpart, hmade⟩ := h.exists_run hc
    refine hmade.beside hdata ?_
    intro j hj
    exact hapart j (h.mem_injections hpart hj)
  -- what is known of the chunks that stay as they are, whatever becomes of the others
  have hother : ∀ {others : List (Chunk × List Injection)}, (∀ part ∈ others, part ∈ parts) →
      ∀ d ∈ others.map Prod.fst,
        d.first ≤ d.last ∧ (d.last < i.address.toNat ∨ i.stop ≤ d.first) := by
    intro others hsubset d hd
    obtain ⟨part, hpart, rfl⟩ := List.mem_map.mp hd
    have hchunk : part.1 ∈ chunks :=
      h.chunks_perm.mem_iff.mpr (List.mem_map_of_mem (hsubset part hpart))
    exact ⟨hle _ hchunk, hbeside _ hchunk⟩
  have hstop : i.stop - 1 + 1 = i.stop := by omega
  cases absorb_cases hle (by omega : i.address.toNat ≤ i.stop - 1) i.label with
  | fresh hnone hnone' hresult =>
      refine ⟨_, replace [] h (.singleton hdata hstop) (.refl _) ?_
        (hresult.trans (h.chunks_perm.cons _))⟩
      intro d hd
      obtain ⟨hle, hbeside⟩ := hother (fun part hpart => hpart) d hd
      have hbefore := hnone d (h.chunks_perm.mem_iff.mpr hd)
      have hbehind := hnone' d (h.chunks_perm.mem_iff.mpr hd)
      simp only [Separate]
      omega
  | extend below rest hperm hlast hnone hresult =>
      obtain ⟨run, others, hparts, hrest⟩ := exists_part (hperm.symm.trans h.chunks_perm)
      have h' := h.of_perm hparts
      have hbelow : below.MadeOf run := h'.made _ List.mem_cons_self
      refine ⟨_, replace [(below, run)] h' (hbelow.extend hdata hlast hstop) (by simp) ?_
        (hresult.trans (hrest.cons _))⟩
      intro d hd
      obtain ⟨hle, hbeside⟩ := hother (fun part hpart => hparts.mem_iff.mpr (by simp [hpart])) d hd
      have hbehind := hnone d (hperm.mem_iff.mpr (List.mem_cons_of_mem _ (hrest.mem_iff.mpr hd)))
      have hseparate := (List.pairwise_cons.mp h'.separate).1 d hd
      simp only [Separate, Chunk.extend] at hseparate ⊢
      omega
  | extendDown above rest hperm hfirst hnone hresult =>
      rw [hstop] at hfirst
      obtain ⟨run, others, hparts, hrest⟩ := exists_part (hperm.symm.trans h.chunks_perm)
      have h' := h.of_perm hparts
      have habove : above.MadeOf run := h'.made _ List.mem_cons_self
      refine ⟨_, replace [(above, run)] h' (habove.extendDown hdata hfirst) (by simp) ?_
        (hresult.trans (hrest.cons _))⟩
      intro d hd
      obtain ⟨hle, hbeside⟩ := hother (fun part hpart => hparts.mem_iff.mpr (by simp [hpart])) d hd
      have hbefore := hnone d (hperm.mem_iff.mpr (List.mem_cons_of_mem _ (hrest.mem_iff.mpr hd)))
      have hseparate := (List.pairwise_cons.mp h'.separate).1 d hd
      simp only [Separate, Chunk.extendDown] at hseparate ⊢
      omega
  | join below above rest hperm hlast hfirst hresult =>
      rw [hstop] at hfirst
      obtain ⟨run, others, hparts, hrest⟩ := exists_part (hperm.symm.trans h.chunks_perm)
      -- the second of the two chunks is taken out of what the first has left
      obtain ⟨run', others', hothers, hrest'⟩ := exists_part hrest
      have hparts' := hparts.trans (hothers.cons (below, run))
      have h' := h.of_perm hparts'
      have hbelow : below.MadeOf run := h'.made _ List.mem_cons_self
      have habove : above.MadeOf run' := h'.made _ (List.mem_cons_of_mem _ List.mem_cons_self)
      refine ⟨_, replace [(below, run), (above, run')] h' (hbelow.join habove hdata hlast hfirst) ?_
        ?_ (hresult.trans (hrest'.cons _))⟩
      · simp
      · intro d hd
        obtain ⟨hle, hbeside⟩ :=
          hother (fun part hpart => hparts'.mem_iff.mpr (by simp [hpart])) d hd
        obtain ⟨hseparate, htail⟩ := List.pairwise_cons.mp h'.separate
        have hseparate := hseparate d (List.mem_cons_of_mem _ hd)
        have hseparate' := (List.pairwise_cons.mp htail).1 d hd
        have hbelow := hbelow.first_le_last
        have habove := habove.first_le_last
        simp only [Separate, Chunk.join] at hseparate hseparate' ⊢
        omega

/-! ## What chunks tell of the injections -/

theorem pairwise_separate (h : IsPartition chunks injections parts) : chunks.Pairwise Separate :=
  (h.chunks_perm.pairwise_iff fun hcd => hcd.symm).mpr h.separate

/-- **An address is covered exactly if it lies in a chunk.** -/
theorem exists_covers_iff (h : IsPartition chunks injections parts) {address : ℕ} :
    (∃ i ∈ injections, i.Covers address) ↔ ∃ c ∈ chunks, c.first ≤ address ∧ address ≤ c.last := by
  constructor
  · rintro ⟨i, hi, hcovers⟩
    obtain ⟨part, hpart, hi⟩ := List.mem_flatMap.mp (h.injections_perm.mem_iff.mp hi)
    have hspan := (h.made part hpart).spans.exists_covers_iff.mp ⟨i, hi, hcovers⟩
    exact ⟨part.1, h.chunks_perm.mem_iff.mpr (List.mem_map_of_mem hpart), by omega⟩
  · rintro ⟨c, hc, hlow, hhigh⟩
    obtain ⟨run, hpart, hmade⟩ := h.exists_run hc
    obtain ⟨i, hi, hcovers⟩ := hmade.spans.exists_covers_iff.mpr ⟨hlow, Nat.lt_succ_of_le hhigh⟩
    exact ⟨i, h.mem_injections hpart hi, hcovers⟩

/-- An address that lies in a chunk, and in or next to another, shows the two to be the same. -/
theorem within_of_near (h : IsPartition chunks injections parts) {c d : Chunk} (hc : c ∈ chunks)
    (hd : d ∈ chunks) {address : ℕ} (hlow : d.first ≤ address) (hhigh : address ≤ d.last)
    (hbefore : c.first ≤ address + 1) (hbehind : address ≤ c.last + 1) :
    c.first ≤ address ∧ address ≤ c.last := by
  by_cases heq : c = d
  · subst heq
    exact ⟨hlow, hhigh⟩
  · have hseparate := h.pairwise_separate.forall hc hd heq
    have hle := h.first_le_last c hc
    have hle' := h.first_le_last d hd
    simp only [Separate] at hseparate
    omega

theorem isMaximalRun (h : IsPartition chunks injections parts) {c : Chunk} (hc : c ∈ chunks) :
    IsMaximalRun (fun address => ∃ i ∈ injections, i.Covers address) c.first c.last := by
  have hle := h.first_le_last c hc
  refine ⟨hle, ?_, ?_, ?_⟩
  · intro address hlow hhigh
    exact h.exists_covers_iff.mpr ⟨c, hc, hlow, hhigh⟩
  · intro address hbefore hcovers
    obtain ⟨d, hd, hlow, hhigh⟩ := h.exists_covers_iff.mp hcovers
    have := h.within_of_near hc hd hlow hhigh (by omega) (by omega)
    omega
  · intro hcovers
    obtain ⟨d, hd, hlow, hhigh⟩ := h.exists_covers_iff.mp hcovers
    have := h.within_of_near hc hd hlow hhigh (by omega) (by omega)
    omega

/-- **The chunks are the maximal runs of covered addresses.** -/
theorem exists_chunk_iff (h : IsPartition chunks injections parts) :
    (∃ c ∈ chunks, c.first = first ∧ c.last = last)
      ↔ IsMaximalRun (fun address => ∃ i ∈ injections, i.Covers address) first last := by
  constructor
  · rintro ⟨c, hc, rfl, rfl⟩
    exact h.isMaximalRun hc
  · rintro ⟨hle, hused, hbefore, hbehind⟩
    -- the chunk that holds the first address can neither start earlier nor end elsewhere
    obtain ⟨c, hc, hlow, hhigh⟩ := h.exists_covers_iff.mp (hused first le_rfl hle)
    obtain ⟨-, hcovered, -, hfreeBehind⟩ := h.isMaximalRun hc
    refine ⟨c, hc, ?_, ?_⟩
    · by_contra hne
      exact hbefore (first - 1) (by omega) (hcovered _ (by omega) (by omega))
    · rcases Nat.lt_trichotomy c.last last with hlt | heq | hgt
      · exact absurd (hused _ (by omega) hlt) hfreeBehind
      · exact heq
      · exact absurd (hcovered _ (by omega) hgt) hbehind

/-- **A chunk carries the labels of the injections in it, in the order of their addresses.** -/
theorem exists_inside (h : IsPartition chunks injections parts) {c : Chunk} (hc : c ∈ chunks) :
    ∃ inside : List Injection, inside.Perm (injections.filter c.encloses)
      ∧ inside.Pairwise (fun i j => i.address.toNat < j.address.toNat)
      ∧ c.labels = inside.map Injection.label := by
  have hperm : chunks.Perm (c :: chunks.erase c) := List.perm_cons_erase hc
  obtain ⟨run, others, hparts, hothers⟩ := exists_part (hperm.symm.trans h.chunks_perm)
  have h' := h.of_perm hparts
  have hmade : c.MadeOf run := h'.made _ List.mem_cons_self
  refine ⟨run, ?_, hmade.spans.pairwise, hmade.labels_eq⟩
  have hall : run.filter c.encloses = run := by
    refine List.filter_eq_self.mpr ?_
    intro i hi
    obtain ⟨hlow, -, hhigh⟩ := hmade.spans.within hi
    simpa [encloses] using ⟨hlow, hhigh⟩
  have hnone : (others.flatMap Prod.snd).filter c.encloses = [] := by
    refine List.filter_eq_nil_iff.mpr ?_
    intro i hi
    obtain ⟨part, hpart, hi⟩ := List.mem_flatMap.mp hi
    obtain ⟨hlow, hlt, hhigh⟩ := (h'.made part (List.mem_cons_of_mem _ hpart)).spans.within hi
    have hseparate := (List.pairwise_cons.mp h'.separate).1 part.1 (List.mem_map_of_mem hpart)
    have hle := hmade.first_le_last
    simp only [Separate] at hseparate
    simp only [encloses, decide_eq_true_eq]
    omega
  have hfilter := h'.injections_perm.filter c.encloses
  rw [List.flatMap_cons, List.filter_append, hall, hnone, List.append_nil] at hfilter
  exact hfilter.symm

/-- **A chunk is told by its run and its labels**: there is one for each maximal run, and it carries
the labels of the injections in it, in the order of their addresses. -/
theorem mem_chunks_iff (h : IsPartition chunks injections parts) {c : Chunk} :
    c ∈ chunks ↔
      IsMaximalRun (fun address => ∃ i ∈ injections, i.Covers address) c.first c.last
        ∧ ∃ inside : List Injection, inside.Perm (injections.filter c.encloses)
          ∧ inside.Pairwise (fun i j => i.address.toNat < j.address.toNat)
          ∧ c.labels = inside.map Injection.label := by
  constructor
  · intro hc
    exact ⟨h.exists_chunk_iff.mp ⟨c, hc, rfl, rfl⟩, h.exists_inside hc⟩
  · rintro ⟨hmaximal, inside, hinside, hsorted, hlabels⟩
    obtain ⟨d, hd, hfirst, hlast⟩ := h.exists_chunk_iff.mpr hmaximal
    obtain ⟨inside', hinside', hsorted', hlabels'⟩ := h.exists_inside hd
    have hencloses : d.encloses = c.encloses := by
      funext i
      simp [encloses, hfirst, hlast]
    rw [hencloses] at hinside'
    -- the two lists hold the same injections in the same order
    have heq : inside' = inside := by
      refine List.Perm.eq_of_pairwise ?_ hsorted' hsorted (hinside'.trans hinside.symm)
      intro i j _ _ hij hji
      omega
    obtain rfl : d = c := by
      cases c
      cases d
      simp only at hfirst hlast hlabels hlabels'
      subst hfirst hlast heq
      rw [hlabels, hlabels']
    exact hd

theorem nodup (h : IsPartition chunks injections parts) : chunks.Nodup := by
  refine h.pairwise_separate.imp_of_mem ?_
  rintro c d hc - hseparate rfl
  have := h.first_le_last c hc
  simp only [Separate] at hseparate
  omega

end IsPartition

end Chunk

end DeltaScript
