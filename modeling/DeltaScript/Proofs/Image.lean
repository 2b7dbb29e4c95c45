import Mathlib
import DeltaScript.Proofs.Stages
import DeltaScript.Proofs.Chunks

/-!
# What an image tells of its injections

Whether data can be injected is decided on the bytes, and how it is merged with other data on the
chunks.  The two stay in step over any number of injections, accepted or refused.

* `Image.byte?_storing` — the bytes after data was stored.
* `Image.Records` — an image holds just these injections, in its bytes and in its chunks;
  `Image.Records.exists_inject_iff`, `Image.Records.inject` — one injection more.
* `Image.after`, `Image.afterAll`, `Image.accepted` — a history: a refused injection leaves the
  image as it was.
* `Image.Represents` — what is expected of an image; `Image.history` — **every history ends in an
  image that represents what was accepted, and the order of injections that share no address does
  not matter.**
-/

namespace DeltaScript

namespace Injection

/-- The byte that goes to an address. -/
def byte? (i : Injection) (address : ℕ) : Option UInt8 :=
  if i.address.toNat ≤ address then i.data[address - i.address.toNat]? else none

theorem isSome_byte?_iff {i : Injection} {address : ℕ} :
    (i.byte? address).isSome ↔ i.Covers address := by
  rw [byte?, Covers, stop]
  split_ifs with h
  · simp only [isSome_getElem?, h, true_and]
    omega
  · simp [h]

theorem covers_of_byte? {i : Injection} {address : ℕ} {b : UInt8} (h : i.byte? address = some b) :
    i.Covers address :=
  isSome_byte?_iff.mp (by simp [h])

/-- There is something to inject. -/
def isSolid (i : Injection) : Bool :=
  !i.data.isEmpty

theorem isSolid_of_covers {i : Injection} {address : ℕ} (h : i.Covers address) :
    i.isSolid = true := by
  obtain ⟨hlow, hhigh⟩ := h
  have hne : i.data ≠ [] := by
    intro hdata
    simp only [stop, hdata, List.length_nil] at hhigh
    omega
  simpa [isSolid] using hne

end Injection

namespace Image

/-! ## Bytes -/

/-- The cells after bytes were stored: what is stored, and around it what was there before. -/
theorem getElem?_store (cells : Vector (Option UInt8) addressSpace) {first : ℕ} {data : List UInt8}
    (hroom : first + data.length ≤ addressSpace) (address : ℕ) :
    (store cells first data)[address]? =
      if first ≤ address ∧ address < first + data.length then some data[address - first]?
      else cells[address]? := by
  induction data generalizing cells first with
  | nil =>
      rw [store, if_neg]
      simp only [List.length_nil]
      omega
  | cons b rest ih =>
      rw [List.length_cons] at hroom
      rw [store, ih _ (by omega), List.length_cons]
      by_cases hat : address = first
      · subst hat
        rw [if_neg (by omega), if_pos (by omega), Vector.getElem?_setIfInBounds, if_pos rfl,
          if_pos (by omega), Nat.sub_self]
        rfl
      · rw [Vector.getElem?_setIfInBounds, if_neg (Ne.symm hat)]
        by_cases hin : first + 1 ≤ address ∧ address < first + 1 + rest.length
        · obtain ⟨k, rfl⟩ := Nat.exists_eq_add_of_le hin.1
          rw [if_pos hin, if_pos (by omega), Nat.add_sub_cancel_left,
            show first + 1 + k - first = k + 1 by omega, List.getElem?_cons_succ]
        · rw [if_neg hin, if_neg (by omega)]

variable {m m' : Image} {i : Injection} {injections : List Injection}

/-- What an accepted injection makes of an image. -/
def storing (m : Image) (i : Injection) : Image where
  cells := store m.cells i.address.toNat i.data
  chunks := Chunk.absorb m.chunks i.label i.address.toNat (i.stop - 1)
  fill := m.fill

theorem byte?_storing (m : Image) (hstop : i.stop ≤ addressSpace) (address : ℕ) :
    (m.storing i).byte? address
      = if i.Covers address then i.byte? address else m.byte? address := by
  rw [byte?, storing, getElem?_store _ hstop]
  change (if i.Covers address then _ else _ : Option (Option UInt8)).join = _
  by_cases h : i.Covers address
  · rw [if_pos h, if_pos h, Injection.byte?, if_pos h.1]
    rfl
  · rw [if_neg h, if_neg h]
    rfl

theorem inject_eq (m : Image) (i : Injection) :
    m.inject i.label i.address i.data =
      if i.data = [] then .ok m
      else if addressSpace < i.stop then .error (.injectionPastEnd i.label)
      else if m.meets i.address.toNat i.data.length then .error (.injectionOverlap i.label)
      else .ok (m.storing i) := by
  rw [inject]
  simp only [List.length_eq_zero_iff]
  rfl

theorem not_meets_iff : ¬ m.meets i.address.toNat i.data.length = true ↔
    ∀ address, i.Covers address → m.byte? address = none := by
  simp only [meets, List.any_eq_true, List.mem_range, not_exists, not_and, Bool.not_eq_true,
    Option.isSome_eq_false_iff, Option.isNone_iff_eq_none]
  constructor
  · rintro hfree address ⟨hlow, hhigh⟩
    obtain ⟨k, rfl⟩ := Nat.exists_eq_add_of_le hlow
    exact hfree k (Nat.lt_of_add_lt_add_left hhigh)
  · intro hfree k hk
    exact hfree _ ⟨Nat.le_add_right .., Nat.add_lt_add_left hk _⟩

/-- **What an injection decides.** -/
theorem inject_eq_ok_iff : m.inject i.label i.address i.data = .ok m' ↔
    (i.data = [] ∧ m' = m)
      ∨ (i.data ≠ [] ∧ i.stop ≤ addressSpace
        ∧ (∀ address, i.Covers address → m.byte? address = none) ∧ m' = m.storing i) := by
  rw [inject_eq, ← not_meets_iff]
  split_ifs with hdata hstop hmeets
  · rw [Except.ok.injEq, eq_comm]
    simp [hdata]
  · simp [hdata, not_le.mpr hstop]
  · simp [hdata, hmeets]
  · have hle := Nat.not_lt.mp hstop
    constructor
    · intro h
      exact Or.inr ⟨hdata, hle, hmeets, (Except.ok.inj h).symm⟩
    · rintro (⟨h, -⟩ | ⟨-, -, -, rfl⟩)
      · exact absurd h hdata
      · rfl

/-! ## Records -/

/-- An image holds the bytes and the chunks of injections that share no address. -/
structure Records (m : Image) (injections : List Injection) : Prop where
  stop_le : ∀ i ∈ injections, i.stop ≤ addressSpace
  byte?_eq_some_iff : ∀ address b,
    m.byte? address = some b ↔ ∃ i ∈ injections, i.byte? address = some b
  exists_parts : ∃ parts, Chunk.IsPartition m.chunks injections parts

theorem records_empty (fill : UInt8) : (empty fill).Records [] := by
  refine ⟨by simp, ?_, [], .nil⟩
  intro address b
  rw [byte?, empty, Vector.getElem?_replicate]
  split_ifs <;> simp

namespace Records

theorem of_perm (h : m.Records injections) {others : List Injection}
    (hperm : injections.Perm others) : m.Records others := by
  obtain ⟨parts, hparts⟩ := h.exists_parts
  refine ⟨?_, ?_, parts, hparts.made, hparts.separate, hparts.chunks_perm,
    hperm.symm.trans hparts.injections_perm⟩
  · intro i hi
    exact h.stop_le i (hperm.mem_iff.mpr hi)
  · intro address b
    simp only [h.byte?_eq_some_iff, hperm.mem_iff]

/-- An address is used exactly if an injection covers it. -/
theorem isSome_byte?_iff (h : m.Records injections) {address : ℕ} :
    (m.byte? address).isSome ↔ ∃ i ∈ injections, i.Covers address := by
  simp only [Option.isSome_iff_exists, h.byte?_eq_some_iff, ← Injection.isSome_byte?_iff]
  exact ⟨fun ⟨b, i, hi, hb⟩ => ⟨i, hi, b, hb⟩, fun ⟨i, hi, b, hb⟩ => ⟨b, i, hi, hb⟩⟩

theorem forall_byte?_eq_none_iff (h : m.Records injections) :
    (∀ address, i.Covers address → m.byte? address = none) ↔ ∀ j ∈ injections, i.Apart j := by
  have hnone : ∀ address, m.byte? address = none ↔ ∀ j ∈ injections, ¬ j.Covers address := by
    intro address
    rw [← Option.not_isSome_iff_eq_none, h.isSome_byte?_iff]
    simp
  simp only [hnone, Injection.Apart]
  exact ⟨fun hfree j hj address hi => hfree address hi j hj,
    fun hapart address hi j hj => hapart j hj address hi⟩

/-- **An injection is accepted exactly if there is nothing to inject, or it ends within the address
space and shares no address with what was injected before.** -/
theorem exists_inject_iff (h : m.Records injections) (i : Injection) :
    (∃ m', m.inject i.label i.address i.data = .ok m') ↔
      i.data = [] ∨ (i.stop ≤ addressSpace ∧ ∀ j ∈ injections, i.Apart j) := by
  simp only [inject_eq_ok_iff, h.forall_byte?_eq_none_iff, exists_or, exists_and_left,
    exists_eq, and_true]
  by_cases hdata : i.data = [] <;> simp [hdata]

/-- **One injection more is recorded.** -/
theorem inject (h : m.Records injections) (hdata : i.data ≠ [])
    (hm : m.inject i.label i.address i.data = .ok m') :
    m'.Records (i :: injections) ∧ m'.fill = m.fill := by
  obtain ⟨hempty, -⟩ | ⟨-, hstop, hfree, rfl⟩ := inject_eq_ok_iff.mp hm
  · exact absurd hempty hdata
  obtain ⟨parts, hparts⟩ := h.exists_parts
  refine ⟨⟨?_, ?_, hparts.absorb hdata (h.forall_byte?_eq_none_iff.mp hfree)⟩, rfl⟩
  · exact List.forall_mem_cons.mpr ⟨hstop, h.stop_le⟩
  · intro address b
    rw [byte?_storing m hstop, List.exists_mem_cons_iff]
    by_cases hcovers : i.Covers address
    · have hothers : ¬ ∃ j ∈ injections, j.byte? address = some b := by
        rw [← h.byte?_eq_some_iff, hfree address hcovers]
        simp
      simp [hcovers, hothers]
    · have hself : i.byte? address ≠ some b := by
        intro hb
        exact hcovers (Injection.covers_of_byte? hb)
      simp [hcovers, hself, h.byte?_eq_some_iff]

/-- **The order of the injections does not matter** for the bytes and the chunks. -/
theorem chunks_perm (h : m.Records injections) (h' : m'.Records injections) :
    m.chunks.Perm m'.chunks := by
  obtain ⟨parts, hparts⟩ := h.exists_parts
  obtain ⟨parts', hparts'⟩ := h'.exists_parts
  rw [List.perm_ext_iff_of_nodup hparts.nodup hparts'.nodup]
  intro c
  rw [hparts.mem_chunks_iff, hparts'.mem_chunks_iff]

theorem byte?_eq (h : m.Records injections) (h' : m'.Records injections) : m.byte? = m'.byte? := by
  funext address
  apply Option.ext
  intro b
  rw [h.byte?_eq_some_iff, h'.byte?_eq_some_iff]

end Records

/-! ## Histories -/

/-- The image after an injection was tried: one that is refused leaves it as it was. -/
def after (m : Image) (i : Injection) : Image :=
  match m.inject i.label i.address i.data with
  | .ok m' => m'
  | .error _ => m

def afterAll (m : Image) (injections : List Injection) : Image :=
  injections.foldl after m

/-- The injections that are accepted, of several that are tried one after the other. -/
def accepted (m : Image) : List Injection → List Injection
  | [] => []
  | i :: rest =>
      match m.inject i.label i.address i.data with
      | .ok m' => i :: m'.accepted rest
      | .error _ => m.accepted rest

theorem after_of_ok (h : m.inject i.label i.address i.data = .ok m') : m.after i = m' := by
  simp only [after, h]

theorem after_of_error {e : Failure} (h : m.inject i.label i.address i.data = .error e) :
    m.after i = m := by
  simp only [after, h]

theorem accepted_of_ok (h : m.inject i.label i.address i.data = .ok m') (rest : List Injection) :
    m.accepted (i :: rest) = i :: m'.accepted rest := by
  simp only [accepted, h]

theorem accepted_of_error {e : Failure} (h : m.inject i.label i.address i.data = .error e)
    (rest : List Injection) : m.accepted (i :: rest) = m.accepted rest := by
  simp only [accepted, h]

theorem inject_of_data_eq_nil (m : Image) (h : i.data = []) :
    m.inject i.label i.address i.data = .ok m :=
  inject_eq_ok_iff.mpr (Or.inl ⟨h, rfl⟩)

/-- **A history is recorded**, by induction on what is tried.  Nothing is recorded of an empty
injection. -/
theorem Records.afterAll (h : m.Records injections) (tried : List Injection) :
    (m.afterAll tried).Records (injections ++ (m.accepted tried).filter Injection.isSolid)
      ∧ (m.afterAll tried).fill = m.fill := by
  induction tried generalizing m injections with
  | nil => simpa [accepted] using ⟨h, rfl⟩
  | cons i rest ih =>
      change ((m.after i).afterAll rest).Records _ ∧ ((m.after i).afterAll rest).fill = _
      cases hm : m.inject i.label i.address i.data with
      | error e =>
          rw [after_of_error hm, accepted_of_error hm]
          exact ih h
      | ok m' =>
          rw [after_of_ok hm, accepted_of_ok hm, List.filter_cons]
          -- an empty injection is accepted like others, but leaves nothing to record
          by_cases hdata : i.data = []
          · obtain rfl := Except.ok.inj ((inject_of_data_eq_nil m hdata).symm.trans hm)
            rw [if_neg (by simp [Injection.isSolid, hdata])]
            exact ih h
          · obtain ⟨h', hfill⟩ := h.inject hdata hm
            obtain ⟨hrest, hfill'⟩ := ih h'
            rw [if_pos (by simp [Injection.isSolid, hdata])]
            exact ⟨hrest.of_perm List.perm_middle.symm, hfill'.trans hfill⟩

/-- Of injections that share no address those are accepted that end within the address space. -/
theorem Records.accepted_of_apart (h : m.Records injections) {tried : List Injection}
    (hapart : tried.Pairwise Injection.Apart) (hothers : ∀ i ∈ tried, ∀ j ∈ injections, i.Apart j) :
    m.accepted tried = tried.filter fun i => i.data = [] ∨ i.stop ≤ addressSpace := by
  induction tried generalizing m injections with
  | nil => rfl
  | cons i rest ih =>
      obtain ⟨hi, hrest⟩ := List.pairwise_cons.mp hapart
      obtain ⟨hself, hothers⟩ := List.forall_mem_cons.mp hothers
      have hiff := h.exists_inject_iff i
      cases hm : m.inject i.label i.address i.data with
      | error e =>
          simp only [hm, reduceCtorEq, exists_false, false_iff] at hiff
          rw [accepted_of_error hm, ih h hrest hothers, List.filter_cons, if_neg]
          rw [decide_eq_true_eq]
          intro hfits
          exact hiff (hfits.imp_right fun hstop => ⟨hstop, hself⟩)
      | ok m' =>
          have hfits := hiff.mp ⟨m', hm⟩
          rw [accepted_of_ok hm, List.filter_cons,
            if_pos (by simpa using hfits.imp_right And.left)]
          by_cases hdata : i.data = []
          · obtain rfl := Except.ok.inj ((inject_of_data_eq_nil m hdata).symm.trans hm)
            rw [ih h hrest hothers]
          · rw [ih (h.inject hdata hm).1 hrest]
            intro j hj
            exact List.forall_mem_cons.mpr ⟨(hi j hj).symm, hothers j hj⟩

/-! ## Representation -/

/-- What an image tells of the injections that were accepted. -/
structure Represents (m : Image) (accepted : List Injection) : Prop where
  /-- The bytes are those that were injected. -/
  byte?_eq_some_iff : ∀ address b,
    m.byte? address = some b ↔ ∃ i ∈ accepted, i.byte? address = some b
  /-- The chunks are the maximal runs of used addresses. -/
  exists_chunk_iff : ∀ first last, (∃ c ∈ m.chunks, c.first = first ∧ c.last = last) ↔
    IsMaximalRun (fun address => (m.byte? address).isSome) first last
  /-- No run has two chunks. -/
  nodup : (m.chunks.map fun c => (c.first, c.last)).Nodup
  /-- Between two chunks there is a free address. -/
  separate : m.chunks.Pairwise Chunk.Separate
  /-- The labels of a chunk are those of the injections in it that are not empty, in the order of
  the addresses. -/
  labels : ∀ c ∈ m.chunks, ∃ inside : List Injection,
    inside.Perm (accepted.filter fun i => i.isSolid && c.encloses i)
      ∧ inside.Pairwise (fun i j => i.address.toNat < j.address.toNat)
      ∧ c.labels = inside.map Injection.label

theorem Records.represents (h : m.Records (injections.filter Injection.isSolid)) :
    m.Represents injections := by
  obtain ⟨parts, hparts⟩ := h.exists_parts
  have hused : (fun address => (m.byte? address).isSome = true)
      = fun address => ∃ i ∈ injections.filter Injection.isSolid, i.Covers address := by
    funext address
    exact propext h.isSome_byte?_iff
  refine ⟨?_, ?_, ?_, hparts.pairwise_separate, ?_⟩
  · intro address b
    rw [h.byte?_eq_some_iff]
    simp only [List.mem_filter]
    constructor
    · rintro ⟨i, ⟨hi, -⟩, hb⟩
      exact ⟨i, hi, hb⟩
    · rintro ⟨i, hi, hb⟩
      exact ⟨i, ⟨hi, Injection.isSolid_of_covers (Injection.covers_of_byte? hb)⟩, hb⟩
  · intro first last
    rw [hused]
    exact hparts.exists_chunk_iff
  · -- chunks of one run would have no free address between them
    refine List.pairwise_map.mpr (hparts.pairwise_separate.imp_of_mem ?_)
    intro c d hc _ hseparate heq
    obtain ⟨hfirst, hlast⟩ := Prod.mk.inj heq
    have hle := hparts.first_le_last c hc
    simp only [Chunk.Separate] at hseparate
    omega
  · intro c hc
    obtain ⟨inside, hinside, hsorted, hlabels⟩ := hparts.exists_inside hc
    refine ⟨inside, hinside.trans (.of_eq ?_), hsorted, hlabels⟩
    rw [List.filter_filter]
    exact List.filter_congr fun i _ => Bool.and_comm ..

section Order

variable {xs ys : List ℕ}

theorem min?_eq_of_perm (h : xs.Perm ys) : xs.min? = ys.min? := by
  apply Option.ext
  intro n
  simp only [List.min?_eq_some_iff, h.mem_iff]

theorem max?_eq_of_perm (h : xs.Perm ys) : xs.max? = ys.max? := by
  apply Option.ext
  intro n
  simp only [List.max?_eq_some_iff, h.mem_iff]

end Order

/-- Two images agree in all that can be asked of them. -/
structure Agrees (m m' : Image) : Prop where
  chunks : m.chunks.Perm m'.chunks
  lowest : m.lowest? = m'.lowest?
  highest : m.highest? = m'.highest?
  segment : m.segment? = m'.segment?

theorem Records.agrees (h : m.Records injections) (h' : m'.Records injections)
    (hfill : m.fill = m'.fill) : m.Agrees m' := by
  have hchunks := h.chunks_perm h'
  have hlowest : m.lowest? = m'.lowest? := min?_eq_of_perm (hchunks.map Chunk.first)
  have hhighest : m.highest? = m'.highest? := max?_eq_of_perm (hchunks.map Chunk.last)
  refine ⟨hchunks, hlowest, hhighest, ?_⟩
  rw [segment?, segment?, hlowest, hhighest, h.byte?_eq h', hfill]

/-- **A history of an image.**  An injection is accepted exactly if it is empty, or ends within the
address space and shares no address with what was accepted before; one that is empty or refused
changes nothing; the image represents what was accepted; and injections that share no address can be
tried in any order. -/
theorem history (fill : UInt8) (tried : List Injection) :
    (∀ i : Injection,
      ((∃ m, ((empty fill).afterAll tried).inject i.label i.address i.data = .ok m) ↔
        i.data = [] ∨ (i.stop ≤ addressSpace ∧ ∀ j ∈ (empty fill).accepted tried, i.Apart j))
      ∧ ((i.data = []
          ∨ ∃ e, ((empty fill).afterAll tried).inject i.label i.address i.data = .error e) →
        ((empty fill).afterAll tried).after i = (empty fill).afterAll tried))
    ∧ ((empty fill).afterAll tried).Represents ((empty fill).accepted tried)
    ∧ ∀ others, tried.Perm others → tried.Pairwise Injection.Apart →
      ((empty fill).afterAll tried).Agrees ((empty fill).afterAll others) := by
  obtain ⟨hrecords, hfill⟩ := (records_empty fill).afterAll tried
  rw [List.nil_append] at hrecords
  refine ⟨?_, hrecords.represents, ?_⟩
  · intro i
    constructor
    · rw [hrecords.exists_inject_iff]
      refine or_congr_right (and_congr_right fun _ => ?_)
      simp only [List.mem_filter, and_imp]
      constructor
      · intro hapart j hj address hi hcovers
        exact hapart j hj (Injection.isSolid_of_covers hcovers) address hi hcovers
      · intro hapart j hj _
        exact hapart j hj
    · rintro (hdata | ⟨e, he⟩)
      · exact after_of_ok (inject_of_data_eq_nil _ hdata)
      · exact after_of_error he
  · intro others hperm hapart
    obtain ⟨hrecords', hfill'⟩ := (records_empty fill).afterAll others
    rw [List.nil_append] at hrecords'
    have hapart' : others.Pairwise Injection.Apart :=
      (hperm.pairwise_iff fun h => h.symm).mp hapart
    rw [(records_empty fill).accepted_of_apart hapart (by simp)] at hrecords
    rw [(records_empty fill).accepted_of_apart hapart' (by simp)] at hrecords'
    have hsolid := (hperm.filter fun i => i.data = [] ∨ i.stop ≤ addressSpace).filter
      Injection.isSolid
    exact (hrecords.of_perm hsolid).agrees hrecords' (hfill.trans hfill'.symm)

/-- Three injections that adjoin.  The last of them joins two chunks, whereas in the reverse order
the first chunk grows in both directions. -/
def adjoining : List Injection :=
  [⟨"low", 0x1000, [1]⟩, ⟨"high", 0x1002, [3]⟩, ⟨"middle", 0x1001, [2]⟩]

theorem history_adjoining :
    adjoining.Pairwise Injection.Apart
      ∧ ((empty 0).afterAll adjoining).Agrees ((empty 0).afterAll adjoining.reverse) := by
  have hbeside : adjoining.Pairwise fun i j =>
      i.stop ≤ j.address.toNat ∨ j.stop ≤ i.address.toNat := by decide
  have hapart := hbeside.imp Injection.apart_of_beside
  exact ⟨hapart, (history 0 adjoining).2.2 _ (List.reverse_perm _).symm hapart⟩

end Image

end DeltaScript
