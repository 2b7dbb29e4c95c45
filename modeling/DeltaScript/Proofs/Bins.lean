import DeltaScript.Bin
import DeltaScript.Failure.Diagnostic
import DeltaScript.Proofs.Stages

/-!
# Usable bins

`Bin.checkAll` looks for overlaps between neighbours only, once the bins are sorted.  That is
enough: no bin is empty, so that whatever ends before its neighbour ends before all bins behind it.

* `Bin.ofSize?_eq_some_iff`, `Bin.ofSize?_eq_none_iff` — which addresses and capacities make a bin:
  all whose sum is a machine word.  `Bin.toNat_wordSum` — **added as machine words they do not wrap
  around**, so that what is said of `Bin.stop` is said of the end a program computes.
* `Bin.Apart` — two bins share no address.
* `Bin.Usable` — the bins of a list can be filled: there is one, none is empty, none runs past the
  last address, and any two of them are apart.
* `Bin.checkAll_eq_ok_iff` — **the check passes exactly the usable lists.**
* `Bin.Tells`, `Bin.tells_of_checkAll` — **a fault that it finds is there**; it finds faults of bins
  only, which all have one code (`Bin.isFault_of_checkAll`).
* `Bin.exact_checkAll` — both at once, where the bins of a list are compared as sets of addresses.
-/

namespace DeltaScript.Bin

/-! ## The end of a bin -/

theorem ofSize?_eq_some_iff {address : UInt16} {capacity : ℕ} {b : Bin} :
    ofSize? address capacity = some b ↔ b.address = address ∧ b.capacity = capacity := by
  rw [ofSize?]
  constructor
  · intro h
    split_ifs at h
    cases h
    exact ⟨rfl, rfl⟩
  · rintro ⟨rfl, rfl⟩
    rw [dif_pos b.stop_le]

/-- There is no bin exactly where the sum of address and capacity is no machine word. -/
theorem ofSize?_eq_none_iff {address : UInt16} {capacity : ℕ} :
    ofSize? address capacity = none ↔ maxWord < address.toNat + capacity := by
  rw [ofSize?]
  split_ifs with h
  · simpa using h
  · simpa using h

/-- **The end of a bin is the sum of its address and its capacity as machine words.** -/
theorem toNat_wordSum (b : Bin) :
    (b.address.toUInt64 + UInt64.ofNat b.capacity).toNat = b.stop := by
  have hstop : b.stop < 2 ^ 64 := lt_of_le_of_lt b.stop_le (by decide)
  have hcapacity : b.capacity < 2 ^ 64 := lt_of_le_of_lt (Nat.le_add_left _ _) hstop
  rw [UInt64.toNat_add, UInt16.toNat_toUInt64, UInt64.toNat_ofNat_of_lt' hcapacity]
  exact Nat.mod_eq_of_lt hstop

/-- At the last address, the largest capacity would wrap the end around. -/
example : ofSize? 0xFFFF maxWord = none := by
  decide

/-! ## What can be filled -/

/-- Two bins share no address. -/
def Apart (a b : Bin) : Prop :=
  a.stop ≤ b.address.toNat ∨ b.stop ≤ a.address.toNat

theorem Apart.symm {a b : Bin} (h : a.Apart b) : b.Apart a :=
  Or.symm h

/-- A list of bins that blocks can be placed in. -/
structure Usable (bins : List Bin) : Prop where
  ne_nil : bins ≠ []
  capacity_pos : ∀ b ∈ bins, 0 < b.capacity
  stop_le : ∀ b ∈ bins, b.stop ≤ addressSpace
  apart : bins.Pairwise Apart

theorem check_eq_ok_iff {b : Bin} :
    b.check = .ok () ↔ 0 < b.capacity ∧ b.stop ≤ addressSpace := by
  rw [check]
  split_ifs with hempty hend
  · simp [hempty]
  · simp [not_le.mpr hend]
  · exact ⟨fun _ => ⟨Nat.pos_of_ne_zero hempty, not_lt.mp hend⟩, fun _ => rfl⟩

theorem checkNeighbours_eq_ok_iff {bins : List Bin} :
    checkNeighbours bins = .ok () ↔ bins.IsChain fun a b => a.stop ≤ b.address.toNat := by
  induction bins with
  | nil => simp [checkNeighbours]
  | cons a rest ih =>
      cases rest with
      | nil => simp [checkNeighbours]
      | cons b rest =>
          rw [checkNeighbours, List.isChain_cons_cons]
          split_ifs with h
          · simp [not_le.mpr h]
          · rw [ih]
            simp [not_lt.mp h]

theorem pairwise_sorted (bins : List Bin) :
    (sorted bins).Pairwise fun a b => a.address.toNat ≤ b.address.toNat := by
  refine (List.pairwise_mergeSort ?_ ?_ bins).imp ?_
  · intro a b c hab hbc
    simp only [decide_eq_true_eq] at *
    omega
  · intro a b
    simp only [Bool.or_eq_true, decide_eq_true_eq]
    omega
  · intro a b h
    simpa using h

theorem perm_sorted (bins : List Bin) : (sorted bins).Perm bins :=
  List.mergeSort_perm bins _

/-- **Where no bin is empty, sorted bins of which no two neighbours overlap are all apart.** -/
theorem pairwise_apart_of_isChain {bins : List Bin} (hpos : ∀ b ∈ bins, 0 < b.capacity)
    (h : bins.IsChain fun a b => a.stop ≤ b.address.toNat) :
    bins.Pairwise Apart := by
  induction bins with
  | nil => exact List.Pairwise.nil
  | cons a rest ih =>
      have hrest := ih (fun b hb => hpos b (List.mem_cons_of_mem a hb)) h.tail
      refine List.Pairwise.cons ?_ hrest
      -- the first bin ends before every bin of the rest, by induction along the chain
      have hbefore : ∀ b ∈ rest, a.stop ≤ b.address.toNat := by
        clear ih hrest
        induction rest generalizing a with
        | nil => simp
        | cons b rest ih =>
            obtain ⟨hab, hchain⟩ := List.isChain_cons_cons.mp h
            have hb := hpos b (by simp)
            intro c hc
            rcases List.mem_cons.mp hc with rfl | hc
            · exact hab
            · have hbc := ih b (fun d hd => hpos d (List.mem_cons_of_mem a hd)) hchain c hc
              simp only [stop] at hab hbc ⊢
              omega
      exact fun b hb => Or.inl (hbefore b hb)

/-- Sorted bins that are all apart follow one another. -/
theorem isChain_of_pairwise_apart {bins : List Bin} (hpos : ∀ b ∈ bins, 0 < b.capacity)
    (hsorted : bins.Pairwise fun a b => a.address.toNat ≤ b.address.toNat)
    (hapart : bins.Pairwise Apart) : bins.IsChain fun a b => a.stop ≤ b.address.toNat := by
  refine List.Pairwise.isChain ?_
  refine (hsorted.and hapart).imp_of_mem ?_
  rintro a b - hb ⟨hle, hbefore | hbehind⟩
  · exact hbefore
  · have := hpos b hb
    simp only [stop] at hbehind
    omega

/-- **The check passes exactly the usable lists of bins.** -/
theorem checkAll_eq_ok_iff {bins : List Bin} : checkAll bins = .ok () ↔ Usable bins := by
  have hmem : ∀ b, b ∈ sorted bins ↔ b ∈ bins := fun b => (perm_sorted bins).mem_iff
  have hapart : (sorted bins).Pairwise Apart ↔ bins.Pairwise Apart :=
    (perm_sorted bins).pairwise_iff fun h => h.symm
  unfold checkAll
  cases bins with
  | nil => exact ⟨(nomatch ·), fun h => absurd rfl h.ne_nil⟩
  | cons b rest =>
      simp only [List.isEmpty_cons, Bool.false_eq_true, if_false]
      rw [bind_eq_ok_iff]
      constructor
      · rintro ⟨_, hcheck, hneighbours⟩
        have hall := fun b hb => check_eq_ok_iff.mp (forM_eq_ok_iff.mp hcheck b hb)
        refine ⟨by simp, fun b hb => (hall b hb).1, fun b hb => (hall b hb).2, hapart.mp ?_⟩
        exact pairwise_apart_of_isChain (fun b hb => (hall b ((hmem b).mp hb)).1)
          (checkNeighbours_eq_ok_iff.mp hneighbours)
      · rintro ⟨-, hpos, hstop, hpairwise⟩
        refine ⟨(), forM_eq_ok_iff.mpr fun b hb => check_eq_ok_iff.mpr ⟨hpos b hb, hstop b hb⟩, ?_⟩
        exact checkNeighbours_eq_ok_iff.mpr (isChain_of_pairwise_apart
          (fun b hb => hpos b ((hmem b).mp hb)) (pairwise_sorted _) (hapart.mpr hpairwise))

/-! ## What bins are refused for -/

/-- The faults of bins. -/
def IsFault : Failure → Prop
  | .noBins => True
  | .emptyBin _ => True
  | .binPastEnd _ _ => True
  | .binsOverlap _ _ => True
  | _ => False

/-- Every fault of bins has the same code. -/
theorem IsFault.code_eq {e : Failure} (h : IsFault e) : e.code = .bins := by
  cases e with
  | noBins => rfl
  | emptyBin address => rfl
  | binPastEnd address capacity => rfl
  | binsOverlap first second => rfl
  | _ => cases h

theorem check_eq_error_iff {b : Bin} {e : Failure} :
    b.check = .error e ↔ (b.capacity = 0 ∧ e = .emptyBin b.address.toNat)
      ∨ (0 < b.capacity ∧ addressSpace < b.stop
        ∧ e = .binPastEnd b.address.toNat b.capacity) := by
  rw [check]
  split_ifs with hempty hend
  · simp [hempty, eq_comm]
  · simp [hempty, hend, Nat.pos_of_ne_zero hempty, eq_comm]
  · simp [hempty, hend]

/-- Neighbours that are refused overlap: the second one starts before the first one has ended. -/
theorem exists_of_checkNeighbours_eq_error {bins : List Bin} {e : Failure}
    (h : checkNeighbours bins = .error e) :
    ∃ a b, [a, b].Sublist bins ∧ b.address.toNat < a.stop
      ∧ e = .binsOverlap a.address.toNat b.address.toNat := by
  induction bins with
  | nil => cases h
  | cons a rest ih =>
      cases rest with
      | nil => cases h
      | cons b rest =>
          rw [checkNeighbours] at h
          split_ifs at h with hoverlap
          · refine ⟨a, b, ?_, hoverlap, (Except.error.inj h).symm⟩
            exact ((List.nil_sublist rest).cons_cons b).cons_cons a
          · obtain ⟨c, d, hsublist, hcd⟩ := ih h
            exact ⟨c, d, hsublist.cons a, hcd⟩

/-- The addresses of a bin. -/
def addresses (b : Bin) : Set ℕ :=
  Set.Ico b.address.toNat b.stop

/-- What a fault says of a list of bins.  A fault of one bin is that of the first bin that has one;
an overlap is looked for only where no bin has a fault of its own, and may be between any two. -/
def Tells (bins : List Bin) : Failure → Prop
  | .noBins => bins = []
  | .emptyBin address => ∃ before b after, bins = before ++ b :: after
      ∧ (∀ a ∈ before, 0 < a.capacity ∧ a.stop ≤ addressSpace)
      ∧ b.capacity = 0 ∧ address = b.address.toNat
  | .binPastEnd address capacity => ∃ before b after, bins = before ++ b :: after
      ∧ (∀ a ∈ before, 0 < a.capacity ∧ a.stop ≤ addressSpace)
      ∧ addressSpace < b.stop ∧ address = b.address.toNat ∧ capacity = b.capacity
  | .binsOverlap first second => (∀ b ∈ bins, 0 < b.capacity ∧ b.stop ≤ addressSpace)
      ∧ ∃ a b, [a, b].Subperm bins ∧ b.address.toNat ∈ a.addresses
        ∧ first = a.address.toNat ∧ second = b.address.toNat
  | _ => False

theorem Tells.isFault {bins : List Bin} {e : Failure} (h : Tells bins e) : IsFault e := by
  cases e with
  | noBins | emptyBin _ | binPastEnd _ _ | binsOverlap _ _ => trivial
  | _ => cases h

/-- **A fault that the check finds is there.** -/
theorem tells_of_checkAll {bins : List Bin} {e : Failure} (h : checkAll bins = .error e) :
    Tells bins e := by
  unfold checkAll at h
  cases bins with
  | nil =>
      cases h
      rfl
  | cons b rest =>
      simp only [List.isEmpty_cons, Bool.false_eq_true, if_false] at h
      rcases bind_eq_error_iff.mp h with h | ⟨_, hcheck, h⟩
      · obtain ⟨before, a, after, hbins, hbefore, ha⟩ := forM_eq_error_iff.mp h
        have hsound := fun c hc => check_eq_ok_iff.mp (hbefore c hc)
        rcases check_eq_error_iff.mp ha with ⟨hempty, rfl⟩ | ⟨-, hend, rfl⟩
        · exact ⟨before, a, after, hbins, hsound, hempty, rfl⟩
        · exact ⟨before, a, after, hbins, hsound, hend, rfl, rfl⟩
      · obtain ⟨a, c, hsublist, hoverlap, rfl⟩ := exists_of_checkNeighbours_eq_error h
        have hsound := fun d hd => check_eq_ok_iff.mp (forM_eq_ok_iff.mp hcheck d hd)
        -- in sorted order the second bin does not start before the first one
        have hle := List.pairwise_iff_forall_sublist.mp (pairwise_sorted _) hsublist
        exact ⟨hsound, a, c, hsublist.subperm.trans (perm_sorted _).subperm, ⟨hle, hoverlap⟩,
          rfl, rfl⟩

/-- The check finds faults of bins only. -/
theorem isFault_of_checkAll {bins : List Bin} {e : Failure} (h : checkAll bins = .error e) :
    IsFault e :=
  (tells_of_checkAll h).isFault

/-! ## What the check decides -/

theorem disjoint_addresses_iff {a b : Bin} (ha : 0 < a.capacity) (hb : 0 < b.capacity) :
    Disjoint a.addresses b.addresses ↔ a.Apart b := by
  rw [addresses, addresses, Set.Ico_disjoint_Ico]
  simp only [Apart, stop]
  omega

/-- Bins that are not empty are apart where their addresses are disjoint. -/
theorem pairwise_apart_iff {bins : List Bin} (hpos : ∀ b ∈ bins, 0 < b.capacity) :
    bins.Pairwise Apart ↔
      Pairwise fun i j : Fin bins.length => Disjoint bins[i].addresses bins[j].addresses := by
  have hdisjoint : ∀ i j : Fin bins.length,
      Disjoint bins[i].addresses bins[j].addresses ↔ bins[i].Apart bins[j] := fun i j =>
    disjoint_addresses_iff (hpos _ (List.getElem_mem i.isLt)) (hpos _ (List.getElem_mem j.isLt))
  simp only [Pairwise, hdisjoint]
  rw [List.pairwise_iff_get]
  constructor
  · intro h i j hij
    rcases lt_or_gt_of_ne hij with hlt | hlt
    · exact h i j hlt
    · exact (h j i hlt).symm
  · intro h i j hlt
    exact h hlt.ne

/-- **The check passes the lists of bins that are not empty, end within the address space and share
no address with a bin at another position, whatever their order; what it says of the others is
so.** -/
theorem exact_checkAll (bins : List Bin) :
    (checkAll bins = .ok () ↔
        bins ≠ [] ∧ (∀ b ∈ bins, 0 < b.capacity) ∧ (∀ b ∈ bins, b.stop ≤ addressSpace)
          ∧ Pairwise fun i j : Fin bins.length => Disjoint bins[i].addresses bins[j].addresses)
      ∧ ∀ e, checkAll bins = .error e → e.code = .bins ∧ Tells bins e := by
  refine ⟨checkAll_eq_ok_iff.trans ⟨?_, ?_⟩, fun e h => ?_⟩
  · rintro ⟨hne, hpos, hstop, hapart⟩
    exact ⟨hne, hpos, hstop, (pairwise_apart_iff hpos).mp hapart⟩
  · rintro ⟨hne, hpos, hstop, hdisjoint⟩
    exact ⟨hne, hpos, hstop, (pairwise_apart_iff hpos).mpr hdisjoint⟩
  · have htells := tells_of_checkAll h
    exact ⟨htells.isFault.code_eq, htells⟩

/-- Bins out of order, of which the first one starts within the last one. -/
example : checkAll [.mk 0x2000 0x100, .mk 0x4000 1, .mk 0x1F80 0x100]
    = .error (.binsOverlap 0x1F80 0x2000) := by
  cbv

end DeltaScript.Bin
