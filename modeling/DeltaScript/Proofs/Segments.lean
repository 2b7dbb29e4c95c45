import Mathlib
import DeltaScript.Proofs.Packing
import DeltaScript.Proofs.Sorting

/-!
# From bins to segments

A bin that is used becomes a segment.  While blocks are placed, a bin goes by its place in the list
of bins; afterwards a segment goes by its place among the segments, and the placements are
renumbered.

* `Mode.bins` — what blocks are placed in: the bins, or the rest of the address space from the base
  on (`Bin.above`).
* `Arranged` — packed blocks, and a numbering of the bins that are used: **different bins become
  different segments, in the order of the bins, and every segment comes from one of them.**
* `Arranged.segmentBytes_number` — the bytes of a segment are those of its bin.
* `Mode.placed`, `Layout.arranged_placed` — what a mode makes of blocks before bins are renumbered,
  and that **both ways to find placements arrange all blocks.**
-/

namespace DeltaScript

/-- All addresses from one on. -/
def Bin.above (base : UInt16) : Bin where
  address := base
  capacity := addressSpace - base.toNat
  stop_le := by
    have hbase : base.toNat < addressSpace := base.toNat_lt
    rw [Nat.add_sub_cancel' hbase.le]
    decide

theorem Bin.stop_above (base : UInt16) : (above base).stop = addressSpace :=
  Nat.add_sub_cancel' (Nat.le_of_lt base.toNat_lt)

/-- What blocks are placed in. -/
def Mode.bins : Mode → List Bin
  | .contiguous base => [Bin.above base]
  | .chunked bins => bins

/-! ## Renumbered placements -/

/-- A placement with its segment renumbered. -/
def Placement.renumber (number : ℕ → ℕ) (p : Placement) : Placement :=
  { p with segment := number p.segment }

/-- Some block with bytes is in a bin exactly if the bin holds bytes. -/
theorem Placement.load_pos_iff {placed : List Placement} {slot : ℕ} :
    0 < load placed slot ↔ ∃ p ∈ placed, p.segment = slot ∧ 0 < p.size := by
  induction placed with
  | nil => simp
  | cons p placed ih =>
      rw [load_cons, List.exists_mem_cons_iff, ← ih]
      by_cases h : p.segment = slot
      · simp only [h, if_true, true_and]
        omega
      · simp [h]

/-- Packed blocks, and the bins that become segments. -/
structure Arranged (bins : List Bin) (size : Block → ℕ) (placed : List Placement)
    (number : ℕ → ℕ) (used : List Bin) : Prop where
  /-- The blocks are packed into empty bins. -/
  packed : ∃ after, Packed bins size (fun _ => 0) placed after
  /-- The bins that are used stay in their order. -/
  sublist : used.Sublist bins
  /-- Every block goes to a segment. -/
  number_lt : ∀ p ∈ placed, number p.segment < used.length
  /-- The segment of a bin that holds bytes comes from that bin. -/
  used_number : ∀ slot bin, bins[slot]? = some bin → 0 < Placement.load placed slot →
    used[number slot]? = some bin
  /-- Bins that hold bytes become different segments. -/
  number_inj : ∀ i j, 0 < Placement.load placed i → 0 < Placement.load placed j →
    number i = number j → i = j
  /-- Every segment comes from a bin that holds bytes. -/
  exists_slot : ∀ k < used.length, ∃ slot, 0 < Placement.load placed slot ∧ number slot = k

namespace Arranged

variable {bins used : List Bin} {blocks : Blocks} {header : List UInt8} {placed : List Placement}
  {number : ℕ → ℕ}

theorem size_eq (h : Arranged bins blocks.size placed number used) :
    ∀ p ∈ placed, p.size = blocks.size p.block := by
  obtain ⟨after, hpacked⟩ := h.packed
  exact hpacked.size_eq

theorem exists_bin (h : Arranged bins blocks.size placed number used) {slot : ℕ}
    (hslot : 0 < Placement.load placed slot) :
    ∃ bin, bins[slot]? = some bin ∧ Placement.load placed slot ≤ bin.capacity := by
  obtain ⟨after, hpacked⟩ := h.packed
  obtain ⟨p, hp, rfl, -⟩ := Placement.load_pos_iff.mp hslot
  obtain ⟨bin, -, hbin, -⟩ := hpacked.exists_of_mem hp
  exact ⟨bin, hbin, hpacked.load_le _ _ hbin⟩

/-- **The bytes of a segment are those of its bin.**  Blocks of another bin that go to the same
segment are empty. -/
theorem segmentBytes_number (h : Arranged bins blocks.size placed number used)
    (hheader : header.length = blocks.headerSize) {slot : ℕ}
    (hslot : 0 < Placement.load placed slot) :
    Layout.segmentBytes blocks header (placed.map (Placement.renumber number)) (number slot)
      = Layout.segmentBytes blocks header placed slot := by
  -- the blocks are taken one by one, with what is known of the whole list kept for each of them
  have hbytes : ∀ p ∈ placed, (if number p.segment = number slot
      then Layout.blockBytes blocks header p.block else [])
        = if p.segment = slot then Layout.blockBytes blocks header p.block else [] := by
    intro p hp
    by_cases heq : p.segment = slot
    · rw [if_pos heq, if_pos (congrArg number heq)]
    · rw [if_neg heq]
      split_ifs with hnumber
      · have hzero : p.size = 0 := by
          by_contra hsize
          have hp' := Placement.load_pos_iff.mpr ⟨p, hp, rfl, Nat.pos_of_ne_zero hsize⟩
          exact heq (h.number_inj _ _ hp' hslot hnumber)
        apply List.eq_nil_of_length_eq_zero
        rw [Packed.length_blockBytes hheader, ← h.size_eq p hp, hzero]
      · rfl
  clear h hslot
  induction placed with
  | nil => rfl
  | cons p placed ih =>
      rw [List.map_cons, Packed.segmentBytes_cons, Packed.segmentBytes_cons,
        ih fun q hq => hbytes q (List.mem_cons_of_mem p hq)]
      exact congrArg (· ++ _) (hbytes p (by simp))

end Arranged

/-! ## Both ways to find placements -/

/-- One piece arranges all blocks. -/
theorem Placement.arranged_stack {blocks : Blocks} {base : UInt16}
    (hroom : base.toNat + blocks.totalSize ≤ addressSpace) :
    Arranged [Bin.above base] blocks.size
      (stack blocks.size base.toNat blocks.all) id [Bin.above base] := by
  have hcapacity : 0 + (blocks.all.map blocks.size).sum ≤ addressSpace - base.toNat := by
    rw [blocks.sum_size_all]
    omega
  have hzero : ∀ slot, 0 < load (stack blocks.size base.toNat blocks.all) slot → slot = 0 := by
    intro slot hslot
    obtain ⟨p, hp, rfl, -⟩ := load_pos_iff.mp hslot
    exact segment_of_mem_stack hp
  have hheader : 0 < load (stack blocks.size base.toNat blocks.all) 0 := by
    refine load_pos_iff.mpr ⟨_, List.mem_cons_self, rfl, ?_⟩
    simp [Blocks.size, Blocks.headerSize]
  refine ⟨packed_stack (fun _ => 0) hcapacity, List.Sublist.refl _, ?_, ?_, ?_, ?_⟩
  · intro p hp
    simp [segment_of_mem_stack hp]
  · intro slot bin hbin hslot
    exact hbin
  · intro i j hi hj _
    rw [hzero i hi, hzero j hj]
  · intro k hk
    have hk : k = 0 := by simpa using hk
    exact ⟨0, hheader, hk.symm⟩

namespace Filling

variable {bins : List Bin} {blocks : Blocks}

theorem packed_ofBlocks (blocks : Blocks) (bins : List Bin) :
    Packed bins blocks.size (fun _ => 0) (ofBlocks blocks bins).placed
      fun i => (ofBlocks blocks bins).used.getD i 0 := by
  have hpacked : Packed bins blocks.size (fun i => (List.replicate bins.length 0).getD i 0)
      (ofBlocks blocks bins).placed fun i => (ofBlocks blocks bins).used.getD i 0 :=
    packed (holds_replicate bins)
  rwa [getD_replicate_zero] at hpacked

/-- **First fit over empty bins stops only where the blocks cannot be packed.** -/
theorem stuck_ofBlocks_eq_none_iff :
    (ofBlocks blocks bins).stuck = none ↔ ∃ placed after,
      Packed bins blocks.size (fun _ => 0) placed after
        ∧ placed.map Placement.block = order blocks := by
  rw [ofBlocks, stuck_eq_none_iff (holds_replicate bins), getD_replicate_zero]

theorem load_eq (blocks : Blocks) (bins : List Bin) (slot : ℕ) :
    Placement.load (ofBlocks blocks bins).placed slot
      = (ofBlocks blocks bins).used.getD slot 0 := by
  rw [(packed_ofBlocks blocks bins).after_eq slot, Nat.zero_add]

theorem length_used_ofBlocks : (ofBlocks blocks bins).used.length = bins.length :=
  length_used_fill.trans List.length_replicate

/-- The bins that are used. -/
def usedBins (f : Filling) (bins : List Bin) : List Bin :=
  ((bins.zip f.used).filter fun (_, taken) => 0 < taken).map Prod.fst

theorem segmentAddresses_eq (f : Filling) (bins : List Bin) :
    f.segmentAddresses bins = (f.usedBins bins).map Bin.address := by
  rw [segmentAddresses, usedBins, List.map_map]
  rfl

section Numbering

variable {f : Filling}

/-- The number of a segment is counted among the bins as well as among the bytes used. -/
theorem segmentOf_eq (hlength : f.used.length = bins.length) {slot : ℕ}
    (hslot : 0 < f.used.getD slot 0) :
    f.segmentOf slot = ((bins.zip f.used).take slot).countP fun (_, taken) => 0 < taken := by
  rw [segmentOf, if_pos hslot]
  have hsnd : (bins.zip f.used).map Prod.snd = f.used := List.map_snd_zip hlength.le
  conv_lhs => rw [← hsnd, List.map_take.symm]
  rw [List.countP_map]
  rfl

theorem getElem?_zip_used (hlength : f.used.length = bins.length) {slot : ℕ} {bin : Bin} {n : ℕ} :
    (bins.zip f.used)[slot]? = some (bin, n) ↔
      bins[slot]? = some bin ∧ f.used.getD slot 0 = n := by
  rw [List.getElem?_zip_eq_some]
  refine and_congr_right fun hbin => ?_
  have hslot : slot < f.used.length := hlength ▸ (List.getElem?_eq_some_iff.mp hbin).1
  rw [List.getElem?_eq_getElem hslot, List.getD_eq_getElem _ _ hslot, Option.some.injEq]

theorem exists_bin_of_used (hlength : f.used.length = bins.length) {slot : ℕ}
    (hslot : 0 < f.used.getD slot 0) : ∃ bin, bins[slot]? = some bin := by
  have hlt : slot < bins.length := by
    by_contra hge
    rw [List.getD_eq_default _ _ (by omega)] at hslot
    exact Nat.lt_irrefl 0 hslot
  exact ⟨bins[slot], List.getElem?_eq_getElem hlt⟩

/-- The segment of a bin that is used comes from that bin. -/
theorem usedBins_segmentOf (hlength : f.used.length = bins.length) {slot : ℕ} {bin : Bin}
    (hbin : bins[slot]? = some bin) (hslot : 0 < f.used.getD slot 0) :
    (f.usedBins bins)[f.segmentOf slot]? = some bin := by
  have hzip := (getElem?_zip_used hlength).mpr ⟨hbin, rfl⟩
  have hkept := getElem?_filter_countP (p := fun x => decide (0 < x.2)) hzip (by simpa using hslot)
  rw [segmentOf_eq hlength hslot, usedBins, List.getElem?_map, hkept]
  rfl

theorem segmentOf_lt_segmentOf (hlength : f.used.length = bins.length) {i j : ℕ}
    (hi : 0 < f.used.getD i 0) (hj : 0 < f.used.getD j 0) (hij : i < j) :
    f.segmentOf i < f.segmentOf j := by
  obtain ⟨bin, hbin⟩ := exists_bin_of_used hlength hi
  rw [segmentOf_eq hlength hi, segmentOf_eq hlength hj]
  exact countP_take_lt ((getElem?_zip_used hlength).mpr ⟨hbin, rfl⟩) (by simpa using hi) hij

theorem exists_segmentOf (hlength : f.used.length = bins.length) {k : ℕ}
    (hk : k < (f.usedBins bins).length) :
    ∃ slot, 0 < f.used.getD slot 0 ∧ f.segmentOf slot = k := by
  rw [usedBins, List.length_map] at hk
  obtain ⟨slot, ⟨bin, n⟩, hslot, hpos, hcount⟩ := exists_countP_take hk
  obtain ⟨-, rfl⟩ := (getElem?_zip_used hlength).mp hslot
  have hpos : 0 < f.used.getD slot 0 := by simpa using hpos
  exact ⟨slot, hpos, (segmentOf_eq hlength hpos).trans hcount⟩

theorem usedBins_sublist (hlength : f.used.length = bins.length) :
    (f.usedBins bins).Sublist bins := by
  have hsub : (f.usedBins bins).Sublist ((bins.zip f.used).map Prod.fst) :=
    List.filter_sublist.map Prod.fst
  rwa [List.map_fst_zip hlength.ge] at hsub

end Numbering

/-- **First fit arranges all blocks**, unless one of them finds no room. -/
theorem arranged (hstuck : (ofBlocks blocks bins).stuck = none) :
    Arranged bins blocks.size (ofBlocks blocks bins).placed (ofBlocks blocks bins).segmentOf
      ((ofBlocks blocks bins).usedBins bins) := by
  have hload := load_eq blocks bins
  have hlength : (ofBlocks blocks bins).used.length = bins.length := length_used_ofBlocks
  have hpacked := packed_ofBlocks blocks bins
  have hheader : ∃ p ∈ (ofBlocks blocks bins).placed, p.block = .header :=
    List.mem_map.mp ((map_block_placed hstuck : _ = order blocks) ▸ List.mem_cons_self)
  generalize ofBlocks blocks bins = f at *
  have hlt : ∀ slot, 0 < f.used.getD slot 0 → f.segmentOf slot < (f.usedBins bins).length := by
    intro slot hslot
    obtain ⟨bin, hbin⟩ := exists_bin_of_used hlength hslot
    exact (List.getElem?_eq_some_iff.mp (usedBins_segmentOf hlength hbin hslot)).1
  have hsegments : 0 < (f.usedBins bins).length := by
    obtain ⟨p, hp, hblock⟩ := hheader
    have hpos : 0 < p.size := by
      simp [hpacked.size_eq p hp, hblock, Blocks.size, Blocks.headerSize]
    have := hlt p.segment (hload _ ▸ Placement.load_pos_iff.mpr ⟨p, hp, rfl, hpos⟩)
    omega
  simp only [← hload] at hlt
  refine ⟨⟨_, hpacked⟩, usedBins_sublist hlength, ?_, ?_, ?_, ?_⟩
  · intro p hp
    by_cases hpos : 0 < Placement.load f.placed p.segment
    · exact hlt _ hpos
    · rw [segmentOf, if_neg (hload _ ▸ hpos)]
      exact hsegments
  · intro slot bin hbin hpos
    exact usedBins_segmentOf hlength hbin (hload _ ▸ hpos)
  · intro i j hi hj hij
    rcases Nat.lt_trichotomy i j with h | h | h
    · exact absurd hij (segmentOf_lt_segmentOf hlength (hload _ ▸ hi) (hload _ ▸ hj) h).ne
    · exact h
    · exact absurd hij (segmentOf_lt_segmentOf hlength (hload _ ▸ hj) (hload _ ▸ hi) h).ne'
  · intro k hk
    obtain ⟨slot, hslot, rfl⟩ := exists_segmentOf hlength hk
    exact ⟨slot, hload _ ▸ hslot, rfl⟩

end Filling

/-! ## What finding placements decides -/

namespace Placement

theorem contiguous_eq_ok_iff {blocks : Blocks} {base : UInt16} {placements : List Placement} :
    contiguous blocks base = .ok placements ↔
      base.toNat + blocks.totalSize ≤ addressSpace
        ∧ placements = stack blocks.size base.toNat blocks.all := by
  rw [contiguous]
  split_ifs with h
  · simp [not_le.mpr h]
  · simp [not_lt.mp h, eq_comm]

theorem firstFit_eq_ok_iff {blocks : Blocks} {bins : List Bin} {placements : List Placement}
    {addresses : List UInt16} :
    firstFit blocks bins = .ok (placements, addresses) ↔
      Bin.Usable bins ∧ (Filling.ofBlocks blocks bins).stuck = none
        ∧ placements = (Filling.ofBlocks blocks bins).placements
        ∧ addresses = (Filling.ofBlocks blocks bins).segmentAddresses bins := by
  rw [firstFit, bind_eq_ok_iff, ← Bin.checkAll_eq_ok_iff]
  constructor
  · rintro ⟨_, hcheck, h⟩
    cases hstuck : (Filling.ofBlocks blocks bins).stuck with
    | none =>
        simp only [hstuck, Except.ok.injEq, Prod.mk.injEq] at h
        exact ⟨hcheck, rfl, h.1.symm, h.2.symm⟩
    | some block =>
        simp only [hstuck] at h
        cases h
  · rintro ⟨hcheck, hstuck, rfl, rfl⟩
    exact ⟨(), hcheck, by simp only [hstuck]⟩

end Placement

theorem Mode.usable_contiguous (base : UInt16) : Bin.Usable (Mode.contiguous base).bins := by
  refine ⟨List.cons_ne_nil _ _, ?_, ?_, List.pairwise_singleton _ _⟩
  · intro b hb
    obtain rfl := List.mem_singleton.mp hb
    exact Nat.sub_pos_of_lt base.toNat_lt
  · intro b hb
    obtain rfl := List.mem_singleton.mp hb
    exact (Bin.stop_above base).le

/-- What a mode makes of blocks before the segments are numbered: the segment of a placement is
still the number of its bin. -/
def Mode.placed (blocks : Blocks) : Mode → List Placement
  | .contiguous base => Placement.stack blocks.size base.toNat blocks.all
  | .chunked bins => (Filling.ofBlocks blocks bins).placed

namespace Layout

variable {blocks : Blocks} {mode : Mode} {placements : List Placement} {addresses : List UInt16}

/-- **Both ways to find placements arrange all blocks.** -/
theorem arranged_placed (h : place blocks mode = .ok (placements, addresses)) :
    Bin.Usable mode.bins ∧ ∃ number used,
      Arranged mode.bins blocks.size (mode.placed blocks) number used
        ∧ ((mode.placed blocks).map Placement.block).Perm blocks.all
        ∧ placements = (mode.placed blocks).map (Placement.renumber number)
        ∧ addresses = used.map Bin.address := by
  cases mode with
  | contiguous base =>
      obtain ⟨placements', hcontiguous, hpair⟩ := map_eq_ok_iff.mp h
      obtain ⟨hroom, rfl⟩ := Placement.contiguous_eq_ok_iff.mp hcontiguous
      obtain ⟨rfl, rfl⟩ := Prod.mk.inj hpair
      refine ⟨Mode.usable_contiguous base, id, _, Placement.arranged_stack hroom, ?_, ?_, rfl⟩
      · rw [Mode.placed, Placement.map_block_stack]
      · exact (List.map_id _).symm
  | chunked bins =>
      obtain ⟨husable, hstuck, rfl, rfl⟩ := Placement.firstFit_eq_ok_iff.mp h
      refine ⟨husable, _, _, Filling.arranged hstuck, ?_, rfl, Filling.segmentAddresses_eq _ _⟩
      have hplaced : (Filling.ofBlocks blocks bins).placed.map Placement.block
          = Filling.order blocks :=
        Filling.map_block_placed hstuck
      exact List.Perm.trans (.of_eq hplaced) blocks.perm_order

theorem arranged_of_place (h : place blocks mode = .ok (placements, addresses)) :
    Bin.Usable mode.bins ∧ ∃ placed number used,
      Arranged mode.bins blocks.size placed number used
        ∧ (placed.map Placement.block).Perm blocks.all
        ∧ placements = placed.map (Placement.renumber number)
        ∧ addresses = used.map Bin.address :=
  ⟨(arranged_placed h).1, _, (arranged_placed h).2⟩

end Layout

end DeltaScript
