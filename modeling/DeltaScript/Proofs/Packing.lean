import Mathlib
import DeltaScript.Placement.Layout
import DeltaScript.Proofs.Bins

/-!
# Packed bins

Both ways to find placements put blocks into bins one after the other, each at the cursor of the
first bin with room for it: one piece of memory is a single bin.  `Packed` says so without saying
how the bin is found, and everything that holds of addresses is proved of it.

* `Packed` — blocks are put at the cursors of the first bins with room for them.
* `Filling.packed`, `Placement.packed_stack` — both ways to find placements do that.
* `Filling.stuck_eq_none_iff` — **first fit stops only where blocks cannot be packed.**
* `Packed.after_eq` — a cursor moves by the bytes that are put into its bin (`Placement.load`).
* `Packed.exists_cursor` — where a block is put, and why not into an earlier bin.
* `Packed.within`, `Packed.pairwise_apart` — **a block that is not empty lies within its bin, and no
  two of them share an address.**
* `Packed.exists_segmentBytes` — **the bytes of a block stand where its address says**: the segment
  of a bin has the bytes of its blocks in the order in which they were put there.
-/

namespace DeltaScript

namespace Placement

/-- One past the last address of a placement. -/
def stop (p : Placement) : ℕ :=
  p.address.toNat + p.size

/-- Two placements share no address. -/
def Apart (p q : Placement) : Prop :=
  p.stop ≤ q.address.toNat ∨ q.stop ≤ p.address.toNat

/-- The number of bytes that placements take in the bin with a given number. -/
def load (placed : List Placement) (slot : ℕ) : ℕ :=
  ((placed.filter (·.segment == slot)).map Placement.size).sum

@[simp] theorem load_nil (slot : ℕ) : load [] slot = 0 := rfl

theorem load_cons (p : Placement) (placed : List Placement) (slot : ℕ) :
    load (p :: placed) slot = (if p.segment = slot then p.size else 0) + load placed slot := by
  by_cases h : p.segment = slot
  · simp [load, h]
  · simp [load, h]

theorem load_append (before behind : List Placement) (slot : ℕ) :
    load (before ++ behind) slot = load before slot + load behind slot := by
  simp [load]

end Placement

/-- Blocks are put into the first bins with room for them: `taken` and `after` are the bytes taken
in each bin before and afterwards. -/
inductive Packed (bins : List Bin) (size : Block → ℕ) :
    (ℕ → ℕ) → List Placement → (ℕ → ℕ) → Prop
  /-- No block is left. -/
  | nil {taken : ℕ → ℕ} : Packed bins size taken [] taken
  /-- The next block is put at the cursor of a bin with room for it, and no bin before has room. -/
  | cons {taken after : ℕ → ℕ} {block : Block} {slot : ℕ} {bin : Bin} {placed : List Placement}
      (hbin : bins[slot]? = some bin) (hroom : taken slot + size block ≤ bin.capacity)
      (hfirst : ∀ i < slot, ∀ b, bins[i]? = some b → b.capacity < taken i + size block)
      (hrest : Packed bins size (Function.update taken slot (taken slot + size block)) placed
        after) :
      Packed bins size taken
        (⟨block, addressAt (bin.address.toNat + taken slot), size block, slot⟩ :: placed) after

namespace Packed

variable {bins : List Bin} {size : Block → ℕ} {taken after : ℕ → ℕ} {placed : List Placement}

/-- A cursor moves by the bytes that are put into its bin. -/
theorem after_eq (h : Packed bins size taken placed after) (slot : ℕ) :
    after slot = taken slot + Placement.load placed slot := by
  induction h with
  | nil => rfl
  | @cons taken after block slot' bin placed hbin hroom hfirst hrest ih =>
      rw [ih, Placement.load_cons]
      by_cases hslot : slot' = slot
      · subst hslot
        rw [Function.update_self, if_pos rfl, Nat.add_assoc]
      · rw [Function.update_of_ne (Ne.symm hslot), if_neg hslot, Nat.zero_add]

theorem after_le (h : Packed bins size taken placed after)
    (hle : ∀ slot bin, bins[slot]? = some bin → taken slot ≤ bin.capacity) :
    ∀ slot bin, bins[slot]? = some bin → after slot ≤ bin.capacity := by
  induction h with
  | nil => exact hle
  | @cons taken after block slot' bin placed hbin hroom hfirst hrest ih =>
      refine ih fun slot b hb => ?_
      by_cases hslot : slot = slot'
      · subst hslot
        obtain rfl := Option.some.inj (hbin.symm.trans hb)
        rwa [Function.update_self]
      · rw [Function.update_of_ne hslot]
        exact hle slot b hb

/-- **No bin gets more than it has room for.** -/
theorem load_le (h : Packed bins size (fun _ => 0) placed after) :
    ∀ slot bin, bins[slot]? = some bin → Placement.load placed slot ≤ bin.capacity := by
  intro slot bin hbin
  have hle := h.after_le (fun _ _ _ => Nat.zero_le _) slot bin hbin
  rwa [h.after_eq, Nat.zero_add] at hle

/-- Placing blocks can be stopped in between. -/
theorem exists_between {before behind : List Placement}
    (h : Packed bins size taken (before ++ behind) after) :
    ∃ middle, Packed bins size taken before middle ∧ Packed bins size middle behind after := by
  induction before generalizing taken with
  | nil => exact ⟨taken, .nil, h⟩
  | cons p before ih =>
      rw [List.cons_append] at h
      cases h with
      | cons hbin hroom hfirst hrest =>
          obtain ⟨middle, hbefore, hbehind⟩ := ih hrest
          exact ⟨middle, .cons hbin hroom hfirst hbefore, hbehind⟩

/-- **Every block is put at the cursor of the first bin with room for it**, and the cursor of a bin
is moved by the blocks that were put into it before. -/
theorem exists_cursor {before behind : List Placement} {p : Placement}
    (h : Packed bins size taken (before ++ p :: behind) after) :
    ∃ bin, bins[p.segment]? = some bin
      ∧ p.address = addressAt (bin.address.toNat
          + (taken p.segment + Placement.load before p.segment))
      ∧ taken p.segment + Placement.load before p.segment + p.size ≤ bin.capacity
      ∧ ∀ i < p.segment, ∀ b, bins[i]? = some b →
          b.capacity < taken i + Placement.load before i + p.size := by
  obtain ⟨middle, hbefore, hbehind⟩ := h.exists_between
  cases hbehind with
  | cons hbin hroom hfirst hrest =>
      simp only [hbefore.after_eq] at hroom hfirst ⊢
      exact ⟨_, hbin, rfl, hroom, hfirst⟩

/-- **Every block is put behind what its bin held before**, and the bin has room for it. -/
theorem exists_of_mem (h : Packed bins size taken placed after) {p : Placement} (hp : p ∈ placed) :
    ∃ bin cursor, bins[p.segment]? = some bin ∧ p.size = size p.block
      ∧ p.address = addressAt (bin.address.toNat + cursor) ∧ taken p.segment ≤ cursor
      ∧ cursor + p.size ≤ bin.capacity := by
  induction h with
  | nil => cases hp
  | @cons taken after block slot bin placed hbin hroom hfirst hrest ih =>
      rcases List.mem_cons.mp hp with rfl | hp
      · exact ⟨bin, taken slot, hbin, rfl, rfl, le_rfl, hroom⟩
      · obtain ⟨bin', cursor, hbin', hsize, haddress, hcursor, hroom'⟩ := ih hp
        refine ⟨bin', cursor, hbin', hsize, haddress, le_trans ?_ hcursor, hroom'⟩
        by_cases hslot : p.segment = slot
        · rw [hslot, Function.update_self]
          omega
        · rw [Function.update_of_ne hslot]

theorem size_eq (h : Packed bins size taken placed after) :
    ∀ p ∈ placed, p.size = size p.block := by
  intro p hp
  obtain ⟨-, -, -, hsize, -⟩ := h.exists_of_mem hp
  exact hsize

/-- A position within a bin is an address, unless nothing lies there. -/
theorem toNat_addressAt_of_lt {bin : Bin} (hstop : bin.stop ≤ addressSpace) {cursor n : ℕ}
    (hn : 0 < n) (hroom : cursor + n ≤ bin.capacity) :
    (addressAt (bin.address.toNat + cursor)).toNat = bin.address.toNat + cursor := by
  rw [toNat_addressAt]
  simp only [Bin.stop, addressSpace] at hstop
  omega

/-- **A block that is not empty lies within its bin.** -/
theorem within (h : Packed bins size taken placed after)
    (hstop : ∀ b ∈ bins, b.stop ≤ addressSpace) {p : Placement} (hp : p ∈ placed)
    (hpos : 0 < p.size) :
    ∃ bin, bins[p.segment]? = some bin
      ∧ bin.address.toNat + taken p.segment ≤ p.address.toNat ∧ p.stop ≤ bin.stop := by
  obtain ⟨bin, cursor, hbin, -, haddress, hcursor, hroom⟩ := h.exists_of_mem hp
  have hposition : p.address.toNat = bin.address.toNat + cursor := by
    rw [haddress]
    exact toNat_addressAt_of_lt (hstop bin (List.mem_of_getElem? hbin)) hpos hroom
  refine ⟨bin, hbin, by omega, ?_⟩
  simp only [Placement.stop, Bin.stop]
  omega

/-- **No two blocks that are not empty share an address.**  In one bin the later one is put behind
the earlier one; different bins are apart. -/
theorem pairwise_apart (h : Packed bins size taken placed after)
    (hstop : ∀ b ∈ bins, b.stop ≤ addressSpace) (hapart : bins.Pairwise Bin.Apart) :
    placed.Pairwise fun p q => 0 < p.size → 0 < q.size → p.Apart q := by
  induction h with
  | nil => exact List.Pairwise.nil
  | @cons taken after block slot bin placed hbin hroom hfirst hrest ih =>
      refine List.Pairwise.cons (fun q hq hpos hqpos => ?_) ih
      have hposition := toNat_addressAt_of_lt (hstop bin (List.mem_of_getElem? hbin)) hpos hroom
      obtain ⟨bin', hbin', hlow, hhigh⟩ := hrest.within hstop hq hqpos
      simp only [Placement.Apart, Placement.stop, Bin.stop] at hhigh hposition ⊢
      rw [hposition]
      by_cases hslot : q.segment = slot
      · obtain rfl := Option.some.inj (hbin.symm.trans (hslot ▸ hbin'))
        rw [hslot, Function.update_self] at hlow
        omega
      · have hbins : bin.Apart bin' := by
          obtain ⟨hi, rfl⟩ := List.getElem?_eq_some_iff.mp hbin
          obtain ⟨hj, rfl⟩ := List.getElem?_eq_some_iff.mp hbin'
          rcases Nat.lt_or_gt_of_ne hslot with hlt | hlt
          · exact (List.pairwise_iff_getElem.mp hapart _ _ hj hi hlt).symm
          · exact List.pairwise_iff_getElem.mp hapart _ _ hi hj hlt
        simp only [Bin.Apart, Bin.stop] at hbins
        omega

/-! ## The bytes of a bin -/

variable {blocks : Blocks} {header : List UInt8}

theorem length_blockBytes (hheader : header.length = blocks.headerSize) (block : Block) :
    (Layout.blockBytes blocks header block).length = blocks.size block := by
  cases block with
  | header => exact hheader
  | table index => rfl
  | script object => rfl

theorem segmentBytes_cons (p : Placement) (placed : List Placement) (slot : ℕ) :
    Layout.segmentBytes blocks header (p :: placed) slot
      = (if p.segment = slot then Layout.blockBytes blocks header p.block else [])
        ++ Layout.segmentBytes blocks header placed slot := by
  by_cases h : p.segment = slot
  · simp [Layout.segmentBytes, h]
  · simp [Layout.segmentBytes, h]

theorem length_segmentBytes (hheader : header.length = blocks.headerSize) {placed : List Placement}
    (hsize : ∀ p ∈ placed, p.size = blocks.size p.block) (slot : ℕ) :
    (Layout.segmentBytes blocks header placed slot).length = Placement.load placed slot := by
  induction placed with
  | nil => rfl
  | cons p placed ih =>
      have hp := hsize p (by simp)
      rw [segmentBytes_cons, Placement.load_cons, List.length_append,
        ih fun q hq => hsize q (List.mem_cons_of_mem p hq)]
      split_ifs
      · rw [length_blockBytes hheader, hp]
      · rfl

/-- **The bytes of a block stand where its address says**, by induction on the blocks: what is put
into a bin is laid down behind what the bin holds already. -/
theorem exists_segmentBytes (hheader : header.length = blocks.headerSize)
    (h : Packed bins blocks.size taken placed after) {p : Placement} (hp : p ∈ placed) :
    ∃ bin before behind, bins[p.segment]? = some bin
      ∧ p.address = addressAt (bin.address.toNat + (taken p.segment + before.length))
      ∧ taken p.segment + before.length + p.size ≤ bin.capacity
      ∧ Layout.segmentBytes blocks header placed p.segment
          = before ++ Layout.blockBytes blocks header p.block ++ behind := by
  induction h with
  | nil => cases hp
  | @cons taken after block slot bin placed hbin hroom hfirst hrest ih =>
      rcases List.mem_cons.mp hp with rfl | hp
      · refine ⟨bin, [], Layout.segmentBytes blocks header placed slot, hbin, rfl, hroom, ?_⟩
        rw [segmentBytes_cons, if_pos rfl]
        rfl
      · obtain ⟨bin', before, behind, hbin', haddress, hroom', hbytes⟩ := ih hp
        rw [segmentBytes_cons, hbytes]
        by_cases hslot : p.segment = slot
        · rw [hslot, Function.update_self] at haddress hroom'
          refine ⟨bin', Layout.blockBytes blocks header block ++ before, behind, hbin', ?_, ?_, ?_⟩
          · rw [haddress, hslot, List.length_append, length_blockBytes hheader]
            simp only [Nat.add_assoc]
          · rw [hslot, List.length_append, length_blockBytes hheader]
            omega
          · rw [if_pos hslot.symm]
            simp only [List.append_assoc]
        · rw [Function.update_of_ne hslot] at haddress hroom'
          exact ⟨bin', before, behind, hbin', haddress, hroom', by rw [if_neg (Ne.symm hslot)]; rfl⟩

end Packed

/-! ## All blocks -/

namespace Blocks

variable {blocks : Blocks}

theorem map_getD_range {α : Type} (xs : List α) (default : α) :
    (List.range xs.length).map (xs.getD · default) = xs := by
  apply List.ext_getElem (by simp)
  intro i _ hi
  simp [hi]

theorem sum_size_tableBlocks (blocks : Blocks) :
    (blocks.tableBlocks.map blocks.size).sum = blocks.tablesSize := by
  have hmap : blocks.tableBlocks.map blocks.size
      = ((List.range blocks.tables.length).map (blocks.tables.getD · [])).map List.length := by
    simp only [tableBlocks, List.map_map]
    rfl
  rw [hmap, map_getD_range, tablesSize, List.length_flatten]

theorem sum_size_scriptBlocks (blocks : Blocks) :
    (blocks.scriptBlocks.map blocks.size).sum = blocks.scriptsSize := by
  have hmap : blocks.scriptBlocks.map blocks.size
      = ((List.range blocks.scripts.length).map (blocks.scripts.getD · ⟨0, []⟩)).map
          fun script => script.bytes.length := by
    simp only [scriptBlocks, List.map_map]
    refine List.map_congr_left fun i hi => ?_
    have hi := List.mem_range.mp hi
    simp [size, scriptBytes, hi]
  rw [hmap, map_getD_range, scriptsSize, List.length_flatMap]

theorem sum_size_all (blocks : Blocks) : (blocks.all.map blocks.size).sum = blocks.totalSize := by
  rw [all, List.map_cons, List.map_append, List.sum_cons, List.sum_append, sum_size_tableBlocks,
    sum_size_scriptBlocks, size, totalSize]
  omega

theorem nodup_all (blocks : Blocks) : blocks.all.Nodup := by
  have hscripts : blocks.scriptBlocks.Nodup :=
    List.nodup_range.map fun i j h => Block.script.inj h
  have htables : blocks.tableBlocks.Nodup :=
    List.nodup_range.map fun i j h => Block.table.inj h
  refine List.nodup_cons.mpr ⟨?_, hscripts.append htables ?_⟩
  · simp [scriptBlocks, tableBlocks]
  · intro block hscript htable
    obtain ⟨i, -, rfl⟩ := List.mem_map.mp hscript
    obtain ⟨j, -, h⟩ := List.mem_map.mp htable
    cases h

/-- Over bins the same blocks are placed as in one piece. -/
theorem perm_order (blocks : Blocks) : (Filling.order blocks).Perm blocks.all := by
  refine List.Perm.cons _ (List.perm_append_comm.trans ?_)
  exact List.Perm.append_right _ (List.mergeSort_perm _ _)

end Blocks

/-! ## Both ways to find placements -/

namespace Placement

variable {size : Block → ℕ}

theorem map_block_stack (position : ℕ) (blocks : List Block) :
    (stack size position blocks).map Placement.block = blocks := by
  induction blocks generalizing position with
  | nil => rfl
  | cons block rest ih => rw [stack, List.map_cons, ih]

theorem segment_of_mem_stack {position : ℕ} {blocks : List Block} {p : Placement}
    (hp : p ∈ stack size position blocks) : p.segment = 0 := by
  induction blocks generalizing position with
  | nil => cases hp
  | cons block rest ih =>
      rcases List.mem_cons.mp hp with rfl | hp
      · rfl
      · exact ih hp

/-- **Blocks one after the other are packed into a single bin**, if it has room for all of them. -/
theorem packed_stack {bin : Bin} (taken : ℕ → ℕ) {blocks : List Block}
    (hroom : taken 0 + (blocks.map size).sum ≤ bin.capacity) :
    ∃ after, Packed [bin] size taken (stack size (bin.address.toNat + taken 0) blocks) after := by
  induction blocks generalizing taken with
  | nil => exact ⟨taken, .nil⟩
  | cons block rest ih =>
      rw [List.map_cons, List.sum_cons] at hroom
      have hself : Function.update taken 0 (taken 0 + size block) 0 = taken 0 + size block :=
        Function.update_self ..
      obtain ⟨after, hrest⟩ := ih (Function.update taken 0 (taken 0 + size block))
        (by rw [hself]; omega)
      rw [hself, ← Nat.add_assoc] at hrest
      have hcapacity : taken 0 + size block ≤ bin.capacity := by omega
      have hfirst : ∀ i < 0, ∀ b, [bin][i]? = some b → b.capacity < taken i + size block :=
        fun i hi => absurd hi i.not_lt_zero
      exact ⟨after, .cons rfl hcapacity hfirst hrest⟩

end Placement

namespace Filling

variable {bins : List Bin} {size : Block → ℕ} {used : List ℕ} {blocks : List Block}

/-- No bin holds more than it has room for. -/
def Holds (bins : List Bin) (used : List ℕ) : Prop :=
  used.length = bins.length ∧ ∀ slot bin, bins[slot]? = some bin → used.getD slot 0 ≤ bin.capacity

/-- **The bin that is chosen is the first with room.** -/
theorem slot?_eq_some_iff (h : Holds bins used) {n slot : ℕ} :
    slot? bins used n = some slot ↔
      (∃ bin, bins[slot]? = some bin ∧ used.getD slot 0 + n ≤ bin.capacity)
        ∧ ∀ i < slot, ∀ b, bins[i]? = some b → b.capacity < used.getD i 0 + n := by
  obtain ⟨hlength, hle⟩ := h
  -- what is asked of a bin, said with the bytes used in it
  have hroom : ∀ i (hi : i < (bins.zip used).length),
      decide (n ≤ (bins.zip used)[i].1.capacity - (bins.zip used)[i].2) = true ↔
        ∃ bin, bins[i]? = some bin ∧ used.getD i 0 + n ≤ bin.capacity := by
    intro i hi
    rw [List.length_zip] at hi
    have hi : i < bins.length := by omega
    have hi' : i < used.length := by omega
    have hbin : bins[i]? = some bins[i] := List.getElem?_eq_getElem hi
    have hused : used.getD i 0 = used[i] := List.getD_eq_getElem _ _ hi'
    have hcapacity := hle i _ hbin
    simp only [decide_eq_true_eq, List.getElem_zip, hbin, Option.some.injEq, exists_eq_left']
    omega
  rw [slot?, List.findIdx?_eq_some_iff_getElem]
  constructor
  · rintro ⟨hslot, hp, hbefore⟩
    refine ⟨(hroom slot hslot).mp hp, fun i hi b hb => ?_⟩
    by_contra hge
    exact hbefore i hi ((hroom i (by omega)).mpr ⟨b, hb, not_lt.mp hge⟩)
  · rintro ⟨⟨bin, hbin, hfits⟩, hbefore⟩
    have hslot : slot < (bins.zip used).length := by
      have := (List.getElem?_eq_some_iff.mp hbin).1
      rw [List.length_zip]
      omega
    refine ⟨hslot, (hroom slot hslot).mpr ⟨bin, hbin, hfits⟩, fun i hi hp => ?_⟩
    obtain ⟨b, hb, hfits⟩ := (hroom i (by omega)).mp hp
    have := hbefore i hi b hb
    omega

theorem getD_modify (n : ℕ) {slot : ℕ} (hslot : slot < used.length) :
    (fun i => (used.modify slot (· + n)).getD i 0)
      = Function.update (fun i => used.getD i 0) slot (used.getD slot 0 + n) := by
  funext i
  by_cases hi : i = slot
  · subst hi
    simp [List.getD_eq_getElem?_getD, hslot]
  · rw [Function.update_of_ne hi]
    simp [List.getD_eq_getElem?_getD, Ne.symm hi]

theorem Holds.modify (h : Holds bins used) {slot n : ℕ} {bin : Bin} (hbin : bins[slot]? = some bin)
    (hroom : used.getD slot 0 + n ≤ bin.capacity) : Holds bins (used.modify slot (· + n)) := by
  have hslot : slot < used.length := h.1 ▸ (List.getElem?_eq_some_iff.mp hbin).1
  refine ⟨(List.length_modify ..).trans h.1, fun i b hb => ?_⟩
  rw [congrFun (getD_modify n hslot) i]
  by_cases hi : i = slot
  · subst hi
    obtain rfl := Option.some.inj (hbin.symm.trans hb)
    rwa [Function.update_self]
  · rw [Function.update_of_ne hi]
    exact h.2 i b hb

theorem getD_replicate_zero (n : ℕ) : (fun i => (List.replicate n 0).getD i 0) = fun _ => 0 := by
  funext i
  rw [List.getD_eq_getElem?_getD, List.getElem?_replicate]
  split <;> rfl

theorem holds_replicate (bins : List Bin) : Holds bins (List.replicate bins.length 0) := by
  refine ⟨List.length_replicate, fun slot bin _ => ?_⟩
  rw [congrFun (getD_replicate_zero bins.length) slot]
  exact Nat.zero_le _

theorem length_used_fill : (fill bins size used blocks).used.length = used.length := by
  induction blocks generalizing used with
  | nil => rfl
  | cons block rest ih =>
      rw [fill]
      split
      · rfl
      · exact ih.trans (List.length_modify ..)

theorem map_block_placed (h : (fill bins size used blocks).stuck = none) :
    (fill bins size used blocks).placed.map Placement.block = blocks := by
  induction blocks generalizing used with
  | nil => rfl
  | cons block rest ih =>
      rw [fill] at h ⊢
      split at h
      · cases h
      · rename_i slot hslot
        simp only [List.map_cons, place, ih h]

/-- **First fit packs blocks.** -/
theorem packed (h : Holds bins used) :
    Packed bins size (fun i => used.getD i 0) (fill bins size used blocks).placed
      fun i => (fill bins size used blocks).used.getD i 0 := by
  induction blocks generalizing used with
  | nil => exact .nil
  | cons block rest ih =>
      rw [fill]
      cases hslot : slot? bins used (size block) with
      | none => exact .nil
      | some slot =>
          obtain ⟨⟨bin, hbin, hroom⟩, hfirst⟩ := (slot?_eq_some_iff h).mp hslot
          have hused : slot < used.length := h.1 ▸ (List.getElem?_eq_some_iff.mp hbin).1
          have hrest := ih (h.modify hbin hroom)
          rw [getD_modify (size block) hused] at hrest
          have hplace : place bins used size block slot
              = ⟨block, addressAt (bin.address.toNat + used.getD slot 0), size block, slot⟩ := by
            simp only [place, hbin]
          simp only [hplace]
          exact .cons hbin hroom hfirst hrest

/-- First fit keeps to what the bins have room for. -/
theorem Holds.fill (h : Holds bins used) : Holds bins (fill bins size used blocks).used :=
  ⟨length_used_fill.trans h.1, (packed h).after_le h.2⟩

/-- **Where first fit stops, all blocks before have been placed, and no bin has room for the next
one.** -/
theorem exists_rest_of_stuck {block : Block}
    (h : (fill bins size used blocks).stuck = some block) :
    slot? bins (fill bins size used blocks).used (size block) = none ∧ ∃ rest,
      blocks = (fill bins size used blocks).placed.map Placement.block ++ block :: rest := by
  induction blocks generalizing used with
  | nil => cases h
  | cons b rest ih =>
      rw [Filling.fill] at h ⊢
      cases hslot : slot? bins used (size b) with
      | none =>
          simp only [hslot] at h
          obtain rfl := Option.some.inj h
          exact ⟨hslot, rest, rfl⟩
      | some slot =>
          simp only [hslot] at h
          obtain ⟨hnone, behind, hrest⟩ := ih h
          exact ⟨hnone, behind, congrArg (b :: ·) hrest⟩

/-- **First fit stops only where blocks cannot be packed.** -/
theorem stuck_eq_none_iff (h : Holds bins used) :
    (fill bins size used blocks).stuck = none ↔ ∃ placed after,
      Packed bins size (fun i => used.getD i 0) placed after
        ∧ placed.map Placement.block = blocks := by
  refine ⟨fun hstuck => ⟨_, _, packed h, map_block_placed hstuck⟩, ?_⟩
  induction blocks generalizing used with
  | nil => exact fun _ => rfl
  | cons block rest ih =>
      rintro ⟨placed, after, hpacked, hblocks⟩
      cases hpacked with
      | nil => cases hblocks
      | @cons _ _ _ slot bin placed hbin hroom hfirst hrest =>
          obtain ⟨rfl, hplaced⟩ := List.cons.inj hblocks
          have hslot := (slot?_eq_some_iff h).mpr ⟨⟨bin, hbin, hroom⟩, hfirst⟩
          have hused : slot < used.length := h.1 ▸ (List.getElem?_eq_some_iff.mp hbin).1
          rw [fill]
          simp only [hslot]
          refine ih (h.modify hbin hroom) ⟨placed, after, ?_, hplaced⟩
          rwa [getD_modify _ hused]

end Filling

end DeltaScript
