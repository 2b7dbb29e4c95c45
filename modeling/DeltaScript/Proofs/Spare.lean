import DeltaScript.Proofs.Layout

/-!
# Spare bins

Bins behind those that are enough for all blocks change nothing.  A run with the spare bins makes
the choices of the run without them: the search for room ends within the bins of the latter, so that
it never comes to a spare one.  What differs is the bytes used, **which are the same with a zero for
each spare bin behind**, and neither the numbers of the segments nor their addresses are changed by
bins that are not used.

* `Filling.extend` — a filling with unused bins behind.
* `Filling.fill_append`, `Filling.ofBlocks_append` — **a run that does not get stuck is extended by
  the spare bins**, and nothing else about it is changed.
* `Filling.placements_extend`, `Filling.segmentAddresses_extend` — unused bins do not show.
* `Layout.allocate_append_bins` — **a layout is not disturbed by bins behind its own.**
-/

namespace DeltaScript

namespace Filling

/-- A filling with unused bins behind. -/
def extend (f : Filling) (n : ℕ) : Filling :=
  { f with used := f.used ++ List.replicate n 0 }

variable {bins spare : List Bin} {size : Block → ℕ} {used : List ℕ} {blocks : List Block}

/-! ## The choices of a run -/

theorem lt_of_slot? {n slot : ℕ} (h : slot? bins used n = some slot) :
    slot < bins.length ∧ slot < used.length := by
  obtain ⟨hslot, -⟩ := List.findIdx?_eq_some_iff_getElem.mp h
  rwa [List.length_zip, lt_min_iff] at hslot

/-- **The search for room does not come to the spare bins.** -/
theorem slot?_append (hlength : used.length = bins.length) {n slot : ℕ} (unused : List ℕ)
    (h : slot? bins used n = some slot) :
    slot? (bins ++ spare) (used ++ unused) n = some slot := by
  rw [slot?] at h ⊢
  rw [List.zip_append hlength.symm, List.findIdx?_append, h]
  rfl

theorem place_append {slot : ℕ} (hbin : slot < bins.length) (hused : slot < used.length)
    (unused : List ℕ) (block : Block) :
    place (bins ++ spare) (used ++ unused) size block slot = place bins used size block slot := by
  rw [place, place, List.getElem?_append_left hbin, List.getD_append _ _ _ _ hused]

theorem modify_append {slot : ℕ} (hused : slot < used.length) (unused : List ℕ) (f : ℕ → ℕ) :
    (used ++ unused).modify slot f = used.modify slot f ++ unused := by
  have happend : slot < (used ++ unused).length := by
    rw [List.length_append]
    omega
  rw [List.modify_eq_take_cons_drop happend, List.modify_eq_take_cons_drop hused,
    List.take_append_of_le_length hused.le, List.drop_append_of_le_length hused,
    List.getElem_append_left hused, List.append_assoc, List.cons_append]

/-- **A run that does not get stuck makes the same placements with spare bins behind**, by induction
on the blocks: what is unused stays unused. -/
theorem fill_append (hlength : used.length = bins.length) (unused : List ℕ)
    (h : (fill bins size used blocks).stuck = none) :
    fill (bins ++ spare) size (used ++ unused) blocks
      = { fill bins size used blocks with
          used := (fill bins size used blocks).used ++ unused } := by
  induction blocks generalizing used with
  | nil => rfl
  | cons block rest ih =>
      rw [fill] at h
      rw [fill, fill]
      cases hslot : slot? bins used (size block) with
      | none =>
          simp only [hslot] at h
          cases h
      | some slot =>
          simp only [hslot] at h
          obtain ⟨hbin, hused⟩ := lt_of_slot? hslot
          have hrest := ih ((List.length_modify ..).trans hlength) h
          simp only [slot?_append hlength unused hslot, modify_append hused, hrest,
            place_append hbin hused]

theorem ofBlocks_append {blocks : Blocks} (h : (ofBlocks blocks bins).stuck = none) :
    ofBlocks blocks (bins ++ spare) = (ofBlocks blocks bins).extend spare.length := by
  have hreplicate : List.replicate (bins ++ spare).length 0
      = List.replicate bins.length 0 ++ List.replicate spare.length 0 := by
    rw [List.length_append, List.replicate_add]
  rw [ofBlocks, hreplicate]
  exact fill_append List.length_replicate _ h

/-! ## Bins that are not used -/

theorem segmentOf_extend (f : Filling) (n slot : ℕ) :
    (f.extend n).segmentOf slot = f.segmentOf slot := by
  rcases Nat.lt_or_ge slot f.used.length with hlt | hge
  · rw [segmentOf, segmentOf, extend, List.getD_append _ _ _ _ hlt,
      List.take_append_of_le_length hlt.le]
  · have hzero : (f.extend n).used.getD slot 0 = 0 := by
      rw [extend, List.getD_append_right _ _ _ _ hge]
      exact congrFun (getD_replicate_zero n) _
    rw [segmentOf, segmentOf, hzero, List.getD_eq_default _ _ hge]
    rfl

theorem placements_extend (f : Filling) (n : ℕ) : (f.extend n).placements = f.placements := by
  simp only [placements, segmentOf_extend]
  rfl

theorem segmentAddresses_extend {f : Filling} (hlength : f.used.length = bins.length) :
    (f.extend spare.length).segmentAddresses (bins ++ spare) = f.segmentAddresses bins := by
  rw [segmentAddresses, segmentAddresses, extend, List.zip_append hlength.symm, List.filter_append]
  refine congrArg (List.map _) (List.append_right_eq_self.mpr (List.filter_eq_nil_iff.mpr ?_))
  rintro ⟨bin, taken⟩ hmem
  obtain rfl := List.eq_of_mem_replicate (List.of_mem_zip hmem).2
  simp

end Filling

/-! ## Layouts -/

theorem Placement.firstFit_append {blocks : Blocks} {bins spare : List Bin}
    {placements : List Placement} {addresses : List UInt16}
    (h : firstFit blocks bins = .ok (placements, addresses))
    (hbins : Bin.Usable (bins ++ spare)) :
    firstFit blocks (bins ++ spare) = .ok (placements, addresses) := by
  obtain ⟨-, hstuck, rfl, rfl⟩ := firstFit_eq_ok_iff.mp h
  have hextend : Filling.ofBlocks blocks (bins ++ spare)
      = (Filling.ofBlocks blocks bins).extend spare.length := Filling.ofBlocks_append hstuck
  rw [firstFit_eq_ok_iff, hextend]
  exact ⟨hbins, hstuck, (Filling.placements_extend _ _).symm,
    (Filling.segmentAddresses_extend Filling.length_used_ofBlocks).symm⟩

/-- **A layout is not disturbed by bins behind its own**, as long as all bins together are usable:
its placements, its segments and its summary stay as they are, wherever the spare bins lie. -/
theorem Layout.allocate_append_bins {blocks : Blocks} {bins spare : List Bin} {l : Layout}
    (h : allocate blocks (.chunked bins) = .ok l) (hbins : Bin.checkAll (bins ++ spare) = .ok ()) :
    allocate blocks (.chunked (bins ++ spare)) = .ok l := by
  obtain ⟨hsteps, placements, addresses, hplace, rfl⟩ := allocate_eq_ok_iff.mp h
  have hfit := Placement.firstFit_append hplace (Bin.checkAll_eq_ok_iff.mp hbins)
  exact allocate_eq_ok_iff.mpr ⟨hsteps, placements, addresses, hfit, rfl⟩

/-- Bins of lower addresses, and with more room, than any that the blocks are placed in. -/
def Bin.spare : List Bin :=
  [.mk 0x1000 200, .mk 0x0800 300]

theorem Layout.allocate_append_bins_scattered :
    allocate Blocks.scattered (.chunked Bin.scattered) = .ok scattered
      ∧ Bin.checkAll (Bin.scattered ++ Bin.spare) = .ok ()
      ∧ allocate Blocks.scattered (.chunked (Bin.scattered ++ Bin.spare)) = .ok scattered := by
  have h : allocate Blocks.scattered (.chunked Bin.scattered) = .ok scattered := by cbv
  have hbins : Bin.checkAll (Bin.scattered ++ Bin.spare) = .ok () := by cbv
  exact ⟨h, hbins, allocate_append_bins h hbins⟩

end DeltaScript
