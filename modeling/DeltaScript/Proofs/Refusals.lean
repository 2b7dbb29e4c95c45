import DeltaScript.Build
import DeltaScript.Proofs.Layout
import DeltaScript.Proofs.Session

/-!
# What frames and blocks can be refused for

Frames are gone through one by one, and fail as the first that fails; so are blocks, with whatever
the bins they are put into hold by then.  For both it is said here what passes, and what the failure
tells of the first that does not.  Objects are between the two: `DeltaScript.Proofs.Emission`.

* `Session.Recorded.exists_recordAll_iff`, `Session.Recorded.recordAll_eq_error_iff` — **frames pass
  if their objects are tracked and they have a value for each attribute.**
* `Mode.Fits` — what is asked of blocks; `Layout.exists_place_iff`, `Layout.refusal_of_allocate`:
  **blocks are placed exactly if they fit.**
-/

namespace DeltaScript

/-! ## Frames -/

namespace Session

variable {objects : ℕ} {settings : Settings} {s : Session}

/-- What is asked of a frame. -/
def Accepts (objects : ℕ) (settings : Settings) (frame : ℕ × Values) : Prop :=
  frame.1 < objects ∧ frame.2.length = settings.attributes.length

/-- A frame is taken down exactly if it is accepted. -/
theorem Recorded.exists_record_iff (hs : Recorded objects settings s) {object : ℕ}
    {values : Values} :
    (∃ s', s.record object values = .ok s') ↔ Accepts objects settings (object, values) := by
  simp only [record_eq_ok_iff, Accepts, hs.attributes_eq]
  constructor
  · rintro ⟨s', track, htrack, hvalues, -⟩
    have hobject : object < s.tracks.objects := (List.getElem?_eq_some_iff.mp htrack).1
    exact ⟨hs.objects_eq ▸ hobject, hvalues⟩
  · rintro ⟨hobject, hvalues⟩
    rw [← hs.objects_eq] at hobject
    exact ⟨_, _, List.getElem?_eq_getElem hobject, hvalues, rfl⟩

/-- **Frames are taken down exactly if all of them are accepted.** -/
theorem Recorded.exists_recordAll_iff (hs : Recorded objects settings s)
    {frames : List (ℕ × Values)} :
    (∃ s', s.recordAll frames = .ok s') ↔ ∀ frame ∈ frames, Accepts objects settings frame := by
  induction frames generalizing s with
  | nil => simp [recordAll_nil]
  | cons frame rest ih =>
      obtain ⟨object, values⟩ := frame
      rw [List.forall_mem_cons, ← hs.exists_record_iff]
      simp only [recordAll_cons, bind_eq_ok_iff]
      constructor
      · rintro ⟨s', next, hnext, h⟩
        exact ⟨⟨next, hnext⟩, (ih (hs.record hnext)).mp ⟨s', h⟩⟩
      · rintro ⟨⟨next, hnext⟩, hrest⟩
        obtain ⟨s', h⟩ := (ih (hs.record hnext)).mpr hrest
        exact ⟨s', next, hnext, h⟩

/-- What is told of a frame that is not accepted: its object is looked at first. -/
def Refuses (objects : ℕ) (settings : Settings) (frame : ℕ × Values) (e : Failure) : Prop :=
  (objects ≤ frame.1 ∧ e = .unknownObject frame.1 objects)
    ∨ (frame.1 < objects ∧ frame.2.length ≠ settings.attributes.length
      ∧ e = .valueCount frame.1 settings.attributes.length frame.2.length)

/-- **Frames are refused for the first that is not accepted.** -/
theorem Recorded.recordAll_eq_error_iff (hs : Recorded objects settings s)
    {frames : List (ℕ × Values)} {e : Failure} :
    s.recordAll frames = .error e ↔ ∃ before frame after, frames = before ++ frame :: after
      ∧ (∀ b ∈ before, Accepts objects settings b) ∧ Refuses objects settings frame e := by
  induction frames generalizing s with
  | nil => simp [recordAll_nil]
  | cons frame rest ih =>
      obtain ⟨object, values⟩ := frame
      have hrefuses : s.record object values = .error e ↔
          Refuses objects settings (object, values) e := by
        rw [record_eq_error_iff, hs.objects_eq, hs.attributes_eq, Refuses]
      rw [recordAll_cons, bind_eq_error_iff, hrefuses]
      constructor
      · rintro (h | ⟨next, hnext, h⟩)
        · exact ⟨[], _, rest, rfl, by simp, h⟩
        · obtain ⟨before, frame, after, rfl, hbefore, h⟩ := (ih (hs.record hnext)).mp h
          refine ⟨(object, values) :: before, frame, after, rfl, ?_, h⟩
          exact List.forall_mem_cons.mpr ⟨hs.exists_record_iff.mp ⟨next, hnext⟩, hbefore⟩
      · rintro ⟨before, frame, after, hframes, hbefore, h⟩
        cases before with
        | nil =>
            obtain ⟨rfl, rfl⟩ := List.cons.inj hframes
            exact Or.inl h
        | cons b before =>
            obtain ⟨rfl, rfl⟩ := List.cons.inj hframes
            obtain ⟨hb, hbefore⟩ := List.forall_mem_cons.mp hbefore
            obtain ⟨next, hnext⟩ := hs.exists_record_iff.mpr hb
            exact Or.inr ⟨next, hnext,
              (ih (hs.record hnext)).mpr ⟨before, frame, after, rfl, hbefore, h⟩⟩

end Session

/-! ## Blocks -/

/-- What is asked of blocks: in one piece they end within the address space; over bins, these can be
filled, and the blocks can be packed into them. -/
def Mode.Fits (blocks : Blocks) : Mode → Prop
  | .contiguous base => base.toNat + blocks.totalSize ≤ addressSpace
  | .chunked bins => Bin.Usable bins ∧ ∃ placed after,
      Packed bins blocks.size (fun _ => 0) placed after
        ∧ placed.map Placement.block = Filling.order blocks

namespace Layout

variable {blocks : Blocks} {mode : Mode}

/-- **Blocks are placed exactly if they fit.** -/
theorem exists_place_iff : (∃ result, place blocks mode = .ok result) ↔ mode.Fits blocks := by
  cases mode with
  | contiguous base =>
      simp only [place, map_eq_ok_iff, Placement.contiguous_eq_ok_iff, Mode.Fits]
      constructor
      · rintro ⟨-, -, ⟨hroom, -⟩, -⟩
        exact hroom
      · exact fun hroom => ⟨_, _, ⟨hroom, rfl⟩, rfl⟩
  | chunked bins =>
      simp only [place, Prod.exists, Placement.firstFit_eq_ok_iff, Mode.Fits,
        ← Filling.stuck_ofBlocks_eq_none_iff]
      constructor
      · rintro ⟨-, -, hbins, hstuck, -⟩
        exact ⟨hbins, hstuck⟩
      · rintro ⟨hbins, hstuck⟩
        exact ⟨_, _, hbins, hstuck, rfl, rfl⟩

/-- What is told of blocks that do not fit: bins that cannot be filled are found first. -/
def Refuses (blocks : Blocks) (mode : Mode) (e : Failure) : Prop :=
  match mode with
  | .contiguous base => e = .pastEnd blocks.totalSize base.toNat
  | .chunked bins => (¬ Bin.Usable bins ∧ Bin.IsFault e)
      ∨ (Bin.Usable bins ∧ ∃ block ∈ blocks.all, ∃ free, e = .noRoom block (blocks.size block) free)

theorem refuses_of_place {e : Failure} (h : place blocks mode = .error e) :
    Refuses blocks mode e := by
  cases mode with
  | contiguous base =>
      have h := map_eq_error_iff.mp h
      rw [Placement.contiguous] at h
      split_ifs at h
      exact (Except.error.inj h).symm
  | chunked bins =>
      rcases bind_eq_error_iff.mp h with h | ⟨_, hcheck, h⟩
      · refine Or.inl ⟨fun husable => ?_, Bin.isFault_of_checkAll h⟩
        rw [Bin.checkAll_eq_ok_iff.mpr husable] at h
        cases h
      · refine Or.inr ⟨Bin.checkAll_eq_ok_iff.mp hcheck, ?_⟩
        cases hstuck : (Filling.ofBlocks blocks bins).stuck with
        | none =>
            simp only [hstuck] at h
            cases h
        | some block =>
            simp only [hstuck] at h
            obtain ⟨-, rest, horder⟩ := Filling.exists_rest_of_stuck hstuck
            have hblock : block ∈ Filling.order blocks := horder ▸ by simp
            exact ⟨block, blocks.perm_order.mem_iff.mp hblock, _, (Except.error.inj h).symm⟩

/-- **An allocation is refused for the longest track, or else for the blocks.**  The header is never
refused. -/
theorem refusal_of_allocate {e : Failure} (h : allocate blocks mode = .error e) :
    (0xFFFF < blocks.maxSteps ∧ e = .tooManySteps blocks.maxSteps)
      ∨ (blocks.maxSteps ≤ 0xFFFF ∧ ¬ mode.Fits blocks ∧ Refuses blocks mode e) := by
  rcases Nat.lt_or_ge 0xFFFF blocks.maxSteps with hsteps | hsteps
  · exact Or.inl ⟨hsteps, (Except.error.inj ((allocate_of_steps hsteps).symm.trans h)).symm⟩
  · have h := (allocate_eq_error_iff hsteps).mp h
    refine Or.inr ⟨hsteps, fun hfits => ?_, refuses_of_place h⟩
    obtain ⟨result, hresult⟩ := exists_place_iff.mpr hfits
    rw [hresult] at h
    cases h

end Layout

end DeltaScript
