import Mathlib
import DeltaScript.Proofs.Pieces

/-!
# What the lines of a text are read as

A line is read as a frame or as nothing, and this is decided by what its pieces mean.  From line to
line only the number of values is carried.

* `Frame.IsReadFrom` — the frame that a line is read as.
* `FramesRead` — the frames that lines are read as, lines without a frame among them.
* `Recording.readLine_eq_ok_iff`, `Recording.foldlM_readLine_eq_ok_iff` — what one line does to the
  reader, and what lines do to it.
* `Recording.parse_eq_ok_iff` — **a text is read as a recording exactly if its lines are read as the
  frames of that recording, and all of them have as many values.**

**That the frames are even is a property of all of them**, and knows nothing of the order in which
they are read.  This is what allows a text to be read in parts.
-/

namespace DeltaScript

/-- A frame that a line is read as. -/
structure Frame.IsReadFrom (line : List Char) (f : Frame) : Prop where
  meanings_eq : Piece.meanings line = ((f.object : ℤ) :: f.state).map .number
  state_ne_nil : f.state ≠ []
  fits : ∀ v ∈ f.state, -0x80000000 ≤ v ∧ v < 0x80000000

/-- Frames that lines are read as. -/
inductive FramesRead : List Frame → List (List Char) → Prop
  | done : FramesRead [] []
  | idle {frames : List Frame} {line : List Char} {lines : List (List Char)} :
      Piece.meanings line = [] → FramesRead frames lines → FramesRead frames (line :: lines)
  | frame {f : Frame} {frames : List Frame} {line : List Char} {lines : List (List Char)} :
      f.IsReadFrom line → FramesRead frames lines → FramesRead (f :: frames) (line :: lines)

/-- **Lines in two parts are read part by part.** -/
theorem framesRead_append_iff {frames : List Frame} {lines more : List (List Char)} :
    FramesRead frames (lines ++ more) ↔
      ∃ fs gs, frames = fs ++ gs ∧ FramesRead fs lines ∧ FramesRead gs more := by
  induction lines generalizing frames with
  | nil =>
      constructor
      · intro h
        exact ⟨[], frames, rfl, .done, h⟩
      · rintro ⟨_, _, rfl, h, hmore⟩
        cases h
        exact hmore
  | cons line lines ih =>
      constructor
      · intro h
        cases h with
        | idle hline h =>
            obtain ⟨fs, gs, rfl, hfs, hgs⟩ := ih.mp h
            exact ⟨fs, gs, rfl, .idle hline hfs, hgs⟩
        | @frame f _ _ _ hline h =>
            obtain ⟨fs, gs, rfl, hfs, hgs⟩ := ih.mp h
            exact ⟨f :: fs, gs, rfl, .frame hline hfs, hgs⟩
      · rintro ⟨_, gs, rfl, h, hgs⟩
        cases h with
        | idle hline hfs => exact .idle hline (ih.mpr ⟨_, gs, rfl, hfs, hgs⟩)
        | frame hline hfs => exact .frame hline (ih.mpr ⟨_, gs, rfl, hfs, hgs⟩)

/-- Frames with as many values as each other, and as many as are given if any are. -/
def AreEven (width : Option ℕ) (frames : List Frame) : Prop :=
  ∃ n, (∀ w ∈ width, w = n) ∧ ∀ f ∈ frames, f.state.length = n

@[simp]
theorem areEven_nil (width : Option ℕ) : AreEven width [] :=
  ⟨width.getD 0, by rintro w rfl; rfl, by simp⟩

theorem areEven_cons_iff {width : Option ℕ} {f : Frame} {frames : List Frame} :
    AreEven width (f :: frames) ↔
      (∀ w ∈ width, w = f.state.length) ∧ AreEven (some f.state.length) frames := by
  -- this is the check of one line: what is carried on is the width of its frame
  constructor
  · rintro ⟨n, hwidth, hframes⟩
    obtain ⟨rfl, hframes⟩ := List.forall_mem_cons.mp hframes
    exact ⟨hwidth, _, by simp, hframes⟩
  · rintro ⟨hwidth, n, hn, hframes⟩
    obtain rfl := hn _ rfl
    exact ⟨_, hwidth, List.forall_mem_cons.mpr ⟨rfl, hframes⟩⟩

namespace Recording

/-! ## One line -/

theorem attributeValue_eq_ok_iff {n : PlacedNumber} {v : ℤ} :
    attributeValue n = .ok v ↔ n.value = v ∧ -0x80000000 ≤ v ∧ v < 0x80000000 := by
  rw [attributeValue]
  split_ifs with h
  · rw [Except.ok.injEq]
    constructor
    · rintro rfl
      exact ⟨rfl, h⟩
    · exact fun h => h.1
  · simp only [false_iff]
    rintro ⟨rfl, hfits⟩
    exact h hfits

theorem mapM_attributeValue_eq_ok_iff {values : List PlacedNumber} {state : List ℤ} :
    values.mapM attributeValue = .ok state ↔
      values.map (·.value) = state ∧ ∀ v ∈ state, -0x80000000 ≤ v ∧ v < 0x80000000 := by
  rw [mapM_eq_ok_iff]
  simp only [attributeValue_eq_ok_iff]
  constructor
  · intro h
    induction h with
    | nil => simp
    | cons hn _ ih => simpa [hn, ih.1] using ih.2
  · rintro ⟨rfl, hfits⟩
    rw [List.forall₂_map_right_iff, List.forall₂_same]
    exact fun n hn => ⟨rfl, hfits _ (List.mem_map_of_mem hn)⟩

theorem frameOf_eq_none_iff {width : Option ℕ} {place : Span} {placed : List PlacedNumber} :
    frameOf width place placed = .ok none ↔ placed = [] := by
  cases placed with
  | nil => simp [frameOf]
  | cons object values =>
      simp only [frameOf, reduceCtorEq, iff_false]
      split_ifs
      · simp
      · simp
      · simp
      · simp [bind_eq_ok_iff, pure, Except.pure]

/-- The guard on the number of values lets pass what is as wide as the lines before. -/
theorem any_ne_eq_false_iff {width : Option ℕ} {n : ℕ} :
    width.any (· != n) = false ↔ ∀ w ∈ width, w = n := by
  cases width <;> simp

/-- **A line is a frame exactly if its numbers are those of the frame**, and pass every check. -/
theorem frameOf_eq_some_iff {width : Option ℕ} {place : Span} {placed : List PlacedNumber}
    {f : Frame} :
    frameOf width place placed = .ok (some f) ↔
      placed.map (·.value) = (f.object : ℤ) :: f.state ∧ f.state ≠ []
        ∧ (∀ w ∈ width, w = f.state.length)
        ∧ ∀ v ∈ f.state, -0x80000000 ≤ v ∧ v < 0x80000000 := by
  cases placed with
  | nil => simp [frameOf]
  | cons object values =>
      rw [frameOf, List.map_cons, List.cons.injEq]
      constructor
      · intro h
        split_ifs at h with hobject hvalues hwidth
        obtain ⟨state, hstate, h⟩ := bind_eq_ok_iff.mp h
        obtain ⟨rfl, hfits⟩ := mapM_attributeValue_eq_ok_iff.mp hstate
        cases h
        refine ⟨⟨(Int.toNat_of_nonneg (by omega)).symm, rfl⟩, ?_, ?_, hfits⟩
        · simpa [List.isEmpty_iff] using hvalues
        · rw [List.length_map, ← any_ne_eq_false_iff]
          exact Bool.eq_false_iff.mpr hwidth
      · rintro ⟨⟨hobject, hvalues⟩, hne, hwidth, hfits⟩
        have hsome : values.isEmpty = false := by
          rw [List.isEmpty_eq_false_iff]
          rintro rfl
          exact hne hvalues.symm
        have hlength : values.length = f.state.length := by
          rw [← hvalues, List.length_map]
        have heven : width.any (· != values.length) = false := by
          rw [hlength, any_ne_eq_false_iff]
          exact hwidth
        rw [hobject, if_neg (by omega), hsome, heven,
          mapM_attributeValue_eq_ok_iff.mpr ⟨hvalues, hfits⟩]
        rfl

variable {reader reader' : Reader} {line : List Char}

/-- The reader behind a line without a frame. -/
def Reader.skip (r : Reader) (line : List Char) : Reader :=
  { r with offset := r.offset + byteCount line + 1 }

/-- The reader behind a line with a frame. -/
def Reader.add (r : Reader) (line : List Char) (f : Frame) : Reader :=
  ⟨r.offset + byteCount line + 1, some f.state.length, f :: r.newestFirst⟩

/-- **One line does nothing to the reader but move it on, or adds a frame** that is as wide as those
before. -/
theorem readLine_eq_ok_iff :
    readLine reader line = .ok reader' ↔
      (Piece.meanings line = [] ∧ reader' = reader.skip line)
        ∨ ∃ f : Frame, f.IsReadFrom line ∧ (∀ w ∈ reader.width, w = f.state.length)
          ∧ reader' = reader.add line f := by
  have hnumbers : ∀ ns : List ℤ, Piece.meanings line = ns.map .number ↔ ∃ placed,
      numbers reader.offset (Piece.all line) = .ok placed ∧ placed.map (·.value) = ns :=
    fun ns => exists_numbers_iff.symm
  rw [readLine]
  simp only [bind_eq_ok_iff]
  constructor
  · rintro ⟨placed, hplaced, frame?, hframe, h⟩
    have hmeanings := (hnumbers _).mpr ⟨placed, hplaced, rfl⟩
    cases frame? with
    | none =>
        cases h
        rw [frameOf_eq_none_iff.mp hframe] at hmeanings
        exact Or.inl ⟨hmeanings, rfl⟩
    | some f =>
        cases h
        obtain ⟨hvalues, hne, hwidth, hfits⟩ := frameOf_eq_some_iff.mp hframe
        rw [hvalues] at hmeanings
        exact Or.inr ⟨f, ⟨hmeanings, hne, hfits⟩, hwidth, rfl⟩
  · rintro (⟨hmeanings, rfl⟩ | ⟨f, hf, hwidth, rfl⟩)
    · obtain ⟨placed, hplaced, hvalues⟩ := (hnumbers []).mp hmeanings
      refine ⟨placed, hplaced, none, ?_, rfl⟩
      exact frameOf_eq_none_iff.mpr (List.map_eq_nil_iff.mp hvalues)
    · obtain ⟨placed, hplaced, hvalues⟩ := (hnumbers _).mp hf.meanings_eq
      refine ⟨placed, hplaced, some f, ?_, rfl⟩
      exact frameOf_eq_some_iff.mpr ⟨hvalues, hf.state_ne_nil, hwidth, hf.fits⟩

/-! ## All lines -/

/-- The reader behind lines that are read as frames. -/
def Reader.addAll (r : Reader) (lines : List (List Char)) (frames : List Frame) : Reader where
  offset := r.offset + byteCount (lines.flatMap (· ++ ['\n']))
  width := r.width.or (frames.head?.map (·.state.length))
  newestFirst := frames.reverse ++ r.newestFirst

theorem Reader.addAll_nil (r : Reader) : r.addAll [] [] = r := by
  simp [addAll]

theorem Reader.addAll_cons_idle (r : Reader) (line : List Char) (lines : List (List Char))
    (frames : List Frame) :
    r.addAll (line :: lines) frames = (r.skip line).addAll lines frames := by
  simp [addAll, skip, Text.utf8Size_newline, Nat.add_assoc]

theorem Reader.addAll_cons_frame {r : Reader} {f : Frame} (h : ∀ w ∈ r.width, w = f.state.length)
    (line : List Char) (lines : List (List Char)) (frames : List Frame) :
    r.addAll (line :: lines) (f :: frames) = (r.add line f).addAll lines frames := by
  have hwidth : r.width.or (some f.state.length) = some f.state.length := by
    cases hr : r.width with
    | none => rfl
    | some w => simp [h w hr]
  simp [addAll, add, Text.utf8Size_newline, Nat.add_assoc, hwidth]

/-- **Lines add the frames that they are read as**, and are read exactly if these are even. -/
theorem foldlM_readLine_eq_ok_iff {lines : List (List Char)} :
    lines.foldlM readLine reader = .ok reader' ↔ ∃ frames, FramesRead frames lines
      ∧ AreEven reader.width frames ∧ reader' = reader.addAll lines frames := by
  -- by induction on the lines, from any reader, since every line leaves another one
  induction lines generalizing reader with
  | nil =>
      constructor
      · rintro ⟨⟩
        exact ⟨[], .done, areEven_nil _, (Reader.addAll_nil _).symm⟩
      · rintro ⟨_, h, -, rfl⟩
        cases h
        rw [Reader.addAll_nil]
        rfl
  | cons line lines ih =>
      rw [List.foldlM_cons, bind_eq_ok_iff]
      constructor
      · rintro ⟨next, hnext, h⟩
        obtain ⟨frames, hframes, heven, rfl⟩ := ih.mp h
        rcases readLine_eq_ok_iff.mp hnext with ⟨hline, rfl⟩ | ⟨f, hline, hwidth, rfl⟩
        · exact ⟨frames, .idle hline hframes, heven, (reader.addAll_cons_idle ..).symm⟩
        · exact ⟨f :: frames, .frame hline hframes, areEven_cons_iff.mpr ⟨hwidth, heven⟩,
            (Reader.addAll_cons_frame hwidth ..).symm⟩
      · rintro ⟨_, h, heven, rfl⟩
        cases h with
        | idle hline hframes =>
            exact ⟨_, readLine_eq_ok_iff.mpr (Or.inl ⟨hline, rfl⟩),
              ih.mpr ⟨_, hframes, heven, reader.addAll_cons_idle ..⟩⟩
        | frame hline hframes =>
            obtain ⟨hwidth, heven⟩ := areEven_cons_iff.mp heven
            exact ⟨_, readLine_eq_ok_iff.mpr (Or.inr ⟨_, hline, hwidth, rfl⟩),
              ih.mpr ⟨_, hframes, heven, Reader.addAll_cons_frame hwidth ..⟩⟩

/-- **A text is read as a recording exactly if its lines are read as the frames of that recording**,
and all of them have as many values. -/
theorem parse_eq_ok_iff {source : String} {r : Recording} :
    parse source = .ok r ↔
      FramesRead r.frames (source.toList.splitOn '\n') ∧ AreEven none r.frames := by
  rw [parse, map_eq_ok_iff]
  simp only [foldlM_readLine_eq_ok_iff]
  constructor
  · rintro ⟨_, ⟨frames, hframes, heven, rfl⟩, rfl⟩
    simpa [Reader.addAll] using ⟨hframes, heven⟩
  · rintro ⟨hframes, heven⟩
    exact ⟨_, ⟨r.frames, hframes, heven, rfl⟩, by simp [Reader.addAll]⟩

end Recording

end DeltaScript
