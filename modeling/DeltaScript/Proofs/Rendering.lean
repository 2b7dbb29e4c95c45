import Mathlib
import DeltaScript.Proofs.Lines
import DeltaScript.Proofs.Recording

/-!
# Every rendering of a recording is read back

A recording can be written in many ways: numbers in three notations, free separators, comments, idle
lines.  None of these choices is seen by the reader.

* `Frame.Readable` — the frames that a text can spell: an object index that is a numeral, and as
  many values of 32 bits as every other frame has.
* `FrameLine.meanings_eq`, `IdleLine.meanings_eq` — a line means the numbers of its frame.
* `FrameLines.framesRead` — **the lines of a rendering are read as the frames that they spell**, in
  their order.
* `Recording.parse_of_rendered` — **the recording that a rendering spells is read back from it.**

The text is cut at its newlines before anything is read, so what has to be shown of the cut is that
no part of a line holds a newline.  A comment is the only part that could.
-/

namespace DeltaScript

/-- Frames that a text can spell on a line with `width` values. -/
structure Frame.Readable (width : ℕ) (f : Frame) : Prop where
  object_lt : f.object < 0x8000000000000000
  length_eq : f.state.length = width
  fits : ∀ v ∈ f.state, -0x80000000 ≤ v ∧ v < 0x80000000

variable {width : ℕ} {f : Frame} {line : List Char}

/-! ## What lines mean -/

theorem Frame.Readable.natAbs_lt (hf : f.Readable width) :
    ∀ n ∈ (f.object : ℤ) :: f.state, n.natAbs < numeralBound := by
  intro n hn
  rcases List.mem_cons.mp hn with rfl | hn
  · exact hf.object_lt
  · have hfits := hf.fits n hn
    rw [numeralBound]
    omega

theorem FrameLine.meanings_eq (h : FrameLine f line) (hf : f.Readable width) :
    Piece.meanings line = ((f.object : ℤ) :: f.state).map .number := by
  obtain ⟨lead, numbers, comment, hlead, hnumbers, hcomment, rfl⟩ := h
  rw [List.append_assoc, Piece.meanings_gap_append hlead,
    hnumbers.meanings_append hf.natAbs_lt (Piece.endsWord_of_isComment hcomment),
    Piece.meanings_comment hcomment, List.append_nil]

theorem IdleLine.meanings_eq (h : IdleLine line) : Piece.meanings line = [] := by
  obtain ⟨gap, comment, hgap, hcomment, rfl⟩ := h
  rw [Piece.meanings_gap_append hgap, Piece.meanings_comment hcomment]

/-! ## Newlines -/

theorem IsWord.newline_notMem {word : List Char} (h : IsWord word) : '\n' ∉ word := by
  obtain ⟨lead, hlead, c, body, rfl, hbody⟩ := h
  intro hmem
  rcases List.mem_append.mp hmem with hmem | hmem
  · have hleads : ∀ lead ∈ wordLeads, '\n' ∉ lead := by decide
    exact hleads lead hlead hmem
  · exact absurd (hbody _ hmem) (by decide)

theorem newline_notMem_of_isGap {gap : List Char} (h : IsGap gap) : '\n' ∉ gap := fun hmem =>
  absurd (h _ hmem) (by decide)

theorem newline_notMem_of_isComment {comment : List Char} (h : IsComment comment) :
    '\n' ∉ comment := by
  rcases h with rfl | ⟨mark, text, rfl, hmark, htext⟩
  · simp
  · intro hmem
    rcases List.mem_cons.mp hmem with rfl | hmem
    · exact absurd hmark (by decide)
    · exact htext hmem

theorem Spaced.newline_notMem {ns : List ℤ} {text : List Char} (h : Spaced ns text) :
    '\n' ∉ text := by
  induction h with
  | last hword hgap => simp [hword.isWord.newline_notMem, newline_notMem_of_isGap hgap]
  | more hword hgap _ _ ih =>
      simp [hword.isWord.newline_notMem, newline_notMem_of_isGap hgap, ih]

theorem FrameLine.newline_notMem (h : FrameLine f line) : '\n' ∉ line := by
  obtain ⟨lead, numbers, comment, hlead, hnumbers, hcomment, rfl⟩ := h
  simp [newline_notMem_of_isGap hlead, hnumbers.newline_notMem,
    newline_notMem_of_isComment hcomment]

theorem IdleLine.newline_notMem (h : IdleLine line) : '\n' ∉ line := by
  obtain ⟨gap, comment, hgap, hcomment, rfl⟩ := h
  simp [newline_notMem_of_isGap hgap, newline_notMem_of_isComment hcomment]

/-- No line of a rendering holds a newline. -/
theorem FrameLines.newline_notMem {frames : List Frame} {lines : List (List Char)}
    (h : FrameLines frames lines) : ∀ line ∈ lines, '\n' ∉ line := by
  induction h with
  | done => simp
  | idle hline _ ih => simpa using ⟨hline.newline_notMem, ih⟩
  | frame hline _ ih => simpa using ⟨hline.newline_notMem, ih⟩

/-! ## What lines are read as -/

theorem FrameLine.isReadFrom (h : FrameLine f line) (hf : f.Readable width) (hpos : 0 < width) :
    f.IsReadFrom line where
  meanings_eq := h.meanings_eq hf
  state_ne_nil := List.ne_nil_of_length_pos (hf.length_eq ▸ hpos)
  fits := hf.fits

/-- **The lines of a rendering are read as the frames that they spell.** -/
theorem FrameLines.framesRead {frames : List Frame} {lines : List (List Char)}
    (h : FrameLines frames lines) (hframes : ∀ f ∈ frames, f.Readable width) (hpos : 0 < width) :
    FramesRead frames lines := by
  induction h with
  | done => exact .done
  | idle hline _ ih => exact .idle hline.meanings_eq (ih hframes)
  | frame hline _ ih =>
      obtain ⟨hf, hframes⟩ := List.forall_mem_cons.mp hframes
      exact .frame (hline.isReadFrom hf hpos) (ih hframes)

namespace Recording

/-! ## All lines -/

/-- The lines that a text is cut into are those that it was put together from. -/
theorem frameLines_splitOn {frames : List Frame} {lines : List (List Char)}
    (h : FrameLines frames lines) :
    FrameLines frames ((['\n'].intercalate lines).splitOn '\n') := by
  cases lines with
  | nil =>
      cases h
      -- a text of no lines cannot be told from one empty line
      exact .idle ⟨[], [], by simp [IsGap], Or.inl rfl, rfl⟩ .done
  | cons line lines =>
      rw [List.splitOn_intercalate '\n' h.newline_notMem (by simp)]
      exact h

theorem parse_eq_of_rendered {r : Recording} {source : String} (h : r.Rendered source)
    (hframes : ∀ f ∈ r.frames, f.Readable width) (hpos : 0 < width) :
    parse source = .ok r := by
  obtain ⟨lines, hlines, hsource⟩ := h
  rw [parse_eq_ok_iff, hsource]
  exact ⟨(frameLines_splitOn hlines).framesRead hframes hpos, width, by simp,
    fun f hf => (hframes f hf).length_eq⟩

theorem attributes?_eq {r : Recording} (hframes : ∀ f ∈ r.frames, f.Readable width) :
    r.attributes? = if r.frames = [] then none else some width := by
  rw [attributes?]
  cases hr : r.frames with
  | nil => rfl
  | cons f frames =>
      have hf : f.Readable width := hframes f (by simp [hr])
      simp [hf.length_eq]

/-- **Every rendering of a recording is read back as that recording**: its frames in their order,
one object more than the highest index, and as many attributes as every frame has values. -/
theorem parse_of_rendered {r : Recording} {n : ℕ} (hn : 0 < n)
    (hframes : ∀ f ∈ r.frames, f.Readable n) {source : String} (h : r.Rendered source) :
    parse source = .ok r
      ∧ (∀ f ∈ r.frames, f.object < r.objects)
      ∧ (r.frames ≠ [] → ∃ f ∈ r.frames, f.object + 1 = r.objects)
      ∧ (r.frames = [] → r.objects = 0)
      ∧ r.attributes? = if r.frames = [] then none else some n := by
  refine ⟨parse_eq_of_rendered h hframes hn, fun f hf => object_lt_objects hf,
    exists_object_add_one, fun hnone => ?_, attributes?_eq hframes⟩
  rw [objects, hnone]
  rfl

/-- Two frames of two attributes, without a frame of object 1. -/
def sparse : Recording :=
  ⟨[⟨0, [10, -3]⟩, ⟨2, [7, -0x80000000]⟩]⟩

/-- A rendering of it in all notations, with comments and an empty line. -/
def sparseText : String :=
  "# object, x y\n0 $0a\t-%11\r\n\n 2,07,,-2147483648;é\n"

theorem parse_sparse :
    sparse.Rendered sparseText ∧ parse sparseText = .ok sparse ∧ sparse.attributes? = some 2 := by
  have hnumeral : ∀ {n word}, readNumeral word = some n → Numeral n word := fun h =>
    (readNumeral_eq_some_iff.mp h).1
  have hgap : ∀ {gap}, gap.all Piece.isSeparator → IsGap gap := List.all_eq_true.mp
  have hcomment : IdleLine "# object, x y".toList :=
    ⟨[], _, hgap rfl, Or.inr ⟨'#', " object, x y".toList, rfl, rfl, by simp⟩, rfl⟩
  have hfirst : FrameLine ⟨0, [10, -3]⟩ "0 $0a\t-%11\r".toList := by
    have hnumbers : Spaced [0, 10, -3] ("0".toList ++ " ".toList ++ ("$0a".toList ++ "\t".toList
        ++ ("-%11".toList ++ "\r".toList))) :=
      .more (hnumeral rfl) (hgap rfl) (by simp)
        (.more (hnumeral rfl) (hgap rfl) (by simp) (.last (hnumeral rfl) (hgap rfl)))
    exact ⟨[], _, [], hgap rfl, hnumbers, Or.inl rfl, rfl⟩
  have hempty : IdleLine [] := ⟨[], [], hgap rfl, Or.inl rfl, rfl⟩
  have hsecond : FrameLine ⟨2, [7, -0x80000000]⟩ " 2,07,,-2147483648;é".toList := by
    have hnumbers : Spaced [2, 7, -0x80000000] ("2".toList ++ ",".toList ++ ("07".toList
        ++ ",,".toList ++ ("-2147483648".toList ++ []))) :=
      .more (hnumeral rfl) (hgap rfl) (by simp)
        (.more (hnumeral rfl) (hgap rfl) (by simp) (.last (hnumeral rfl) (hgap rfl)))
    exact ⟨" ".toList, _, ";é".toList, hgap rfl, hnumbers,
      Or.inr ⟨';', ['é'], rfl, rfl, by simp⟩, rfl⟩
  have htext : sparseText.toList = ['\n'].intercalate ["# object, x y".toList,
      "0 $0a\t-%11\r".toList, [], " 2,07,,-2147483648;é".toList, []] := by
    cbv
  have hrendered : sparse.Rendered sparseText :=
    ⟨_, .idle hcomment (.frame hfirst (.idle hempty (.frame hsecond (.idle hempty .done)))), htext⟩
  have hframes : ∀ f ∈ sparse.frames, f.Readable 2 := by
    simp only [sparse, List.forall_mem_cons]
    exact ⟨⟨by simp, rfl, by simp⟩, ⟨by simp, rfl, by simp⟩, by simp⟩
  obtain ⟨hparse, -, -, -, hattributes⟩ := parse_of_rendered (by decide) hframes hrendered
  exact ⟨hrendered, hparse, hattributes⟩

end Recording

end DeltaScript
