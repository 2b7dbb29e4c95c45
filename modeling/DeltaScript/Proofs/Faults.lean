import Mathlib
import DeltaScript.Failure.Report
import DeltaScript.Proofs.Lines
import DeltaScript.Proofs.Location
import DeltaScript.Proofs.Recording

/-!
# Where a text is refused

A failure of a text points to a number, to a piece that is none, or to a whole line.  Offsets are
added up by hand along lines and pieces, so that they are the bounds of a part of the text has to be
shown.

* `Piece.flatMap_text_all` — **the pieces of a line are the line**, without a gap.
* `Span.IsPartOf` — the stretches that bound a part of a line.
* `Recording.pointsInto_of_readLine` — what a line is refused for is a part of that line.
* `Recording.IsRefusedAt`, `Recording.exists_isRefusedAt` — **a text is refused at the first line
  that cannot be read.**
* `Recording.Pinpoints`, `Recording.exists_pinpoints` — every failure of a text has a place in it,
  and a report that shows the place.
-/

namespace DeltaScript

/-! ## Pieces -/

namespace Piece

theorem isPrefix_wordOf (cs : List Char) : wordOf cs <+: cs := by
  rw [wordOf]
  split
  · exact List.nil_prefix
  · have hbody : (cs.drop (leadLength cs)).takeWhile isWordChar <+: cs.drop (leadLength cs) :=
      List.takeWhile_prefix isWordChar
    simpa using (List.prefix_append_right_inj (cs.take (leadLength cs))).mpr hbody

theorem isPrefix_first_text (c : Char) (cs : List Char) : (first c cs).text <+: c :: cs := by
  unfold first
  split_ifs
  · exact (List.prefix_cons_inj c).mpr (List.takeWhile_prefix _)
  · exact List.prefix_rfl
  · split
    · exact ⟨cs, rfl⟩
    · exact isPrefix_wordOf (c :: cs)

/-- **The pieces of a line are the line.** -/
theorem flatMap_text_all (line : List Char) : (all line).flatMap text = line := by
  induction line using all.induct with
  | case1 => simp [all]
  | case2 c cs ih =>
      rw [all, List.flatMap_cons, ih]
      exact List.prefix_iff_eq_append.mp (isPrefix_first_text c cs)

end Piece

/-! ## Stretches -/

/-- A stretch bounds a part of characters that start at an offset. -/
def Span.IsPartOf (span : Span) (offset : ℕ) (text : List Char) : Prop :=
  ∃ left marked right, text = left ++ marked ++ right
    ∧ span = ⟨offset + byteCount left, offset + byteCount left + byteCount marked⟩

theorem Span.isPartOf_self (offset : ℕ) (text : List Char) :
    Span.IsPartOf ⟨offset, offset + byteCount text⟩ offset text :=
  ⟨[], text, [], by simp, by simp⟩

theorem Span.IsPartOf.append_right {span : Span} {offset : ℕ} {text : List Char}
    (h : span.IsPartOf offset text) (behind : List Char) :
    span.IsPartOf offset (text ++ behind) := by
  obtain ⟨left, marked, right, rfl, hspan⟩ := h
  exact ⟨left, marked, right ++ behind, by simp, hspan⟩

theorem Span.IsPartOf.append_left {span : Span} {offset : ℕ} {text before : List Char}
    (h : span.IsPartOf (offset + byteCount before) text) :
    span.IsPartOf offset (before ++ text) := by
  obtain ⟨left, marked, right, rfl, rfl⟩ := h
  exact ⟨before ++ left, marked, right, by simp, by simp [Nat.add_assoc]⟩

/-- A failure points to a part of characters that start at an offset. -/
def Failure.PointsInto (e : Failure) (offset : ℕ) (text : List Char) : Prop :=
  ∃ span, e.diagnostic.span = some span ∧ span.IsPartOf offset text

/-- A failure of a text is told without a remark. -/
theorem Failure.no_remark {e : Failure} (h : e.code = .recording) :
    e.diagnostic.object = none ∧ e.diagnostic.hint = none := by
  cases e <;> first | exact ⟨rfl, rfl⟩ | cases h

namespace Recording

/-! ## One line -/

/-- The numbers of a line are parts of it. -/
theorem isPartOf_of_numbers {offset : ℕ} {pieces : List Piece} {placed : List PlacedNumber}
    (h : numbers offset pieces = .ok placed) :
    ∀ p ∈ placed, p.span.IsPartOf offset (pieces.flatMap Piece.text) := by
  induction pieces generalizing offset placed with
  | nil =>
      cases h
      simp
  | cons piece pieces ih =>
      rw [List.flatMap_cons]
      cases hkind : piece.kind with
      | gap =>
          rw [numbers_cons_of_gap hkind] at h
          exact fun p hp => (ih h p hp).append_left
      | number value =>
          rw [numbers_cons_of_number hkind, map_eq_ok_iff] at h
          obtain ⟨later, hlater, rfl⟩ := h
          refine List.forall_mem_cons.mpr ⟨?_, fun p hp => (ih hlater p hp).append_left⟩
          exact (Span.isPartOf_self offset piece.text).append_right _
      | junk =>
          rw [numbers_cons_of_junk hkind] at h
          cases h

/-- **What a line is refused for is a part of that line.** -/
theorem pointsInto_of_readLine {r : Reader} {line : List Char} {e : Failure}
    (h : readLine r line = .error e) : e.PointsInto r.offset line := by
  have hline := Piece.flatMap_text_all line
  rw [readLine, bind_eq_error_iff] at h
  rcases h with h | ⟨placed, hplaced, h⟩
  · obtain ⟨before, piece, after, hpieces, rfl⟩ := numbers_cases h
    rw [hpieces] at hline
    exact ⟨_, rfl, before.flatMap Piece.text, piece.text, after.flatMap Piece.text,
      by simp [← hline], rfl⟩
  · have hparts : ∀ p ∈ placed, p.span.IsPartOf r.offset line := by
      simpa only [hline] using isPartOf_of_numbers hplaced
    rcases bind_eq_error_iff.mp h with h | ⟨frame?, -, h⟩
    · rcases frameOf_cases h with ⟨_, rfl⟩ | ⟨_, _, rfl⟩ | ⟨p, hp, rfl | rfl⟩
      · exact ⟨_, rfl, Span.isPartOf_self ..⟩
      · exact ⟨_, rfl, Span.isPartOf_self ..⟩
      · exact ⟨_, rfl, hparts p hp⟩
      · exact ⟨_, rfl, hparts p hp⟩
    · cases frame? with
      | none => cases h
      | some f => cases h

/-! ## The first line that is refused -/

/-- A text is refused for the part `marked` of a line: the text in front of the line can be read,
and with the line it is refused. -/
structure IsRefusedAt (source : String) (e : Failure)
    (before left marked right behind : List Char) : Prop where
  isLine : Text.IsLine source.toList before (left ++ marked ++ right) behind
  span_eq : e.diagnostic.span
    = some ⟨byteCount (before ++ left), byteCount (before ++ left ++ marked)⟩
  before_read : ∃ r, parse (String.ofList before) = .ok r
  line_refused : parse (String.ofList (before ++ (left ++ marked ++ right))) = .error e

/-- Lines that can be read can be read with a newline behind each of them. -/
theorem exists_parse_of_lines {lines : List (List Char)} {r : Reader}
    (hlines : ∀ line ∈ lines, '\n' ∉ line) (h : lines.foldlM readLine {} = .ok r) :
    ∃ r, parse (String.ofList (lines.flatMap (· ++ ['\n']))) = .ok r := by
  obtain ⟨frames, hframes, heven, -⟩ := foldlM_readLine_eq_ok_iff.mp h
  refine ⟨⟨frames⟩, parse_eq_ok_iff.mpr ⟨?_, heven⟩⟩
  rw [String.toList_ofList, Text.splitOn_lines hlines, framesRead_append_iff]
  exact ⟨frames, [], by simp, hframes, .idle Piece.meanings_nil .done⟩

/-- **A text is refused at the first line that cannot be read**, for a part of that line. -/
theorem exists_isRefusedAt {source : String} {e : Failure} (h : parse source = .error e) :
    ∃ before left marked right behind, IsRefusedAt source e before left marked right behind := by
  obtain ⟨before, line, after, r, hsplit, hbefore, hline⟩ :=
    foldlM_eq_error_iff.mp (map_eq_error_iff.mp h)
  -- the offset that was added up line by line is that of the line
  obtain ⟨_, -, -, hr⟩ := foldlM_readLine_eq_ok_iff.mp hbefore
  have hoffset : r.offset = byteCount (before.flatMap (· ++ ['\n'])) := by
    rw [hr]
    simp [Reader.addAll]
  obtain ⟨_, hspan, left, marked, right, rfl, rfl⟩ := pointsInto_of_readLine hline
  have hnewline : ∀ line ∈ before ++ (left ++ marked ++ right) :: after, '\n' ∉ line := by
    rw [← hsplit]
    exact Text.notMem_splitOn '\n' _
  refine ⟨before.flatMap (· ++ ['\n']), left, marked, right, after.flatMap ('\n' :: ·), ?_⟩
  constructor
  case isLine => exact Text.isLine_of_splitOn hsplit
  case span_eq =>
    rw [hspan, hoffset]
    simp [Nat.add_assoc]
  case before_read => exact exists_parse_of_lines (fun l hl => hnewline l (by simp [hl])) hbefore
  case line_refused =>
    rw [parse, String.toList_ofList, Text.splitOn_lines_append
      (fun l hl => hnewline l (by simp [hl])) (hnewline _ (by simp)), List.foldlM_append, hbefore,
      map_eq_error_iff]
    show readLine r _ >>= pure = _
    rw [bind_pure, hline]

/-! ## Places of failures -/

/-- A stretch is the place of a failure of a text. -/
structure Pinpoints (source : String) (e : Failure) (span : Span) : Prop where
  code_eq : e.code = .recording
  span_eq : e.diagnostic.span = some span
  start_le_stop : span.start ≤ span.stop
  stop_le : span.stop ≤ source.utf8ByteSize
  /-- Neither end lies inside a character. -/
  start_isValid : String.Pos.Raw.IsValid source ⟨span.start⟩
  stop_isValid : String.Pos.Raw.IsValid source ⟨span.stop⟩
  /-- The failure is the first one: what stands before the line of the place can be read, and with
  that line it is refused in the same way. -/
  is_first : ∃ before line behind, Text.IsLine source.toList before line behind
    ∧ byteCount before ≤ span.start ∧ span.stop ≤ byteCount before + byteCount line
    ∧ (∃ r, parse (String.ofList before) = .ok r)
    ∧ parse (String.ofList (before ++ line)) = .error e
  reported : ∀ file, ∃ text, e.diagnostic.report? source file = some text

theorem IsRefusedAt.report?_eq {source : String} {e : Failure}
    {before left marked right behind : List Char}
    (h : IsRefusedAt source e before left marked right behind) (file : String) :
    e.diagnostic.report? source file = some (e.diagnostic.layOut file (some
      (⟨byteCount (before ++ left), byteCount (before ++ left ++ marked)⟩,
        ⟨before.count '\n' + 1, left.length + 1, String.ofList (left ++ (marked ++ right))⟩))) := by
  have hline := h.isLine
  rw [List.append_assoc] at hline
  rw [Diagnostic.report?, h.span_eq]
  show (Location.at? source (byteCount (before ++ left))).map _ = _
  rw [Location.at?_of_isLine hline]
  rfl

/-- **Every failure of a text has a place in it**: a stretch within the text, its ends between
characters, on the first line that cannot be read, so that a report can always show it. -/
theorem exists_pinpoints {source : String} {e : Failure} (h : parse source = .error e) :
    ∃ span, Pinpoints source e span := by
  obtain ⟨before, left, marked, right, behind, hat⟩ := exists_isRefusedAt h
  have hstart : source.toList = (before ++ left) ++ (marked ++ right ++ behind) := by
    rw [hat.isLine.eq]
    simp
  have hstop : source.toList = (before ++ left ++ marked) ++ (right ++ behind) := by
    rw [hat.isLine.eq]
    simp
  refine ⟨⟨byteCount (before ++ left), byteCount (before ++ left ++ marked)⟩, ?_⟩
  constructor
  case code_eq => exact code_of_parse h
  case span_eq => exact hat.span_eq
  case start_le_stop =>
    rw [byteCount_append (before ++ left)]
    exact Nat.le_add_right ..
  case stop_le =>
    rw [← Text.byteCount_toList, hstop, byteCount_append (before ++ left ++ marked)]
    exact Nat.le_add_right ..
  case start_isValid => exact Text.isValid_iff.mpr ⟨_, _, hstart, rfl⟩
  case stop_isValid => exact Text.isValid_iff.mpr ⟨_, _, hstop, rfl⟩
  case is_first =>
    refine ⟨before, left ++ marked ++ right, behind, hat.isLine, ?_, ?_, hat.before_read,
      hat.line_refused⟩
    · simp
    · simp
  case reported => exact fun file => ⟨_, hat.report?_eq file⟩

/-- A text with a character of two bytes in front of the place, and one at the place. -/
def misspelt : String :=
  "0 1\n0 2 # é\n0 3 é"

theorem exists_pinpoints_misspelt :
    parse misspelt = .error (.notANumber "é" ⟨17, 19⟩)
      ∧ Pinpoints misspelt (.notANumber "é" ⟨17, 19⟩) ⟨17, 19⟩ := by
  have h : parse misspelt = .error (.notANumber "é" ⟨17, 19⟩) := by cbv
  obtain ⟨span, hspan⟩ := exists_pinpoints h
  obtain rfl : ⟨17, 19⟩ = span := Option.some.inj hspan.span_eq
  exact ⟨h, hspan⟩

end Recording

end DeltaScript
