import Mathlib
import DeltaScript.Proofs.Splitting
import DeltaScript.Source.Location

/-!
# Where a place on a line lies

A place on a line is given by what precedes the line and by the part of the line in front of the
place.  Its offset counts the bytes of both, its column the characters of the second only.

* `Text.isValid_iff` — the offsets between characters are those of what precedes them.
* `Cursor.seek_eq_some_iff` — **a cursor goes past characters by going past their bytes**, and never
  past the end.
* `Location.at?_of_isLine` — the line, the column and the text of the line at such an offset.
* `Text.exists_line_of_append` — wherever a text is cut, the cut lies on one of its lines.
* `Location.IsPlaceOf`, `Location.exact_places` — **every offset between characters has a place, and
  the place tells the offset.**

The lines of a text are those that it is cut into at its newlines, while the place is found by
looking for the nearest newlines in both directions.
-/

namespace DeltaScript

/-! ## Offsets between characters -/

/-- An offset between characters counts the bytes of what precedes it. -/
theorem Text.isValid_iff {source : String} {offset : ℕ} :
    String.Pos.Raw.IsValid source ⟨offset⟩ ↔
      ∃ front rest, source.toList = front ++ rest ∧ byteCount front = offset := by
  rw [String.Pos.Raw.isValid_iff_exists_append]
  constructor
  · rintro ⟨s, t, rfl, hoffset⟩
    refine ⟨s.toList, t.toList, String.toList_append, ?_⟩
    rw [byteCount_toList]
    exact (congrArg String.Pos.Raw.byteIdx hoffset).symm
  · rintro ⟨front, rest, h, rfl⟩
    refine ⟨String.ofList front, String.ofList rest, ?_, ?_⟩
    · rw [← String.ofList_append, ← h, String.ofList_toList]
    · rw [String.rawEndPos, String.utf8ByteSize_ofList, byteCount_eq_utf8Len]

namespace Cursor

/-- A cursor that gets anywhere goes past as many bytes as it is told to, or past all there are. -/
theorem exists_of_seek {before after : List Char} {n : ℕ} {k : Cursor}
    (h : seek before after n = some k) : ∃ passed rest, after = passed ++ rest
      ∧ byteCount passed = min n (byteCount after) ∧ k = ⟨passed.reverse ++ before, rest⟩ := by
  induction after generalizing before n with
  | nil =>
      have hk : seek before [] n = some ⟨before, []⟩ := by cases n <;> rfl
      rw [hk] at h
      exact ⟨[], [], rfl, by simp, (Option.some.inj h).symm⟩
  | cons c cs ih =>
      cases n with
      | zero =>
          rw [seek] at h
          exact ⟨[], c :: cs, rfl, by simp, (Option.some.inj h).symm⟩
      | succ n =>
          rw [seek] at h
          split_ifs at h with hle
          obtain ⟨passed, rest, rfl, hbytes, rfl⟩ := ih h
          refine ⟨c :: passed, rest, rfl, ?_, by simp⟩
          rw [byteCount_cons, byteCount_cons]
          omega

/-- **A cursor goes past characters by going past their bytes**, and never past the end. -/
theorem seek_eq_some_iff {before after : List Char} {n : ℕ} {k : Cursor} :
    seek before after n = some k ↔ ∃ passed rest, after = passed ++ rest
      ∧ byteCount passed = min n (byteCount after) ∧ k = ⟨passed.reverse ++ before, rest⟩ := by
  refine ⟨exists_of_seek, ?_⟩
  rintro ⟨passed, rest, rfl, hbytes, rfl⟩
  induction passed generalizing before n with
  | nil =>
      cases rest with
      | nil => cases n <;> rfl
      | cons c rest =>
          have hpos := c.utf8Size_pos
          obtain rfl : n = 0 := by
            simp only [List.nil_append, byteCount_nil, byteCount_cons] at hbytes
            omega
          rfl
  | cons c passed ih =>
      have hpos := c.utf8Size_pos
      rw [List.cons_append, byteCount_cons, byteCount_cons] at hbytes
      obtain ⟨n, rfl⟩ : ∃ m, n = m + 1 := Nat.exists_eq_succ_of_ne_zero (by omega)
      rw [List.cons_append, seek, if_pos (by omega), ih (by omega)]
      simp

theorem seek_append (before passed rest : List Char) :
    seek before (passed ++ rest) (byteCount passed) = some ⟨passed.reverse ++ before, rest⟩ := by
  refine seek_eq_some_iff.mpr ⟨passed, rest, rfl, ?_, rfl⟩
  rw [byteCount_append, min_eq_left (Nat.le_add_right ..)]

end Cursor

/-! ## Places on a line -/

/-- A line is cut off where the text ends, or at a newline. -/
theorem Text.takeWhile_ne_newline {line rest : List Char} (hline : '\n' ∉ line)
    (hrest : rest = [] ∨ ∃ cs, rest = '\n' :: cs) :
    (line ++ rest).takeWhile (· != '\n') = line := by
  refine takeWhile_append (fun c hc => ?_) ?_
  · simpa using ne_of_mem_of_not_mem hc hline
  · rcases hrest with rfl | ⟨cs, rfl⟩
    · simp
    · simp

/-- **The place behind the first part of a line.** -/
theorem Location.at?_of_isLine {source : String} {before left right behind : List Char}
    (h : Text.IsLine source.toList before (left ++ right) behind) :
    Location.at? source (byteCount (before ++ left)) = some
      ⟨before.count '\n' + 1, left.length + 1, String.ofList (left ++ right)⟩ := by
  obtain ⟨hleft, hright⟩ : '\n' ∉ left ∧ '\n' ∉ right := by
    simpa using h.newline_notMem
  have htext : source.toList = (before ++ left) ++ (right ++ behind) := by
    rw [h.eq]
    simp
  have hstarts : before.reverse = [] ∨ ∃ cs, before.reverse = '\n' :: cs := by
    rcases h.starts with rfl | ⟨cs, rfl⟩
    · exact Or.inl rfl
    · exact Or.inr ⟨cs.reverse, by simp⟩
  have hbefore : (left.reverse ++ before.reverse).takeWhile (· != '\n') = left.reverse :=
    Text.takeWhile_ne_newline (by simpa using hleft) hstarts
  have hafter : (right ++ behind).takeWhile (· != '\n') = right :=
    Text.takeWhile_ne_newline hright h.ends
  rw [Location.at?, htext, Cursor.seek_append, Option.map_some, List.append_nil,
    List.reverse_append]
  simp only [Cursor.location, Cursor.line, Cursor.lineBefore, Cursor.lineAfter, hbefore, hafter,
    List.reverse_reverse, List.count_append, List.count_reverse,
    List.count_eq_zero_of_not_mem hleft, Nat.zero_add]

/-! ## From places back to offsets -/

/-- **Wherever a text is cut, the cut lies on one of its lines.** -/
theorem Text.exists_line_of_append (front rest : List Char) : ∃ before left right after,
    (front ++ rest).splitOn '\n' = before ++ (left ++ right) :: after
      ∧ front = before.flatMap (· ++ ['\n']) ++ left := by
  -- the last line of what precedes the cut goes on with the first line of what follows it
  obtain ⟨before, left, hfront⟩ : ∃ before left, front.splitOn '\n' = before ++ [left] :=
    ⟨_, _, (List.dropLast_append_getLast (List.splitOn_ne_nil '\n' front)).symm⟩
  obtain ⟨right, after, hrest⟩ : ∃ right after, rest.splitOn '\n' = right :: after :=
    List.exists_cons_of_ne_nil (List.splitOn_ne_nil '\n' rest)
  have hfronts := notMem_splitOn '\n' front
  have hrests := notMem_splitOn '\n' rest
  have hlines : ∀ text : List Char, ['\n'].intercalate (text.splitOn '\n') = text := fun text =>
    List.intercalate_splitOn '\n'
  have hjoin : front = before.flatMap (· ++ ['\n']) ++ left := by
    rw [← hlines front, hfront, intercalate_append_cons]
    simp
  have hgoes : rest = right ++ after.flatMap ('\n' :: ·) := by
    rw [← hlines rest, hrest, intercalate_cons]
  rw [hfront] at hfronts
  rw [hrest] at hrests
  refine ⟨before, left, right, after, ?_, hjoin⟩
  have htext : front ++ rest = ['\n'].intercalate (before ++ (left ++ right) :: after) := by
    rw [intercalate_append_cons, hjoin, hgoes]
    simp
  rw [htext, List.splitOn_intercalate '\n' ?_ (by simp)]
  intro line hline
  rcases List.mem_append.mp hline with hline | hline
  · exact hfronts line (by simp [hline])
  · rcases List.mem_cons.mp hline with rfl | hline
    · simpa using ⟨hfronts left (by simp), hrests right (by simp)⟩
    · exact hrests line (by simp [hline])

/-- As many newlines precede a line as there are lines before it. -/
theorem Text.count_newline {lines : List (List Char)} (h : ∀ line ∈ lines, '\n' ∉ line) :
    (lines.flatMap (· ++ ['\n'])).count '\n' = lines.length := by
  induction lines with
  | nil => rfl
  | cons line lines ih =>
      obtain ⟨hline, hlines⟩ := List.forall_mem_cons.mp h
      simp [List.count_eq_zero_of_not_mem hline, ih hlines]

namespace Location

/-- A place is that of an offset. -/
structure IsPlaceOf (l : Location) (source : String) (offset : ℕ) : Prop where
  line_pos : 1 ≤ l.line
  /-- The text of the line is the line with that number. -/
  content_eq : (source.toList.splitOn '\n')[l.line - 1]? = some l.content.toList
  column_pos : 1 ≤ l.column
  /-- The place is on the line, or behind the last character of it. -/
  column_le : l.column - 1 ≤ l.content.toList.length
  /-- The bytes of what precedes the place add up to the offset. -/
  offset_eq : l.offset source = min offset source.utf8ByteSize

variable {source : String} {offset : ℕ} {l : Location}

theorem isPlaceOf_of_at? (h : at? source offset = some l) : l.IsPlaceOf source offset := by
  obtain ⟨k, hk, hl⟩ := Option.map_eq_some_iff.mp h
  obtain ⟨passed, rest, htext, hbytes, rfl⟩ := Cursor.seek_eq_some_iff.mp hk
  obtain ⟨before, left, right, after, hlines, rfl⟩ := Text.exists_line_of_append passed rest
  rw [← htext] at hlines
  -- the cursor has gone past the lines before and the first part of the line, and no further
  have hplace := at?_of_isLine (Text.isLine_of_splitOn hlines)
  rw [at?, htext, Cursor.seek_append, Option.map_some, hl, Option.some.injEq] at hplace
  have hnewline : ∀ line ∈ before, '\n' ∉ line := fun line hline =>
    Text.notMem_splitOn '\n' source.toList line (by simp [hlines, hline])
  rw [Text.count_newline hnewline] at hplace
  subst hplace
  rw [Text.byteCount_toList, byteCount_append] at hbytes
  constructor
  case line_pos => exact Nat.le_add_left ..
  case content_eq => simp [hlines]
  case column_pos => exact Nat.le_add_left ..
  case column_le => simp
  case offset_eq => simpa [Location.offset, hlines] using hbytes

/-- **An offset has a place exactly if it lies between characters.**  Past the end it counts as the
end. -/
theorem exists_at?_iff : (∃ l, at? source offset = some l) ↔
    String.Pos.Raw.IsValid source ⟨min offset source.utf8ByteSize⟩ := by
  rw [Text.isValid_iff, ← Text.byteCount_toList]
  constructor
  · rintro ⟨l, h⟩
    obtain ⟨k, hk, -⟩ := Option.map_eq_some_iff.mp h
    obtain ⟨passed, rest, htext, hbytes, -⟩ := Cursor.seek_eq_some_iff.mp hk
    exact ⟨passed, rest, htext, hbytes⟩
  · rintro ⟨passed, rest, htext, hbytes⟩
    have hseek : Cursor.seek [] source.toList offset = some ⟨passed.reverse ++ [], rest⟩ :=
      Cursor.seek_eq_some_iff.mpr ⟨passed, rest, htext, hbytes, rfl⟩
    exact ⟨_, Option.map_eq_some_iff.mpr ⟨_, hseek, rfl⟩⟩

/-- **The places of a text and its offsets between characters tell each other.**  Such an offset has
a place, which leads back to it, and other offsets have none; and what has the same line and the
same column is the same offset. -/
theorem exact_places (source : String) :
    (∀ offset, String.Pos.Raw.IsValid source ⟨min offset source.utf8ByteSize⟩ →
      ∃ l, at? source offset = some l ∧ l.IsPlaceOf source offset)
    ∧ (∀ offset, ¬ String.Pos.Raw.IsValid source ⟨min offset source.utf8ByteSize⟩ →
      at? source offset = none)
    ∧ ∀ m n l k, at? source m = some l → at? source n = some k → l.line = k.line →
      l.column = k.column → min m source.utf8ByteSize = min n source.utf8ByteSize := by
  refine ⟨?_, ?_, ?_⟩
  · intro offset hvalid
    obtain ⟨l, hl⟩ := exists_at?_iff.mpr hvalid
    exact ⟨l, hl, isPlaceOf_of_at? hl⟩
  · intro offset hvalid
    by_contra hsome
    obtain ⟨l, hl⟩ := Option.ne_none_iff_exists'.mp hsome
    exact hvalid (exists_at?_iff.mp ⟨l, hl⟩)
  · intro m n l k hl hk hline hcolumn
    have hm := isPlaceOf_of_at? hl
    have hn := isPlaceOf_of_at? hk
    have hcontent : l.content.toList = k.content.toList := by
      have h := hm.content_eq
      rw [hline, hn.content_eq] at h
      exact (Option.some.inj h).symm
    rw [← hm.offset_eq, ← hn.offset_eq, Location.offset, Location.offset, hline, hcolumn, hcontent]

/-- An offset behind characters of two bytes on two lines, and an offset past the end. -/
theorem exact_places_multibyte :
    at? "é\nüb" 5 = some ⟨2, 2, "üb"⟩ ∧ IsPlaceOf ⟨2, 2, "üb"⟩ "é\nüb" 5
      ∧ at? "é\nüb" 9 = some ⟨2, 3, "üb"⟩ ∧ IsPlaceOf ⟨2, 3, "üb"⟩ "é\nüb" 9 := by
  have hvalid : ∀ front rest, "é\nüb".toList = front ++ rest →
      String.Pos.Raw.IsValid "é\nüb" ⟨byteCount front⟩ := fun front rest h =>
    Text.isValid_iff.mpr ⟨front, rest, h, rfl⟩
  have hfive : at? "é\nüb" 5 = some ⟨2, 2, "üb"⟩ := by rfl
  have hnine : at? "é\nüb" 9 = some ⟨2, 3, "üb"⟩ := by rfl
  obtain ⟨l, hl, hplace⟩ := (exact_places "é\nüb").1 5 (hvalid ['é', '\n', 'ü'] ['b'] rfl)
  obtain ⟨k, hk, hend⟩ := (exact_places "é\nüb").1 9 (hvalid ['é', '\n', 'ü', 'b'] [] rfl)
  obtain rfl := Option.some.inj (hfive.symm.trans hl)
  obtain rfl := Option.some.inj (hnine.symm.trans hk)
  exact ⟨hfive, hplace, hnine, hend⟩

end Location

end DeltaScript
