import Mathlib
import DeltaScript.Source.Span

/-!
# Texts that are cut at a separator

A text is cut into its lines before any of them is looked at, and a path into its steps.

* `Text.takeWhile_append` — what is cut off in front of the first character of another kind.
* `Text.byteCount_toList` — a text has as many bytes as its characters.
* `Text.notMem_splitOn` — no piece of a text holds the separator that it was cut at.
* `Text.splitOn_lines_append`, `Text.flatMap_splitOn` — lines that are put together can be told
  apart again, and put together once more.
* `Text.IsLine`, `Text.isLine_of_splitOn` — **a line stands between what precedes it and what
  follows it**, and is bounded by newlines or by the ends of the text.
-/

namespace DeltaScript

theorem byteCount_eq_utf8Len (cs : List Char) : byteCount cs = String.utf8Len cs := by
  induction cs with
  | nil => rfl
  | cons c cs ih => rw [byteCount_cons, String.utf8Len_cons, ih, Nat.add_comm]

namespace Text

theorem utf8Size_newline : '\n'.utf8Size = 1 := rfl

theorem byteCount_toList (text : String) : byteCount text.toList = text.utf8ByteSize := by
  rw [byteCount_eq_utf8Len, ← String.utf8ByteSize_ofList, String.ofList_toList]

/-- What has a property is cut off where something follows that does not have it. -/
theorem takeWhile_append {p : Char → Bool} {front rest : List Char} (hfront : ∀ c ∈ front, p c)
    (hrest : ∀ c ∈ rest.head?, p c = false) : (front ++ rest).takeWhile p = front := by
  have hstop : rest.takeWhile p = [] := by
    cases rest with
    | nil => rfl
    | cons c cs => simp [hrest c rfl]
  rw [List.takeWhile_append_of_pos hfront, hstop, List.append_nil]

theorem notMem_splitOn (separator : Char) (text : List Char) :
    ∀ piece ∈ text.splitOn separator, separator ∉ piece := by
  induction text with
  | nil => simp
  | cons c text ih =>
      rw [List.splitOn_cons_eq_if_modifyHead]
      split_ifs with hseparator
      · simpa using ih
      · obtain ⟨first, rest, heq⟩ := List.exists_cons_of_ne_nil (List.splitOn_ne_nil separator text)
        rw [heq, List.forall_mem_cons] at ih
        rw [heq, List.modifyHead_cons, List.forall_mem_cons]
        refine ⟨?_, ih.2⟩
        rw [List.mem_cons, not_or]
        exact ⟨fun h => hseparator (by simp [← h]), ih.1⟩

/-- **Lines that are put together can be told apart again**, the last one without a newline behind
it. -/
theorem splitOn_lines_append {lines : List (List Char)} {last : List Char}
    (h : ∀ line ∈ lines, '\n' ∉ line) (hlast : '\n' ∉ last) :
    (lines.flatMap (· ++ ['\n']) ++ last).splitOn '\n' = lines ++ [last] := by
  induction lines with
  | nil => simpa using List.splitOn_eq_singleton hlast
  | cons line lines ih =>
      rw [List.forall_mem_cons] at h
      rw [List.flatMap_cons, List.append_assoc, List.append_assoc, List.singleton_append,
        List.splitOn_append_cons_self, List.splitOn_eq_singleton h.1, ih h.2]
      rfl

theorem splitOn_lines {lines : List (List Char)} (h : ∀ line ∈ lines, '\n' ∉ line) :
    (lines.flatMap (· ++ ['\n'])).splitOn '\n' = lines ++ [[]] := by
  simpa using splitOn_lines_append h (List.not_mem_nil (a := '\n'))

/-- A line of a text, what precedes it and what follows it. -/
structure IsLine (text before line behind : List Char) : Prop where
  eq : text = before ++ line ++ behind
  newline_notMem : '\n' ∉ line
  /-- The line starts where the text does, or behind a newline. -/
  starts : before = [] ∨ ∃ cs, before = cs ++ ['\n']
  /-- The line ends where the text does, or at a newline. -/
  ends : behind = [] ∨ ∃ cs, behind = '\n' :: cs

theorem intercalate_cons (line : List Char) (after : List (List Char)) :
    ['\n'].intercalate (line :: after) = line ++ after.flatMap ('\n' :: ·) := by
  induction after generalizing line with
  | nil => simp
  | cons next after ih =>
      rw [List.intercalate_cons_cons, ih, List.flatMap_cons, List.append_assoc]
      rfl

theorem intercalate_append_cons (before after : List (List Char)) (line : List Char) :
    ['\n'].intercalate (before ++ line :: after)
      = before.flatMap (· ++ ['\n']) ++ line ++ after.flatMap ('\n' :: ·) := by
  induction before with
  | nil => exact intercalate_cons line after
  | cons first before ih =>
      obtain ⟨next, rest, heq⟩ : ∃ next rest, before ++ line :: after = next :: rest :=
        List.exists_cons_of_ne_nil (by simp)
      rw [List.cons_append, heq, List.intercalate_cons_cons, ← heq, ih]
      simp

/-- The lines of a text, with a newline behind the last one too. -/
theorem flatMap_splitOn (text : List Char) :
    (text.splitOn '\n').flatMap (· ++ ['\n']) = text ++ ['\n'] := by
  have hlines := List.dropLast_append_getLast (List.splitOn_ne_nil '\n' text)
  have htext : ['\n'].intercalate (text.splitOn '\n') = text := List.intercalate_splitOn '\n'
  rw [← hlines, intercalate_append_cons] at htext
  rw [← hlines]
  conv_rhs => rw [← htext]
  simp

/-- **Every piece that a text is cut into is a line of it.** -/
theorem isLine_of_splitOn {text line : List Char} {before after : List (List Char)}
    (h : text.splitOn '\n' = before ++ line :: after) :
    IsLine text (before.flatMap (· ++ ['\n'])) line (after.flatMap ('\n' :: ·)) := by
  constructor
  case eq => rw [← intercalate_append_cons, ← h, List.intercalate_splitOn]
  case newline_notMem => exact notMem_splitOn '\n' text line (by simp [h])
  case starts =>
    rcases List.eq_nil_or_concat before with rfl | ⟨front, last, rfl⟩
    · exact Or.inl rfl
    · exact Or.inr ⟨front.flatMap (· ++ ['\n']) ++ last, by simp⟩
  case ends =>
    cases after with
    | nil => exact Or.inl rfl
    | cons next after => exact Or.inr ⟨next ++ after.flatMap ('\n' :: ·), by simp⟩

end Text

end DeltaScript
