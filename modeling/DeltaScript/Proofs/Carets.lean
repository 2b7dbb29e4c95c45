import Mathlib
import DeltaScript.Proofs.Faults

/-!
# What a report underlines

A report shows the line of a failure with carets under the place.  The indent counts characters, so
the first caret always stands where it should.  **The carets count bytes**: where the place holds a
character of several bytes, there are too many of them.

* `Recording.shown` — a report with a given number of carets.
* `Diagnostic.caretCount_eq` — the number of carets that are drawn.
* `Recording.Underlines`, `Recording.exists_underlines` — **the report of every failure of a text**,
  which has as many carets as the place has characters exactly if each of these is one byte.
* `Recording.underlines_too_much` — a line of seven characters with eight carets.
-/

namespace DeltaScript

theorem length_le_byteCount (cs : List Char) : cs.length ≤ byteCount cs := by
  induction cs with
  | nil => exact Nat.le_refl 0
  | cons c cs ih =>
      have hpos := c.utf8Size_pos
      rw [List.length_cons, byteCount_cons]
      omega

/-- Characters take up as many bytes as there are of them exactly if each is one byte. -/
theorem byteCount_eq_length_iff {cs : List Char} :
    byteCount cs = cs.length ↔ ∀ c ∈ cs, c.utf8Size = 1 := by
  induction cs with
  | nil => simp
  | cons c cs ih =>
      have hpos := c.utf8Size_pos
      have hle := length_le_byteCount cs
      rw [byteCount_cons, List.length_cons, List.forall_mem_cons, ← ih]
      omega

/-- **There is a caret for each byte of the place**, and one if there is none. -/
theorem Diagnostic.caretCount_eq (offset number : ℕ) (left marked right : List Char) :
    caretCount ⟨offset, offset + byteCount marked⟩
      ⟨number, left.length + 1, String.ofList (left ++ (marked ++ right))⟩
      = max 1 (byteCount marked) := by
  -- the cut at the end of the line takes no effect: `left` has no fewer bytes than characters
  have hle := length_le_byteCount left
  simp only [caretCount, Span.length, String.utf8ByteSize_ofList, ← byteCount_eq_utf8Len,
    byteCount_append]
  omega

namespace Recording

open Text

/-- A report of the diagnostic `d` that shows a line and below it, behind as many blanks as `left`
has characters, a number of carets. -/
def shown (d : Diagnostic) (file : String) (number : ℕ) (left marked right : List Char)
    (carets : ℕ) : String :=
  let column := left.length + 1
  let line := String.ofList (left ++ (marked ++ right))
  let edge := blanks (toString number).length
  let indent := blanks left.length
  s!"error[{d.code.text}]: {d.message}\n"
    ++ (s!"  --> {file}:{number}:{column}\n"
      ++ s!"{edge} |\n"
      ++ s!"{number} | {line}\n"
      ++ s!"{edge} | {indent}"
      ++ String.ofList (List.replicate carets '^') ++ "\n")

theorem shown_inj {d : Diagnostic} {file : String} {number : ℕ} {left marked right : List Char}
    {m n : ℕ} :
    shown d file number left marked right m = shown d file number left marked right n ↔ m = n := by
  constructor
  · intro h
    -- reports with different numbers of carets have different lengths
    have hlength := congrArg String.length h
    simp only [shown, String.length_append, String.length_ofList, List.length_replicate] at hlength
    omega
  · rintro rfl
    rfl

/-- A diagnostic without a remark is laid out as its headline and the excerpt. -/
theorem layOut_eq_shown {d : Diagnostic} (hobject : d.object = none) (hhint : d.hint = none)
    (file : String) (span : Span) (number : ℕ) (left marked right : List Char) :
    d.layOut file (some (span,
        ⟨number, left.length + 1, String.ofList (left ++ (marked ++ right))⟩))
      = shown d file number left marked right (Diagnostic.caretCount span
        ⟨number, left.length + 1, String.ofList (left ++ (marked ++ right))⟩) := by
  cases d
  cases hobject
  cases hhint
  show _ ++ "" ++ "" = _
  rw [String.append_empty, String.append_empty]
  rfl

/-- How a text is refused, and what the report of it underlines. -/
structure Underlines (source : String) (e : Failure) (file : String)
    (before left marked right behind : List Char) : Prop
    extends IsRefusedAt source e before left marked right behind where
  /-- The carets start below the place, and there is one for each byte of it, at least one. -/
  report_eq : e.diagnostic.report? source file = some
    (shown e.diagnostic file (before.count '\n' + 1) left marked right
      (max 1 (byteCount marked)))
  /-- There is one for each character of the place exactly if each of them is one byte. -/
  exact_iff : e.diagnostic.report? source file = some
    (shown e.diagnostic file (before.count '\n' + 1) left marked right
      (max 1 marked.length)) ↔ ∀ c ∈ marked, c.utf8Size = 1
  /-- Then they end where the line does at the latest, or behind one character. -/
  within_line : (∀ c ∈ marked, c.utf8Size = 1) →
    left.length + max 1 (byteCount marked)
      ≤ max (left ++ marked ++ right).length (left.length + 1)

/-- **The report of every failure of a text** shows its line, with carets that start below the place
and count its bytes. -/
theorem exists_underlines {source : String} {e : Failure} (h : parse source = .error e)
    (file : String) : ∃ before left marked right behind,
      Underlines source e file before left marked right behind := by
  obtain ⟨before, left, marked, right, behind, hat⟩ := exists_isRefusedAt h
  obtain ⟨hobject, hhint⟩ := Failure.no_remark (code_of_parse h)
  have hreport : e.diagnostic.report? source file = some
      (shown e.diagnostic file (before.count '\n' + 1) left marked right
        (max 1 (byteCount marked))) := by
    rw [hat.report?_eq, layOut_eq_shown hobject hhint, byteCount_append (before ++ left) marked,
      Diagnostic.caretCount_eq]
  refine ⟨before, left, marked, right, behind, hat, hreport, ?_, ?_⟩
  · have hle := length_le_byteCount marked
    have hempty : marked.length = 0 → byteCount marked = 0 := by
      intro h
      rw [List.length_eq_zero_iff.mp h, byteCount_nil]
    rw [hreport, Option.some.injEq, shown_inj, ← byteCount_eq_length_iff]
    omega
  · intro hbytes
    have hcount := byteCount_eq_length_iff.mpr hbytes
    simp only [List.length_append]
    omega

/-- The second line is too short, and ends in a character of two bytes. -/
def uneven : String :=
  "0 1 2\n0 1 # é"

theorem exists_underlines_uneven :
    parse uneven = .error (.unevenLine 2 1 ⟨6, 14⟩)
      ∧ ∃ before left marked right behind, Underlines uneven (.unevenLine 2 1 ⟨6, 14⟩) "<input>"
        before left marked right behind := by
  have h : parse uneven = .error (.unevenLine 2 1 ⟨6, 14⟩) := by cbv
  exact ⟨h, exists_underlines h "<input>"⟩

/-- **A line of seven characters is underlined with eight carets**, one past its end. -/
theorem underlines_too_much :
    parse uneven = .error (.unevenLine 2 1 ⟨6, 14⟩)
      ∧ (Failure.unevenLine 2 1 ⟨6, 14⟩).diagnostic.report? uneven "<input>" = some
        ("error[E040]: Expected 2 attributes, found 1\n  --> <input>:2:1\n  |\n2 | 0 1 # é\n"
          ++ "  | ^^^^^^^^\n")
      ∧ "0 1 # é".length = 7 ∧ "^^^^^^^^".length = 8 := by
  refine ⟨by cbv, by decide +kernel, rfl, rfl⟩

end Recording

end DeltaScript
