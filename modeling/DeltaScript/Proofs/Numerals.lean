import Mathlib
import DeltaScript.Recording.Rendering

/-!
# Numerals are read as they are written

A number may be written in three notations, with zeros in front and hexadecimal digits of either
case.  Whatever the choice, the word is read as that number.

* `Radix.value?_eq_some_iff` — digits have the value that they write, and nothing else has a value.
* `IsWord` — a sign, a mark and word characters: what is read as one word, whether or not it is a
  number.
* `Numeral.isWord` — numerals are words.
* **`readNumeral_eq_some_iff`** — a word is read as a number exactly if it is a numeral of it, with
  digits below the bound.

The notation is told from the mark alone, so that the decimal notation, which has none, has to be
told apart by its first digit: no digit is a mark, and no digit is a sign.
-/

namespace DeltaScript

/-! ## Digits -/

theorem Radix.base_le (r : Radix) : r.base ≤ 16 := by
  cases r <;> decide

theorem mem_digitFaces {d : ℕ} {c : Char} :
    c ∈ digitFaces d ↔ c = d.digitChar ∨ c = d.digitChar.toUpper := by
  simp [digitFaces]

/-- Both faces of a digit have its value. -/
theorem digit?_eq_of_mem_digitFaces {d : ℕ} {c : Char} (hd : d < 16) (hc : c ∈ digitFaces d) :
    Radix.digit? c = some d := by
  rcases mem_digitFaces.mp hc with rfl | rfl
  · interval_cases d <;> rfl
  · interval_cases d <;> rfl

theorem isWordChar_of_mem_digitFaces {d : ℕ} {c : Char} (hd : d < 16) (hc : c ∈ digitFaces d) :
    Piece.isWordChar c := by
  rcases mem_digitFaces.mp hc with rfl | rfl
  · interval_cases d <;> rfl
  · interval_cases d <;> rfl

theorem toUpper_mem_digitFaces {d : ℕ} {c : Char} (hd : d < 16) (hc : c ∈ digitFaces d) :
    c.toUpper ∈ digitFaces d := by
  rcases mem_digitFaces.mp hc with rfl | rfl
  · exact mem_digitFaces.mpr (Or.inr rfl)
  · interval_cases d <;> decide

/-- A character that has a value is one of the faces of the digit. -/
theorem mem_digitFaces_of_digit? {c : Char} {d : ℕ} (h : Radix.digit? c = some d) :
    c ∈ digitFaces d := by
  have hrange : (48 ≤ c.toNat ∧ c.toNat ≤ 57) ∨ (97 ≤ c.toNat ∧ c.toNat ≤ 102)
      ∨ (65 ≤ c.toNat ∧ c.toNat ≤ 70) := by
    unfold Radix.digit? at h
    split_ifs at h with hdigit hlower hupper
    · have hboth : 48 ≤ c.toNat ∧ c.toNat ≤ 57 := by
        simpa [Char.isDigit, UInt32.le_iff_toNat_le] using hdigit
      exact Or.inl hboth
    · exact Or.inr (Or.inl hlower)
    · exact Or.inr (Or.inr hupper)
  rw [← Char.ofNat_toNat c] at h ⊢
  generalize c.toNat = k at h ⊢ hrange
  rcases hrange with ⟨hlo, hhi⟩ | ⟨hlo, hhi⟩ | ⟨hlo, hhi⟩
  · interval_cases k <;> (cases h; decide)
  · interval_cases k <;> (cases h; decide)
  · interval_cases k <;> (cases h; decide)

namespace Radix

variable {r : Radix}

theorem digitValue?_eq {d : ℕ} {c : Char} (hd : d < r.base) (hc : c ∈ digitFaces d) :
    r.digitValue? c = some d := by
  rw [digitValue?, digit?_eq_of_mem_digitFaces (hd.trans_le r.base_le) hc]
  simp [hd]

/-- A value is read on behind the digits read so far. -/
theorem valueFrom?_append (value : ℕ) (digits more : List Char) :
    r.valueFrom? value (digits ++ more)
      = (r.valueFrom? value digits).bind fun v => r.valueFrom? v more := by
  induction digits generalizing value with
  | nil => rfl
  | cons c digits ih =>
      rw [List.cons_append, valueFrom?, valueFrom?]
      cases r.digitValue? c with
      | none => rfl
      | some d => exact ih (r.base * value + d)

theorem Writes.ne_nil {n : ℕ} {digits : List Char} (h : r.Writes n digits) : digits ≠ [] := by
  cases h <;> simp

/-- Digits are word characters. -/
theorem Writes.isWordChar {n : ℕ} {digits : List Char} (h : r.Writes n digits) :
    ∀ c ∈ digits, Piece.isWordChar c := by
  have hface : ∀ {d c}, d < r.base → c ∈ digitFaces d → Piece.isWordChar c := fun hd hc =>
    isWordChar_of_mem_digitFaces (hd.trans_le r.base_le) hc
  induction h with
  | digit hd hc => simpa using hface hd hc
  | more _ hd hc ih =>
      intro c hmem
      rcases List.mem_append.mp hmem with hmem | hmem
      · exact ih c hmem
      · rw [List.mem_singleton.mp hmem]
        exact hface hd hc

theorem Writes.valueFrom?_zero {n : ℕ} {digits : List Char} (h : r.Writes n digits) :
    r.valueFrom? 0 digits = some n := by
  induction h with
  | digit hd hc => simp [valueFrom?, digitValue?_eq hd hc]
  | more _ hd hc ih => simp [valueFrom?_append, ih, valueFrom?, digitValue?_eq hd hc]

theorem lt_base_of_digitValue? {c : Char} {d : ℕ} (h : r.digitValue? c = some d) :
    d < r.base ∧ c ∈ digitFaces d := by
  obtain ⟨hdigit, hlt⟩ := Option.filter_eq_some_iff.mp h
  exact ⟨by simpa using hlt, mem_digitFaces_of_digit? hdigit⟩

/-- Digits that are read behind digits write what is read. -/
theorem Writes.append {v n : ℕ} {digits more : List Char} (h : r.Writes v digits)
    (hread : r.valueFrom? v more = some n) : r.Writes n (digits ++ more) := by
  induction more generalizing v digits with
  | nil =>
      cases hread
      simpa using h
  | cons c more ih =>
      rw [valueFrom?] at hread
      split at hread
      · next d hd =>
          obtain ⟨hlt, hface⟩ := lt_base_of_digitValue? hd
          have hboth : r.Writes n ((digits ++ [c]) ++ more) := ih (h.more hlt hface) hread
          simpa using hboth
      · cases hread

/-- **Digits have the value that they write**, and no other digits have a value. -/
theorem value?_eq_some_iff {n : ℕ} {digits : List Char} :
    r.value? digits = some n ↔ r.Writes n digits := by
  constructor
  · intro h
    cases digits with
    | nil => cases h
    | cons c digits =>
        change r.valueFrom? 0 (c :: digits) = some n at h
        rw [valueFrom?] at h
        split at h
        · next d hd =>
            obtain ⟨hlt, hface⟩ := lt_base_of_digitValue? hd
            rw [Nat.mul_zero, Nat.zero_add] at h
            exact (Writes.digit hlt hface).append h
        · cases h
  · intro h
    have hempty : digits.isEmpty = false := by simpa using h.ne_nil
    rw [value?, hempty]
    exact h.valueFrom?_zero

/-- Digits write one number. -/
theorem Writes.unique {m n : ℕ} {digits : List Char} (hm : r.Writes m digits)
    (hn : r.Writes n digits) : m = n :=
  Option.some.inj ((value?_eq_some_iff.mpr hm).symm.trans (value?_eq_some_iff.mpr hn))

/-- A zero in front of digits is in front of the first of them. -/
theorem Writes.zero_cons {n : ℕ} {digits : List Char} (h : r.Writes n digits) :
    r.Writes n ('0' :: digits) := by
  have hpos : 0 < r.base := by cases r <;> decide
  induction h with
  | digit hd hc =>
      have hzero : r.Writes 0 ['0'] := Writes.digit hpos (by decide)
      simpa using hzero.more hd hc
  | more _ hd hc ih => exact ih.more hd hc

theorem Writes.leftpad {n : ℕ} {digits : List Char} (h : r.Writes n digits) (width : ℕ) :
    r.Writes n (digits.leftpad width '0') := by
  rw [List.leftpad]
  induction width - digits.length with
  | zero => exact h
  | succ zeros ih => exact ih.zero_cons

/-- Digits in upper case write the same number. -/
theorem Writes.map_toUpper {n : ℕ} {digits : List Char} (h : r.Writes n digits) :
    r.Writes n (digits.map Char.toUpper) := by
  induction h with
  | digit hd hc => exact .digit hd (toUpper_mem_digitFaces (hd.trans_le r.base_le) hc)
  | more _ hd hc ih =>
      rw [List.map_append]
      exact ih.more hd (toUpper_mem_digitFaces (hd.trans_le r.base_le) hc)

/-- What is printed in a notation is written in it. -/
theorem writes_toDigits (r : Radix) (n : ℕ) : r.Writes n (Nat.toDigits r.base n) := by
  have hbase : 1 < r.base := by cases r <;> decide
  induction n using Nat.strong_induction_on with
  | h n ih =>
      rcases Nat.lt_or_ge n r.base with hlt | hge
      · rw [Nat.toDigits_of_lt_base hlt]
        exact Writes.digit hlt (by simp [digitFaces])
      · have hmod : n % r.base < r.base := Nat.mod_lt n (Nat.zero_lt_of_lt hbase)
        have hdiv : n / r.base < n := Nat.div_lt_self (Nat.zero_lt_of_lt (hbase.trans_le hge)) hbase
        have hmore := (ih (n / r.base) hdiv).more hmod (mem_digitFaces.mpr (Or.inl rfl))
        rw [Nat.toDigits_of_base_le hbase hge]
        rwa [Nat.div_add_mod] at hmore

end Radix

/-! ## Words -/

/-- What may be in front of word characters: a sign, and behind it a mark. -/
def wordLeads : List (List Char) :=
  [[], ['-'], ['$'], ['%'], ['-', '$'], ['-', '%']]

/-- A sign, a mark and word characters, the sign and the mark optional. -/
def IsWord (word : List Char) : Prop :=
  ∃ lead ∈ wordLeads, ∃ c body, word = lead ++ c :: body ∧ ∀ x ∈ c :: body, Piece.isWordChar x

theorem ne_of_isWordChar {c : Char} (h : Piece.isWordChar c) : c ≠ '-' ∧ c ≠ '$' ∧ c ≠ '%' := by
  refine ⟨?_, ?_, ?_⟩
  · rintro rfl
    exact absurd h (by decide)
  · rintro rfl
    exact absurd h (by decide)
  · rintro rfl
    exact absurd h (by decide)

theorem Radix.mark_mem_wordLeads (r : Radix) : r.mark ∈ wordLeads ∧ '-' :: r.mark ∈ wordLeads := by
  cases r <;> decide

/-- Numerals are words. -/
theorem Numeral.isWord {n : ℤ} {word : List Char} (h : Numeral n word) : IsWord word := by
  cases h with
  | @plain r n digits hdigits =>
      obtain ⟨c, body, rfl⟩ := List.exists_cons_of_ne_nil hdigits.ne_nil
      exact ⟨r.mark, r.mark_mem_wordLeads.1, c, body, rfl, hdigits.isWordChar⟩
  | @minus r n digits hdigits =>
      obtain ⟨c, body, rfl⟩ := List.exists_cons_of_ne_nil hdigits.ne_nil
      exact ⟨'-' :: r.mark, r.mark_mem_wordLeads.2, c, body, rfl, hdigits.isWordChar⟩

theorem IsWord.ne_nil {word : List Char} (h : IsWord word) : word ≠ [] := by
  rintro rfl
  obtain ⟨_, -, _, _, heq, -⟩ := h
  simp at heq

/-! ## Numbers -/

/-- The notation is told from the mark. -/
theorem radixOf_mark_append {r : Radix} {n : ℕ} {digits : List Char} (h : r.Writes n digits) :
    radixOf (r.mark ++ digits) = (r, digits) := by
  cases r with
  | hexadecimal => rfl
  | binary => rfl
  | decimal =>
      -- nothing marks a decimal numeral, but its first digit is no mark of another notation
      obtain ⟨c, body, rfl⟩ := List.exists_cons_of_ne_nil h.ne_nil
      obtain ⟨-, hhex, hbin⟩ := ne_of_isWordChar (h.isWordChar c (by simp))
      show radixOf (c :: body) = _
      unfold radixOf
      split
      · exact absurd (List.cons.inj ‹_›).1 hhex
      · exact absurd (List.cons.inj ‹_›).1 hbin
      · rfl

theorem readMagnitude_eq {r : Radix} {n : ℕ} {digits : List Char} (h : r.Writes n digits) :
    readMagnitude (r.mark ++ digits) = if n < numeralBound then some n else none := by
  rw [readMagnitude, radixOf_mark_append h]
  simp [Radix.value?_eq_some_iff.mpr h, Option.filter_some]

/-- **A numeral is read as its number**, unless its digits exceed the bound. -/
theorem Numeral.readNumeral_eq {n : ℤ} {word : List Char} (h : Numeral n word) :
    readNumeral word = if n.natAbs < numeralBound then some n else none := by
  cases h with
  | @plain r n digits hdigits =>
      have hsign : ∀ rest, r.mark ++ digits ≠ '-' :: rest := by
        intro rest heq
        cases r with
        | hexadecimal => exact absurd (List.cons.inj heq).1 (by decide)
        | binary => exact absurd (List.cons.inj heq).1 (by decide)
        | decimal =>
            have hmem : '-' ∈ digits := by
              rw [show digits = '-' :: rest from heq]
              simp
            exact (ne_of_isWordChar (hdigits.isWordChar _ hmem)).1 rfl
      rw [readNumeral.eq_2 _ hsign, readMagnitude_eq hdigits, Int.natAbs_natCast]
      split_ifs
      · rfl
      · rfl
  | @minus r n digits hdigits =>
      rw [readNumeral, readMagnitude_eq hdigits, Int.natAbs_neg, Int.natAbs_natCast]
      split_ifs
      · rfl
      · rfl

theorem exists_writes_of_readMagnitude {word : List Char} {n : ℕ}
    (h : readMagnitude word = some n) :
    n < numeralBound ∧ ∃ r digits, word = Radix.mark r ++ digits ∧ r.Writes n digits := by
  rw [readMagnitude] at h
  obtain ⟨hvalue, hlt⟩ := Option.filter_eq_some_iff.mp h
  refine ⟨by simpa using hlt, (radixOf word).1, (radixOf word).2, ?_,
    Radix.value?_eq_some_iff.mp hvalue⟩
  unfold radixOf
  split
  · rfl
  · rfl
  · rfl

/-- **A word is read as a number exactly if it is a numeral of it**, and within the bound. -/
theorem readNumeral_eq_some_iff {word : List Char} {n : ℤ} :
    readNumeral word = some n ↔ Numeral n word ∧ n.natAbs < numeralBound := by
  refine ⟨fun h => ?_, fun ⟨h, hn⟩ => h.readNumeral_eq.trans (if_pos hn)⟩
  unfold readNumeral at h
  split at h
  · obtain ⟨m, hm, rfl⟩ : ∃ m, readMagnitude _ = some m ∧ -(m : ℤ) = n := by
      simpa [Option.bind_eq_some_iff] using h
    obtain ⟨hlt, r, digits, rfl, hdigits⟩ := exists_writes_of_readMagnitude hm
    exact ⟨.minus hdigits, by simpa using hlt⟩
  · obtain ⟨m, hm, rfl⟩ := Option.map_eq_some_iff.mp h
    obtain ⟨hlt, r, digits, rfl, hdigits⟩ := exists_writes_of_readMagnitude hm
    exact ⟨.plain hdigits, by simpa using hlt⟩

end DeltaScript
