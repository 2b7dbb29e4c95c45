import Mathlib
import DeltaScript.Proofs.Numerals
import DeltaScript.Text.Hex

/-!
# Printed numbers

Numbers are printed in decimal, and addresses in hexadecimal with a least width.  What is printed is
a numeral of the number, and that is all that has to be known of it: a numeral has one value, and
holds nothing but digits.

* `Text.writes_hexUpper`, `Text.writes_hexLower`, `Text.writes_toString` — **what is printed writes
  the number.**
* `Text.length_hexUpper` — a number that needs no more digits than the width has just as many.
* `Text.hexLower_injective`, `Text.toDigits_injective` — different numbers are printed differently.
-/

namespace DeltaScript.Text

/-- Text that is put into text stays as it is. -/
theorem toString_eq (t : String) : toString t = t := rfl

/-! ## Hexadecimal -/

theorem writes_hexUpper (width n : ℕ) :
    Radix.hexadecimal.Writes n (hexUpper width n).toList := by
  rw [hexUpper, String.toList_ofList]
  exact (Radix.hexadecimal.writes_toDigits n).map_toUpper.leftpad width

theorem le_length_hexUpper (width n : ℕ) : width ≤ (hexUpper width n).toList.length := by
  rw [hexUpper, String.toList_ofList, List.length_leftpad]
  exact le_max_left ..

/-- A number that needs no more digits than the width is printed with just as many. -/
theorem length_hexUpper {width n : ℕ} (hwidth : 0 < width) (hn : n < 16 ^ width) :
    (hexUpper width n).toList.length = width := by
  rw [hexUpper, String.toList_ofList, List.length_leftpad, List.length_map]
  exact max_eq_left ((Nat.length_toDigits_le_iff (by decide) hwidth).mpr hn)

theorem newline_notMem_hexUpper (width n : ℕ) : '\n' ∉ (hexUpper width n).toList := by
  intro hmem
  exact absurd ((writes_hexUpper width n).isWordChar _ hmem) (by decide)

theorem writes_hexLower (width n : ℕ) :
    Radix.hexadecimal.Writes n (hexLower width n).toList := by
  rw [hexLower, String.toList_ofList]
  exact (Radix.hexadecimal.writes_toDigits n).leftpad width

/-- **Different numbers have different numerals**, since a numeral has one value. -/
theorem hexLower_injective {width m n : ℕ} (h : hexLower width m = hexLower width n) : m = n :=
  (writes_hexLower width m).unique (h ▸ writes_hexLower width n)

theorem slash_notMem_hexLower (width n : ℕ) : '/' ∉ (hexLower width n).toList := by
  intro hmem
  exact absurd ((writes_hexLower width n).isWordChar _ hmem) (by decide)

theorem le_length_hexLower (width n : ℕ) : width ≤ (hexLower width n).toList.length := by
  rw [hexLower, String.toList_ofList, List.length_leftpad]
  exact le_max_left ..

/-! ## Decimal -/

theorem writes_toString (n : ℕ) : Radix.decimal.Writes n (toString n).toList := by
  rw [Nat.toString_eq_ofList_toDigits, String.toList_ofList]
  exact Radix.decimal.writes_toDigits n

theorem toDigits_injective {m n : ℕ} (h : Nat.toDigits 10 m = Nat.toDigits 10 n) : m = n :=
  (Radix.decimal.writes_toDigits m).unique (h ▸ Radix.decimal.writes_toDigits n)

theorem isDigit_of_mem_toString (n : ℕ) : ∀ c ∈ (toString n).toList, c.isDigit := by
  intro c hc
  rw [Nat.toString_eq_ofList_toDigits, String.toList_ofList] at hc
  exact Nat.isDigit_of_mem_toDigits (by decide) (by decide) hc

theorem newline_notMem_toDigits (n : ℕ) : '\n' ∉ Nat.toDigits 10 n := by
  intro hmem
  exact absurd (Nat.isDigit_of_mem_toDigits (by decide) (by decide) hmem) (by decide)

end DeltaScript.Text
