/-!
# Hexadecimal and padded text

Addresses are printed in hexadecimal with a fixed least width, names in columns.  This module holds
the three shapes that occur.

* `hexUpper` — an upper-case numeral, zeros in front up to the width asked for.
* `hexLower` — the same numeral in lower case, as file names carry it.
* `column` — a text followed by blanks up to a width.

A numeral or a text that is longer than its width is written in full: a width is a least width.
-/

namespace DeltaScript.Text

/-- The hexadecimal numeral of `n` in lower case, at least `width` digits. -/
def hexLower (width n : Nat) : String :=
  String.ofList ((Nat.toDigits 16 n).leftpad width '0')

/-- The hexadecimal numeral of `n` in upper case, at least `width` digits. -/
def hexUpper (width n : Nat) : String :=
  String.ofList (((Nat.toDigits 16 n).map Char.toUpper).leftpad width '0')

/-- `text` at the left of a column of `width` characters. -/
def column (width : Nat) (text : String) : String :=
  String.ofList (text.toList.rightpad width ' ')

/-- `n` blanks. -/
def blanks (n : Nat) : String :=
  String.ofList (List.replicate n ' ')

end DeltaScript.Text
