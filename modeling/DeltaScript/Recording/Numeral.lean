/-!
# Numerals of recordings

A recording writes numbers in three notations: decimal, hexadecimal behind `$` and binary behind
`%`, each with a minus sign in front if it is negative.

* `Radix` — the notations, with their mark, their base and their digits.
* `Radix.value?` — the value of digits in a notation.
* `readNumeral` — the number that a whole word spells.

**The digits are read before the sign is applied**, and have to stay below `2 ^ 63`.  So the least
64-bit integer has no numeral.
-/

namespace DeltaScript

/-- A way to write numbers. -/
inductive Radix
  | decimal
  | hexadecimal
  | binary
  deriving DecidableEq, Repr

namespace Radix

/-- What stands in front of the digits. -/
def mark : Radix → List Char
  | decimal => []
  | hexadecimal => ['$']
  | binary => ['%']

def base : Radix → Nat
  | decimal => 10
  | hexadecimal => 16
  | binary => 2

/-- The value of a digit, of either case; `none` for a character that is no digit of any
notation. -/
def digit? (c : Char) : Option Nat :=
  if c.isDigit then some (c.toNat - '0'.toNat)
  else if 'a' ≤ c ∧ c ≤ 'f' then some (c.toNat - 'a'.toNat + 10)
  else if 'A' ≤ c ∧ c ≤ 'F' then some (c.toNat - 'A'.toNat + 10)
  else none

/-- The value of a digit of this notation. -/
def digitValue? (r : Radix) (c : Char) : Option Nat :=
  (digit? c).filter (· < r.base)

/-- The value of digits behind a value read so far. -/
def valueFrom? (r : Radix) (value : Nat) : List Char → Option Nat
  | [] => some value
  | c :: rest =>
      match r.digitValue? c with
      | some d => r.valueFrom? (r.base * value + d) rest
      | none => none

/-- The value of digits, of which there has to be one. -/
def value? (r : Radix) (digits : List Char) : Option Nat :=
  if digits.isEmpty then none else r.valueFrom? 0 digits

end Radix

/-- The bound that the digits of a numeral stay below. -/
def numeralBound : Nat := 0x8000000000000000

/-- The notation that a word without a sign is written in, and its digits. -/
def radixOf : List Char → Radix × List Char
  | '$' :: digits => (.hexadecimal, digits)
  | '%' :: digits => (.binary, digits)
  | digits => (.decimal, digits)

/-- The value of a word without a sign. -/
def readMagnitude (word : List Char) : Option Nat :=
  let (radix, digits) := radixOf word
  (radix.value? digits).filter (· < numeralBound)

/-- The number that a word spells. -/
def readNumeral : List Char → Option Int
  | '-' :: word => (readMagnitude word).map fun n => -(n : Int)
  | word => (readMagnitude word).map Int.ofNat

end DeltaScript
