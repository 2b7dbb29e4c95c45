/-!
# Decimal integers of a bounded size

Counts and indices on a command line are read as decimal integers of a machine size.  A text that is
none is refused with one of four reasons.

* `IntegerFault` — the reasons, and their wording.
* `readNat` — a natural number below a bound; a plus sign may stand in front.
* `readInt` — an integer between two bounds; either sign may stand in front.

**The first fault in reading order wins.**  The digits are taken from the left; at each of them a
character that is no digit is noticed before the value is found to be too large.
-/

namespace DeltaScript.Text

/-- Why a text is not an integer of the size asked for. -/
inductive IntegerFault
  | empty
  | badDigit
  | tooLarge
  | tooSmall
  deriving DecidableEq, Repr

/-- The wording of a fault. -/
def IntegerFault.message : IntegerFault → String
  | .empty => "cannot parse integer from empty string"
  | .badDigit => "invalid digit found in string"
  | .tooLarge => "number too large to fit in target type"
  | .tooSmall => "number too small to fit in target type"

/-- The value of decimal digits behind the value `n` read so far, refused with `overflow` as soon as
it passes `limit`. -/
def readDigits (limit : Nat) (overflow : IntegerFault) : Nat → List Char → Except IntegerFault Nat
  | n, [] => .ok n
  | n, c :: cs =>
      if !c.isDigit then .error .badDigit
      else
        let value := 10 * n + (c.toNat - '0'.toNat)
        if value ≤ limit then readDigits limit overflow value cs else .error overflow

/-- The digits behind a sign; a sign alone holds no digit. -/
def readSigned (limit : Nat) (overflow : IntegerFault) (digits : List Char) :
    Except IntegerFault Nat :=
  if digits.isEmpty then .error .badDigit else readDigits limit overflow 0 digits

/-- The natural number, at most `limit`, that a text spells. -/
def readNat (limit : Nat) (text : String) : Except IntegerFault Nat :=
  match text.toList with
  | [] => .error .empty
  | '+' :: digits => readSigned limit .tooLarge digits
  | digits => readDigits limit .tooLarge 0 digits

/-- The integer from `-(limit + 1)` to `limit` that a text spells. -/
def readInt (limit : Nat) (text : String) : Except IntegerFault Int :=
  match text.toList with
  | [] => .error .empty
  | '+' :: digits => (readSigned limit .tooLarge digits).map Int.ofNat
  | '-' :: digits => (readSigned (limit + 1) .tooSmall digits).map fun n => -(n : Int)
  | digits => (readDigits limit .tooLarge 0 digits).map Int.ofNat

end DeltaScript.Text
