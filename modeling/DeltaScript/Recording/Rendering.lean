import DeltaScript.Recording.Basic
import DeltaScript.Recording.Piece

/-!
# Rendered recordings

Which texts spell a recording.  A number may be written in three notations, with zeros in front; the
separators are free; comments and idle lines may be anywhere.

* `Radix.Writes` — the digits that write a natural number, said from the last digit to the first.
* `Numeral` — the words that write an integer.
* `FrameLine`, `IdleLine` — the lines that spell a frame, and those that spell nothing.
* `Recording.Rendered` — the texts that spell a recording.

These relations say how texts are written, without regard to how they are read.
-/

namespace DeltaScript

/-! ## Numbers -/

/-- The characters of a digit: its lower-case and its upper-case form. -/
def digitFaces (digit : Nat) : List Char :=
  [digit.digitChar, digit.digitChar.toUpper]

/-- Digits of a notation that write a natural number, zeros in front included. -/
inductive Radix.Writes (r : Radix) : Nat → List Char → Prop
  /-- A single digit. -/
  | digit {d : Nat} {c : Char} : d < r.base → c ∈ digitFaces d → r.Writes d [c]
  /-- One more digit behind digits. -/
  | more {n d : Nat} {digits : List Char} {c : Char} : r.Writes n digits → d < r.base →
      c ∈ digitFaces d → r.Writes (r.base * n + d) (digits ++ [c])

/-- Words that write an integer. -/
inductive Numeral : Int → List Char → Prop
  | plain {r : Radix} {n : Nat} {digits : List Char} : r.Writes n digits →
      Numeral n (r.mark ++ digits)
  | minus {r : Radix} {n : Nat} {digits : List Char} : r.Writes n digits →
      Numeral (-n) ('-' :: (r.mark ++ digits))

/-! ## Lines -/

/-- Separators, as many as there may be. -/
def IsGap (gap : List Char) : Prop :=
  ∀ c ∈ gap, Piece.isSeparator c

/-- A comment, or nothing. -/
def IsComment (comment : List Char) : Prop :=
  comment = [] ∨ ∃ mark text, comment = mark :: text ∧ Piece.isCommentMark mark ∧ '\n' ∉ text

/-- Numbers with a separator at least between two of them. -/
inductive Spaced : List Int → List Char → Prop
  /-- The last number, and what separators follow it. -/
  | last {n : Int} {word gap : List Char} : Numeral n word → IsGap gap → Spaced [n] (word ++ gap)
  /-- A number before others. -/
  | more {n : Int} {ns : List Int} {word gap rest : List Char} : Numeral n word → IsGap gap →
      gap ≠ [] → Spaced ns rest → Spaced (n :: ns) (word ++ gap ++ rest)

/-- Lines that spell a frame. -/
def FrameLine (f : Frame) (line : List Char) : Prop :=
  ∃ lead numbers comment, IsGap lead ∧ Spaced (f.object :: f.state) numbers ∧ IsComment comment ∧
    line = lead ++ numbers ++ comment

/-- Lines that spell nothing. -/
def IdleLine (line : List Char) : Prop :=
  ∃ gap comment, IsGap gap ∧ IsComment comment ∧ line = gap ++ comment

/-- Lines that spell frames, idle lines among them. -/
inductive FrameLines : List Frame → List (List Char) → Prop
  | done : FrameLines [] []
  | idle {frames : List Frame} {line : List Char} {lines : List (List Char)} : IdleLine line →
      FrameLines frames lines → FrameLines frames (line :: lines)
  | frame {f : Frame} {frames : List Frame} {line : List Char} {lines : List (List Char)} :
      FrameLine f line → FrameLines frames lines → FrameLines (f :: frames) (line :: lines)

/-- Texts that spell a recording.  A newline at the end makes an idle line. -/
def Recording.Rendered (r : Recording) (source : String) : Prop :=
  ∃ lines, FrameLines r.frames lines ∧ source.toList = ['\n'].intercalate lines

end DeltaScript
