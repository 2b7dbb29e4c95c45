import DeltaScript.Recording.Basic
import DeltaScript.Recording.Piece
import DeltaScript.Failure.Basic

/-!
# Recordings as texts

A text has one frame to a line: an object index and the values of the attributes.  A comment runs
from `#` or `;` to the end of its line, and a line without numbers is no frame.

```text
# object  x    y   angle
0         24   50  0
1         $40  50  %00011
```

* `Recording.numbers` — the numbers of a line with their places; the first piece that is none fails.
* `Recording.frameOf` — the frame of a line.  The object index is checked first, then that there are
  values, then that they are as many as on the lines before, then each value in turn.
* `Recording.parse` — the recording that a text spells.
* `parseNumber` — the one number that a text spells.

**Nothing but the number of values is carried from line to line**: the first line with a frame fixes
it.  A line that does not end in a newline counts like any other.
-/

namespace DeltaScript

/-- A number and its place. -/
structure PlacedNumber where
  value : Int
  span : Span
  deriving DecidableEq, Repr

namespace Recording

/-- The numbers among pieces that start at an offset. -/
def numbers (offset : Nat) : List Piece → Except Failure (List PlacedNumber)
  | [] => .ok []
  | piece :: rest =>
      let span : Span := ⟨offset, offset + byteCount piece.text⟩
      match piece.kind with
      | .gap => numbers span.stop rest
      | .number value => (numbers span.stop rest).map fun later => ⟨value, span⟩ :: later
      | .junk => .error (.notANumber (String.ofList piece.text) span)

def attributeValue (n : PlacedNumber) : Except Failure Int :=
  if -0x80000000 ≤ n.value ∧ n.value < 0x80000000 then .ok n.value
  else .error (.wideValue n.value n.span)

/-- The frame of a line with the given numbers, if it has any.  `width` is the number of values on
the lines before, if there were any. -/
def frameOf (width : Option Nat) (line : Span) : List PlacedNumber → Except Failure (Option Frame)
  | [] => .ok none
  | object :: values =>
      if object.value < 0 then .error (.negativeObject object.value object.span)
      else if values.isEmpty then .error (.noValues object.value.toNat line)
      else if width.any (· != values.length) then
        .error (.unevenLine (width.getD 0) values.length line)
      else do
        let state ← values.mapM attributeValue
        return some ⟨object.value.toNat, state⟩

/-- How far a text has been read. -/
structure Reader where
  /-- The byte offset of the next line. -/
  offset : Nat := 0
  /-- The number of values on a line, once there was one. -/
  width : Option Nat := none
  /-- The frames so far, newest first. -/
  newestFirst : List Frame := []
  deriving DecidableEq, Repr

def readLine (r : Reader) (line : List Char) : Except Failure Reader := do
  let stop := r.offset + byteCount line
  let numbers ← numbers r.offset (Piece.all line)
  let frame ← frameOf r.width ⟨r.offset, stop⟩ numbers
  match frame with
  | none => return { r with offset := stop + 1 }
  | some frame =>
      return ⟨stop + 1, some frame.state.length, frame :: r.newestFirst⟩

/-- **The recording that a text spells.** -/
def parse (source : String) : Except Failure Recording :=
  ((source.toList.splitOn '\n').foldlM readLine {}).map fun r => ⟨r.newestFirst.reverse⟩

end Recording

/-- The number that a text spells, with separators and a comment around it but without a newline. -/
def parseNumber (text : String) : Option Int :=
  if text.toList.contains '\n' then none
  else
    match (Piece.all text.toList).filter Piece.isSignificant with
    | [⟨.number value, _⟩] => some value
    | _ => none

end DeltaScript
