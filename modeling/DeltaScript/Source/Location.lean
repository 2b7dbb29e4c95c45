import DeltaScript.Source.Span

/-!
# Where a byte offset lies

Offsets are counted in bytes, lines and columns in characters.  The step from one to the other is a
`Cursor`: the text cut at the offset, the part before it kept nearest character first.

* `Cursor.seek` — moves a cursor forward by a number of bytes.
* `Location.at?` — the line, the column and the text of the line at an offset.
* `Location.offset` — the way back: what precedes a place, counted in bytes.

**An offset inside a character has no location.**  An offset past the end counts as the end.
-/

namespace DeltaScript

/-- A text cut in two: what precedes the cut, nearest character first, and what follows it. -/
structure Cursor where
  before : List Char
  after : List Char
  deriving DecidableEq, Repr

namespace Cursor

/-- The cursor `n` bytes further on, or at the end if fewer are left; `none` if the way ends inside
a character. -/
def seek (before : List Char) : List Char → Nat → Option Cursor
  | after, 0 => some ⟨before, after⟩
  | [], _ + 1 => some ⟨before, []⟩
  | c :: cs, n + 1 =>
      if c.utf8Size ≤ n + 1 then seek (c :: before) cs (n + 1 - c.utf8Size) else none

/-- The number of the line that the cut lies in, from 1. -/
def line (k : Cursor) : Nat :=
  k.before.count '\n' + 1

/-- The part of the cut line before the cut. -/
def lineBefore (k : Cursor) : List Char :=
  (k.before.takeWhile (· != '\n')).reverse

/-- The part of the cut line behind the cut. -/
def lineAfter (k : Cursor) : List Char :=
  k.after.takeWhile (· != '\n')

end Cursor

/-- A place in a text: line and column, both from 1, and the whole line. -/
structure Location where
  line : Nat
  column : Nat
  content : String
  deriving DecidableEq, Repr

/-- The place of a cursor. -/
def Cursor.location (k : Cursor) : Location where
  line := k.line
  column := k.lineBefore.length + 1
  content := String.ofList (k.lineBefore ++ k.lineAfter)

/-- The place at a byte offset of `source`. -/
def Location.at? (source : String) (offset : Nat) : Option Location :=
  (Cursor.seek [] source.toList offset).map Cursor.location

/-- The byte offset of a place in `source`: the lines before it, a newline behind each, and the part
of its line before its column. -/
def Location.offset (source : String) (l : Location) : Nat :=
  let linesBefore := (source.toList.splitOn '\n').take (l.line - 1)
  byteCount (linesBefore.flatMap (· ++ ['\n'])) + byteCount (l.content.toList.take (l.column - 1))

end DeltaScript
