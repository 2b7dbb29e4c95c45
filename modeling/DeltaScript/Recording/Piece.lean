import DeltaScript.Source.Span
import DeltaScript.Recording.Numeral

/-!
# Pieces of a line

A line of a recording falls into pieces, without a gap: separators, comments, numbers, and what is
none of these.

* `Piece.first` — the piece that a line starts with, and the rest of the line.
* `Piece.all` — all pieces of a line.

**The longest piece wins.**  A word is a sign, a mark and word characters, each sign and mark
optional; it ends only where the next character is no word character, so `12ab` is one word, and no
number, while `1-2` is two numbers.  A sign or a mark with no word character behind it is a piece of
one character.
-/

namespace DeltaScript

/-- What a piece of a line is. -/
inductive PieceKind
  /-- Separators, or a comment. -/
  | gap
  | number (value : Int)
  /-- Something that has no place in a recording. -/
  | junk
  deriving DecidableEq, Repr

/-- A piece of a line. -/
structure Piece where
  kind : PieceKind
  text : List Char
  deriving DecidableEq, Repr

namespace Piece

def isSeparator (c : Char) : Bool :=
  c == ' ' || c == '\t' || c == '\r' || c == ','

def isCommentMark (c : Char) : Bool :=
  c == '#' || c == ';'

def isWordChar (c : Char) : Bool :=
  c.isAlphanum || c == '_'

/-- The sign that a text starts with. -/
def signOf : List Char → List Char
  | '-' :: _ => ['-']
  | _ => []

/-- The mark that a text starts with. -/
def markOf : List Char → List Char
  | '$' :: _ => ['$']
  | '%' :: _ => ['%']
  | _ => []

/-- The length of the sign and the mark that a text starts with. -/
def leadLength (cs : List Char) : Nat :=
  let sign := (signOf cs).length
  sign + (markOf (cs.drop sign)).length

/-- The word that a text starts with; nothing if there is no word character where one is needed. -/
def wordOf (cs : List Char) : List Char :=
  let lead := leadLength cs
  match (cs.drop lead).takeWhile isWordChar with
  | [] => []
  | body => cs.take lead ++ body

def kindOfWord (word : List Char) : PieceKind :=
  match readNumeral word with
  | some value => .number value
  | none => .junk

/-- The piece that a text starts with. -/
def first (c : Char) (cs : List Char) : Piece :=
  if isSeparator c then ⟨.gap, c :: cs.takeWhile isSeparator⟩
  else if isCommentMark c then ⟨.gap, c :: cs⟩
  else
    match wordOf (c :: cs) with
    | [] => ⟨.junk, [c]⟩
    | word => ⟨kindOfWord word, word⟩

theorem first_text_ne_nil (c : Char) (cs : List Char) : (first c cs).text ≠ [] := by
  unfold first
  split
  · simp
  · split
    · simp
    · split
      · simp
      · simpa using by assumption

theorem length_drop_first_lt (c : Char) (cs : List Char) :
    ((c :: cs).drop (first c cs).text.length).length < (c :: cs).length := by
  have : 0 < (first c cs).text.length := List.length_pos_iff.mpr (first_text_ne_nil c cs)
  simp only [List.length_drop, List.length_cons]
  omega

def all : List Char → List Piece
  | [] => []
  | c :: cs => first c cs :: all ((c :: cs).drop (first c cs).text.length)
termination_by line => line.length
decreasing_by exact length_drop_first_lt c cs

/-- Whether a piece carries meaning. -/
def isSignificant (p : Piece) : Bool :=
  p.kind != .gap

end Piece

end DeltaScript
