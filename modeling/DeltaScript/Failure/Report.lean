import DeltaScript.Failure.Diagnostic
import DeltaScript.Source.Location

/-!
# Reports

A diagnostic as a terminal shows it.  One that points into a recording is shown with the line
concerned, and carets under the place.

* `Diagnostic.caretCount` — how many carets are drawn.
* `Diagnostic.report?` — the whole text; `none` if the place lies inside a character.

**Carets are measured in bytes, the indent in characters.**  There is one caret for each byte of the
place, at least one, and at most as many as the line has bytes behind as many bytes as characters
precede the place.
-/

namespace DeltaScript.Diagnostic

open Text

/-- The number of carets under a place of a line. -/
def caretCount (span : Span) (place : Location) : Nat :=
  min (max span.length 1) (max (place.content.utf8ByteSize - (place.column - 1)) 1)

/-- The line at a place, with the carets under it; the numbers at the left are `margin` wide. -/
def excerpt (margin : Nat) (file : String) (span : Span) (place : Location) : String :=
  let edge := blanks margin
  s!"  --> {file}:{place.line}:{place.column}\n"
    ++ s!"{edge} |\n"
    ++ s!"{place.line} | {place.content}\n"
    ++ s!"{edge} | {blanks (place.column - 1)}"
    ++ String.ofList (List.replicate (caretCount span place) '^') ++ "\n"

/-- A remark below the excerpt. -/
def remark (margin : Nat) (topic text : String) : String :=
  s!"{blanks margin} = {topic}: {text}\n"

/-- Message, excerpt and remarks around a place that has been found. -/
def layOut (d : Diagnostic) (file : String) (place : Option (Span × Location)) : String :=
  let margin := match place with
    | some (_, place) => (toString place.line).length
    | none => 1
  s!"error[{d.code.text}]: {d.message}\n"
    ++ (match place with
        | some (span, place) => excerpt margin file span place
        | none => "")
    ++ (match d.object with
        | some object => remark margin "object" (toString object)
        | none => "")
    ++ (match d.hint with
        | some hint => remark margin "hint" hint
        | none => "")

/-- The diagnostic as a text about `source`, which is known as `file`. -/
def report? (d : Diagnostic) (source file : String) : Option String :=
  match d.span with
  | none => some (d.layOut file none)
  | some span =>
      (Location.at? source span.start).map fun place => d.layOut file (some (span, place))

end DeltaScript.Diagnostic
