/-!
# Cutting a text in two

* `cutAt` — the parts of a text before and behind the first occurrence of a mark.

The mark belongs to neither part, so `before ++ mark ++ behind` is the text again, and `before`
holds no earlier occurrence.
-/

namespace DeltaScript.Text

/-- The characters before and behind the first place where `mark` stands, if there is one. -/
def cutChars (mark : List Char) : List Char → Option (List Char × List Char)
  | [] => if mark.isEmpty then some ([], []) else none
  | c :: cs =>
      if mark.isPrefixOf (c :: cs) then some ([], (c :: cs).drop mark.length)
      else (cutChars mark cs).map fun (before, behind) => (c :: before, behind)

/-- The parts of `text` before and behind the first occurrence of `mark`. -/
def cutAt (mark text : String) : Option (String × String) :=
  (cutChars mark.toList text.toList).map fun (before, behind) =>
    (String.ofList before, String.ofList behind)

end DeltaScript.Text
