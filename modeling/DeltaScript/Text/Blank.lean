/-!
# White space

The characters of the Unicode property `White_Space`, and trimming by them.  Values on a command
line are trimmed of all of these, a no-break space included, while the recording format knows only
four separators of its own.

* `isBlank` — membership in the property.
* `trim` — a text without the blanks at its two ends.
-/

namespace DeltaScript.Text

/-- The code points with the property `White_Space`, in order. -/
def blankCodePoints : List Nat :=
  [0x09, 0x0A, 0x0B, 0x0C, 0x0D, 0x20, 0x85, 0xA0, 0x1680, 0x2000, 0x2001, 0x2002, 0x2003, 0x2004,
    0x2005, 0x2006, 0x2007, 0x2008, 0x2009, 0x200A, 0x2028, 0x2029, 0x202F, 0x205F, 0x3000]

/-- Whether a character is white space. -/
def isBlank (c : Char) : Bool :=
  blankCodePoints.contains c.toNat

/-- `text` without the white space at its ends. -/
def trim (text : String) : String :=
  String.ofList ((text.toList.dropWhile isBlank).reverse.dropWhile isBlank).reverse

end DeltaScript.Text
