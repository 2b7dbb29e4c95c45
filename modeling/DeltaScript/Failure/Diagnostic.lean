import DeltaScript.Failure.Basic
import DeltaScript.Text.Hex

/-!
# Diagnostics

What is said about a failure: a stable code, a message, and where they help the object concerned, a
place in the recording and a hint.

* `Code` — the codes and their numbers.
* `Diagnostic` — a code with its message and its attachments.
* `Failure.diagnostic` — the diagnostic of each cause.
-/

namespace DeltaScript

/-- The kinds of failure that a user can look up. -/
inductive Code
  | unknownObject
  | valueCount
  | tooManySteps
  | settings
  | neverVisible
  | deltaIndex
  | fieldRange
  | noRoom
  | pastEnd
  | bins
  | recording
  deriving DecidableEq, Repr

/-- The number of a code: recording from 1, settings from 10, scripts from 20, memory from 30, texts
from 40. -/
def Code.text : Code → String
  | unknownObject => "E001"
  | valueCount => "E002"
  | tooManySteps => "E003"
  | settings => "E010"
  | neverVisible => "E020"
  | deltaIndex => "E021"
  | fieldRange => "E022"
  | noRoom => "E030"
  | pastEnd => "E031"
  | bins => "E032"
  | recording => "E040"

/-- What is told about a failure. -/
structure Diagnostic where
  code : Code
  message : String
  /-- The object that the failure is about. -/
  object : Option Nat := none
  /-- The stretch of the recording that the failure is about. -/
  span : Option Span := none
  /-- What may help. -/
  hint : Option String := none
  deriving DecidableEq, Repr

namespace Diagnostic

open Text

/-- Code and message in one line. -/
def headline (d : Diagnostic) : String :=
  s!"[{d.code.text}] {d.message}"

/-- The free bytes of each range of memory, or `none` in words. -/
def freeSpace (free : List (Nat × Nat)) : String :=
  if free.isEmpty then "none"
  else ", ".intercalate (free.map fun (address, bytes) => s!"${hexUpper 4 address}: {bytes} bytes")

/-- No range of memory has room for the block of the given name. -/
def noRoom (block : String) (size : Nat) (free : List (Nat × Nat)) : Diagnostic where
  code := .noRoom
  message :=
    s!"Block '{block}' ({size} bytes) does not fit into any bin (free: {freeSpace free})"
  hint := some "Enlarge an address range or add another bin"

end Diagnostic

open Text in
/-- What is told about each cause. -/
def Failure.diagnostic : Failure → Diagnostic
  | unknownObject object objects =>
      { code := .unknownObject
        message := s!"Object index {object} is out of range (0..{objects})"
        object := some object }
  | valueCount object expected found =>
      { code := .valueCount
        message := s!"Expected {expected} attributes, got {found}"
        object := some object }
  | tooManySteps steps =>
      { code := .tooManySteps
        message := s!"{steps} steps do not fit the 16-bit step count of the header" }
  | attributeCount attributes =>
      { code := .settings
        message := s!"Attribute count must be between 1 and 3, got {attributes}" }
  | emptyRange index low high =>
      { code := .settings
        message := s!"Delta range {low}..={high} of attribute {index} is empty" }
  | wideRange index low high =>
      { code := .settings
        message := s!"Delta range {low}..={high} of attribute {index} does not fit a signed byte"
        hint := some "Delta tables store one signed byte per entry" }
  | badModulo index modulo =>
      { code := .settings
        message := s!"Modulo of attribute {index} must be positive, got {modulo}" }
  | sentinelLength found expected =>
      { code := .settings
        message := s!"Sentinel has {found} values but {expected} attributes are configured" }
  | neverVisible object frames =>
      { code := .neverVisible
        message := s!"Object {object} is never visible in its {frames} recorded frames"
        object := some object
        hint := some "Check the recording or widen the screen bounds" }
  | deltaIndex index =>
      { code := .deltaIndex
        message := s!"Delta index {index} exceeds the maximum of 127" }
  | fieldRange object field value =>
      { code := .fieldRange
        message := s!"State {field.name} = {value} is outside 0..={field.largest}"
        object := object }
  | noRoom block size free => Diagnostic.noRoom block.name size free
  | pastEnd bytes base =>
      { code := .pastEnd
        message := s!"{bytes} bytes starting at ${hexUpper 4 base} run past $FFFF"
        hint := some "Choose a lower base address or split the output into bins" }
  | injectionPastEnd label =>
      { code := .pastEnd, message := s!"Data for '{label}' does not fit into memory" }
  | noBins => { code := .bins, message := "No bins given" }
  | emptyBin address =>
      { code := .bins, message := s!"Bin at ${hexUpper 4 address} is empty" }
  | binPastEnd address capacity =>
      { code := .bins
        message := s!"Bin at ${hexUpper 4 address} with {capacity} bytes runs past $FFFF" }
  | binsOverlap first second =>
      { code := .bins
        message := s!"Bins at ${hexUpper 4 first} and ${hexUpper 4 second} overlap" }
  | injectionOverlap label =>
      { code := .bins, message := s!"Data for '{label}' overlaps data injected earlier" }
  | unplaced block => { code := .bins, message := s!"{block.name} was never placed" }
  | notANumber text span =>
      { code := .recording, message := s!"Invalid number '{text}'", span := some span }
  | negativeObject object span =>
      { code := .recording, message := s!"Object index {object} is negative", span := some span }
  | noValues object span =>
      { code := .recording
        message := s!"Frame of object {object} has no attributes"
        span := some span }
  | unevenLine expected found span =>
      { code := .recording
        message := s!"Expected {expected} attributes, found {found}"
        span := some span }
  | wideValue value span =>
      { code := .recording
        message := s!"Value {value} does not fit 32 bits"
        span := some span }

/-- The code of a cause. -/
def Failure.code (f : Failure) : Code :=
  f.diagnostic.code

end DeltaScript
