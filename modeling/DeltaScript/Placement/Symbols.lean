import DeltaScript.Placement.Layout
import DeltaScript.Recording.Numeral

/-!
# Symbol listings

The symbol listing of a layout tells an assembler where every block is.

```text
ANIM_HEADER          = $C000 ; 10 bytes
ANIM_DELTA_0         = $C013 ; 1 bytes
ANIM_SCRIPT_0        = $C00A ; 9 bytes
```

* `Symbol` — what a line tells: a name, an address, a size.
* `Symbol.line`, `Symbol.read?` — the line for a symbol, and the symbol that a line tells of.
* `Layout.symbols` — the listing of all blocks: header, tables, scripts, **whatever their order in
  memory is**.
-/

namespace DeltaScript

open Text

/-- A name for a place in memory. -/
structure Symbol where
  name : String
  address : UInt16
  /-- The number of bytes in that place. -/
  size : Nat
  deriving DecidableEq, Repr

namespace Symbol

/-- The symbol of a placed block. -/
def ofPlacement (p : Placement) : Symbol :=
  ⟨p.block.symbol, p.address, p.size⟩

/-- The line of a listing for a symbol. -/
def line (s : Symbol) : String :=
  s!"{column 20 s.name} = ${hexUpper 4 s.address.toNat} ; {s.size} bytes"

/-- What is left of a text that starts in a given way. -/
def behind? (start text : List Char) : Option (List Char) :=
  if start.isPrefixOf text then some (text.drop start.length) else none

/-- The symbol that a line tells of. -/
def read? (line : List Char) : Option Symbol := do
  let name := line.takeWhile (· != ' ')
  let rest ← behind? ['=', ' ', '$'] ((line.drop name.length).dropWhile (· == ' '))
  let address := rest.take 4
  let position ← Radix.hexadecimal.value? address
  let rest ← behind? [' ', ';', ' '] (rest.drop 4)
  let digits := rest.takeWhile Char.isDigit
  let size ← Radix.decimal.value? digits
  if rest.drop digits.length = [' ', 'b', 'y', 't', 'e', 's'] then
    return ⟨String.ofList name, UInt16.ofNat position, size⟩
  else none

end Symbol

namespace Layout

/-- The symbols of all blocks in listing order. -/
def symbolTable (l : Layout) : List Symbol :=
  (l.placements.mergeSort fun p q => p.block.listedBefore q.block).map Symbol.ofPlacement

/-- The symbol listing, a line for each block. -/
def symbols (l : Layout) : String :=
  String.join (l.symbolTable.map fun s => s.line ++ "\n")

end Layout

end DeltaScript
