import DeltaScript.CommandLine.Value
import DeltaScript.Files.Path
import DeltaScript.Placement.Layout
import DeltaScript.Settings

/-!
# Arguments

What the program is told on its command line.

* `Valued`, `Flag` — the arguments with a value and those without.
* `Given` — what has been given so far, and `Given.take`, `Given.raise`, which add an argument.  One
  that is not a list can be given only once.
* `Scan` — how far a command line has been read.  **A value is looked at only when the next argument
  is understood**, so an argument that is not understood is noticed before a bad value just ahead of
  it.
* `parse` — reads a whole command line: arguments in any order, then what is missing or in conflict.
-/

namespace DeltaScript.CommandLine

/-- An argument with a value. -/
inductive Valued
  | recording
  | output
  | objects
  | attributes
  | range
  | modulo
  | base
  | bin
  | fill
  | symbols
  deriving DecidableEq, Repr

/-- An argument without a value. -/
inductive Flag
  | merge
  | raw
  | strict
  | verbose
  | watch
  | version
  deriving DecidableEq, Repr

/-- Why a command line is not carried out. -/
inductive Refusal
  /-- It is not of the right form. -/
  | usage
  /-- An argument has a value that it cannot have. -/
  | value (text argument reason : String)
  /-- The version was asked for. -/
  | version
  deriving DecidableEq, Repr

/-- What a command line has given. -/
structure Given where
  recording : Option Path := none
  output : Option Path := none
  objects : Option Nat := none
  attributes : Option Nat := none
  ranges : List (Nat × DeltaRange) := []
  modulos : List (Nat × Int) := []
  base : Option UInt16 := none
  bins : List Bin := []
  fill : Option UInt8 := none
  symbols : Option Path := none
  flags : List Flag := []
  deriving DecidableEq, Repr

def Valued.display : Valued → String
  | recording => "<RECORDING>"
  | output => "--output <OUTPUT>"
  | objects => "--objects <OBJECTS>"
  | attributes => "--attributes <ATTRIBUTES>"
  | range => "--range <I=MIN..MAX>"
  | modulo => "--modulo <I=M>"
  | base => "--base <ADDR>"
  | bin => "--bin <ADDR-END>"
  | fill => "--fill <BYTE>"
  | symbols => "--symbols <FILE>"

namespace Given

/-- Fills a place that can be filled once. -/
def once {α : Type} (place : Option α) (reading : Except Refusal α) :
    Except Refusal (Option α) :=
  match place with
  | some _ => .error .usage
  | none => reading.map some

/-- A value as the argument reads it. -/
def reading {α : Type} (read : String → Reading α) (argument : Valued) (text : String) :
    Except Refusal α :=
  (read text).mapError (.value text argument.display)

/-- A path, which has to be something. -/
def path (text : String) : Except Refusal Path :=
  if text.isEmpty then .error .usage else .ok ⟨text⟩

def take (g : Given) (argument : Valued) (text : String) : Except Refusal Given :=
  match argument with
  | .recording => (once g.recording (path text)).map fun r => { g with recording := r }
  | .output => (once g.output (path text)).map fun o => { g with output := o }
  | .symbols => (once g.symbols (path text)).map fun s => { g with symbols := s }
  | .objects =>
      (once g.objects (reading count argument text)).map fun n => { g with objects := n }
  | .attributes =>
      (once g.attributes (reading attributeCount argument text)).map fun n =>
        { g with attributes := n }
  | .base => (once g.base (reading address argument text)).map fun a => { g with base := a }
  | .fill => (once g.fill (reading byte argument text)).map fun b => { g with fill := b }
  | .range =>
      (reading indexedRange argument text).map fun r => { g with ranges := g.ranges ++ [r] }
  | .modulo =>
      (reading indexedModulo argument text).map fun m => { g with modulos := g.modulos ++ [m] }
  | .bin => (reading bin argument text).map fun b => { g with bins := g.bins ++ [b] }

/-- Adds an argument without a value.  The version ends everything at once. -/
def raise (g : Given) (flag : Flag) : Except Refusal Given :=
  if flag = .version then .error .version
  else if flag ∈ g.flags then .error .usage
  else .ok { g with flags := flag :: g.flags }

end Given

/-! ## Names of options -/

/-- The option that a long name stands for. -/
def longOption? (name : String) : Option (Valued ⊕ Flag) :=
  match name with
  | "output" => some (.inl .output)
  | "objects" => some (.inl .objects)
  | "attributes" => some (.inl .attributes)
  | "range" => some (.inl .range)
  | "modulo" => some (.inl .modulo)
  | "base" => some (.inl .base)
  | "bin" => some (.inl .bin)
  | "fill" => some (.inl .fill)
  | "symbols" => some (.inl .symbols)
  | "merge" => some (.inr .merge)
  | "raw" => some (.inr .raw)
  | "strict" => some (.inr .strict)
  | "verbose" => some (.inr .verbose)
  | "watch" => some (.inr .watch)
  | "version" => some (.inr .version)
  | _ => none

/-- The option that a letter stands for. -/
def shortOption? : Char → Option (Valued ⊕ Flag)
  | 'o' => some (.inl .output)
  | 'v' => some (.inr .verbose)
  | 'w' => some (.inr .watch)
  | 'V' => some (.inr .version)
  | _ => none

/-! ## Reading -/

/-- How far a command line has been read. -/
structure Scan where
  given : Given := {}
  /-- The argument whose value is not looked at yet, with the value if it was there already. -/
  pending : Option (Valued × Option String) := none
  positionTaken : Bool := false
  optionsOver : Bool := false
  deriving DecidableEq, Repr

namespace Scan

/-- Looks at the value that is pending; an argument left without its value is a fault. -/
def settle (s : Scan) : Except Refusal Scan :=
  match s.pending with
  | none => .ok s
  | some (_, none) => .error .usage
  | some (argument, some text) =>
      (s.given.take argument text).map fun given => { s with given, pending := none }

/-- Adds an argument with a value that stands in one piece with its name. -/
def takeNow (s : Scan) (argument : Valued) (text : String) : Except Refusal Scan := do
  let s ← s.settle
  let given ← s.given.take argument text
  return { s with given }

/-- Leaves an argument waiting for its value. -/
def await (s : Scan) (argument : Valued) : Except Refusal Scan := do
  let s ← s.settle
  return { s with pending := some (argument, none) }

/-- Adds an argument without a value. -/
def raise (s : Scan) (flag : Flag) : Except Refusal Scan := do
  let s ← s.settle
  let given ← s.given.raise flag
  return { s with given }

/-- Reads an option with a long name, and the value behind the equals sign if there is one. -/
def long (s : Scan) (name : String) (value : Option String) : Except Refusal Scan :=
  match longOption? name, value with
  | some (.inl argument), some text => s.takeNow argument text
  | some (.inl argument), none => s.await argument
  | some (.inr flag), none => s.raise flag
  | _, _ => .error .usage

/-- Reads letters.  A letter with a value takes what is left as its value, without an equals sign in
front. -/
def short (s : Scan) : List Char → Except Refusal Scan
  | [] => .ok s
  | c :: rest =>
      match shortOption? c with
      | none => .error .usage
      | some (.inr flag) => do
          let s ← s.raise flag
          s.short rest
      | some (.inl argument) =>
          match rest with
          | [] => s.await argument
          | '=' :: text => s.takeNow argument (String.ofList text)
          | text => s.takeNow argument (String.ofList text)

/-- Reads an argument that is no option: the recording, of which there is one. -/
def positional (s : Scan) (text : String) : Except Refusal Scan :=
  if s.positionTaken then .error .usage
  else do
    let s ← s.settle
    return { s with pending := some (.recording, some text), positionTaken := true }

/-- Reads an argument that is no option, where options may still come: a value that is waited for,
or the recording. -/
def plain (s : Scan) (text : String) : Except Refusal Scan :=
  match s.pending with
  | some (argument, none) => .ok { s with pending := some (argument, some text) }
  | _ => s.positional text

/-- Reads a word of the command line.  A minus sign alone is no option, and two of them end the
options. -/
def word (s : Scan) (text : String) : Except Refusal Scan :=
  if s.optionsOver then s.positional text
  else
    match text.toList with
    | ['-', '-'] => .ok { s with optionsOver := true }
    | '-' :: '-' :: name =>
        match Text.cutChars ['='] name with
        | some (name, value) => s.long (String.ofList name) (some (String.ofList value))
        | none => s.long (String.ofList name) none
    | '-' :: c :: letters => s.short (c :: letters)
    | _ => s.plain text

end Scan

def scan (words : List String) : Except Refusal Given := do
  let s ← words.foldlM Scan.word {}
  let s ← s.settle
  return s.given

/-! ## What is asked for -/

/-- A complete command line. -/
structure Arguments where
  recording : Path
  output : Path
  objects : Option Nat
  attributes : Nat
  ranges : List (Nat × DeltaRange)
  modulos : List (Nat × Int)
  base : UInt16
  bins : List Bin
  fill : UInt8
  symbols : Option Path
  merge : Bool
  raw : Bool
  strict : Bool
  verbose : Bool
  watch : Bool
  deriving DecidableEq, Repr

/-- What was given, completed with the defaults.  A recording and an output are needed; a base
address is in conflict with bins; merging needs bins, unless a base address excludes them. -/
def Given.complete (g : Given) : Except Refusal Arguments :=
  match g.recording, g.output with
  | some recording, some output =>
      let merge := g.flags.contains .merge
      if g.base.isSome && !g.bins.isEmpty then .error .usage
      else if merge && g.bins.isEmpty && g.base.isNone then .error .usage
      else .ok {
        recording, output, merge
        objects := g.objects
        attributes := g.attributes.getD 3
        ranges := g.ranges
        modulos := g.modulos
        base := g.base.getD 0xC000
        bins := g.bins
        fill := g.fill.getD 0
        symbols := g.symbols
        raw := g.flags.contains .raw
        strict := g.flags.contains .strict
        verbose := g.flags.contains .verbose
        watch := g.flags.contains .watch }
  | _, _ => .error .usage

/-- **Reads a command line.** -/
def parse (words : List String) : Except Refusal Arguments := do
  let given ← scan words
  given.complete

namespace Arguments

/-- How blocks are distributed over memory. -/
def mode (a : Arguments) : Mode :=
  if a.bins.isEmpty then .contiguous a.base else .chunked a.bins

/-- Attributes with something changed at given indices; the first index that there is no attribute
for, otherwise. -/
def adjust {α : Type} (change : Attribute → α → Attribute) :
    List Attribute → List (Nat × α) → Except Nat (List Attribute)
  | attributes, [] => .ok attributes
  | attributes, (index, value) :: rest =>
      match attributes[index]? with
      | none => .error index
      | some a => adjust change (attributes.set index (change a value)) rest

/-- The settings that are asked for, the ranges first and then the modulos; a text about the first
attribute that there is not, otherwise. -/
def settings (a : Arguments) : Except String Settings := do
  let attributes := List.replicate a.attributes {}
  let attributes ← (adjust (fun a range => { a with range }) attributes a.ranges).mapError
    fun index => s!"--range: no attribute {index}"
  let attributes ← (adjust (fun a m => { a with modulo := some m }) attributes a.modulos).mapError
    fun index => s!"--modulo: no attribute {index}"
  return { Settings.ofCount a.attributes with
    attributes
    overflow := if a.strict then .strict else .wrap }

end Arguments

end DeltaScript.CommandLine
