import DeltaScript.Build
import DeltaScript.CommandLine.Arguments
import DeltaScript.Failure.Report
import DeltaScript.Files.Output
import DeltaScript.Image.Basic
import DeltaScript.Placement.Symbols
import DeltaScript.Text.Plain

/-!
# The program

What a command line does: it reads a recording, compiles it, and writes the segments and the symbol
listing.  What is printed is collected in a transcript.

* `Transcript` — the two output texts.
* `Ending` — the exit code, or that the recording is watched from here on.
* `buildOnce` — reads, compiles and writes once.  **Nothing is written unless everything was
  compiled**, and the listing is written last.
* `run` — a whole command line, in any monad with a file store.
-/

namespace DeltaScript.CommandLine

/-- What is printed. -/
structure Transcript where
  out : String := ""
  err : String := ""
  deriving DecidableEq, Repr

/-- The name and the version of the program. -/
def versionLine : String := "anim64 0.1.0\n"

/-- How a run ends. -/
inductive Ending
  | exit (code : Nat)
  /-- The recording is watched, and compiled again when it changes. -/
  | watching
  deriving DecidableEq, Repr

/-- What comes of a run. -/
structure Outcome where
  transcript : Transcript
  ending : Ending
  deriving DecidableEq, Repr

namespace Outcome

def exit (t : Transcript) (code : Nat) : Outcome :=
  ⟨t, .exit code⟩

def fail (t : Transcript) (code : Nat) (text : String) : Outcome :=
  .exit { t with err := t.err ++ text } code

end Outcome

/-- The transcript with something more on the first text. -/
def Transcript.say (t : Transcript) (text : String) : Transcript :=
  { t with out := t.out ++ text }

/-- Everything a build is told. -/
structure Job where
  arguments : Arguments
  settings : Settings
  format : OutputFormat
  deriving DecidableEq, Repr

/-! ## Texts -/

open Text

/-- The first line of a text with several.  A carriage return at its end belongs to the line
break. -/
def firstLine (text : String) : String :=
  let line := text.toList.takeWhile (· != '\n')
  String.ofList (if line.getLast? = some '\r' then line.dropLast else line)

/-- What is said about a bad value: the first line of it, in plain text.  The value and the names
are set off from the rest, so a control sequence ends where the part does that it stands in. -/
def valueMessage (text argument reason : String) : String :=
  let rest := plain s!"': {reason}\n\nFor more information, try '"
  firstLine s!"error: invalid value '{plain text}' for '{argument}{rest}--help'.\n" ++ "\n"

def modeText : Mode → String
  | .contiguous base => s!"Layout: contiguous at ${hexUpper 4 base.toNat}\n"
  | .chunked bins =>
      "Layout: chunked\n" ++ String.join (bins.map fun b =>
        s!"  - ${hexUpper 4 b.address.toNat}-${hexUpper 4 (b.stop - 1)}\n")

/-- What is said before anything is done. -/
def preamble (j : Job) : String :=
  s!"Anim64 Compiler v0.1.0\nOutput format: {j.format.name}\nOutput: {j.arguments.output.text}\n"
    ++ modeText j.arguments.mode ++ "\n"

/-- What is said about a build before it is written. -/
def summaryText (b : Build) (output : Path) : String :=
  let s := b.layout.summary
  s!"{s.objects} objects, {s.steps} steps, {s.deltas} deltas ({b.reel.recorded} recorded)\n"
    ++ s!"Header {s.headerBytes} bytes, tables {s.tableBytes} bytes, "
    ++ s!"scripts {s.scriptBytes} bytes\n"
    ++ (match b.layout.addressOf? (.table 0) with
        | some address => s!"Primary delta table at ${hexUpper 4 address.toNat}\n"
        | none => "")
    ++ "\n" ++ String.join (b.scripts.map Script.listing) ++ "\n"
    ++ s!"Writing {output.text}...\n"

/-- What is said about a failure.  A place inside a character cannot be shown. -/
def failureText (e : Failure) (source file : String) : String :=
  (e.diagnostic.report? source file).getD ""

/-- What is said after writing. -/
def doneText (j : Job) (paths : List Path) : String :=
  if j.arguments.verbose then "Done!\n"
  else
    let name := j.arguments.recording.fileName?.getD ""
    s!"Compiled {name} -> " ++ ", ".intercalate (paths.map Path.text) ++ "\n"

/-! ## Building -/

/-- The segments that are written: those of the layout, or all of it in one. -/
def segmentsToWrite (a : Arguments) (l : Layout) : Except Failure (List Segment) :=
  if a.merge then (Image.ofLayout l a.fill).map fun image => image.segment?.toList
  else .ok l.segments

/-- The text that bytes encode. -/
def decodeText (bytes : List UInt8) : Option String :=
  String.fromUTF8? ⟨bytes.toArray⟩

/-- A text if more is to be said than usual. -/
def Job.verbosely (j : Job) (text : String) : String :=
  if j.arguments.verbose then text else ""

/-- The build of a recording, and the segments to write. -/
def Job.compile (j : Job) (source : String) : Except Failure (Build × List Segment) := do
  let build ← DeltaScript.compile source j.arguments.objects j.settings j.arguments.mode
  let segments ← segmentsToWrite j.arguments build.layout
  return (build, segments)

section Running

variable {m : Type → Type} [Monad m] [FileStore m]

def writeBuild (j : Job) (t : Transcript) (b : Build) (segments : List Segment) : m Outcome := do
  match ← writeSegments segments j.arguments.output j.format with
  | .error e =>
      return .fail t 1 s!"Error: Cannot write {j.arguments.output.text}: {e.message}\n"
  | .ok paths =>
      match j.arguments.symbols with
      | none => return .exit (t.say (doneText j paths)) 0
      | some listing =>
          match ← writeText b.layout.symbols listing with
          | .error e => return .fail t 1 s!"Error: Cannot write {listing.text}: {e.message}\n"
          | .ok () => return .exit (t.say (doneText j paths)) 0

/-- Reads the recording, compiles it and writes the output, once. -/
def buildOnce (j : Job) (t : Transcript) : m Outcome := do
  let recording := j.arguments.recording
  match ← FileStore.read recording with
  | .error e => return .fail t 3 s!"Error: Cannot read {recording.text}: {e.message}\n"
  | .ok bytes =>
      match decodeText bytes with
      | none =>
          return .fail t 3
            s!"Error: Cannot read {recording.text}: stream did not contain valid UTF-8\n"
      | some source =>
          let t := t.say (j.verbosely s!"Reading {recording.text}...\nCompiling...\n")
          match j.compile source with
          | .error e =>
              return .fail t 1 (failureText e source (recording.fileName?.getD "<input>"))
          | .ok (build, segments) =>
              let t := t.say (j.verbosely (summaryText build j.arguments.output))
              writeBuild j t build segments

/-- Starts to watch the recording, which has to be there. -/
def startWatching (j : Job) (t : Transcript) : m Outcome := do
  let recording := j.arguments.recording
  match ← FileStore.resolve recording with
  | .error e =>
      return .fail t 6
        s!"Error: Failed to create file watcher: Cannot resolve {recording.text}: {e.message}\n"
  | .ok () =>
      return ⟨t.say "\nWatching for changes... (Press Ctrl+C to stop)\n", .watching⟩

/-- Builds again after the recording changed. -/
def rebuild (j : Job) : m Outcome := do
  let notice := if j.arguments.verbose then "Change detected, recompiling..." else "Recompiling..."
  let outcome ← buildOnce j { out := s!"\n{notice}\n" }
  let verdict :=
    if outcome.ending = .exit 0 then "Watching for changes...\n"
    else "Fix errors and save to retry.\n"
  return ⟨outcome.transcript.say verdict, .watching⟩

def Arguments.format? (a : Arguments) : Option OutputFormat :=
  if a.raw then some .raw else OutputFormat.ofPath? a.output

/-- What a command line asks for, or how it is refused. -/
def job (words : List String) : Except Outcome Job :=
  match parse words with
  | .error .usage => .error (.fail {} 2 "usage")
  | .error (.value text argument reason) =>
      .error (.fail {} 2 (valueMessage text argument reason))
  | .error .version => .error (.exit { out := versionLine } 0)
  | .ok arguments =>
      match arguments.format? with
      | none =>
          .error (.fail {} 2 "Error: Unknown output format. Use .prg, .bin or .raw extension.\n")
      | some format =>
          match arguments.settings with
          | .error text => .error (.fail {} 2 s!"Error: {text}\n")
          | .ok settings => .ok { arguments, settings, format }

/-- Carries out a command line that is understood. -/
def runJob (j : Job) : m Outcome := do
  let outcome ← buildOnce j { out := j.verbosely (preamble j) }
  if j.arguments.watch then startWatching j outcome.transcript else return outcome

/-- **Carries out a command line.** -/
def run (words : List String) : m Outcome :=
  match job words with
  | .error outcome => return outcome
  | .ok j => runJob j

end Running

end DeltaScript.CommandLine
