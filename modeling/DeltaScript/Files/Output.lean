import DeltaScript.Files.Tree
import DeltaScript.Segment
import DeltaScript.Text.Hex

/-!
# Output files

* `OutputFormat` — files with a load address, and files without.
* `segmentPaths` — where segments are written.  One segment goes to the path given; of several, each
  has its load address appended to the stem of the file name.
* `writeSegments` — writes segments.  Every file is staged before the first is committed, so that a
  failure to stage leaves nothing behind.  **If a commit fails, the files committed before it are
  removed**, those included that took the place of an older file.
* `writeText` — writes a text.
* `readSegment` — reads a file with a load address.
-/

namespace DeltaScript

/-- The form of output files. -/
inductive OutputFormat
  /-- With the load address in front. -/
  | prg
  /-- Without it. -/
  | raw
  deriving DecidableEq, Repr

namespace OutputFormat

/-- The format that the extension of a path asks for, in letters of either case. -/
def ofPath? (p : Path) : Option OutputFormat :=
  match p.extension?.map fun extension => extension.toList.map Char.toLower with
  | some ['p', 'r', 'g'] => some .prg
  | some ['b', 'i', 'n'] => some .raw
  | some ['r', 'a', 'w'] => some .raw
  | _ => none

def hasAddress : OutputFormat → Bool
  | prg => true
  | raw => false

def name : OutputFormat → String
  | prg => "Prg"
  | raw => "Raw"

end OutputFormat

open Text in
/-- The name of the file for a segment, after the path of the whole output. -/
def segmentFileName (p : Path) (address : UInt16) : String :=
  let stem := p.stem?.getD "anim"
  match p.extension? with
  | some extension => s!"{stem}-{hexLower 4 address.toNat}.{extension}"
  | none => s!"{stem}-{hexLower 4 address.toNat}"

/-- Where segments are written. -/
def segmentPaths (p : Path) (segments : List Segment) : List Path :=
  if segments.length ≤ 1 then [p]
  else segments.map fun s => p.withFileName (segmentFileName p s.address)

section Writing

variable {m : Type → Type} [Monad m] [FileStore m]

open FileStore

/-- Stages files next to where they belong; if one cannot be staged, the earlier ones are given
up. -/
def stageAll : List (Path × List UInt8) → m (Except FileError (List (StagedFile × Path)))
  | [] => return .ok []
  | (target, bytes) :: rest => do
      match ← stage target.directory bytes with
      | .error e => return .error e
      | .ok staged =>
          match ← stageAll rest with
          | .ok later => return .ok ((staged, target) :: later)
          | .error e =>
              discard staged
              return .error e

def discardAll : List (StagedFile × Path) → m Unit
  | [] => return
  | (staged, _) :: rest => do
      discard staged
      discardAll rest

/-- Removes files.  One that cannot be removed stays. -/
def removeAll : List Path → m Unit
  | [] => return
  | p :: rest => do
      let _ ← remove p
      removeAll rest

/-- Commits staged files one after the other.  If one cannot be committed, it and the later ones are
given up, and the files in `done` are removed. -/
def commitAll (done : List Path) : List (StagedFile × Path) → m (Except FileError Unit)
  | [] => return .ok ()
  | (staged, target) :: rest => do
      match ← commit staged target with
      | .ok () => commitAll (done ++ [target]) rest
      | .error e =>
          discardAll ((staged, target) :: rest)
          removeAll done
          return .error e

/-- Writes segments; returns the paths written to. -/
def writeSegments (segments : List Segment) (p : Path) (format : OutputFormat) :
    m (Except FileError (List Path)) := do
  let paths := segmentPaths p segments
  match ← stageAll (paths.zip (segments.map (Segment.encode format.hasAddress))) with
  | .error e => return .error e
  | .ok staged =>
      match ← commitAll [] staged with
      | .error e => return .error e
      | .ok () => return .ok paths

def writeText (text : String) (p : Path) : m (Except FileError Unit) := do
  match ← stage p.directory text.toUTF8.data.toList with
  | .error e => return .error e
  | .ok staged =>
      match ← commit staged p with
      | .ok () => return .ok ()
      | .error e =>
          discard staged
          return .error e

end Writing

/-- Why no segment can be read from a file. -/
inductive ReadFault
  /-- There is no file to read. -/
  | file (e : FileError)
  /-- The file is too short to hold a load address. -/
  | tooShort
  deriving DecidableEq, Repr

/-- What is said about a file that is too short. -/
def ReadFault.shortMessage : String := "PRG file too short"

/-- Reads a file with a load address. -/
def readSegment {m : Type → Type} [Monad m] [FileStore m] (p : Path) :
    m (Except ReadFault Segment) := do
  match ← FileStore.read p with
  | .error e => return .error (.file e)
  | .ok bytes =>
      match Segment.decode? bytes with
      | some segment => return .ok segment
      | none => return .error .tooShort

end DeltaScript
