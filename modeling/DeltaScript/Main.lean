import DeltaScript.CommandLine.Program

/-!
# The program on a disk

The outer layer: it carries out a command line on real files and prints what comes of it.

* `FileStore IO` — the operations of a file store on a disk.  A staged file is a new file in its
  directory, and a commit renames it.
* `keepWatching` — compiles a recording again whenever its content changes.
* `main` — the program.
-/

namespace DeltaScript

/-- The error with a number, which may be given with a minus sign. -/
def FileError.ofNumber (number : UInt32) (details : String) : FileError :=
  match min number (0 - number) with
  | 13 => .denied
  | 20 => .notADirectory
  | 21 => .isDirectory
  | 36 => .nameTooLong
  | n => .other s!"{details} (os error {n})"

/-- Why an operation on a disk failed. -/
def FileError.ofDisk : IO.Error → FileError
  | .noFileOrDirectory .. => .notFound
  | .resourceBusy .. => .busy
  | .inappropriateType _ number details => .ofNumber number details
  | .invalidArgument _ number details => .ofNumber number details
  | .permissionDenied _ number details => .ofNumber number details
  | .resourceExhausted _ number details => .ofNumber number details
  | e => .other (toString e)

/-- Carries out an operation on a disk. -/
def onDisk {α : Type} (operation : IO α) : IO (Except FileError α) := do
  try
    return .ok (← operation)
  catch e =>
    return .error (.ofDisk e)

/-- Makes a new file in a directory, under the first of some names that is free. -/
def makeFile (dir : Path) : Nat → IO (Path × IO.FS.Handle)
  | 0 => throw (.userError "no free name for a staged file")
  | tries + 1 => do
      let place := dir.append s!".staged-{tries}"
      try
        return (place, ← IO.FS.Handle.mk place.text .writeNew)
      catch
        | .alreadyExists .. => makeFile dir tries
        | e => throw e

instance : FileStore IO where
  read p := onDisk do return (← IO.FS.readBinFile p.text).data.toList
  resolve p := onDisk do let _ ← IO.FS.realPath p.text
  stage dir bytes := onDisk do
    let (place, handle) ← makeFile dir 1000
    handle.write ⟨bytes.toArray⟩
    handle.flush
    return ⟨place, bytes⟩
  commit staged p := onDisk (IO.FS.rename staged.place.text p.text)
  discard staged := do let _ ← onDisk (IO.FS.removeFile staged.place.text)
  remove p := onDisk (IO.FS.removeFile p.text)

namespace CommandLine

/-- Prints what is to be printed. -/
def Transcript.print (t : Transcript) : IO Unit := do
  IO.print t.out
  (← IO.getStdout).flush
  IO.eprint t.err

/-- The content of the recording now, if there is one. -/
def currentRecording (j : Job) : IO (Option (List UInt8)) := do
  return (← FileStore.read j.arguments.recording).toOption

/-- Compiles the recording again whenever its content is another than last time, without an end. -/
partial def keepWatching (j : Job) (last : Option (List UInt8)) : IO UInt32 := do
  IO.sleep 100
  let now ← currentRecording j
  if now.isNone || now == last then keepWatching j last
  else
    let outcome ← rebuild j
    outcome.transcript.print
    keepWatching j now

end CommandLine

end DeltaScript

open DeltaScript.CommandLine in
/-- Carries out the command line. -/
def main (words : List String) : IO UInt32 := do
  match job words with
  | .error outcome =>
      outcome.transcript.print
      match outcome.ending with
      | .exit code => return .ofNat code
      | .watching => return 0
  | .ok j =>
      let seen ← currentRecording j
      let outcome ← runJob j
      outcome.transcript.print
      match outcome.ending with
      | .exit code => return .ofNat code
      | .watching => keepWatching j seen
