import DeltaScript.Files.Path

/-!
# File stores

What the program does with files goes through the operations of a store, so that it can be run on a
disk and reasoned about on a tree.

* `FileError` — why an operation fails, and what is said about it.
* `FileStore` — the operations.  A file is written in two steps: it is *staged* in the directory it
  is meant for, and moved to its place by a *commit*, which replaces a file that is there but no
  directory.
-/

namespace DeltaScript

/-- Why a file operation fails. -/
inductive FileError
  | notFound
  | isDirectory
  | notADirectory
  | busy
  | denied
  | nameTooLong
  /-- The path holds the character with the number zero, which no name can hold. -/
  | invalidName
  | other (reason : String)
  deriving DecidableEq, Repr

def FileError.message : FileError → String
  | notFound => "No such file or directory (os error 2)"
  | isDirectory => "Is a directory (os error 21)"
  | notADirectory => "Not a directory (os error 20)"
  | busy => "Device or resource busy (os error 16)"
  | denied => "Permission denied (os error 13)"
  | nameTooLong => "File name too long (os error 36)"
  | invalidName => "file name contained an unexpected NUL byte"
  | other reason => reason

/-- A file that waits to be moved to its place. -/
structure StagedFile where
  /-- Where the file waits. -/
  place : Path
  bytes : List UInt8
  deriving DecidableEq, Repr

/-- The file operations. -/
class FileStore (m : Type → Type) where
  read : Path → m (Except FileError (List UInt8))
  /-- Whether a path leads anywhere. -/
  resolve : Path → m (Except FileError Unit)
  /-- Stages a file with the given content in a directory. -/
  stage : Path → List UInt8 → m (Except FileError StagedFile)
  commit : StagedFile → Path → m (Except FileError Unit)
  discard : StagedFile → m Unit
  remove : Path → m (Except FileError Unit)

end DeltaScript
