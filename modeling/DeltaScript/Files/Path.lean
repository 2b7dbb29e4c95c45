/-!
# Paths

A path is a text with steps separated by slashes.  What its parts are is decided from the text
alone, without a look at any file.

* `Path.parts` — the parts: the root, a leading `.`, each `..`, and the names.  Empty steps and
  other dots do not count, so paths that differ in them only have the same parts.
* `Path.parent?`, `Path.fileName?` — the path without its last part, and that part if it is a name.
* `Path.stem?`, `Path.extension?` — a file name before and behind its last dot.  A dot that starts
  the name belongs to the stem.
* `Path.withFileName` — the path with its file name replaced, or with one appended if it has none.
* `Path.join`, `Path.relativeTo?` — a path that starts in a directory, and what of a path lies
  behind a directory.
* `Path.refersTo` — whether two paths name one file, as far as their texts tell.
-/

namespace DeltaScript

/-- The name of a file or a directory, as it was given. -/
structure Path where
  text : String
  deriving DecidableEq, Repr

/-- A part of a path. -/
inductive PathPart
  /-- The root of all files. -/
  | root
  /-- The directory itself. -/
  | here
  /-- The directory above. -/
  | up
  /-- An entry of the directory. -/
  | name (text : String)
  deriving DecidableEq, Repr

namespace Path

def isRooted (p : Path) : Bool :=
  p.text.toList.head? == some '/'

/-- The steps between the slashes, the root apart. -/
def steps (p : Path) : List (List Char) :=
  let steps := p.text.toList.splitOn '/'
  if p.isRooted then steps.drop 1 else steps

/-- Whether the step with a given number leads nowhere. -/
def isIdle (rooted : Bool) (step : List Char × Nat) : Bool :=
  step.1.isEmpty || (step.1 == ['.'] && (rooted || step.2 != 0))

/-- The part that a step stands for. -/
def partOf (step : List Char) : PathPart :=
  if step == ['.'] then .here
  else if step == ['.', '.'] then .up
  else .name (String.ofList step)

def parts (p : Path) : List PathPart :=
  (if p.isRooted then [.root] else [])
    ++ (p.steps.zipIdx.filter (!isIdle p.isRooted ·)).map fun (step, _) => partOf step

/-- The name of the file that the path leads to, unless its last part is no name. -/
def fileName? (p : Path) : Option String :=
  match p.parts.getLast? with
  | some (.name text) => some text
  | _ => none

/-- Numbered steps without the idle ones at the end. -/
def trimSteps (rooted : Bool) (steps : List (List Char × Nat)) : List (List Char × Nat) :=
  (steps.reverse.dropWhile (isIdle rooted)).reverse

/-- The path up to its last part; a path without parts, and the root, have none. -/
def parent? (p : Path) : Option Path :=
  match p.parts.getLast? with
  | none => none
  | some .root => none
  | some _ =>
      let steps := trimSteps p.isRooted (trimSteps p.isRooted p.steps.zipIdx).dropLast
      let text := List.intercalate ['/'] (steps.map Prod.fst)
      some ⟨String.ofList (if p.isRooted then '/' :: text else text)⟩

/-- The directory that holds the file at a path: its parent, or the current directory. -/
def directory (p : Path) : Path :=
  match p.parent? with
  | none => ⟨"."⟩
  | some parent => if parent.text.isEmpty then ⟨"."⟩ else parent

/-- A name before its last dot and behind it. -/
def splitName (name : String) : String × Option String :=
  let reversed := name.toList.reverse
  let behind := reversed.takeWhile (· != '.')
  match reversed.drop behind.length with
  | [] => (name, none)
  | [_] => (name, none)
  | _ :: before => (String.ofList before.reverse, some (String.ofList behind.reverse))

def stem? (p : Path) : Option String :=
  p.fileName?.map fun name => (splitName name).1

/-- The file name behind its last dot. -/
def extension? (p : Path) : Option String :=
  p.fileName?.bind fun name => (splitName name).2

def append (p : Path) (name : String) : Path :=
  if p.text.isEmpty || p.text.toList.getLast? == some '/' then ⟨p.text ++ name⟩
  else ⟨p.text ++ "/" ++ name⟩

def withFileName (p : Path) (name : String) : Path :=
  match p.fileName?, p.parent? with
  | some _, some parent => parent.append name
  | _, _ => p.append name

/-- A path as it is seen from outside the directory in which it starts.  One that starts at the root
stays what it is. -/
def join (dir p : Path) : Path :=
  if p.isRooted then p else dir.append p.text

/-- Numbered steps behind those that stand for given parts. -/
def dropParts (rooted : Bool) (steps : List (List Char × Nat)) :
    List PathPart → Option (List (List Char × Nat))
  | [] => some (steps.dropWhile (isIdle rooted))
  | part :: rest =>
      match steps.dropWhile (isIdle rooted) with
      | [] => none
      | (step, _) :: behind => if partOf step = part then dropParts rooted behind rest else none

/-- A path as it is seen from a directory, without idle steps at its ends.  It has to start with the
parts of the directory. -/
def relativeTo? (p dir : Path) : Option Path :=
  if p.isRooted != dir.isRooted then none
  else
    (dropParts p.isRooted p.steps.zipIdx (dir.parts.filter (· ≠ .root))).map fun steps =>
      ⟨String.ofList (List.intercalate ['/'] ((trimSteps p.isRooted steps).map Prod.fst))⟩

/-- Whether two paths have the same parts, or at least the same file name in the same directory. -/
def refersTo (p q : Path) : Bool :=
  p.parts == q.parts
    || (p.fileName? == q.fileName? && p.parent?.map parts == q.parent?.map parts)

end Path

end DeltaScript
