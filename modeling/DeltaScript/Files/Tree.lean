import DeltaScript.Files.Store

/-!
# File trees

A file tree is the content of one directory as a value: the files and directories below it, each
under the names that lead to it.  Programs that use a store are run on trees in the state monad.

* `FileTree.node?` — what is found under given names.
* `Place` — where a path can lead: to names in the tree, or out of it.  **Outside there are only
  directories**, in which no name is found and no file can be put.
* `FileTree.checkPath` — whether a path can lead anywhere in any tree.
* `FileTree.follow` — walks a path.  Every step but the last has to lead to a directory; a slash at
  the end asks for a directory too.  A name that is too long is noticed where it would be looked up.
* `FileTree.read`, `FileTree.stage`, `FileTree.commit`, `FileTree.discard`, `FileTree.remove` — the
  operations that look at the tree or change it.  **A staged file waits until it is committed or
  given up**; while it waits no path leads to it.
* `FileTree.within`, `FileTree.content` — a tree as the content of a directory, and the content of a
  directory as a tree.
* `FileTree.written`, `FileTree.gone` — in which files two trees differ.
-/

namespace DeltaScript

/-- A file or a directory. -/
inductive FileNode
  | file (bytes : List UInt8)
  | directory
  deriving DecidableEq, Repr

/-- The files and directories below a directory. -/
structure FileTree where
  nodes : List (List String × FileNode) := []
  /-- The files that are staged and not yet in their place. -/
  waiting : List StagedFile := []
  deriving DecidableEq, Repr

namespace FileTree

/-- What is found under given names.  Under no name there is the directory itself. -/
def node? (t : FileTree) (names : List String) : Option FileNode :=
  if names.isEmpty then some .directory else t.nodes.lookup names

/-- The tree with a file or directory under given names, in place of what was there. -/
def put (t : FileTree) (names : List String) (node : FileNode) : FileTree :=
  { t with nodes := (names, node) :: t.nodes.filter (·.1 != names) }

/-- The tree with nothing under given names. -/
def drop (t : FileTree) (names : List String) : FileTree :=
  { t with nodes := t.nodes.filter (·.1 != names) }

/-! ## Making trees -/

/-- The tree with directories along given names, where there was nothing. -/
def withDirectories (t : FileTree) (names : List String) : FileTree :=
  (List.range names.length).foldl
    (fun t n =>
      let above := names.take (n + 1)
      if (t.node? above).isNone then t.put above .directory else t)
    t

/-- The tree with a file, and the directories that lead to it. -/
def withFile (t : FileTree) (names : List String) (bytes : List UInt8) : FileTree :=
  (t.withDirectories names.dropLast).put names (.file bytes)

/-- The tree with nothing but a directory, which has the content of the tree. -/
def within (t : FileTree) (name : String) : FileTree :=
  { t with
    nodes := ([name], .directory) :: t.nodes.map fun (names, node) => (name :: names, node) }

/-- What a directory at the top of the tree holds. -/
def content (t : FileTree) (name : String) : FileTree :=
  { t with
    nodes := t.nodes.filterMap fun
      | (top :: names, node) =>
          if top = name ∧ names ≠ [] then some (names, node) else none
      | ([], _) => none }

/-! ## Places -/

/-- Where a path can lead. -/
inductive Place
  | inside (names : List String)
  | outside
  deriving DecidableEq, Repr

namespace Place

def top : Place := inside []

/-- The place above, which for the top of the tree is outside. -/
def above : Place → Place
  | inside [] => outside
  | inside names => inside names.dropLast
  | outside => outside

end Place

def found? (t : FileTree) : Place → Option FileNode
  | .inside names => t.node? names
  | .outside => some .directory

/-! ## Walking paths -/

/-- How long the name of a file or directory can be, in bytes. -/
def maxNameBytes : Nat := 255

/-- How long a path can be, in bytes. -/
def maxPathBytes : Nat := 4095

/-- Whether a name can be that of a file or directory. -/
def checkName (name : String) : Except FileError Unit :=
  if name.utf8ByteSize ≤ maxNameBytes then .ok () else .error .nameTooLong

/-- Whether a path can lead anywhere. -/
def checkPath (p : Path) : Except FileError Unit :=
  if p.text.toList.contains '\x00' then .error .invalidName
  else if maxPathBytes < p.text.utf8ByteSize then .error .nameTooLong
  else if p.text.isEmpty then .error .notFound
  else .ok ()

/-- The steps by which a path is walked.  Other than the parts of the path they keep every dot, and
end in one if the path ends in a slash. -/
def route (p : Path) : List PathPart :=
  let steps := p.steps
  (if p.isRooted then [.root] else [])
    ++ (steps.filter (!·.isEmpty)).map Path.partOf
    ++ if steps.getLast?.any (·.isEmpty) then [.here] else []

/-- The place of a name in a directory, which has to be found there. -/
def enter (t : FileTree) (place : Place) (name : String) : Except FileError Place := do
  checkName name
  match place with
  | .outside => throw .notFound
  | .inside names =>
      if (t.node? (names ++ [name])).isSome then return .inside (names ++ [name])
      else throw .notFound

/-- One step from a directory on. -/
def follow (t : FileTree) (place : Place) (part : PathPart) : Except FileError Place :=
  if t.found? place ≠ some .directory then .error .notADirectory
  else
    match part with
    | .root => .ok .outside
    | .here => .ok place
    | .up => .ok place.above
    | .name text => t.enter place text

def find (t : FileTree) (p : Path) : Except FileError Place := do
  checkPath p
  (route p).foldlM t.follow .top

/-! ## Operations -/

def read (t : FileTree) (p : Path) : Except FileError (List UInt8) := do
  let place ← t.find p
  match t.found? place with
  | some (.file bytes) => return bytes
  | _ => throw .isDirectory

/-- The names to which a path leads through an existing directory, whether something is found under
them or not. -/
def findPlace (t : FileTree) (p : Path) : Except FileError (List String) := do
  checkPath p
  let slash := p.steps.getLast?.any (·.isEmpty)
  let route := if slash then (route p).dropLast else route p
  let above ← route.dropLast.foldlM t.follow .top
  if t.found? above ≠ some .directory then throw .notADirectory
  match route.getLast? with
  | some (.name text) =>
      checkName text
      if slash then throw .notADirectory
      match above with
      | .inside names => return names ++ [text]
      | .outside => throw .denied
  | _ => throw .busy

/-- The tree with a file staged in an existing directory. -/
def stage (t : FileTree) (dir : Path) (bytes : List UInt8) :
    Except FileError (StagedFile × FileTree) := do
  let place ← t.find dir
  if t.found? place ≠ some .directory then throw .notADirectory
  let staged : StagedFile := ⟨dir, bytes⟩
  return (staged, { t with waiting := staged :: t.waiting })

def discard (t : FileTree) (staged : StagedFile) : FileTree :=
  { t with waiting := t.waiting.erase staged }

/-- The tree with a staged file moved to a place, where it may replace a file but not a
directory. -/
def commit (t : FileTree) (staged : StagedFile) (p : Path) : Except FileError FileTree := do
  let names ← t.findPlace p
  if t.node? names = some .directory then throw .isDirectory
  return (t.discard staged).put names (.file staged.bytes)

def remove (t : FileTree) (p : Path) : Except FileError FileTree := do
  let names ← t.findPlace p
  match t.node? names with
  | some (.file _) => return t.drop names
  | some .directory => throw .isDirectory
  | none => throw .notFound

/-- Does to the tree in hand what an operation does, and leaves it as it is if that fails. -/
def update (change : FileTree → Except FileError FileTree) :
    StateM FileTree (Except FileError Unit) :=
  fun t =>
    match change t with
    | .ok t => (.ok (), t)
    | .error e => (.error e, t)

instance : FileStore (StateM FileTree) where
  read p := fun t => (t.read p, t)
  resolve p := fun t => ((t.find p).map fun _ => (), t)
  stage dir bytes := fun t =>
    match t.stage dir bytes with
    | .ok (staged, t) => (.ok staged, t)
    | .error e => (.error e, t)
  commit staged p := update fun t => t.commit staged p
  discard staged := fun t => ((), t.discard staged)
  remove p := update fun t => t.remove p

/-! ## Comparing trees -/

/-- The name of a file or directory in a comparison; that of a directory ends in a slash. -/
def displayName (names : List String) : FileNode → String
  | .file _ => "/".intercalate names
  | .directory => "/".intercalate names ++ "/"

/-- The files and directories of `new` that `old` has not, or not with that content. -/
def written (old new : FileTree) : List (String × List UInt8) :=
  (new.nodes.filter fun (names, node) => old.node? names != some node).map fun (names, node) =>
    match node with
    | .file bytes => (displayName names node, bytes)
    | .directory => (displayName names node, [])

/-- The files and directories of `old` that `new` has not. -/
def gone (old new : FileTree) : List String :=
  ((old.nodes.filter fun (names, _) => (new.node? names).isNone).map fun (names, node) =>
    displayName names node).mergeSort (· ≤ ·)

end FileTree

end DeltaScript
