import DeltaScript.Build

/-!
# Notices

What is reported along the way, apart from the results: how the dictionary came out, how large each
script is, where each block was placed.  A notice is a function of the same data as the result it
accompanies; those of a failed stage are about the part of it that was done.

* `Tally.notices`, `Session.notices` — about ranking and about the end of a session.
* `Reel.scriptNotices`, `Reel.notices` — about compiling, and about a whole build.
* `Blocks.notices` — about placing.
* `compileNotices` — about the whole way from a text.
-/

namespace DeltaScript

/-- How much a notice matters. -/
inductive Level
  | debug
  | info
  | warning
  deriving DecidableEq, Repr

/-- Something reported along the way. -/
structure Notice where
  level : Level
  text : String
  deriving DecidableEq, Repr

open Text

/-- What is said when a tally is ranked: only that deltas were left out. -/
def Tally.notices (t : Tally) : List Notice :=
  if Ranking.capacity < t.size then
    [⟨.warning, s!"{t.size} deltas survived pruning, keeping the {Ranking.capacity} most frequent"⟩]
  else []

/-- What is said at the end of a session. -/
def Session.notices (s : Session) : List Notice :=
  let pruned := s.tally.prune s.settings.ranges
  let dropped := s.tally.size - pruned.size
  pruned.notices ++
    [⟨.info, s!"Dictionary: {s.tally.size} distinct deltas recorded, {dropped} pruned, "
      ++ s!"{pruned.rank.size} indexed"⟩]

/-- What is said about a script. -/
def Direction.notices (d : Direction) (object : Nat) (steps : List Step) : List Notice :=
  match d.instructions object steps with
  | .error _ => []
  | .ok instructions =>
      let size := (Script.ofInstructions object instructions).size
      [⟨.debug, s!"Object {object}: {steps.length} frames, {instructions.length} instructions, "
        ++ s!"{size} bytes"⟩]

namespace Reel

def scriptNotices (r : Reel) (visibility : Visibility) (object : Nat) : List Notice :=
  (r.direction visibility).notices object (r.tracks.steps object)

/-- The objects before the first one that has no script. -/
def compiled (r : Reel) (visibility : Visibility) : List Nat :=
  (List.range r.tracks.objects).takeWhile fun object => (r.script visibility object).isOk

/-- What is said about the scripts of all objects. -/
def allNotices (r : Reel) (visibility : Visibility) : List Notice :=
  (r.compiled visibility).flatMap (r.scriptNotices visibility)

end Reel

def Placement.notice (p : Placement) : Notice :=
  ⟨.debug, s!"Placing {p.block.name} ({p.size} bytes) at ${hexUpper 4 p.address.toNat}"⟩

def Layout.notice (l : Layout) : Notice :=
  ⟨.info, s!"Layout: {l.segments.length} segment(s), {l.summary.totalBytes} bytes "
    ++ s!"(header {l.summary.headerBytes}, tables {l.summary.tableBytes}, "
    ++ s!"scripts {l.summary.scriptBytes})"⟩

/-- What is said while blocks are placed. -/
def Blocks.placingNotices (b : Blocks) : Mode → List Notice
  | .contiguous _ => []
  | .chunked bins =>
      if 0xFFFF < b.maxSteps || !(Bin.checkAll bins).isOk then []
      else (Filling.ofBlocks b bins).placed.map Placement.notice

/-- What is said while blocks are laid out. -/
def Blocks.notices (b : Blocks) (mode : Mode) : List Notice :=
  b.placingNotices mode ++
    match Layout.allocate b mode with
    | .ok layout => [layout.notice]
    | .error _ => []

/-- What is said while a reel is compiled and placed. -/
def Reel.notices (r : Reel) (mode : Mode) : List Notice :=
  r.allNotices r.onScreen ++
    match r.scripts r.onScreen with
    | .ok scripts => (r.blocks scripts).notices mode
    | .error _ => []

/-- What is said while the text of a recording is compiled. -/
def compileNotices (source : String) (objects : Option Nat) (settings : Settings) (mode : Mode) :
    List Notice :=
  match Recording.parse source with
  | .error _ => []
  | .ok recording =>
      match recording.session objects settings with
      | .error _ => []
      | .ok session => session.notices ++ session.finish.notices mode

end DeltaScript
