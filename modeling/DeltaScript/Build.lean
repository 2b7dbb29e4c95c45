import DeltaScript.Reel
import DeltaScript.Placement.Layout
import DeltaScript.Recording.Text

/-!
# Builds

From a recording to memory: the text is parsed, its frames are recorded, the scripts are compiled,
and everything is placed.

* `Reel.blocks` — what a reel has placed, once its scripts are compiled.
* `Reel.build` — compiles a reel and places it.
* `Recording.session` — takes down the frames of a recording.
* `compile` — the whole way.  **The first stage that fails decides the failure**: the text, the
  settings, the frames, the scripts, the placement.
-/

namespace DeltaScript

/-- What comes of a compilation. -/
structure Build where
  /-- The reel that the scripts were compiled from. -/
  reel : Reel
  /-- The scripts, in object order. -/
  scripts : List Script
  layout : Layout
  deriving DecidableEq, Repr

namespace Reel

/-- What is placed for a reel with the given scripts. -/
def blocks (r : Reel) (scripts : List Script) : Blocks where
  scripts := scripts
  tables := r.tables
  maxSteps := r.tracks.maxSteps

/-- Compiles the scripts of a reel and places everything. -/
def build (r : Reel) (mode : Mode) : Except Failure Build := do
  let scripts ← r.scripts r.onScreen
  let layout ← Layout.allocate (r.blocks scripts) mode
  return ⟨r, scripts, layout⟩

end Reel

/-- The session in which a recording is taken down.  Unless a number of objects is given, it is the
one that the recording speaks of. -/
def Recording.session (r : Recording) (objects : Option Nat) (settings : Settings) :
    Except Failure Session := do
  let session ← Session.start (objects.getD r.objects) settings
  session.recordAll (r.frames.map fun f => (f.object, f.state))

/-- **Compiles the text of a recording.** -/
def compile (source : String) (objects : Option Nat) (settings : Settings) (mode : Mode) :
    Except Failure Build := do
  let recording ← Recording.parse source
  let session ← recording.session objects settings
  session.finish.build mode

end DeltaScript
