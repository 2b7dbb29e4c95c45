import DeltaScript.Track
import DeltaScript.Ranking
import DeltaScript.Cue
import DeltaScript.Instruction.Script

/-!
# Directions

A direction is what all objects of a reel are compiled by.  Compiling goes through the cues of all
frames of an object.

* `Direction` — the ranked deltas, the visibility, the parked values, the treatment of values that
  do not fit.
* `Direction.cues` — the cues of an object.  Up to the first frame in which it is seen the object is
  parked; that frame is a state; each later frame is a hold if nothing changed, a delta if its delta
  has an index, and a state otherwise.
* `Direction.compile` — the script of an object: its cues, packed, and the end.

Nothing looks ahead for a shorter script.
-/

namespace DeltaScript

/-- What all objects of a compilation are compiled by. -/
structure Direction where
  ranking : Ranking
  visibility : Visibility
  sentinel : Values
  overflow : Overflow

namespace Direction

/-- The state instruction for values of an object. -/
def stateFor (d : Direction) (object : Nat) (values : Values) : Except Failure Instruction :=
  Instruction.ofValues d.overflow (some object) values

/-- The cue of a frame after the first visible one. -/
def cueFor (d : Direction) (object : Nat) (step : Step) : Except Failure Cue :=
  if step.isStill then .ok .hold
  else
    match step.delta.bind d.ranking.index? with
    | some index => (Instruction.ofIndex index).map .play
    | none => (d.stateFor object step.state).map .play

/-- The cues of `frames` frames in which the object is not yet seen. -/
def parkedCues (d : Direction) (object frames : Nat) : Except Failure (List Cue) :=
  match frames with
  | 0 => .ok []
  | n + 1 => do
      let parked ← d.stateFor object d.sentinel
      return .play parked :: List.replicate n .hold

/-- The number of frames before the object is first seen. -/
def hiddenFrames (d : Direction) (object : Nat) (steps : List Step) : Nat :=
  (steps.takeWhile fun step => !d.visibility object step.state).length

/-- The cues of all frames of an object. -/
def cues (d : Direction) (object : Nat) (steps : List Step) : Except Failure (List Cue) :=
  let hidden := d.hiddenFrames object steps
  match steps.drop hidden with
  | [] => .error (.neverVisible object steps.length)
  | first :: later => do
      let parked ← d.parkedCues object hidden
      let entrance ← d.stateFor object first.state
      let rest ← later.mapM (d.cueFor object)
      return parked ++ .play entrance :: rest

/-- The instructions of an object, the end included. -/
def instructions (d : Direction) (object : Nat) (steps : List Step) :
    Except Failure (List Instruction) :=
  (d.cues object steps).map fun cues => Cue.pack cues [.finish]

/-- The script of an object. -/
def compile (d : Direction) (object : Nat) (steps : List Step) : Except Failure Script :=
  (d.instructions object steps).map (Script.ofInstructions object)

end Direction

end DeltaScript
