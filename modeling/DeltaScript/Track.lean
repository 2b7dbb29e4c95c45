import DeltaScript.Attribute
import DeltaScript.Failure.Basic

/-!
# Tracks

A track holds the frames of one object, each with the delta that leads to it.  Frames are added one
at a time, in any interleaving of the objects.

* `Step` — a frame and its delta; the first frame of an object has none.
* `Track` — the steps of one object, kept newest first so that a frame is added in constant time.
  `Track.steps` lists them in the order in which they were added.
* `Tracks` — the tracks of all objects, with the attributes that the deltas are taken by.
* `Tracks.record` — adds a frame.  It refuses an unknown object first, a wrong number of values
  second, and changes nothing when it refuses.
-/

namespace DeltaScript

/-- A frame of an object and how it was reached. -/
structure Step where
  state : Values
  /-- The change from the frame before; the first frame has none. -/
  delta : Option Delta
  deriving DecidableEq, Repr

/-- Whether nothing changed since the frame before. -/
def Step.isStill (s : Step) : Bool :=
  match s.delta with
  | some delta => delta.all (· == 0)
  | none => false

/-- The steps of one object. -/
structure Track where
  newestFirst : List Step := []
  deriving DecidableEq, Repr

namespace Track

/-- The steps in the order in which they were added. -/
def steps (t : Track) : List Step :=
  t.newestFirst.reverse

def length (t : Track) : Nat :=
  t.newestFirst.length

/-- The step that a frame with these values would be. -/
def next (attributes : List Attribute) (t : Track) (values : Values) : Step where
  state := values
  delta := t.newestFirst.head?.map fun last => Attribute.deltas attributes last.state values

/-- The track with one more step. -/
def add (t : Track) (s : Step) : Track :=
  ⟨s :: t.newestFirst⟩

@[simp] theorem steps_empty : Track.steps {} = [] := rfl

@[simp] theorem steps_add (t : Track) (s : Step) : (t.add s).steps = t.steps ++ [s] := by
  simp [steps, add]

@[simp] theorem length_steps (t : Track) : t.steps.length = t.length := by
  simp [steps, length]

end Track

/-- The tracks of all objects. -/
structure Tracks where
  attributes : List Attribute
  tracks : List Track
  deriving DecidableEq, Repr

namespace Tracks

/-- Empty tracks for a number of objects.  All of them are set up at once; that there is memory for
so many is taken for granted. -/
def ofCount (objects : Nat) (attributes : List Attribute) : Tracks :=
  ⟨attributes, List.replicate objects {}⟩

def objects (t : Tracks) : Nat :=
  t.tracks.length

/-- The steps of an object; none for an object that is not tracked. -/
def steps (t : Tracks) (object : Nat) : List Step :=
  (t.tracks.getD object {}).steps

/-- The number of frames of the longest track. -/
def maxSteps (t : Tracks) : Nat :=
  (t.tracks.map Track.length).foldl max 0

/-- **Adds a frame of an object.**  The new step is returned with the tracks. -/
def record (t : Tracks) (object : Nat) (values : Values) : Except Failure (Step × Tracks) :=
  match t.tracks[object]? with
  | none => .error (.unknownObject object t.objects)
  | some track =>
      if values.length ≠ t.attributes.length then
        .error (.valueCount object t.attributes.length values.length)
      else
        let step := track.next t.attributes values
        .ok (step, { t with tracks := t.tracks.set object (track.add step) })

/-- Adds a frame under attributes that nobody has checked; `none` if the frame is acceptable but a
delta of it does not exist. -/
def record? (t : Tracks) (object : Nat) (values : Values) :
    Option (Except Failure (Step × Tracks)) :=
  let last := (t.steps object).getLast?
  let haveDeltas := match last with
    | some step => Attribute.haveDeltas t.attributes step.state values
    | none => true
  if values.length ≠ t.attributes.length || haveDeltas then some (t.record object values) else none

end Tracks

end DeltaScript
