import DeltaScript.Settings
import DeltaScript.Track
import DeltaScript.Tally

/-!
# Recording sessions

A session takes down frames under settings that have been checked: it keeps the tracks, and tallies
every delta that comes up.

* `Session.start` — opens a session; refuses settings that have a fault.
* `Session.record` — takes down a frame.  A frame that is refused leaves the session as it was.
* `Session.recordWhile` — takes down frames up to the first that is refused.
* `Session.recordAll` — takes down all frames, or fails as the first refused one does.
-/

namespace DeltaScript

/-- A recording in progress. -/
structure Session where
  settings : Settings
  tracks : Tracks
  tally : Tally := {}
  deriving DecidableEq, Repr

namespace Session

/-- Opens a session for a number of objects. -/
def start (objects : Nat) (settings : Settings) : Except Failure Session := do
  settings.check
  return { settings, tracks := Tracks.ofCount objects settings.attributes }

/-- Takes down a frame of an object. -/
def record (s : Session) (object : Nat) (values : Values) : Except Failure Session :=
  (s.tracks.record object values).map fun (step, tracks) =>
    match step.delta with
    | some delta => { s with tracks, tally := s.tally.add delta }
    | none => { s with tracks }

/-- Takes down frames up to the first one that is refused.  The session reached is returned in any
case. -/
def recordWhile (s : Session) : List (Nat × Values) → Session × Option Failure
  | [] => (s, none)
  | (object, values) :: rest =>
      match s.record object values with
      | .ok s => s.recordWhile rest
      | .error e => (s, some e)

/-- Takes down frames, all of them or none. -/
def recordAll (s : Session) (frames : List (Nat × Values)) : Except Failure Session :=
  match s.recordWhile frames with
  | (s, none) => .ok s
  | (_, some e) => .error e

end Session

end DeltaScript
