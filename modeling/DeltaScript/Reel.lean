import DeltaScript.Session
import DeltaScript.Direction

/-!
# Reels

A finished session is a reel: the tracks as they were recorded, and the deltas that survived, ranked
once and for all.  Scripts are compiled from reels only, so that every index means the same delta in
all of them.

* `Session.finish` — prunes the tally by the ranges of the attributes and ranks what is left.
* `Reel.tables` — the delta tables, one for each attribute.
* `Reel.script`, `Reel.scripts` — the script of one object, and those of all of them.
-/

namespace DeltaScript

/-- A finished session. -/
structure Reel where
  settings : Settings
  tracks : Tracks
  ranking : Ranking
  /-- The number of distinct deltas that were recorded. -/
  recorded : Nat
  deriving DecidableEq, Repr

def Session.finish (s : Session) : Reel where
  settings := s.settings
  tracks := s.tracks
  ranking := (s.tally.prune s.settings.ranges).rank
  recorded := s.tally.size

namespace Reel

def tables (r : Reel) : List (List UInt8) :=
  (List.range r.tracks.attributes.length).map r.ranking.table

/-- What the objects are compiled by, for a given visibility. -/
def direction (r : Reel) (visibility : Visibility) : Direction where
  ranking := r.ranking
  visibility := visibility
  sentinel := r.settings.sentinel
  overflow := r.settings.overflow

/-- The visibility that the settings ask for. -/
def onScreen (r : Reel) : Visibility :=
  r.settings.screen.shows

def script (r : Reel) (visibility : Visibility) (object : Nat) : Except Failure Script :=
  (r.direction visibility).compile object (r.tracks.steps object)

/-- The scripts of all objects, or the failure of the first object that has none. -/
def scripts (r : Reel) (visibility : Visibility) : Except Failure (List Script) :=
  (List.range r.tracks.objects).mapM (r.script visibility)

end Reel

end DeltaScript
