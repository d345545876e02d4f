import Amalgam.Selection.State

/-!
# Pulling lines on demand

The same evaluation as a stream: every pull takes input lines just until one is
kept, a line fails or the lines end. A stream that has failed or ended gives
nothing more and no longer changes.
-/

namespace Amalgam.Selection

/-- A stream: the lines that have not been taken, and the state after those
that have. -/
structure Stream where
  strict : Bool := false
  state : State
  lines : List String
  finished : Bool := false

/-- One pull: the kept line or the failure, nothing if the stream is over, and
the stream left. -/
structure Pull where
  item? : Option (Except Failure String)
  stream : Stream
  events : Array Event

namespace Stream

/-- The stream over the given lines from a table of symbols. -/
def start (strict : Bool) (symbols : Symbols) (lines : List String) : Stream :=
  { strict, state := { symbols }, lines }

/-- Takes lines up to the first that is kept or fails; `events` is what earlier
lines caused. -/
def pullFrom (strict : Bool) (s : State) (events : Array Event) : List String → Pull
  | [] =>
    let ended : Stream := { strict, state := s, lines := [], finished := true }
    match s.close strict with
    | .error failure => { item? := some (.error failure), stream := ended, events }
    | .ok closing => { item? := none, stream := ended, events := events ++ closing }
  | line :: lines =>
    match s.step strict line with
    | .error failure =>
      { item? := some (.error failure)
        stream := { strict, state := s.countLine, lines, finished := true }
        events }
    | .ok { state, verdict := .emit, events := caused } =>
      { item? := some (.ok line), stream := { strict, state, lines }, events := events ++ caused }
    | .ok { state, verdict := .drop, events := caused } =>
      pullFrom strict state (events ++ caused) lines

/-- Pulls once. -/
def next (e : Stream) : Pull :=
  if e.finished then { item? := none, stream := e, events := #[] }
  else pullFrom e.strict e.state #[] e.lines

end Stream

end Amalgam.Selection
