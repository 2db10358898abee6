import TreeTiling.Session.Event
import TreeTiling.Session.Stats

/-!
A compilation session: the supply of fresh temporaries, the procedure at work, the statistics and
the events so far. Reading, selection and analysis each take a session and hand one on.
-/

namespace TreeTiling

/-- The state that every phase of one compilation shares. -/
structure Session where
  /-- How many virtual temporaries have been handed out; also the number of the next one. -/
  temps : Nat := 0
  procedure : Option String := none
  stats : Stats := {}
  events : Array Event := #[]

namespace Session

/-- Hands out the next virtual temporary. Numbers have no bound here: a session is taken to hand out
fewer than `2 ^ 32` temporaries, so that a counter of 32 bits gives the same numbers.
-/
def fresh (session : Session) : Temp × Session :=
  (.virtual session.temps, { session with temps := session.temps + 1 })

def enter (session : Session) (procedure : String) : Session :=
  { session with procedure := some procedure }

def leave (session : Session) : Session :=
  { session with procedure := none }

/-- Changes what the session has counted. -/
def count (session : Session) (change : Stats → Stats) : Session :=
  { session with stats := change session.stats }

/-- Adds an event to the record. -/
def log (session : Session) (event : Event) : Session :=
  { session with events := session.events.push event }

end Session

end TreeTiling
