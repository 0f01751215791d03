import Uniprocessor.Trace
/-
  Counts of the events of a trace, and their text.
-/

namespace Uniprocessor

/-- How often each kind of event happened. -/
structure TraceSummary where
  totalEvents : Nat
  /-- The ticks in which some process ran. -/
  busyTicks : Nat
  idleTicks : Nat
  contextSwitches : Nat
  acquisitions : Nat
  blocks : Nat
  releases : Nat
  exits : Nat
  deriving DecidableEq

namespace TraceSummary

/-- The counts before any event. -/
def zero : TraceSummary := ⟨0, 0, 0, 0, 0, 0, 0, 0⟩

/-- Counts one more event. -/
def add (s : TraceSummary) (e : Event) : TraceSummary :=
  let s := { s with totalEvents := s.totalEvents + 1 }
  match e with
  | .ran _ _ => { s with busyTicks := s.busyTicks + 1 }
  | .idle => { s with idleTicks := s.idleTicks + 1 }
  | .switched _ (some _) => { s with contextSwitches := s.contextSwitches + 1 }
  | .acquired _ _ => { s with acquisitions := s.acquisitions + 1 }
  | .blocked _ _ => { s with blocks := s.blocks + 1 }
  | .released _ _ => { s with releases := s.releases + 1 }
  | .exited _ => { s with exits := s.exits + 1 }
  | .switched _ none | .forked _ | .woke _ _ | .priorityChanged _ _ _ => s

/-- The lines of a summary. -/
def text (s : TraceSummary) : String :=
  "Trace Summary:\n" ++
  "  total_events:     " ++ Nat.repr s.totalEvents ++ "\n" ++
  "  busy_ticks:       " ++ Nat.repr s.busyTicks ++ "\n" ++
  "  idle_ticks:       " ++ Nat.repr s.idleTicks ++ "\n" ++
  "  context_switches: " ++ Nat.repr s.contextSwitches ++ "\n" ++
  "  acquisitions:     " ++ Nat.repr s.acquisitions ++ "\n" ++
  "  blocks:           " ++ Nat.repr s.blocks ++ "\n" ++
  "  releases:         " ++ Nat.repr s.releases ++ "\n" ++
  "  exits:            " ++ Nat.repr s.exits ++ "\n"

end TraceSummary

/-- The counts of the events of a trace. -/
def Trace.summary (t : Trace) : TraceSummary :=
  (t.events.map (·.event)).foldl TraceSummary.add TraceSummary.zero

end Uniprocessor
