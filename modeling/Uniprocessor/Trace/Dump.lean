import Uniprocessor.Text.Stamp
import Uniprocessor.Trace
/-
  The text of a trace, one line an event.
-/

namespace Uniprocessor

namespace Trace

/-- The current process of a switch; `-` stands for none. -/
def slotText : Option Pid → String
  | none => "-"
  | some p => p.text

/-- A process and a resource in a line. -/
def useText (p : Pid) (r : ResourceId) : String :=
  "pid=" ++ p.text ++ " res=" ++ Nat.repr r.val

/-- What a line says of an event. -/
def eventText (t : Trace) : Event → String
  | .forked p => "FORK     pid=" ++ p.text ++ " (" ++ t.nameOf p ++ ")"
  | .switched prev next => "SWITCH   " ++ slotText prev ++ " -> " ++ slotText next
  | .ran p age => "RUN      pid=" ++ p.text ++ " age=" ++ Nat.repr age
  | .idle => "IDLE"
  | .acquired p r => "ACQUIRE  " ++ useText p r
  | .blocked p r => "BLOCK    " ++ useText p r
  | .released p r => "RELEASE  " ++ useText p r
  | .woke p r => "WAKE     " ++ useText p r
  | .priorityChanged p old new =>
    "PRIO     pid=" ++ p.text ++ " " ++ Nat.repr old ++ " -> " ++ Nat.repr new
  | .exited p => "EXIT     pid=" ++ p.text

/-- The line of an event. -/
def eventLine (t : Trace) (e : TraceEvent) : String :=
  "[" ++ Text.tickStamp e.tick ++ "] " ++ t.eventText e.event ++ "\n"

/-- The text of a trace. -/
def dump (t : Trace) : String := String.join (t.events.map t.eventLine)

end Trace

end Uniprocessor
