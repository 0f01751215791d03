import Uniprocessor.Machine.Audit
import Uniprocessor.Scenario
import Uniprocessor.Strategy
/-
  Traces: what happened in a run, tick by tick, and the questions that can be asked of it.
-/

namespace Uniprocessor

/-- What a trace records. -/
inductive Event where
  /-- A process arrived and joined the ready queue. -/
  | forked (pid : Pid)
  /-- A scheduling decision changed the current process. -/
  | switched (prev next : Option Pid)
  /-- A process used one tick of CPU time and reached this age. -/
  | ran (pid : Pid) (age : Nat)
  /-- Nothing was ready in this tick. -/
  | idle
  | acquired (pid : Pid) (resource : ResourceId)
  /-- A request failed, and the process joined the wait-set. -/
  | blocked (pid : Pid) (resource : ResourceId)
  | released (pid : Pid) (resource : ResourceId)
  /-- A release moved a waiter to the ready queue. -/
  | woke (pid : Pid) (resource : ResourceId)
  /-- A protocol or aging changed the priority of a process within a tick. -/
  | priorityChanged (pid : Pid) (old new : Nat)
  /-- A process used up its lifespan. -/
  | exited (pid : Pid)
  deriving DecidableEq

/-- An event with the tick in which it happened. -/
structure TraceEvent where
  tick : Nat
  event : Event
  deriving DecidableEq

/-- How a run ended. -/
inductive Exit where
  /-- Every process ran to completion. -/
  | normal
  /-- The run was cut off at this tick. -/
  | tickLimit (tick : Nat)
  /-- The scenario was refused and nothing ran. -/
  | invalidScenario (flaw : Flaw)
  /-- The strategy refused the priority bounds and nothing ran. -/
  | limitsRefused (refusal : Strategy.LimitsRefused)
  /-- The audit found a broken rule. -/
  | ruleBroken (violation : Violation)
  deriving DecidableEq

/-- Whether a run did not end normally. -/
def Exit.isError : Exit → Bool
  | .normal => false
  | _ => true

/-- The events of a run in order, with the names of its processes. -/
structure Trace where
  events : List TraceEvent
  names : List (Pid × String)
  /-- The tick at which the run stopped. -/
  endTick : Nat
  exit : Exit
  deriving DecidableEq

namespace Trace

/-- The name of a process that no job defines. -/
def unknownName : String := "???"

/-- The name of a process, by the first job with its pid. -/
def nameOf (t : Trace) (p : Pid) : String :=
  ((t.names.find? fun n => n.1 = p).map (·.2)).getD unknownName

/-- Whether the run did not end normally. -/
def hasError (t : Trace) : Bool := t.exit.isError

/-- The processes in the order of the ticks that they ran in. -/
def runOrder (t : Trace) : List Pid :=
  t.events.filterMap fun e => match e.event with
    | .ran p _ => some p
    | _ => none

/-- The process that ran in a tick. -/
def ranAt? (t : Trace) (tick : Nat) : Option Pid :=
  t.events.findSome? fun e => match e.event with
    | .ran p _ => if e.tick = tick then some p else none
    | _ => none

/-- Whether an event is a tick of CPU time of `p`. -/
def isRunOf (p : Pid) : Event → Bool
  | .ran q _ => q == p
  | _ => false

/-- Whether an event puts `p` on the CPU. -/
def isSwitchTo (p : Pid) : Event → Bool
  | .switched _ (some q) => q == p
  | _ => false

/-- The number of ticks that a process ran in. -/
def ranTicks (t : Trace) (p : Pid) : Nat := t.events.countP fun e => isRunOf p e.event

/-- The number of times that a process was put on the CPU. -/
def scheduleCount (t : Trace) (p : Pid) : Nat := t.events.countP fun e => isSwitchTo p e.event

/-- The first tick that a process ran in. -/
def firstRun? (t : Trace) (p : Pid) : Option Nat :=
  (t.events.find? fun e => isRunOf p e.event).map (·.tick)

/-- The tick in which a process used up its lifespan. -/
def exitTick? (t : Trace) (p : Pid) : Option Nat :=
  (t.events.find? fun e => e.event = .exited p).map (·.tick)

/-- The processes in the order of their ends. -/
def exitOrder (t : Trace) : List Pid :=
  t.events.filterMap fun e => match e.event with
    | .exited p => some p
    | _ => none

/-- A change of priority and its tick. -/
structure PriorityChange where
  tick : Nat
  old : Nat
  new : Nat
  deriving DecidableEq

/-- The changes of the priority of a process. -/
def priorityChanges (t : Trace) (p : Pid) : List PriorityChange :=
  t.events.filterMap fun e => match e.event with
    | .priorityChanged q old new => if q = p then some ⟨e.tick, old, new⟩ else none
    | _ => none

end Trace

end Uniprocessor
