import Uniprocessor.Distribution
import Uniprocessor.PidMap
import Uniprocessor.Trace
/-
  Lifetimes: what became of each process in a run, computed from the trace.

  The time from its arrival to its exit, or to the end of the run, is divided into the ticks in
  which the process ran, those in which it was blocked, and the rest, in which it was ready.
-/

namespace Uniprocessor

/-- What became of a process. -/
structure Lifetime where
  /-- The tick of its arrival. -/
  arrival : Nat
  /-- The first tick that it ran in. -/
  firstRun : Option Nat
  /-- The tick in which it used up its lifespan. -/
  exit : Option Nat
  /-- The ticks that it ran in. -/
  ran : Nat
  /-- The ticks that it spent in the ready queue. -/
  readyWait : Nat
  /-- The ticks that it spent in wait-sets. -/
  blocked : Nat
  /-- How often it was put on the CPU. -/
  scheduleCount : Nat
  /-- How often a request of it failed. -/
  blockCount : Nat
  deriving DecidableEq

namespace Lifetime

/-- The lifetime of a process that has just arrived. -/
def arriving (tick : Nat) : Lifetime := ⟨tick, none, none, 0, 0, 0, 0, 0⟩

/-- The ticks from the arrival to the exit, both included. -/
def turnaround (l : Lifetime) : Option Nat := l.exit.map fun e => e + 1 - l.arrival

/-- The ticks from the arrival to the first run. -/
def response (l : Lifetime) : Option Nat := l.firstRun.map fun r => r - l.arrival

/-- One more tick on the CPU. -/
def run (l : Lifetime) (tick : Nat) : Lifetime :=
  { l with ran := l.ran + 1, firstRun := some (l.firstRun.getD tick) }

end Lifetime

/-- The lifetimes of the processes of a run, with the distributions over them. -/
structure Lifetimes where
  processes : PidMap Lifetime
  /-- Over the processes that finished. -/
  turnaround : Distribution
  /-- Over the processes that ran. -/
  response : Distribution
  /-- Over all processes. -/
  readyWait : Distribution
  endTick : Nat
  deriving DecidableEq

namespace Lifetimes

/-- The lifetimes after some of the events. -/
structure Tally where
  processes : PidMap Lifetime
  /-- The processes in wait-sets, with the tick in which they blocked. -/
  blockedSince : PidMap Nat

/-- Adds the ticks from `since` to `tick`, both included, to the blocked time of `p`. -/
def Tally.settle (t : Tally) (p : Pid) (since tick : Nat) : Except Fault Tally :=
  match t.processes.get? p with
  | none => .ok t
  | some l => do
    let spell ← subTicks (← addTicks tick 1) since
    let blocked ← addTicks l.blocked spell
    return { t with processes := t.processes.adjust p fun l => { l with blocked := blocked } }

/-- The lifetimes after one more event.  A waiter is woken after the releaser ran, so that the
tick of the wake-up still counts as blocked. -/
def Tally.add (t : Tally) (e : TraceEvent) : Except Fault Tally :=
  match e.event with
  | .forked p => .ok { t with processes := t.processes.insert p (.arriving e.tick) }
  | .switched _ (some p) =>
    .ok { t with
      processes := t.processes.adjust p fun l => { l with scheduleCount := l.scheduleCount + 1 } }
  | .ran p _ => .ok { t with processes := t.processes.adjust p fun l => l.run e.tick }
  | .blocked p _ =>
    .ok {
      processes := t.processes.adjust p fun l => { l with blockCount := l.blockCount + 1 }
      blockedSince := t.blockedSince.insert p e.tick }
  | .woke p _ =>
    match t.blockedSince.get? p with
    | none => .ok t
    | some since => Tally.settle { t with blockedSince := t.blockedSince.erase p } p since e.tick
  | .exited p =>
    .ok { t with processes := t.processes.adjust p fun l => { l with exit := some e.tick } }
  | .switched _ none | .idle | .acquired _ _ | .released _ _ | .priorityChanged _ _ _ => .ok t

/-- The lifetimes after all events. -/
def Tally.addAll : List TraceEvent → Tally → Except Fault Tally
  | [], t => .ok t
  | e :: rest, t => do Tally.addAll rest (← t.add e)

/-- Adds the ticks up to the end of the run to the blocked time of the processes that are still
in a wait-set. -/
def closeBlocked (endTick : Nat) :
    List (Pid × Nat) → PidMap Lifetime → Except Fault (PidMap Lifetime)
  | [], processes => .ok processes
  | (p, since) :: rest, processes =>
    match processes.get? p with
    | none => closeBlocked endTick rest processes
    | some l => do
      let blocked ← addTicks l.blocked (endTick - since)
      closeBlocked endTick rest (processes.adjust p fun l => { l with blocked := blocked })

/-- Fills in the time in the ready queue. -/
def finish (endTick : Nat) (l : Lifetime) : Except Fault Lifetime := do
  let lifetime ← match l.exit with
    | some e => do subTicks (← addTicks e 1) l.arrival
    | none => pure (endTick - l.arrival)
  return { l with readyWait := lifetime - (← addTicks l.ran l.blocked) }

/-- The lifetimes of no processes. -/
def start (endTick : Nat) : Lifetimes := ⟨.empty, .empty, .empty, .empty, endTick⟩

/-- Takes in one more process. -/
def addProcess (s : Lifetimes) (p : Pid) (l : Lifetime) : Except Fault Lifetimes := do
  let l ← finish s.endTick l
  let turnaround ← Distribution.addAll l.turnaround.toList s.turnaround
  let response ← match l.firstRun with
    | some r => do s.response.add (← subTicks r l.arrival)
    | none => pure s.response
  let readyWait ← s.readyWait.add l.readyWait
  return { s with
    processes := s.processes.insert p l
    turnaround := turnaround
    response := response
    readyWait := readyWait }

/-- Takes in processes in order. -/
def addProcesses : List (Pid × Lifetime) → Lifetimes → Except Fault Lifetimes
  | [], s => .ok s
  | (p, l) :: rest, s => do addProcesses rest (← s.addProcess p l)

/-- The lifetimes of a trace. -/
def ofTrace (t : Trace) : Except Fault Lifetimes := do
  let tally ← Tally.addAll t.events ⟨.empty, .empty⟩
  let processes ← closeBlocked t.endTick tally.blockedSince.entries tally.processes
  addProcesses processes.entries (start t.endTick)

end Lifetimes

end Uniprocessor
