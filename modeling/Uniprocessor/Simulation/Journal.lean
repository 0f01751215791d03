import Uniprocessor.Log
import Uniprocessor.Trace
/-
  The journal of a run: every scheduling decision, every request and every release, with what
  was known at that moment.  The trace and the log are two views of it.

  * `Activity.event?` is the event that an activity leaves in the trace; a decision leaves one
    only if it changes the current process, and the promotion of a waiter leaves none: that
    somebody was woken is an activity of its own.
  * `Activity.lines` are the log entries of an activity.
-/

namespace Uniprocessor

/-- One thing that happened in a run. -/
inductive Activity where
  | forked (job : Job)
  /-- A scheduling decision, after which `decision.next` follows `prev` on the CPU. -/
  | decided (prev : Option Pid) (decision : Decision)
  /-- A request was granted; the priority is that of the new holder. -/
  | acquired (pid : Pid) (resource : ResourceId) (priority : Nat)
  /-- A request failed; the owner's priority was `old` before it and `new` after it. -/
  | blocked (pid : Pid) (resource : ResourceId) (owner : Pid) (old new : Nat)
  | ran (pid : Pid) (age : Nat)
  | released (pid : Pid) (resource : ResourceId)
  /-- The protocol made a waiter ready. -/
  | promoted (pid : Pid) (resource : ResourceId)
  /-- A process left the wait-set with a release. -/
  | woke (pid : Pid) (resource : ResourceId)
  | exited (pid : Pid)
  | idle
  | priorityChanged (pid : Pid) (old new : Nat)
  deriving DecidableEq

/-- The event that an activity leaves in the trace. -/
def Activity.event? : Activity → Option Event
  | .forked j => some (.forked j.pid)
  | .decided prev d => if d.next = prev then none else some (.switched prev d.next)
  | .promoted _ _ => none
  | .acquired p r _ => some (.acquired p r)
  | .blocked p r _ _ _ => some (.blocked p r)
  | .ran p age => some (.ran p age)
  | .released p r => some (.released p r)
  | .woke p r => some (.woke p r)
  | .exited p => some (.exited p)
  | .idle => some .idle
  | .priorityChanged p old new => some (.priorityChanged p old new)

/-- The log entries of an activity in a tick of a run under `policy`. -/
def Activity.lines (policy : Policy) (tick : Nat) : Activity → List LogEntry
  | .forked j =>
    [⟨some tick, .info, "fork", [.pid "pid" j.pid, .str "name" j.name,
      .num "lifespan" j.lifespan, .num "prio" j.priority]⟩]
  | .decided _ (.pick p x) =>
    [⟨some tick, .debug, "pick", [.pid "pid" p, .num "prio" x.priority,
      .num "remaining" x.remaining, .str "policy" policy.name]⟩]
  | .acquired p r priority =>
    [⟨some tick, .debug, "acquired", [.pid "pid" p, .resource "resource" r,
      .num "prio" priority]⟩]
  | .blocked p r owner old new =>
    (if old < new then
      [⟨some tick, .debug, "inherit priority", [.pid "pid" owner, .num "from" old,
        .num "to" new, .pid "donor" p]⟩]
    else []) ++
    [⟨some tick, .debug, "blocked", [.pid "pid" p, .resource "resource" r,
      .pid "owner" owner]⟩]
  | .released p r => [⟨some tick, .debug, "released", [.pid "pid" p, .resource "resource" r]⟩]
  | .promoted p r => [⟨some tick, .debug, "woke", [.pid "pid" p, .resource "resource" r]⟩]
  | .exited p => [⟨some tick, .info, "exit", [.pid "pid" p]⟩]
  | .decided _ _ | .ran _ _ | .woke _ _ | .idle | .priorityChanged _ _ _ => []

/-- Activities with their ticks, in order. -/
abbrev Journal := List (Nat × Activity)

/-- The events of a journal. -/
def Journal.events (j : Journal) : List TraceEvent :=
  j.filterMap fun a => a.2.event?.map fun e => ⟨a.1, e⟩

/-- The log of a journal. -/
def Journal.log (j : Journal) (policy : Policy) : List LogEntry :=
  j.flatMap fun a => a.2.lines policy a.1

end Uniprocessor
