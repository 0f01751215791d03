import Uniprocessor.Machine
/-
  Scheduling policies.  A decision has two phases.

  * The current process retires: if it still has work, a non-preemptive policy keeps it on the
    CPU, and a preemptive one puts it back at the tail of the ready queue.  A process that
    blocked or has used up its lifespan is left alone.
  * If none was kept, one is picked: the ready process with the extreme key of the policy, the
    earliest in the queue if several have it.
-/

namespace Uniprocessor

/-- The rules by which a ready process is chosen. -/
inductive Policy where
  /-- First come, first served, to completion. -/
  | fifo
  /-- The least lifespan, to completion. -/
  | shortestJob
  /-- The least remaining time, decided anew every tick. -/
  | shortestRemaining
  /-- In turn, one tick each. -/
  | roundRobin
  /-- The greatest priority, decided anew every tick. -/
  | priority
  /-- The greatest priority, where waiting in the ready queue raises it. -/
  | priorityAging
  deriving DecidableEq

/-- What happens to a current process that still has work. -/
inductive Retirement where
  | keep
  | requeue
  /-- It loses what aging added before it goes back. -/
  | restoreAndRequeue
  deriving DecidableEq

/-- The outcome of a scheduling decision. -/
inductive Decision where
  /-- Nothing is ready. -/
  | idle
  /-- The current process stays on the CPU. -/
  | keep (pid : Pid)
  /-- This process left the ready queue for the CPU, in this state. -/
  | pick (pid : Pid) (process : ProcessRecord)
  deriving DecidableEq

/-- The process that a decision puts on the CPU. -/
def Decision.next : Decision → Option Pid
  | .idle => none
  | .keep pid => some pid
  | .pick pid _ => some pid

namespace Policy

/-- The short name of a policy. -/
def name : Policy → String
  | .fifo => "FIFO"
  | .shortestJob => "SJF"
  | .shortestRemaining => "SRTF"
  | .roundRobin => "RR"
  | .priority => "Priority"
  | .priorityAging => "Priority+Aging"

/-- What a policy does with a current process that still has work. -/
def retirement : Policy → Retirement
  | .fifo | .shortestJob => .keep
  | .shortestRemaining | .roundRobin | .priority => .requeue
  | .priorityAging => .restoreAndRequeue

/-- Whether a policy takes the CPU away from a process that still has work. -/
def isPreemptive (π : Policy) : Bool := π.retirement != .keep

/-- Retires the current process; it is returned if it keeps the CPU. -/
def retire (π : Policy) (m : Machine) : Except Fault (Machine × Option Pid) :=
  match m.current with
  | none => .ok (m, none)
  | some cur => do
    let x ← m.process cur
    if x.status = .running ∧ ¬ x.isDone then
      match π.retirement with
      | .keep => return (m, some cur)
      | .requeue => return (← m.makeReady cur, none)
      | .restoreAndRequeue =>
        let m ← m.update cur ProcessRecord.restorePriority
        return (← m.makeReady cur, none)
    else return (m, none)

/-- Raises a priority by one unless it has reached `cap`. -/
def bump (cap : Nat) (x : ProcessRecord) : ProcessRecord :=
  if x.priority < cap then { x with priority := x.priority + 1 } else x

/-- Ages the members of `pids`. -/
def ageAll (m : Machine) : List Pid → Except Fault Machine
  | [] => .ok m
  | p :: rest => do ageAll (← m.update p (bump m.limits.agingCap)) rest

/-- The ready process that a policy prefers, after the aging that goes with it. -/
def prefer (π : Policy) (m : Machine) : Except Fault (Machine × Option Pid) := do
  match π with
  | .fifo | .roundRobin => return (m, m.ready.front?)
  | .shortestJob =>
    let xs ← m.records m.ready.pids
    return (m, (firstMinBy (·.2.lifespan) xs).map (·.1))
  | .shortestRemaining =>
    let xs ← m.records m.ready.pids
    return (m, (firstMinBy (·.2.remaining) xs).map (·.1))
  | .priority =>
    let xs ← m.records m.ready.pids
    return (m, (firstMaxBy (·.2.priority) xs).map (·.1))
  | .priorityAging =>
    let m ← ageAll m m.ready.pids
    let xs ← m.records m.ready.pids
    return (m, (firstMaxBy (·.2.priority) xs).map (·.1))

/-- Moves the preferred process from the ready queue to the CPU. -/
def pick (π : Policy) (m : Machine) : Except Fault (Machine × Decision) := do
  let (m, preferred) ← π.prefer m
  match preferred with
  | none => return ({ m with current := none }, .idle)
  | some next =>
    let x ← m.process next
    if x.status = .ready then
      let x := { x with status := .running }
      return ({ m with
        processes := m.processes.adjust next fun _ => x
        ready := m.ready.erase next
        current := some next }, .pick next x)
    else .error (.pickedNotReady next x.status)

/-- Makes one scheduling decision. -/
def schedule (π : Policy) (m : Machine) : Except Fault (Machine × Decision) := do
  let (m, kept) ← π.retire m
  match kept with
  | some pid => return (m, .keep pid)
  | none => π.pick m

end Policy

end Uniprocessor
