import Uniprocessor.Machine
/-
  Resource protocols: how a process obtains a resource and gives it back.

  * A request for a free resource is granted; a request for a held one puts the requester into
    the wait-set.
  * A release clears the owner and moves one waiter, if there is one, to the tail of the ready
    queue.  The resource itself is not handed over: the waiter requests it again on its next
    turn.
  * The ceiling protocol raises a holder to the maximum priority; inheritance raises the holder
    to the priority of a more urgent process that blocks on it; a release undoes either.
-/

namespace Uniprocessor

/-- Which waiter a release wakes. -/
inductive WakeOrder where
  /-- The earliest one. -/
  | fifo
  /-- The one of greatest priority, the earliest if there are several. -/
  | priority
  deriving DecidableEq

/-- The rules by which resources are requested and given back. -/
inductive Protocol where
  /-- Plain mutual exclusion. -/
  | mutex (order : WakeOrder)
  /-- A holder runs at the maximum priority. -/
  | ceiling (order : WakeOrder)
  /-- A holder takes over the priority of a more urgent process that it blocks. -/
  | inheritance
  deriving DecidableEq

/-- The answer to a request. -/
inductive Reply where
  | granted
  /-- The requester waits for `owner`. -/
  | blocked (owner : Pid)
  deriving DecidableEq

/-- Whether the resource was granted. -/
def Reply.isGranted : Reply → Bool
  | .granted => true
  | .blocked _ => false

namespace Protocol

/-- The protocol that is used when none is named. -/
def standard : Protocol := .mutex .fifo

/-- The name of a protocol. -/
def name : Protocol → String
  | .mutex _ => "mutex"
  | .ceiling _ => "priority-ceiling"
  | .inheritance => "priority-inheritance"

/-- Which waiter a release wakes; inheritance always wakes by priority. -/
def wakeOrder : Protocol → WakeOrder
  | .mutex order | .ceiling order => order
  | .inheritance => .priority

/-- What holding a resource does to the holder. -/
def promote (κ : Protocol) (limits : Limits) (x : ProcessRecord) : ProcessRecord :=
  match κ with
  | .ceiling _ => { x with priority := limits.maxPriority }
  | .mutex _ | .inheritance => x

/-- Raises the owner to the priority of the process that it blocks, under inheritance. -/
def lend (κ : Protocol) (m : Machine) (owner requester : Pid) : Except Fault Machine :=
  match κ with
  | .mutex _ | .ceiling _ => .ok m
  | .inheritance => do
    let x ← m.process requester
    m.update owner fun y => { y with priority := max y.priority x.priority }

/-- Requests `r` for `requester`. -/
def acquire (κ : Protocol) (m : Machine) (r : ResourceId) (requester : Pid) :
    Except Fault (Machine × Reply) := do
  let x ← m.resources.get r
  match x.owner with
  | none =>
    let m ← m.update requester (κ.promote m.limits)
    let resources := m.resources.set r { x with owner := some requester }
    return ({ m with resources := resources }, .granted)
  | some owner =>
    if owner = requester then .error (.requestedOwn requester r)
    else
      let m ← κ.lend m owner requester
      return (← m.blockOn requester r, .blocked owner)

/-- The waiter that a release of `r` wakes. -/
def nextWaiter (κ : Protocol) (m : Machine) (waiters : Queue) : Except Fault (Option Pid) :=
  match κ.wakeOrder with
  | .fifo => .ok waiters.front?
  | .priority => do
    let xs ← m.records waiters.pids
    return (firstMaxBy (·.2.priority) xs).map (·.1)

/-- Moves one waiter of `r` to the ready queue, if there is one. -/
def wake (κ : Protocol) (m : Machine) (r : ResourceId) :
    Except Fault (Machine × Option Pid) := do
  let x ← m.resources.get r
  match ← κ.nextWaiter m x.waiters with
  | none => return (m, none)
  | some waiter =>
    let y ← m.process waiter
    if y.status = .waiting then
      let m := { m with
        resources := m.resources.set r { x with waiters := x.waiters.erase waiter } }
      return (← m.makeReady waiter, some waiter)
    else .error (.wokeNotWaiting waiter r y.status)

/-- Undoes what holding a resource did to the former holder. -/
def demote (κ : Protocol) (m : Machine) (p : Pid) : Except Fault Machine :=
  match κ with
  | .mutex _ => .ok m
  | .ceiling _ | .inheritance => m.update p ProcessRecord.restorePriority

/-- Gives `r` back; the answer is the waiter that became ready. -/
def release (κ : Protocol) (m : Machine) (r : ResourceId) (releaser : Pid) :
    Except Fault (Machine × Option Pid) := do
  let x ← m.resources.get r
  if x.owner = some releaser then
    let m := { m with resources := m.resources.set r { x with owner := none } }
    κ.wake (← κ.demote m releaser) r
  else .error (.releasedForeign releaser r x.owner)

end Protocol

end Uniprocessor
