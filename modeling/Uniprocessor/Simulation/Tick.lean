import Uniprocessor.Simulation.Journal
/-
  One tick of a run.

  * Jobs whose time has come are admitted (`admitDue`).
  * The strategy puts a process on the CPU, which requests what is due at its age (`attempt`).
    A process that blocks gives up the rest of the tick, and the strategy decides again
    (`settle`); every such attempt leaves one more process waiting.
  * The process that got all it asked for runs: it grows one tick older, gives back what is due
    at its new age and exits if its lifespan is used up (`runOn`).
-/

namespace Uniprocessor

namespace Simulation

/-- The priority of a process, for the journal. -/
def priorityOf (m : Machine) (p : Pid) : Nat :=
  match m.process? p with
  | some x => x.priority
  | none => 0

/-- The journal entry for the answer to a request of `p` that took `m` to `n`. -/
def requestActivity (m n : Machine) (p : Pid) (r : ResourceId) : Reply → Activity
  | .granted => .acquired p r (priorityOf n p)
  | .blocked owner => .blocked p r owner (priorityOf m owner) (priorityOf n owner)

/-- Requests `due` in order for the current process `p`, up to the first request that fails.
The answer says whether all were granted. -/
def request (s : Strategy) (p : Pid) :
    List ResourceId → Machine → Except Fault (Machine × List Activity × Bool)
  | [], m => .ok (m, [], true)
  | r :: due, m => do
    let (n, reply) ← s.acquire m r
    let first := requestActivity m n p r reply
    if reply.isGranted then
      let (n, rest, all) ← request s p due n
      return (n, first :: rest, all)
    return (n, [first], false)

/-- What an attempt to run a process came to. -/
inductive Turn where
  /-- Nothing was ready. -/
  | idle
  /-- The process on the CPU blocked. -/
  | blocked (pid : Pid)
  /-- The process on the CPU holds all it asked for. -/
  | served (pid : Pid)
  deriving DecidableEq

/-- What `p` asks for at its age, less what it holds already. -/
def requestsOf (m : Machine) (p : Pid) : Except Fault (List ResourceId) := do
  let x ← m.process p
  return x.requestsDue.filter fun r => m.resources.owner? r ≠ some p

/-- Makes one scheduling decision and the requests of the process that it puts on the CPU. -/
def attempt (s : Strategy) (m : Machine) : Except Fault (Machine × List Activity × Turn) := do
  let (n, decision) ← s.schedule m
  let first := Activity.decided m.current decision
  match decision.next with
  | none => return (n, [first], .idle)
  | some p =>
    let due ← requestsOf n p
    let (n, rest, all) ← request s p due n
    return (n, first :: rest, if all then .served p else .blocked p)

/-- Makes attempts, at most `limit` of them, until one ends without a blocked process; the
answer is the process that may run. -/
def settle (s : Strategy) (limit : Nat) (m : Machine) :
    Except Fault (Machine × List Activity × Option Pid) :=
  match limit with
  | 0 => .error .unsettledTick
  | limit + 1 => do
    let (n, first, turn) ← attempt s m
    match turn with
    | .idle => return (n, first, none)
    | .served p => return (n, first, some p)
    | .blocked _ =>
      let (n, rest, runner) ← settle s limit n
      return (n, first ++ rest, runner)

/-- The number of attempts that a tick can take: each but the last leaves one more process
waiting. -/
def attemptLimit (m : Machine) : Nat := m.processes.size + 1

/-- The first of those that wait for `r` in `m` that does not wait for it in `n`. -/
def leaver? (m n : Machine) (r : ResourceId) : Option Pid :=
  (m.resources.waiters r).find? fun w => decide (w ∉ n.resources.waiters r)

/-- The journal entries for a release by which the protocol made `promoted` ready and `woken` left
the wait-set. -/
def releaseEntries (p : Pid) (r : ResourceId) (promoted woken : Option Pid) : List Activity :=
  .released p r :: ((promoted.map (.promoted · r)).toList ++ (woken.map (.woke · r)).toList)

/-- Gives `due` back in order for the current process `p`.  Who was woken is found by a comparison
of the wait-set before and after. -/
def giveBack (s : Strategy) (p : Pid) :
    List ResourceId → Machine → Except Fault (Machine × List Activity)
  | [], m => .ok (m, [])
  | r :: due, m => do
    let (n, promoted) ← s.release m r
    let (k, rest) ← giveBack s p due n
    return (k, releaseEntries p r promoted (leaver? m n r) ++ rest)

/-- Lets `p` run for a tick. -/
def runOn (s : Strategy) (p : Pid) (m : Machine) : Except Fault (Machine × List Activity) := do
  let (m, age) ← m.grow p
  let due ← (← m.process p).releasesDue
  let (m, releases) ← giveBack s p due m
  let x ← m.process p
  if x.isDone then
    let m ← m.update p fun x => { x with status := .terminated }
    return (m, .ran p age :: releases ++ [.exited p])
  return (m, .ran p age :: releases)

/-- Plays the part of a tick behind the admissions.  The answer says whether a process ran. -/
def play (s : Strategy) (m : Machine) : Except Fault (Machine × List Activity × Bool) := do
  let (m, attempts, runner) ← settle s (attemptLimit m) m
  match runner with
  | none => return (m, attempts, false)
  | some p =>
    let (m, run) ← runOn s p m
    return (m, attempts ++ run, true)

/-- Admits jobs in order. -/
def admitAll : List Job → Machine → Except Fault Machine
  | [], m => .ok m
  | j :: jobs, m => do admitAll jobs (← m.fork j)

/-- The processes whose priority differs between `m` and `n`, by pid. -/
def priorityChanges (m n : Machine) : List Activity :=
  n.processes.entries.filterMap fun (p, x) =>
    match m.process? p with
    | some y => if y.priority = x.priority then none
      else some (.priorityChanged p y.priority x.priority)
    | none => none

/-- A run between two ticks. -/
structure Progress where
  machine : Machine
  /-- The jobs that are still to arrive, the earliest first. -/
  pending : List Job
  deriving DecidableEq

/-- What a tick came to. -/
structure TickResult where
  after : Progress
  /-- What happened in the tick, in order. -/
  done : List Activity
  /-- How the run ended, if it ended in this tick; if it goes on, the time has passed. -/
  exit : Option Exit

/-- Plays a tick. -/
def step (s : Strategy) (audit : Bool) (g : Progress) : Except Fault TickResult := do
  let tick := g.machine.tick
  let due := g.pending.takeWhile fun j => decide (j.start ≤ tick)
  let pending := g.pending.dropWhile fun j => decide (j.start ≤ tick)
  let m ← admitAll due g.machine
  let (n, played, busy) ← play s m
  let done := due.map .forked ++ played
  if !busy && pending.isEmpty && n.liveCount == 0 then
    return ⟨⟨n, pending⟩, done, some .normal⟩
  let idle := if busy then [] else [Activity.idle]
  let done := done ++ idle ++ priorityChanges m n
  match if audit then n.audit else .ok () with
  | .error v => return ⟨⟨n, pending⟩, done, some (.ruleBroken v)⟩
  | .ok () => return ⟨⟨← n.advance, pending⟩, done, none⟩

end Simulation

end Uniprocessor
