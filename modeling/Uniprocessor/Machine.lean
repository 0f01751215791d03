import Uniprocessor.PidMap
import Uniprocessor.ProcessRecord
import Uniprocessor.Resource
/-
  The state of a uniprocessor: every admitted process, the ready queue, the resource table, the
  process on the CPU and the time.

  The operations move processes between the ready queue and the wait-sets.  Each is exact about
  what it touches: `fork` adds a process at the tail of the ready queue, `makeReady` and
  `blockOn` change one status and append to one queue, `update` changes one process.
-/

namespace Uniprocessor

/-- The state of a uniprocessor. -/
structure Machine where
  /-- Every admitted process, the terminated ones included. -/
  processes : PidMap ProcessRecord
  /-- The processes that are ready to run, in the order of their arrival there. -/
  ready : Queue
  resources : ResourceTable
  /-- What the last scheduling decision put on the CPU. -/
  current : Option Pid
  limits : Limits
  /-- The time. -/
  tick : Nat
  deriving DecidableEq

namespace Machine

/-- The state before the first tick. -/
def start (resourceCount : Nat) (limits : Limits) : Machine where
  processes := .empty
  ready := .empty
  resources := .ofSize resourceCount
  current := none
  limits := limits
  tick := 0

/-- The same state, if the resource table can be addressed. -/
def allocate (resourceCount : Nat) (limits : Limits) : Except Fault Machine :=
  if ResourceTable.CanAddress resourceCount then .ok (start resourceCount limits)
  else .error .tableTooLarge

/-- The process named `p`, if it was admitted. -/
def process? (m : Machine) (p : Pid) : Option ProcessRecord := m.processes.get? p

/-- The process named `p`; a name that was never admitted is a fault. -/
def process (m : Machine) (p : Pid) : Except Fault ProcessRecord :=
  match m.process? p with
  | some x => .ok x
  | none => .error (.unknownProcess p)

/-- The process on the CPU. -/
def currentProcess? (m : Machine) : Option (Pid × ProcessRecord) :=
  m.current.bind fun p => (m.process? p).map fun x => (p, x)

/-- Changes the process named `p`. -/
def update (m : Machine) (p : Pid) (f : ProcessRecord → ProcessRecord) : Except Fault Machine := do
  let _ ← m.process p
  return { m with processes := m.processes.adjust p f }

/-- Lets a job arrive: a new process at the tail of the ready queue. -/
def fork (m : Machine) (j : Job) : Except Fault Machine :=
  if m.processes.contains j.pid then .error (.admittedTwice j.pid)
  else do
    let ready ← m.ready.push j.pid
    return { m with processes := m.processes.insert j.pid (.ofJob j), ready := ready }

/-- Marks `p` ready and appends it to the ready queue. -/
def makeReady (m : Machine) (p : Pid) : Except Fault Machine := do
  let m ← m.update p fun x => { x with status := .ready }
  return { m with ready := ← m.ready.push p }

/-- Marks `p` waiting and appends it to the wait-set of `r`. -/
def blockOn (m : Machine) (p : Pid) (r : ResourceId) : Except Fault Machine := do
  let m ← m.update p fun x => { x with status := .waiting }
  let resources ← m.resources.update r fun x => do
    return { x with waiters := ← x.waiters.push p }
  return { m with resources := resources }

/-- Lets `p` use the CPU for one tick. -/
def grow (m : Machine) (p : Pid) : Except Fault (Machine × Nat) := do
  let x ← m.process p
  let age ← addTicks x.age 1
  return ({ m with processes := m.processes.adjust p fun x => { x with age := age } }, age)

/-- Lets the time pass by one tick. -/
def advance (m : Machine) : Except Fault Machine := do
  return { m with tick := ← addTicks m.tick 1 }

/-- The number of admitted processes that have not terminated. -/
def liveCount (m : Machine) : Nat :=
  m.processes.values.countP fun x => x.status ≠ .terminated

/-- The members of a queue with their processes; the first unknown one is a fault. -/
def records (m : Machine) : List Pid → Except Fault (List (Pid × ProcessRecord))
  | [] => .ok []
  | p :: rest => do
    let x ← m.process p
    let xs ← m.records rest
    return (p, x) :: xs

theorem allocate_eq_ok {n : Nat} {limits : Limits} {m : Machine} :
    allocate n limits = .ok m ↔ ResourceTable.CanAddress n ∧ m = start n limits := by
  unfold allocate
  split <;> simp_all [eq_comm]

theorem process_eq_ok {m : Machine} {p : Pid} {x : ProcessRecord} :
    m.process p = .ok x ↔ m.process? p = some x := by
  unfold process
  split <;> simp_all

theorem update_eq_ok {m n : Machine} {p : Pid} {f : ProcessRecord → ProcessRecord} :
    m.update p f = .ok n ↔
      (m.process? p).isSome ∧ n = { m with processes := m.processes.adjust p f } := by
  unfold update process
  cases h : m.process? p <;>
    simp [bind, Except.bind, pure, Except.pure, eq_comm]

end Machine

end Uniprocessor
