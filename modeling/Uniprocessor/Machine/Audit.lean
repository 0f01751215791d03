import Uniprocessor.Machine
/-
  The rules that queues, statuses and ownership obey, and the check that names the first broken
  one.

  The check goes through the ready queue, then through the resources by position (first the
  wait-set, then the owner), and records where it has found whom.  Then it goes through the
  processes by pid and compares the record with their statuses.
-/

namespace Uniprocessor

/-- Where a queued process was found. -/
inductive Place where
  | readyQueue
  | waitSet (resource : ResourceId)
  deriving DecidableEq

/-- The words for a place. -/
def Place.text : Place → String
  | .readyQueue => "ready queue"
  | .waitSet r => "wait-set of " ++ r.text

/-- The ways in which queues, statuses and ownership can disagree. -/
inductive Violation where
  /-- A queue or an owner names a process that was never admitted. -/
  | unknownProcess (pid : Pid)
  /-- A process is a member of two queues, or twice of one. -/
  | duplicateMembership (pid : Pid)
  /-- A process is in a queue that its status does not allow. -/
  | statusMismatch (pid : Pid) (status : Status) (place : Place)
  /-- A process is not where its status requires. -/
  | misplaced (pid : Pid) (status : Status)
  /-- The owner of a resource waits for it. -/
  | ownerWaiting (pid : Pid) (resource : ResourceId)
  /-- A terminated process owns a resource. -/
  | terminatedOwner (pid : Pid) (resource : ResourceId)
  deriving DecidableEq

/-- The wording of a violation. -/
def Violation.message : Violation → String
  | .unknownProcess pid => "queue references unknown process " ++ pid.text
  | .duplicateMembership pid =>
    "process " ++ pid.text ++ " is a member of more than one queue"
  | .statusMismatch pid status place =>
    "process " ++ pid.text ++ " is " ++ status.text ++ " but queued in the " ++ place.text
  | .misplaced pid status =>
    "process " ++ pid.text ++ " is " ++ status.text ++ " but not where that status requires"
  | .ownerWaiting pid r => "process " ++ pid.text ++ " owns " ++ r.text ++ " and waits on it"
  | .terminatedOwner pid r => "terminated process " ++ pid.text ++ " still owns " ++ r.text

namespace Machine

/-- Checks that `p` is known and has the status that its place requires. -/
def checkMember (m : Machine) (p : Pid) (required : Status) (place : Place) :
    Except Violation Unit :=
  match m.process? p with
  | none => .error (.unknownProcess p)
  | some x =>
    if x.status = required then .ok () else .error (.statusMismatch p x.status place)

/-- Checks the rest of the ready queue and records its members. -/
def checkReady (m : Machine) (seen : PidMap Place) :
    List Pid → Except Violation (PidMap Place)
  | [] => .ok seen
  | p :: rest =>
    if seen.contains p then .error (.duplicateMembership p)
    else do
      m.checkMember p .ready .readyQueue
      m.checkReady (seen.insert p .readyQueue) rest

/-- Checks the rest of the wait-set of `r`, which `owner` holds, and records its members. -/
def checkWaiters (m : Machine) (r : ResourceId) (owner : Option Pid) (seen : PidMap Place) :
    List Pid → Except Violation (PidMap Place)
  | [] => .ok seen
  | p :: rest =>
    if seen.contains p then .error (.duplicateMembership p)
    else do
      m.checkMember p .waiting (.waitSet r)
      if owner = some p then .error (.ownerWaiting p r)
      else m.checkWaiters r owner (seen.insert p (.waitSet r)) rest

/-- Checks that the owner of `r` is alive. -/
def checkOwner (m : Machine) (r : ResourceId) : Option Pid → Except Violation Unit
  | none => .ok ()
  | some p =>
    match m.process? p with
    | none => .error (.unknownProcess p)
    | some x => if x.status = .terminated then .error (.terminatedOwner p r) else .ok ()

/-- Checks resources and records their waiters. -/
def checkResources (m : Machine) (seen : PidMap Place) :
    List (ResourceId × Resource) → Except Violation (PidMap Place)
  | [] => .ok seen
  | (r, x) :: rest => do
    let seen ← m.checkWaiters r x.owner seen x.waiters.pids
    m.checkOwner r x.owner
    m.checkResources seen rest

/-- Whether `p` was found where its status requires. -/
def placed (m : Machine) (p : Pid) : Status → Option Place → Bool
  | .ready, some .readyQueue | .waiting, some (.waitSet _) | .terminated, none => true
  | .running, none => m.current == some p
  | _, _ => false

/-- Checks that the processes were found where their statuses require. -/
def checkPlaced (m : Machine) (seen : PidMap Place) :
    List (Pid × ProcessRecord) → Except Violation Unit
  | [] => .ok ()
  | (p, x) :: rest =>
    if m.placed p x.status (seen.get? p) then m.checkPlaced seen rest
    else .error (.misplaced p x.status)

/-- Checks all rules. -/
def audit (m : Machine) : Except Violation Unit := do
  let seen ← m.checkReady .empty m.ready.pids
  let seen ← m.checkResources seen m.resources.indexed
  m.checkPlaced seen m.processes.entries

end Machine

end Uniprocessor
