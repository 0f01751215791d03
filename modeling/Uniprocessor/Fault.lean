import Uniprocessor.Basic
import Uniprocessor.Status
/-
  Faults: the ways in which a caller can break the rules of the simulation.  A fault stops the
  computation; no operation repairs one.

  * `Fault.message` is the wording of each.
  * `addTicks` and `subTicks` are exact or fault; `addTicks_eq_ok` and `subTicks_eq_ok` say when.
-/

namespace Uniprocessor

/-- The two calls that act on behalf of the current process. -/
inductive ResourceCall where
  | acquire
  | release
  deriving DecidableEq

/-- The word for a call in messages. -/
def ResourceCall.text : ResourceCall → String
  | .acquire => "acquire"
  | .release => "release"

/-- The ways in which the rules can be broken. -/
inductive Fault where
  /-- No process of this name was ever admitted. -/
  | unknownProcess (pid : Pid)
  /-- A process of this name is already there. -/
  | admittedTwice (pid : Pid)
  /-- The process is already a member of the queue. -/
  | alreadyQueued (pid : Pid)
  /-- The table has only `size` resources. -/
  | resourceOutOfRange (resource : ResourceId) (size : Nat)
  /-- A process requested what it already holds. -/
  | requestedOwn (pid : Pid) (resource : ResourceId)
  /-- A process gave back what it does not hold. -/
  | releasedForeign (pid : Pid) (resource : ResourceId) (owner : Option Pid)
  /-- A member of a wait-set was not waiting. -/
  | wokeNotWaiting (pid : Pid) (resource : ResourceId) (status : Status)
  /-- A member of the ready queue was not ready. -/
  | pickedNotReady (pid : Pid) (status : Status)
  /-- There is no current process to act for. -/
  | noCurrentProcess (call : ResourceCall)
  /-- A sum does not fit its word. -/
  | sumOverflow
  /-- A difference is negative. -/
  | differenceOverflow
  /-- The address space has no room for a table of so many resources. -/
  | tableTooLarge
  /-- More processes blocked within one tick than there are processes. -/
  | unsettledTick
  deriving DecidableEq

/-- The spelling of an optional process in messages. -/
def Fault.ownerText : Option Pid → String
  | none => "None"
  | some pid => "Some(Pid(" ++ pid.text ++ "))"

/-- The wording of a fault. -/
def Fault.message : Fault → String
  | .unknownProcess pid => "unknown process " ++ pid.text
  | .admittedTwice pid => "process " ++ pid.text ++ " admitted twice"
  | .alreadyQueued pid => "process " ++ pid.text ++ " is already a member of this queue"
  | .resourceOutOfRange r size =>
    "resource " ++ r.text ++ " out of range (table has " ++ Nat.repr size ++ ")"
  | .requestedOwn pid r =>
    "process " ++ pid.text ++ " requested " ++ r.text ++ " which it already owns"
  | .releasedForeign pid r owner =>
    "process " ++ pid.text ++ " released " ++ r.text ++ " owned by " ++ ownerText owner
  | .wokeNotWaiting pid r status =>
    "waiter " ++ pid.text ++ " on " ++ r.text ++ " is " ++ status.text ++ ", not Wait"
  | .pickedNotReady pid status =>
    "picked process " ++ pid.text ++ " is " ++ status.text ++ ", not Ready"
  | .noCurrentProcess call => call.text ++ " called with no current process"
  | .sumOverflow => "attempt to add with overflow"
  | .differenceOverflow => "attempt to subtract with overflow"
  | .tableTooLarge => "capacity overflow"
  | .unsettledTick => "more processes blocked in one tick than were admitted"

/-- The sum of two amounts of time, if it fits a word. -/
def addTicks (a b : Nat) : Except Fault Nat :=
  if a + b < tickBound then .ok (a + b) else .error .sumOverflow

/-- The difference of two amounts of time, if there is one. -/
def subTicks (a b : Nat) : Except Fault Nat :=
  if b ≤ a then .ok (a - b) else .error .differenceOverflow

theorem addTicks_eq_ok {a b c : Nat} :
    addTicks a b = .ok c ↔ a + b < tickBound ∧ c = a + b := by
  unfold addTicks
  split <;> simp only [Except.ok.injEq, reduceCtorEq, false_iff] <;> omega

theorem subTicks_eq_ok {a b c : Nat} : subTicks a b = .ok c ↔ b ≤ a ∧ c = a - b := by
  unfold subTicks
  split <;> simp only [Except.ok.injEq, reduceCtorEq, false_iff] <;> omega

end Uniprocessor
