import Uniprocessor.Policy
import Uniprocessor.Protocol
/-
  Strategies: named pairs of a scheduling policy and a resource protocol, the unit that is
  selected for a run.
-/

namespace Uniprocessor

/-- The pairs of a policy and a protocol that a run can use. -/
inductive Strategy where
  | fifo
  | shortestJob
  | shortestRemaining
  | roundRobin
  | priority
  | priorityAging
  /-- Priority scheduling under the ceiling protocol. -/
  | priorityCeiling
  /-- Priority scheduling with priority inheritance. -/
  | priorityInheritance
  deriving DecidableEq

namespace Strategy

/-- The strategy that is used when none is named. -/
def standard : Strategy := .fifo

/-- All strategies, in the order in which they are listed. -/
def all : List Strategy :=
  [.fifo, .shortestJob, .shortestRemaining, .roundRobin, .priority, .priorityAging,
    .priorityCeiling, .priorityInheritance]

theorem mem_all (s : Strategy) : s ∈ all := by cases s <;> decide

/-- The key by which a strategy is looked up. -/
def key : Strategy → String
  | .fifo => "fifo"
  | .shortestJob => "sjf"
  | .shortestRemaining => "srtf"
  | .roundRobin => "rr"
  | .priority => "prio"
  | .priorityAging => "pa"
  | .priorityCeiling => "pcp"
  | .priorityInheritance => "pip"

/-- The name under which a strategy is reported. -/
def name : Strategy → String
  | .fifo => "FIFO"
  | .shortestJob => "Shortest-Job First"
  | .shortestRemaining => "Shortest Remaining Time First"
  | .roundRobin => "Round-Robin"
  | .priority => "Priority"
  | .priorityAging => "Priority + aging"
  | .priorityCeiling => "Priority + PCP Protocol"
  | .priorityInheritance => "Priority + PIP Protocol"

/-- The policy of a strategy. -/
def policy : Strategy → Policy
  | .fifo => .fifo
  | .shortestJob => .shortestJob
  | .shortestRemaining => .shortestRemaining
  | .roundRobin => .roundRobin
  | .priority | .priorityCeiling | .priorityInheritance => .priority
  | .priorityAging => .priorityAging

/-- The protocol of a strategy. -/
def protocol : Strategy → Protocol
  | .fifo | .shortestJob | .shortestRemaining | .roundRobin | .priorityAging => .mutex .fifo
  | .priority => .mutex .priority
  | .priorityCeiling => .ceiling .priority
  | .priorityInheritance => .inheritance

/-- Makes one scheduling decision. -/
def schedule (s : Strategy) (m : Machine) : Except Fault (Machine × Decision) :=
  s.policy.schedule m

/-- The process for which a call acts. -/
def caller (m : Machine) (call : ResourceCall) : Except Fault Pid :=
  match m.current with
  | some p => .ok p
  | none => .error (.noCurrentProcess call)

/-- The current process requests `r`. -/
def acquire (s : Strategy) (m : Machine) (r : ResourceId) : Except Fault (Machine × Reply) := do
  s.protocol.acquire m r (← caller m .acquire)

/-- The current process gives `r` back. -/
def release (s : Strategy) (m : Machine) (r : ResourceId) :
    Except Fault (Machine × Option Pid) := do
  s.protocol.release m r (← caller m .release)

/-- Priority bounds that a strategy refuses to run under. -/
structure LimitsRefused where
  strategy : Strategy
  limits : Limits
  deriving DecidableEq

/-- The wording of a refusal. -/
def LimitsRefused.message (e : LimitsRefused) : String :=
  e.strategy.name ++ ": aging cap " ++ Nat.repr e.limits.agingCap ++
    " exceeds maximum priority " ++ Nat.repr e.limits.maxPriority

/-- Checks the bounds of a machine before its first tick. -/
def checkLimits (s : Strategy) (m : Machine) : Except LimitsRefused Unit :=
  if m.limits.agingCap ≤ m.limits.maxPriority then .ok () else .error ⟨s, m.limits⟩

end Strategy

end Uniprocessor
