import Uniprocessor.Job
/-
  Scenarios: the jobs of a run with its resources and limits, and the check that a scenario can
  be played.

  * `Scenario.flaw?` goes through the jobs in order and names the first flaw.  It adds the ends
    of holds in words, so that it can also end in a fault.
  * `Scenario.InRange` says that all numbers of a scenario fit their words.
-/

namespace Uniprocessor

/-- The jobs of a run with its resources and limits. -/
structure Scenario where
  jobs : List Job
  resourceCount : Nat
  limits : Limits
  /-- The run is cut off at this tick. -/
  maxTicks : Nat
  /-- Whether the rules of the machine are checked after every tick. -/
  audit : Bool
  deriving DecidableEq

/-- The reasons for which a scenario is refused. -/
inductive Flaw where
  | duplicatePid (pid : Pid)
  | zeroLifespan (pid : Pid)
  | resourceOutOfRange (pid : Pid) (resource : ResourceId) (resourceCount : Nat)
  | zeroDuration (pid : Pid) (resource : ResourceId)
  /-- The hold would outlive the process. -/
  | heldPastLifespan (pid : Pid) (resource : ResourceId)
  /-- The process would hold the resource twice at one age. -/
  | overlappingHolds (pid : Pid) (resource : ResourceId)
  | agingCapAboveMax (limits : Limits)
  deriving DecidableEq

/-- The wording of a flaw. -/
def Flaw.message : Flaw → String
  | .duplicatePid pid => "pid " ++ pid.text ++ " defined twice"
  | .zeroLifespan pid => "process " ++ pid.text ++ " has zero lifespan"
  | .resourceOutOfRange pid r n =>
    "process " ++ pid.text ++ " uses " ++ r.text ++ " but only " ++ Nat.repr n ++
      " resources exist"
  | .zeroDuration pid r => "process " ++ pid.text ++ " holds " ++ r.text ++ " for zero ticks"
  | .heldPastLifespan pid r =>
    "process " ++ pid.text ++ " would still hold " ++ r.text ++ " when it exits"
  | .overlappingHolds pid r =>
    "process " ++ pid.text ++ " has overlapping holds on " ++ r.text
  | .agingCapAboveMax limits =>
    "aging cap " ++ Nat.repr limits.agingCap ++ " exceeds maximum priority " ++
      Nat.repr limits.maxPriority

/-- Whether two holds are of one resource and share an age.  The ends are only computed as far
as the answer needs them. -/
def Hold.overlaps (a b : Hold) : Except Fault Bool :=
  if a.resource ≠ b.resource then .ok false
  else do
    let stopB ← b.releaseAge
    if stopB ≤ a.since then return false
    let stopA ← a.releaseAge
    return decide (b.since < stopA)

/-- Whether a hold overlaps one of those behind it. -/
def Hold.overlapsAny (a : Hold) : List Hold → Except Fault Bool
  | [] => .ok false
  | b :: rest => do
    if ← a.overlaps b then return true
    a.overlapsAny rest

namespace Job

/-- The first hold that is flawed in itself. -/
def holdFlaw? (j : Job) (resourceCount : Nat) : List Hold → Except Fault (Option Flaw)
  | [] => .ok none
  | h :: rest =>
    if resourceCount ≤ h.resource.val then
      .ok (some (.resourceOutOfRange j.pid h.resource resourceCount))
    else if h.duration = 0 then .ok (some (.zeroDuration j.pid h.resource))
    else do
      let stop ← h.releaseAge
      if j.lifespan < stop then return some (.heldPastLifespan j.pid h.resource)
      j.holdFlaw? resourceCount rest

/-- The first hold that overlaps a later one. -/
def overlapFlaw? (j : Job) : List Hold → Except Fault (Option Flaw)
  | [] => .ok none
  | h :: rest => do
    if ← h.overlapsAny rest then return some (.overlappingHolds j.pid h.resource)
    j.overlapFlaw? rest

/-- The first flaw of a job. -/
def flaw? (j : Job) (resourceCount : Nat) : Except Fault (Option Flaw) :=
  if j.lifespan = 0 then .ok (some (.zeroLifespan j.pid))
  else do
    match ← j.holdFlaw? resourceCount j.holds with
    | some f => return some f
    | none => j.overlapFlaw? j.holds

end Job

namespace Scenario

/-- The first flaw of the jobs behind those named `seen`. -/
def jobsFlaw? (resourceCount : Nat) (seen : List Pid) : List Job → Except Fault (Option Flaw)
  | [] => .ok none
  | j :: rest =>
    if j.pid ∈ seen then .ok (some (.duplicatePid j.pid))
    else do
      match ← j.flaw? resourceCount with
      | some f => return some f
      | none => jobsFlaw? resourceCount (j.pid :: seen) rest

/-- The first flaw of a scenario, if it has one. -/
def flaw? (s : Scenario) : Except Fault (Option Flaw) :=
  if s.limits.maxPriority < s.limits.agingCap then .ok (some (.agingCapAboveMax s.limits))
  else jobsFlaw? s.resourceCount [] s.jobs

end Scenario

/-- The numbers of a hold fit their words. -/
def Hold.InRange (h : Hold) : Prop :=
  h.resource.val < tickBound ∧ h.since < tickBound ∧ h.duration < tickBound

/-- The numbers of a job fit their words. -/
def Job.InRange (j : Job) : Prop :=
  j.pid.val < pidBound ∧ j.start < tickBound ∧ j.lifespan < tickBound ∧
    j.priority < priorityBound ∧ ∀ h ∈ j.holds, h.InRange

/-- The numbers of a scenario fit their words. -/
def Scenario.InRange (s : Scenario) : Prop :=
  (∀ j ∈ s.jobs, j.InRange) ∧ s.resourceCount < tickBound ∧ s.maxTicks < tickBound ∧
    s.limits.maxPriority < priorityBound ∧ s.limits.agingCap < priorityBound

instance (h : Hold) : Decidable h.InRange := by unfold Hold.InRange; infer_instance

instance (j : Job) : Decidable j.InRange := by unfold Job.InRange; infer_instance

instance (s : Scenario) : Decidable s.InRange := by unfold Scenario.InRange; infer_instance

end Uniprocessor
