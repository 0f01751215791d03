import Uniprocessor.Scenario
import Uniprocessor.Scenario.Settings
/-
  Building scenarios step by step.

  A builder starts from the environment's settings and remembers the pid that the next job
  without a pid of its own will get: one above the largest pid so far, as long as there is one.
-/

namespace Uniprocessor

/-- A scenario under construction. -/
structure Builder where
  jobs : List Job
  resourceCount : Nat
  limits : Limits
  maxTicks : Nat
  audit : Bool
  /-- The pid of the next job that comes without one. -/
  nextPid : Pid

namespace Builder

/-- The size of the resource table where none is set. -/
def defaultResourceCount : Nat := 32

/-- A builder without jobs, with the settings of the environment and their warnings. -/
def start (env : Environment) : Environment.Reading Builder :=
  let ticks := Environment.readMaxTicks env.maxTicks
  let audit := Environment.readAudit env.audit
  { value := {
      jobs := []
      resourceCount := defaultResourceCount
      limits := .standard
      maxTicks := ticks.value
      audit := audit.value
      nextPid := ⟨1⟩ }
    log := ticks.log ++ audit.log }

/-- The pid behind `p`; the last one stays. -/
def pidAfter (p : Pid) : Pid := ⟨min (p.val + 1) (pidBound - 1)⟩

/-- Adds a job. -/
def addJob (b : Builder) (j : Job) : Builder :=
  { b with
    jobs := b.jobs ++ [j]
    nextPid := if b.nextPid.val ≤ j.pid.val then pidAfter j.pid else b.nextPid }

/-- Adds a job without holds that arrives at the first tick, under the next pid. -/
def addProcess (b : Builder) (name : String) (lifespan priority : Nat) : Builder :=
  b.addJob {
    pid := b.nextPid
    name := name
    start := 0
    lifespan := lifespan
    priority := priority
    holds := [] }

/-- Sets the size of the resource table. -/
def setResourceCount (b : Builder) (n : Nat) : Builder := { b with resourceCount := n }

/-- Sets the tick limit. -/
def setMaxTicks (b : Builder) (n : Nat) : Builder := { b with maxTicks := n }

/-- Sets the priority of holders under the ceiling protocol, and pulls the aging cap below
it. -/
def setMaxPriority (b : Builder) (n : Nat) : Builder :=
  { b with limits := { maxPriority := n, agingCap := min b.limits.agingCap (n - 1) } }

/-- Sets the priority at which aging stops. -/
def setAgingCap (b : Builder) (n : Nat) : Builder :=
  { b with limits := { b.limits with agingCap := n } }

/-- Switches the audit on or off. -/
def setAudit (b : Builder) (on : Bool) : Builder := { b with audit := on }

/-- The scenario that was built. -/
def build (b : Builder) : Scenario where
  jobs := b.jobs
  resourceCount := b.resourceCount
  limits := b.limits
  maxTicks := b.maxTicks
  audit := b.audit

/-- The next pid is above every pid so far, unless the last one was used. -/
theorem nextPid_addJob (b : Builder) (j : Job) (h : j.pid.val + 1 < pidBound) :
    j.pid.val < (b.addJob j).nextPid.val := by
  simp only [addJob]
  split
  · simp only [pidAfter]
    omega
  · omega

end Builder

end Uniprocessor
