import Uniprocessor.Fault
/-
  Jobs.  A job says what a process will do before it arrives: how much CPU time it needs, how
  urgent it is, when it arrives and which resources it holds at which age.
-/

namespace Uniprocessor

/-- A stretch of a job's CPU time during which it holds a resource: requested at the age
`since` and given back `duration` ticks of CPU time later. -/
structure Hold where
  resource : ResourceId
  since : Nat
  duration : Nat
  deriving DecidableEq

/-- The age at which the resource is given back. -/
def Hold.stop (h : Hold) : Nat := h.since + h.duration

/-- The same age, if it fits a word. -/
def Hold.releaseAge (h : Hold) : Except Fault Nat := addTicks h.since h.duration

theorem Hold.releaseAge_eq_ok {h : Hold} {t : Nat} :
    h.releaseAge = .ok t ↔ h.stop < tickBound ∧ t = h.stop :=
  addTicks_eq_ok

/-- What a process will do. -/
structure Job where
  pid : Pid
  name : String
  /-- The tick of its arrival. -/
  start : Nat
  /-- The CPU time that it needs. -/
  lifespan : Nat
  priority : Nat
  /-- What it holds, in the order in which it asks when several are due at one age. -/
  holds : List Hold
  deriving DecidableEq

end Uniprocessor
