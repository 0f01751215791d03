/-
  The four states of a process.
-/

namespace Uniprocessor

/-- What a process is doing. -/
inductive Status where
  /-- Able to run, and a member of the ready queue. -/
  | ready
  /-- On the CPU. -/
  | running
  /-- Blocked in the wait-set of a resource. -/
  | waiting
  /-- Has used up its lifespan. -/
  | terminated
  deriving DecidableEq, Inhabited

/-- The word for a state in reports. -/
def Status.text : Status → String
  | .ready => "Ready"
  | .running => "Running"
  | .waiting => "Wait"
  | .terminated => "Terminated"

end Uniprocessor
