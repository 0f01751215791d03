/-
  The quantities of a simulation.  Processes and resources are named by numbers of their own
  types, so that one cannot stand for the other.  Ticks (points and amounts of simulated time:
  ages, lifespans, durations) and priorities (larger is more urgent) are plain numbers.

  * `tickBound`, `pidBound`, `priorityBound` and `squareBound` are the sizes of the words that
    these numbers are stored in: every stored number lies below its bound.
  * `Limits` are the two priority bounds that a whole run shares.
-/

namespace Uniprocessor

/-- The name of a process, the same for its whole life. -/
structure Pid where
  val : Nat
  deriving DecidableEq, Inhabited

/-- A position in the resource table. -/
structure ResourceId where
  val : Nat
  deriving DecidableEq, Inhabited

/-- Ticks, resource positions and sums of ticks are 64-bit words. -/
def tickBound : Nat := 0x1_0000_0000_0000_0000

/-- Process names are 32-bit words. -/
def pidBound : Nat := 0x1_0000_0000

/-- Priorities are 32-bit words. -/
def priorityBound : Nat := 0x1_0000_0000

/-- Sums of squares of ticks are 128-bit words. -/
def squareBound : Nat := 0x1_0000_0000_0000_0000_0000_0000_0000_0000

theorem Pid.ext {p q : Pid} (h : p.val = q.val) : p = q := by
  cases p; cases q; exact congrArg Pid.mk h

theorem ResourceId.ext {r s : ResourceId} (h : r.val = s.val) : r = s := by
  cases r; cases s; exact congrArg ResourceId.mk h

/-- A process is written as its number. -/
def Pid.text (p : Pid) : String := Nat.repr p.val

/-- A resource is written as its number after an `R`. -/
def ResourceId.text (r : ResourceId) : String := "R" ++ Nat.repr r.val

/-- The priority bounds of a run. -/
structure Limits where
  /-- The priority of a process that holds a resource under the ceiling protocol. -/
  maxPriority : Nat
  /-- Aging leaves a priority alone once it has reached this. -/
  agingCap : Nat
  deriving DecidableEq

/-- The ceiling is 100, and aging stops one below it, so that an aged process never ties with
a holder at the ceiling. -/
def Limits.standard : Limits := { maxPriority := 100, agingCap := 99 }

theorem Limits.standard_agingCap_lt :
    Limits.standard.agingCap < Limits.standard.maxPriority := by decide

end Uniprocessor
