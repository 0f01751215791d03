import Uniprocessor.Log
import Uniprocessor.Text.Numeral
/-
  Settings from the environment: the tick limit and the audit switch.

  A setting that cannot be read is reported by a warning and falls back to its default.
-/

namespace Uniprocessor

/-- The texts of the settings; an absent one was not given. -/
structure Environment where
  maxTicks : Option String
  audit : Option String

namespace Environment

/-- The environment without settings. -/
def empty : Environment := ⟨none, none⟩

/-- The tick limit where none is set. -/
def defaultMaxTicks : Nat := 100000

/-- A value with the warnings that reading it gave. -/
structure Reading (α : Type) where
  value : α
  log : List LogEntry

/-- A value that gave no warning. -/
def Reading.quiet {α : Type} (a : α) : Reading α := ⟨a, []⟩

/-- The warning that a setting could not be read. -/
def warning (message value : String) : LogEntry where
  tick := none
  level := .warn
  message := message
  fields := [.str "value" value]

/-- The tick limit that a text sets: a blank text sets none. -/
def readMaxTicks : Option String → Reading Nat
  | none => .quiet defaultMaxTicks
  | some s =>
    let digits := Text.trim s.toList
    if digits = [] then .quiet defaultMaxTicks
    else match Text.number? tickBound digits with
      | some n => .quiet n
      | none =>
        ⟨defaultMaxTicks,
          [warning "SCHED_SIM_MAX_TICKS: expected a tick count, using default"
            (String.ofList digits)]⟩

/-- Whether a text leaves the audit on: only `0` turns it off. -/
def readAudit : Option String → Reading Bool
  | none => .quiet true
  | some s =>
    if s = "0" then .quiet false
    else if s = "" ∨ s = "1" then .quiet true
    else ⟨true, [warning "SCHED_SIM_AUDIT: expected 0 or 1, auditing" s]⟩

end Environment

end Uniprocessor
