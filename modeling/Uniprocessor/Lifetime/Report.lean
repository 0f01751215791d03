import Uniprocessor.Decimal.Fixed
import Uniprocessor.Lifetime
import Uniprocessor.Text.Pad
/-
  The report on the lifetimes of a run: a table with a line a process, and a line for each
  distribution.
-/

namespace Uniprocessor

namespace Lifetimes

/-- The heading of the table. -/
def heading : String :=
  "  pid  name         arrival  exit   ran   ready blocked turnaround response\n"

/-- A number that may be missing. -/
def optionalText : Option Nat → String
  | some n => Nat.repr n
  | none => "-"

/-- The line of a process.  The pid stands as it is; only the columns behind it are padded. -/
def row (t : Trace) (p : Pid) (l : Lifetime) : String :=
  p.text ++ "  " ++ Text.padRight 12 (t.nameOf p) ++
    " " ++ Text.padLeft 7 (Nat.repr l.arrival) ++
    " " ++ Text.padLeft 5 (optionalText l.exit) ++
    " " ++ Text.padLeft 5 (Nat.repr l.ran) ++
    " " ++ Text.padLeft 7 (Nat.repr l.readyWait) ++
    " " ++ Text.padLeft 7 (Nat.repr l.blocked) ++
    " " ++ Text.padLeft 10 (optionalText l.turnaround) ++
    " " ++ Text.padLeft 8 (optionalText l.response) ++ "\n"

/-- The line of a distribution. -/
def distributionRow (label : String) (d : Distribution) : String :=
  Text.padRight 11 label ++ " mean " ++ Decimal.fixed2 d.mean ++
    "  stddev " ++ Decimal.fixed2 d.deviation ++
    "  min " ++ Nat.repr d.min ++ "  max " ++ Nat.repr d.max ++ "\n"

/-- The report; the names of the processes come from the trace. -/
def report (s : Lifetimes) (t : Trace) : String :=
  heading ++ String.join (s.processes.entries.map fun (p, l) => row t p l) ++ "\n" ++
    distributionRow "turnaround" s.turnaround ++
    distributionRow "response" s.response ++
    distributionRow "ready wait" s.readyWait

end Lifetimes

end Uniprocessor
