import Uniprocessor.Json.Error
/-
  Scenario files: what a file, its processes and their holds say, as they are written.  Only a
  missing start, priority or list of holds has been filled in.

  How a text is taken apart is left to a `Parser`.
-/

namespace Uniprocessor

namespace File

/-- A hold as written. -/
structure HoldEntry where
  resource : Nat
  since : Nat
  duration : Nat

/-- A process as written. -/
structure ProcessEntry where
  pid : Option Nat
  name : Option String
  start : Nat
  lifespan : Nat
  priority : Nat
  holds : List HoldEntry

/-- A scenario as written. -/
structure Contents where
  resources : Option Nat
  maxTicks : Option Nat
  maxPriority : Option Nat
  agingCap : Option Nat
  audit : Option Bool
  strategy : Option String
  processes : List ProcessEntry

/-- What reads the text of a file. -/
abbrev Parser := List Char → Except Json.Error Contents

end File

end Uniprocessor
