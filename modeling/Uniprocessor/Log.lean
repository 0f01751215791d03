import Uniprocessor.Basic
import Uniprocessor.Text.Quoted
import Uniprocessor.Text.Stamp
/-
  Log entries and the lines that they are written as.

  An entry has a level, a message and named values, and the tick of the run in progress, if
  there is one.  `Entry.line` is the line of an entry, `Log.text` the lines of those entries
  that a threshold lets through.
-/

namespace Uniprocessor

/-- How severe an entry is. -/
inductive Level where
  | error
  | warn
  | info
  | debug
  | trace
  deriving DecidableEq

namespace Level

/-- The levels from the most to the least severe. -/
def all : List Level := [.error, .warn, .info, .debug, .trace]

/-- The position of a level, the most severe first. -/
def rank : Level → Nat
  | .error => 1
  | .warn => 2
  | .info => 3
  | .debug => 4
  | .trace => 5

/-- The word for a level. -/
def text : Level → String
  | .error => "ERROR"
  | .warn => "WARN"
  | .info => "INFO"
  | .debug => "DEBUG"
  | .trace => "TRACE"

/-- The number of the terminal colour of a level. -/
def colour : Level → String
  | .error => "31"
  | .warn => "33"
  | .info => "32"
  | .debug => "34"
  | .trace => "35"

/-- The level of a word, in any case. -/
def ofText? (s : String) : Option Level :=
  all.find? fun l => l.text.toLower == s.toLower

end Level

/-- A named value of an entry, as it is written. -/
structure LogField where
  name : String
  value : String

namespace LogField

/-- A field with a number. -/
def num (name : String) (n : Nat) : LogField := ⟨name, Nat.repr n⟩

/-- A field with a signed number. -/
def int (name : String) (n : Int) : LogField :=
  ⟨name, (if n < 0 then "-" else "") ++ Nat.repr n.natAbs⟩

/-- A field with a truth value. -/
def bool (name : String) (b : Bool) : LogField := ⟨name, if b then "true" else "false"⟩

/-- A field with a process. -/
def pid (name : String) (p : Pid) : LogField := ⟨name, p.text⟩

/-- A field with a resource, by its position. -/
def resource (name : String) (r : ResourceId) : LogField := ⟨name, Nat.repr r.val⟩

/-- A field with a text, written as it is. -/
def str (name : String) (s : String) : LogField := ⟨name, s⟩

end LogField

/-- What is logged at one point. -/
structure LogEntry where
  /-- The tick of the run in progress. -/
  tick : Option Nat
  level : Level
  message : String
  fields : List LogField

namespace LogEntry

/-- The stamp of an entry. -/
def stamp (e : LogEntry) : String :=
  match e.tick with
  | some t => Text.tickStamp t
  | none => Text.blankStamp

/-- The level in five columns, in the colour of the level if colours are on. -/
def levelText (coloured : Bool) (l : Level) : String :=
  let word := Text.padLeft 5 l.text
  if coloured then "\x1b[" ++ l.colour ++ "m" ++ word ++ "\x1b[0m" else word

/-- The named values behind the message. -/
def fieldsText (fields : List LogField) : String :=
  String.join (fields.map fun f => " " ++ f.name ++ "=" ++ f.value)

/-- The line of an entry. -/
def line (coloured : Bool) (e : LogEntry) : String :=
  "[" ++ e.stamp ++ "] " ++ levelText coloured e.level ++ " " ++ e.message ++
    fieldsText e.fields ++ "\n"

end LogEntry

/-- What a log lets through: nothing, or the entries of a level and all more severe ones. -/
abbrev Threshold := Option Level

/-- Whether an entry of a level passes. -/
def Threshold.passes (t : Threshold) (l : Level) : Bool :=
  match t with
  | none => false
  | some most => decide (l.rank ≤ most.rank)

/-- The lines of the entries that pass. -/
def logText (t : Threshold) (coloured : Bool) (log : List LogEntry) : String :=
  String.join ((log.filter fun e => Threshold.passes t e.level).map (·.line coloured))

end Uniprocessor
