import Uniprocessor.Json.Record
import Uniprocessor.Scenario.Load
/-
  The parser of the program: the layout of scenario files, that is the fields of a file, of its
  processes and of their holds, and loading with this parser.
-/

namespace Uniprocessor

namespace File

open Json

/-- Reads a number of 64 bits. -/
def readTicks : Reader Nat := readNatural .word64 tickBound

/-- Reads a position in the resource table, or its size. -/
def readSize : Reader Nat := readNatural .size tickBound

/-- Reads a number of 32 bits. -/
def readWord32 : Reader Nat := readNatural .word32 priorityBound

/-- A field that is kept by `set` and looked up by `get`. -/
def entry {δ α : Type} (name : String) (get : δ → Option α) (set : δ → α → δ)
    (read : Reader α) (inObject inList : Bool) : Json.Field δ where
  name := name
  isSet d := (get d).isSome
  read d s := do
    let (a, rest) ← read s
    return (set d a, rest)
  inObject := inObject
  inList := inList

/-- What has been read of a hold. -/
structure HoldDraft where
  resource : Option Nat
  since : Option Nat
  duration : Option Nat

/-- The fields of a hold, all of them required. -/
def holdShape : Shape HoldDraft where
  name := "HoldEntry"
  fields := [
    entry "resource" (·.resource) (fun d a => { d with resource := some a }) readSize true true,
    entry "at" (·.since) (fun d a => { d with since := some a }) readTicks true true,
    entry "duration" (·.duration) (fun d a => { d with duration := some a }) readTicks true true]
  blank := ⟨none, none, none⟩

/-- Reads a hold. -/
def readHold : Reader HoldEntry := fun s => do
  let (d, rest) ← holdShape.read s
  return (⟨d.resource.getD 0, d.since.getD 0, d.duration.getD 0⟩, rest)

/-- What has been read of a process. -/
structure ProcessDraft where
  pid : Option (Option Nat)
  name : Option (Option String)
  start : Option Nat
  lifespan : Option Nat
  priority : Option Nat
  holds : Option (List HoldEntry)

/-- The fields of a process; only the lifespan is required in an object. -/
def processShape : Shape ProcessDraft where
  name := "ProcessEntry"
  fields := [
    entry "pid" (·.pid) (fun d a => { d with pid := some a }) (readOptional readWord32)
      false true,
    entry "name" (·.name) (fun d a => { d with name := some a }) (readOptional readText)
      false true,
    entry "start" (·.start) (fun d a => { d with start := some a }) readTicks false false,
    entry "lifespan" (·.lifespan) (fun d a => { d with lifespan := some a }) readTicks
      true true,
    entry "prio" (·.priority) (fun d a => { d with priority := some a }) readWord32
      false false,
    entry "resources" (·.holds) (fun d a => { d with holds := some a }) (readList readHold)
      false false]
  blank := ⟨none, none, none, none, none, none⟩

/-- Reads a process. -/
def readProcess : Reader ProcessEntry := fun s => do
  let (d, rest) ← processShape.read s
  return (⟨d.pid.join, d.name.join, d.start.getD 0, d.lifespan.getD 0, d.priority.getD 0,
    d.holds.getD []⟩, rest)

/-- What has been read of a file. -/
structure Draft where
  resources : Option (Option Nat)
  maxTicks : Option (Option Nat)
  maxPriority : Option (Option Nat)
  agingCap : Option (Option Nat)
  audit : Option (Option Bool)
  strategy : Option (Option String)
  processes : Option (List ProcessEntry)

/-- The fields of a file; only the processes are required in an object. -/
def shape : Shape Draft where
  name := "ScenarioFile"
  fields := [
    entry "resources" (·.resources) (fun d a => { d with resources := some a })
      (readOptional readSize) false true,
    entry "max_ticks" (·.maxTicks) (fun d a => { d with maxTicks := some a })
      (readOptional readTicks) false true,
    entry "max_prio" (·.maxPriority) (fun d a => { d with maxPriority := some a })
      (readOptional readWord32) false true,
    entry "aging_cap" (·.agingCap) (fun d a => { d with agingCap := some a })
      (readOptional readWord32) false true,
    entry "audit" (·.audit) (fun d a => { d with audit := some a })
      (readOptional readBoolean) false true,
    entry "strategy" (·.strategy) (fun d a => { d with strategy := some a })
      (readOptional readText) false true,
    entry "processes" (·.processes) (fun d a => { d with processes := some a })
      (readList readProcess) true true]
  blank := ⟨none, none, none, none, none, none, none⟩

/-- Reads a file. -/
def readContents : Reader Contents := fun s => do
  let (d, rest) ← shape.read s
  return (⟨d.resources.join, d.maxTicks.join, d.maxPriority.join, d.agingCap.join,
    d.audit.join, d.strategy.join, d.processes.getD []⟩, rest)

/-- The contents of a text. -/
def parse : Parser := readWhole readContents

end File

/-- Loads a scenario. -/
def Loaded.load (env : Environment) (text : String) : Except Fault Outcome :=
  loadWith File.parse env text

end Uniprocessor
