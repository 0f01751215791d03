import Uniprocessor.Scenario.Builder
import Uniprocessor.Scenario.Comment
import Uniprocessor.Scenario.File
import Uniprocessor.Strategy.Lookup
/-
  Loading a scenario from a text: comments are taken out, a parser reads the rest, defaults are
  filled in, and the scenario is checked.
-/

namespace Uniprocessor

/-- The reasons for which a text gives no scenario. -/
inductive LoadError where
  /-- The text is not well formed or has fields that do not fit. -/
  | malformed (error : Json.Error)
  | unknownStrategy (error : UnknownStrategy)
  /-- The text describes a scenario that cannot be played. -/
  | invalid (flaw : Flaw)

namespace LoadError

/-- The wording of the cause. -/
def cause : LoadError → String
  | .malformed e => e.message
  | .unknownStrategy e => e.message
  | .invalid f => f.message

/-- The wording of the error. -/
def message : LoadError → String
  | .malformed e => "JSON parse error: " ++ e.message
  | .unknownStrategy e => e.message
  | .invalid f => "invalid scenario: " ++ f.message

end LoadError

/-- A scenario without flaws, and the strategy that its text asks for. -/
structure Loaded where
  scenario : Scenario
  strategy : Option Strategy

namespace Loaded

/-- The position `i`, counted from one, in the word of a pid. -/
def pidAt (i : Nat) : Except Fault Pid :=
  if i % pidBound + 1 < pidBound then .ok ⟨i % pidBound + 1⟩ else .error .sumOverflow

/-- The job of the entry at position `i`.  A process without a pid gets its position, counted
from one, and a process without a name gets `p` and its pid. -/
def jobOf (i : Nat) (e : File.ProcessEntry) : Except Fault Job := do
  -- the position is counted for a process with a pid of its own, too
  let position ← pidAt i
  let pid : Pid := ⟨e.pid.getD position.val⟩
  return {
    pid := pid
    name := e.name.getD ("p" ++ pid.text)
    start := e.start
    lifespan := e.lifespan
    priority := e.priority
    holds := e.holds.map fun h => ⟨⟨h.resource⟩, h.since, h.duration⟩ }

/-- The builder after the top-level fields that were given. -/
def configure (b : Builder) (c : File.Contents) : Builder :=
  let b := match c.resources with | some n => b.setResourceCount n | none => b
  let b := match c.maxTicks with | some n => b.setMaxTicks n | none => b
  let b := match c.maxPriority with | some n => b.setMaxPriority n | none => b
  let b := match c.agingCap with | some n => b.setAgingCap n | none => b
  match c.audit with | some on => b.setAudit on | none => b

/-- The builder after the processes, of which the first is at position `i`. -/
def addEntries (b : Builder) (i : Nat) : List File.ProcessEntry → Except Fault Builder
  | [] => .ok b
  | e :: rest => do addEntries (b.addJob (← jobOf i e)) (i + 1) rest

/-- The builder after all fields. -/
def assemble (b : Builder) (c : File.Contents) : Except Fault Builder :=
  addEntries (configure b c) 0 c.processes

/-- The strategy that a file asks for. -/
def strategyOf : Option String → Except UnknownStrategy (Option Strategy)
  | none => .ok none
  | some name => (Strategy.find name).map some

/-- The outcome of loading, with the warnings that the settings gave. -/
structure Outcome where
  result : Except LoadError Loaded
  log : List LogEntry

/-- The outcome of a text in which nothing is a comment. -/
def interpret (parse : File.Parser) (env : Environment) (s : List Char) :
    Except Fault Outcome :=
  match parse s with
  | .error e => .ok ⟨.error (.malformed e), []⟩
  | .ok contents =>
    match strategyOf contents.strategy with
    | .error e => .ok ⟨.error (.unknownStrategy e), []⟩
    | .ok strategy => do
      let start := Builder.start env
      let scenario := (← assemble start.value contents).build
      match ← scenario.flaw? with
      | some f => return ⟨.error (.invalid f), start.log⟩
      | none => return ⟨.ok ⟨scenario, strategy⟩, start.log⟩

/-- Loads a scenario from a text, which the parser gets without its comments. -/
def loadWith (parse : File.Parser) (env : Environment) (text : String) :
    Except Fault Outcome :=
  interpret parse env (Comment.strip text.toList)

end Loaded

end Uniprocessor
