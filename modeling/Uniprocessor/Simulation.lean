import Uniprocessor.Simulation.Tick
/-
  Whole runs: a scenario played under a strategy, from the first tick to its exit.

  `simulate` refuses a scenario with a flaw, plays any other one, and answers with the trace
  and the log.
-/

namespace Uniprocessor

/-- The words for an exit in the log and in error messages. -/
def Exit.text : Exit → String
  | .normal => "Normal"
  | .tickLimit t => "TickLimit \x7b ticks: " ++ Nat.repr t ++ " \x7d"
  | .invalidScenario f => "InvalidScenario(" ++ Text.quoted f.message ++ ")"
  | .limitsRefused e => "InitFailed(" ++ Text.quoted e.message ++ ")"
  | .ruleBroken v => "InvariantViolation(" ++ Text.quoted v.message ++ ")"

namespace Simulation

/-- Puts a job in front of the first one that does not arrive before it. -/
def arrive (j : Job) : List Job → List Job
  | [] => [j]
  | k :: rest => if j.start ≤ k.start then j :: k :: rest else k :: arrive j rest

/-- The jobs in the order of their arrival, those of one tick in the order of definition. -/
def arrivals (jobs : List Job) : List Job := jobs.foldr arrive []

theorem arrive_perm (j : Job) (l : List Job) : (arrive j l).Perm (j :: l) := by
  induction l with
  | nil => exact List.Perm.refl _
  | cons k l ih =>
    simp only [arrive]
    split
    · exact List.Perm.refl _
    · exact (ih.cons k).trans (List.Perm.swap j k l)

theorem arrivals_perm (l : List Job) : (arrivals l).Perm l := by
  induction l with
  | nil => exact List.Perm.refl _
  | cons j l ih => exact (arrive_perm j _).trans (ih.cons j)

theorem arrive_sorted {j : Job} {l : List Job} (h : l.Pairwise (·.start ≤ ·.start)) :
    (arrive j l).Pairwise (·.start ≤ ·.start) := by
  induction l with
  | nil => simp [arrive]
  | cons k l ih =>
    obtain ⟨hk, hl⟩ := List.pairwise_cons.1 h
    simp only [arrive]
    split
    · next hjk =>
      refine List.pairwise_cons.2 ⟨fun a ha => ?_, h⟩
      rcases List.mem_cons.1 ha with rfl | ha
      · exact hjk
      · exact Nat.le_trans hjk (hk a ha)
    · next hjk =>
      refine List.pairwise_cons.2 ⟨fun a ha => ?_, ih hl⟩
      rcases List.mem_cons.1 ((arrive_perm j l).mem_iff.1 ha) with rfl | ha
      · omega
      · exact hk a ha

theorem arrivals_sorted (l : List Job) : (arrivals l).Pairwise (·.start ≤ ·.start) := by
  induction l with
  | nil => exact List.Pairwise.nil
  | cons j l ih => exact arrive_sorted ih

/-- The state before the first tick. -/
def opening (c : Scenario) : Progress where
  machine := .start c.resourceCount c.limits
  pending := arrivals c.jobs

/-- A run that has come to its exit. -/
structure Finished where
  machine : Machine
  /-- What happened, in order. -/
  journal : Journal
  exit : Exit

/-- Plays at most `ticks` more ticks of a run that has written `journal` so far. -/
def advance (s : Strategy) (audit : Bool) (ticks : Nat) (g : Progress)
    (journal : Array (Nat × Activity)) : Except Fault Finished :=
  match ticks with
  | 0 => .ok ⟨g.machine, journal.toList, .tickLimit g.machine.tick⟩
  | ticks + 1 => do
    let tick := g.machine.tick
    let r ← step s audit g
    let journal := journal ++ r.done.map fun a => (tick, a)
    match r.exit with
    | some e => return ⟨r.after.machine, journal.toList, e⟩
    | none => advance s audit ticks r.after journal

/-- Plays a scenario to its exit. -/
def playAll (s : Strategy) (c : Scenario) : Except Fault Finished :=
  advance s c.audit c.maxTicks (opening c) #[]

/-- The names of the processes of a scenario. -/
def namesOf (c : Scenario) : List (Pid × String) := c.jobs.map fun j => (j.pid, j.name)

/-- The trace of a played scenario. -/
def traceOf (c : Scenario) (f : Finished) : Trace where
  events := f.journal.events
  names := namesOf c
  endTick := f.machine.tick
  exit := f.exit

/-- The list of pids in the log. -/
def pidListText (pids : List Pid) : String :=
  "[" ++ ", ".intercalate (pids.map fun p => "Pid(" ++ p.text ++ ")") ++ "]"

/-- The warnings about one resource that is held or waited for at the end of a run. -/
def leftoverLines (tick : Option Nat) (r : ResourceId) (x : Resource) : List LogEntry :=
  (match x.owner with
    | some p => [⟨tick, .warn, "resource still owned at end of run",
        [.resource "resource" r, .pid "owner" p]⟩]
    | none => []) ++
  (if x.waiters.isEmpty then []
    else [⟨tick, .warn, "processes still blocked at end of run",
      [.resource "resource" r, .str "waiters" (pidListText x.waiters.pids)]⟩])

/-- The warnings about all resources at the end of a run. -/
def leftovers (tick : Option Nat) (m : Machine) : List LogEntry :=
  m.resources.indexed.flatMap fun (r, x) => leftoverLines tick r x

/-- The entry at the start of a run. -/
def startLine (s : Strategy) (c : Scenario) : LogEntry where
  tick := none
  level := .info
  message := "simulation start"
  fields := [.str "strategy" s.name, .num "processes" c.jobs.length,
    .num "resources" c.resourceCount]

/-- The entry for a rule that the audit found broken. -/
def auditLines (tick : Nat) : Exit → List LogEntry
  | .ruleBroken v => [⟨some tick, .error, "invariant violated", [.str "v" v.message]⟩]
  | _ => []

/-- The entry at the end of a run. -/
def endLine (tick : Nat) (exit : Exit) : LogEntry where
  tick := some tick
  level := .info
  message := "simulation end"
  fields := [.str "exit" exit.text, .num "ticks" tick]

/-- The log of a played scenario. -/
def logOf (s : Strategy) (c : Scenario) (f : Finished) : List LogEntry :=
  let tick := f.machine.tick
  [startLine s c] ++ f.journal.log s.policy ++ auditLines tick f.exit ++
    leftovers (some tick) f.machine ++ [endLine tick f.exit]

end Simulation

/-- A run: what it did and what it logged. -/
structure Run where
  trace : Trace
  log : List LogEntry

namespace Run

/-- A run that ended before its first tick. -/
def refused (c : Scenario) (exit : Exit) (entry : LogEntry) : Run where
  trace := { events := [], names := Simulation.namesOf c, endTick := 0, exit := exit }
  log := [entry]

/-- The run of a scenario with a flaw. -/
def invalid (c : Scenario) (f : Flaw) : Run :=
  refused c (.invalidScenario f) ⟨none, .error, "invalid scenario", [.str "e" f.message]⟩

/-- The run of a scenario whose priority bounds the strategy refuses. -/
def limitsRefused (c : Scenario) (e : Strategy.LimitsRefused) : Run :=
  refused c (.limitsRefused e)
    ⟨none, .error, "strategy initialization failed", [.str "error" e.message]⟩

end Run

/-- Plays a scenario under a strategy. -/
def simulate (s : Strategy) (c : Scenario) : Except Fault Run := do
  match ← c.flaw? with
  | some f => return .invalid c f
  | none =>
    let m ← Machine.allocate c.resourceCount c.limits
    match s.checkLimits m with
    | .error e => return .limitsRefused c e
    | .ok () =>
      let f ← Simulation.playAll s c
      return ⟨Simulation.traceOf c f, Simulation.logOf s c f⟩

end Uniprocessor
