import Uniprocessor.Job
/-
  Process records: what is known of an admitted job, with the state that policies and protocols
  change.
-/

namespace Uniprocessor

/-- What is known of an admitted process. -/
structure ProcessRecord where
  status : Status
  /-- The CPU time used so far. -/
  age : Nat
  lifespan : Nat
  /-- The priority that counts, as raised by aging and by protocols. -/
  priority : Nat
  /-- The priority that it falls back to. -/
  basePriority : Nat
  holds : List Hold
  deriving DecidableEq

namespace ProcessRecord

/-- A process as it is when it arrives. -/
def ofJob (j : Job) : ProcessRecord where
  status := .ready
  age := 0
  lifespan := j.lifespan
  priority := j.priority
  basePriority := j.priority
  holds := j.holds

/-- The CPU time still needed. -/
def remaining (p : ProcessRecord) : Nat := p.lifespan - p.age

/-- Whether the whole lifespan is used up. -/
def isDone (p : ProcessRecord) : Bool := decide (p.lifespan ≤ p.age)

/-- The resources to request at the present age, in the order of the holds. -/
def requestsDue (p : ProcessRecord) : List ResourceId :=
  (p.holds.filter fun h => h.since = p.age).map (·.resource)

/-- The resources among `holds` whose release falls on `age`. -/
def releasesAt (age : Nat) : List Hold → Except Fault (List ResourceId)
  | [] => .ok []
  | h :: rest => do
    let stop ← h.releaseAge
    let due ← releasesAt age rest
    return if stop = age then h.resource :: due else due

/-- The resources to give back at the present age, in the order of the holds. -/
def releasesDue (p : ProcessRecord) : Except Fault (List ResourceId) := releasesAt p.age p.holds

/-- Falls back to the base priority. -/
def restorePriority (p : ProcessRecord) : ProcessRecord := { p with priority := p.basePriority }

theorem isDone_iff {p : ProcessRecord} : p.isDone = true ↔ p.lifespan ≤ p.age := by
  simp [isDone]

theorem releasesAt_eq_ok {age : Nat} {holds : List Hold}
    (h : ∀ x ∈ holds, x.stop < tickBound) :
    releasesAt age holds = .ok ((holds.filter fun x => x.stop = age).map (·.resource)) := by
  induction holds with
  | nil => rfl
  | cons x xs ih =>
    have hx : x.releaseAge = .ok x.stop :=
      Hold.releaseAge_eq_ok.2 ⟨h x (by simp), rfl⟩
    have hxs := ih fun y hy => h y (by simp [hy])
    by_cases hs : x.stop = age <;>
      simp [releasesAt, hx, hxs, hs, bind, Except.bind, pure, Except.pure]

end ProcessRecord

end Uniprocessor
