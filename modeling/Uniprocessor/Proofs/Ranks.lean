import Uniprocessor.Proofs.Correspondence
/-
  Only the order of priorities matters.

  Under priority scheduling without aging, the priorities of a run are those of the jobs, and with
  the ceiling protocol the highest one (`kept_drawn`).  They are compared when a process is picked
  or woken and maximised when one is inherited, so that other grades in the same order change
  nothing but the numbers that the trace tells of.  The aging cap is not looked at.

  Main statement: `priority_order_suffices`.
-/

namespace Uniprocessor

namespace Scenario

/-- The scenario with other grades of priority and another aging cap. -/
def regrade (c : Scenario) (f : Nat → Nat) (cap : Nat) : Scenario :=
  { c with
    jobs := c.jobs.map fun j => { j with priority := f j.priority }
    limits := { maxPriority := f c.limits.maxPriority, agingCap := cap } }

/-- The priorities that a scenario names. -/
def priorities (c : Scenario) : List Nat := c.limits.maxPriority :: c.jobs.map (·.priority)

end Scenario

namespace Simulation

variable {s : Strategy} {c : Scenario}

/-- Other grades of priority, and the same pids and names. -/
def regrading (f : Nat → Nat) (cap : Nat) : Translation where
  pid := id
  pid_injective := Function.injective_id
  name := Job.name
  grade := f
  agingCap := cap

theorem regrading_event (f : Nat → Nat) (cap : Nat) (e : Event) :
    (regrading f cap).event e = e.regrade f :=
  Event.rename_id _

theorem regrading_faithful {f : Nat → Nat} (cap : Nat)
    (hf : StrictMonoOn f {k | k ∈ c.priorities}) (hs : s.policy ≠ .priorityAging) :
    (regrading f cap).Faithful s c {k | k ∈ c.priorities} where
  ordered := hf
  drawn := kept_drawn hs (fun _ hj => List.mem_cons_of_mem _ (List.mem_map_of_mem hj))
    fun _ _ => List.mem_cons_self
  aging := fun haging => absurd haging hs

end Simulation

open Simulation

variable {s : Strategy} {c : Scenario} {f : Nat → Nat} {cap : Nat}

/-- Only the order of priorities matters under priority scheduling, be it plain, with ceilings or
with inheritance: other grades in the same order change nothing in a trace but the grades that it
tells of, whatever becomes of the aging cap. -/
theorem priority_order_suffices
    (hs : s ∈ [Strategy.priority, .priorityCeiling, .priorityInheritance])
    (hc : c.Valid) (hc' : (c.regrade f cap).Valid) (hf : StrictMonoOn f {k | k ∈ c.priorities}) :
    ∃ t t', Leaves s c t ∧ Leaves s (c.regrade f cap) t' ∧ t'.endTick = t.endTick ∧
      t'.exit = t.exit ∧ t'.events = t.events.map (TraceEvent.map (Event.regrade f)) := by
  have hpolicy : s.policy ≠ .priorityAging := by
    simp only [List.mem_cons, List.not_mem_nil, or_false] at hs
    rcases hs with rfl | rfl | rfl <;> decide
  obtain ⟨t, t', ht, ht', hsame⟩ :=
    leaves_translate (τ := regrading f cap) hc hc' (regrading_faithful cap hf hpolicy)
  refine ⟨t, t', ht, ht', hsame.endTick, hsame.exit, ?_⟩
  have hevent : (regrading f cap).event = Event.regrade f := funext (regrading_event f cap)
  rw [← hevent]
  exact hsame.exact fun _ => rfl

/-- Grades that keep the priorities 1, 9 and 100 in order, though no others; one process is raised
from the lowest of them to the one above. -/
theorem priority_order_suffices_contended :
    ∃ t t', Leaves .priorityInheritance .contended t ∧
      Leaves .priorityInheritance (Scenario.contended.regrade (fun k => k / 4 + 5) 20) t' ∧
      ⟨1, .priorityChanged ⟨1⟩ 1 9⟩ ∈ t.events ∧ ⟨1, .priorityChanged ⟨1⟩ 5 7⟩ ∈ t'.events ∧
      t'.events = t.events.map (TraceEvent.map (Event.regrade fun k => k / 4 + 5)) := by
  have hordered : ∀ i ∈ Scenario.contended.priorities, ∀ k ∈ Scenario.contended.priorities,
      i < k → i / 4 + 5 < k / 4 + 5 := by
    decide
  have hvalid : (Scenario.contended.regrade (fun k => k / 4 + 5) 20).Valid := by decide
  obtain ⟨t, t', ht, ht', -, -, hevents⟩ := priority_order_suffices (c := .contended)
    (s := .priorityInheritance) (by decide) (by decide) hvalid fun i hi k hk => hordered i hi k hk
  have hraised := ht.of_any (fun t => ⟨1, .priorityChanged ⟨1⟩ 1 9⟩ ∈ t.events) (by decide)
  have hraised' := ht'.of_any (fun t => ⟨1, .priorityChanged ⟨1⟩ 5 7⟩ ∈ t.events) (by decide)
  exact ⟨t, t', ht, ht', hraised, hraised', hevents⟩

end Uniprocessor
