import Uniprocessor.Proofs.Ordering
import Uniprocessor.Proofs.Tally
/-
  An ordered scenario is done in time.

  The CPU time that the processes have used grows by one in every busy tick and never beyond the
  workload (`spent_move`, `Path.spent_le`).  While the last job is still to arrive any tick may be
  idle.  After that no tick is, except the last one, since no tick of an ordered scenario is idle
  while a process is alive: the time is never ahead of the last arrival by more than the CPU time
  used (`Path.pace`).

  Main statement: `ordered_run_ends`.
-/

namespace Uniprocessor

/-- The CPU time that all jobs need together. -/
def Scenario.workload (c : Scenario) : Nat := (c.jobs.map (·.lifespan)).sum

/-- The arrival of the last job. -/
def Scenario.lastStart (c : Scenario) : Nat := (c.jobs.map (·.start)).max?.getD 0

theorem Scenario.start_le_lastStart {c : Scenario} {k : Job} (hk : k ∈ c.jobs) :
    k.start ≤ c.lastStart :=
  List.le_max?_getD_of_mem (List.mem_map_of_mem hk)

namespace Simulation

variable {s : Strategy} {c : Scenario} {a b : Moment} {l : List Activity} {i j : Journal}
variable {p : Pid}

/-! ## The CPU time used -/

/-- What a move does to the time and to the CPU time used. -/
inductive SpentStep (c : Scenario) (a b : Moment) : Prop
  | stay : c.spent b.machine = c.spent a.machine → b.machine.tick = a.machine.tick →
      (b.phase.Ran ↔ a.phase.Ran) → SpentStep c a b
  | run : c.spent b.machine = c.spent a.machine + 1 → b.machine.tick = a.machine.tick →
      ¬ a.phase.Ran → b.phase.Ran → SpentStep c a b
  | pass {ran : Bool} : c.spent b.machine = c.spent a.machine →
      b.machine.tick = a.machine.tick + 1 → a.phase = .closing ran → b.phase = .arriving →
      SpentStep c a b

theorem spent_move (hc : c.Valid) (g : Path s (opening c).moment j a) (hm : Move s a l b) :
    SpentStep c a b := by
  have hcount : c.spent b.machine =
      c.spent a.machine + (eventsOf l).countP fun e => e.runner?.isSome := by
    rw [← (g.snoc hm).count_spent hc, events_snoc, List.countP_append, g.count_spent hc,
      countP_within fun e => e.runner?.isSome]
  have quiet : (∀ e ∈ eventsOf l, ¬ e.Runs) → c.spent b.machine = c.spent a.machine := by
    intro hq
    rw [hcount, List.countP_eq_zero.2, Nat.add_zero]
    intro e he hrun
    obtain ⟨p, hp⟩ := Option.isSome_iff_exists.1 hrun
    obtain ⟨n, hn⟩ := Event.runner?_eq_some.1 hp
    exact hq e he ⟨p, n, hn⟩
  rcases time_move hm with ⟨hq, ht, hran⟩ | ⟨hl, ht, ha, hb⟩ | ⟨hq, ht, ha, hb⟩
  · exact .stay (quiet hq) ht hran
  · rw [hl] at hcount
    exact .run hcount ht ha hb
  · exact .pass (quiet hq) ht ha hb

/-- No process uses more than it needs. -/
theorem Path.spent_le (hc : c.Valid) (g : Path s (opening c).moment j b) :
    c.spent b.machine ≤ c.workload :=
  List.sum_le_sum fun _ hk => ageOf_le_lifespan hc.sound (g.regular hc) hk

/-! ## The pace of a run -/

/-- Once the jobs of a tick have arrived the others are still to come. -/
theorem Path.pending_later (g : Path s (opening c).moment j b) (hb : b.phase ≠ .arriving) :
    ∀ k ∈ b.pending.head?, b.machine.tick < k.start := by
  induction g with
  | refl => exact absurd rfl hb
  | @snoc d e j l g hm ih =>
    have htick : e.machine.tick = d.machine.tick := by
      rcases time_move hm with ⟨-, ht, -⟩ | ⟨-, ht, -, -⟩ | ⟨-, -, -, hnext⟩
      · exact ht
      · exact ht
      · exact absurd hnext hb
    rw [htick]
    cases hm with
    | arrive => exact absurd rfl hb
    | begin hlater => exact hlater
    | close => exact absurd rfl hb
    | idle | dispatch | grant | block | run | release | remain | exit =>
      exact ih fun he => by cases he

/-- A tick of an ordered scenario is the last one if it is idle and no jobs are to arrive. -/
theorem Path.over_iff {ran : Bool} (hc : c.Valid) (ho : c.Ordered)
    (g : Path s (opening c).moment j b) (hb : b.phase = .closing ran) :
    Over ran b.pending b.machine ↔ ran = false ∧ b.pending = [] := by
  constructor
  · exact fun hover => ⟨hover.1, hover.2.1⟩
  · rintro ⟨rfl, hpending⟩
    refine ⟨rfl, hpending, (liveCount_eq_zero (g.regular hc).filed).2 fun p => ?_⟩
    exact g.none_alive hc ho hb

/-- In an ordered scenario the time is ahead of the last arrival by the CPU time used at the
most. -/
theorem Path.pace (hc : c.Valid) (ho : c.Ordered) (g : Path s (opening c).moment j b) :
    b.machine.tick ≤ c.lastStart + c.spent b.machine ∧
      (b.phase.Ran → b.machine.tick < c.lastStart + c.spent b.machine) := by
  induction g with
  | refl => exact ⟨Nat.zero_le _, False.elim⟩
  | @snoc d e j l g hm ih =>
    obtain ⟨hle, hlt⟩ := ih
    rcases spent_move hc g hm with ⟨hs, ht, hran⟩ | ⟨hs, ht, -, -⟩ | @⟨ran, hs, ht, hd, he⟩
    · rw [hs, ht, hran]
      exact ⟨hle, hlt⟩
    · omega
    · have hstep : d.machine.tick < c.lastStart + c.spent d.machine := by
        cases ran with
        | true => exact hlt (by rw [hd]; trivial)
        | false =>
          -- somebody is still to arrive, and later than now
          have hpending : d.pending ≠ [] := fun hnil =>
            hm.of_closing hd ((g.over_iff hc ho hd).2 ⟨rfl, hnil⟩)
          obtain ⟨k, u, hu⟩ := List.exists_cons_of_ne_nil hpending
          have hk : k ∈ c.jobs := ((g.regular hc).pending k (hu ▸ List.mem_cons_self)).1
          have hlater := g.pending_later (by simp [hd]) k (by simp [hu])
          have := c.start_le_lastStart hk
          omega
      rw [hs, ht, he]
      exact ⟨hstep, False.elim⟩

/-- No process of a run that has come to its end is alive. -/
theorem Path.not_alive {ran : Bool} (hc : c.Valid) (g : Path s (opening c).moment j b)
    (hover : Over ran b.pending b.machine) : ¬ Alive b.machine p :=
  (liveCount_eq_zero (g.regular hc).filed).1 hover.2.2 p

/-- An ordered scenario that is given enough ticks comes to its end. -/
theorem exit_of_ordered (hc : c.Valid) (ho : c.Ordered)
    (hmax : c.lastStart + c.workload < c.maxTicks) {f : Finished} (hf : playAll s c = .ok f) :
    f.exit = .normal := by
  have hexits := playAll_exits hc hf
  generalize f.machine = m at hexits
  generalize f.exit = e at hexits ⊢
  cases hexits with
  | ended _ hk he => exact (tickAt_ended hc hk he).1
  | limit hg =>
    obtain ⟨ht, hpath⟩ := startAt_moment hc hg
    have hpace := (hpath.pace hc ho).1
    have hspent := hpath.spent_le hc
    dsimp only [Progress.moment] at hpace hspent
    omega

end Simulation

open Simulation

variable {c : Scenario}

/-- Requests in one order exclude deadlocks: a run of an ordered scenario that is given enough
ticks ends normally, behind the last arrival by the workload at the most.  Every process has exited
by then, and every resource is free with nobody waiting for it. -/
theorem ordered_run_ends (s : Strategy) (hc : c.Valid) (ho : c.Ordered)
    (hmax : c.lastStart + c.workload < c.maxTicks) :
    ∃ f, playAll s c = .ok f ∧
      (ResourceTable.CanAddress c.resourceCount →
        simulate s c = .ok ⟨traceOf c f, logOf s c f⟩) ∧
      (traceOf c f).exit = .normal ∧ (traceOf c f).endTick ≤ c.lastStart + c.workload ∧
      (∀ k ∈ c.jobs, ∃ t, ⟨t, .exited k.pid⟩ ∈ (traceOf c f).events) ∧
      ∀ r, f.machine.resources.owner? r = none ∧ f.machine.resources.waiters r = [] := by
  obtain ⟨f, hf⟩ := exists_playAll (s := s) hc
  have hexit := exit_of_ordered hc ho hmax hf
  refine ⟨f, hf, fun ht => simulate_of_playAll hc ht hf, hexit, ?_⟩
  change f.machine.tick ≤ _ ∧ (∀ k ∈ c.jobs, ∃ t, ⟨t, .exited k.pid⟩ ∈ f.journal.events) ∧ _
  have hends := playAll_ends hf
  generalize f.journal = j at hends ⊢
  generalize f.machine = m at hends ⊢
  rw [hexit] at hends
  cases hends with
  | normal g hover =>
    have hfiled := (g.regular hc).filed
    refine ⟨?_, fun k hk => (g.terminated_iff hc).1 (g.all_terminated hc hover hk), fun r => ?_⟩
    · exact Nat.le_trans (g.pace hc ho).1 (Nat.add_le_add_left (g.spent_le hc) _)
    · refine ⟨Option.eq_none_iff_forall_ne_some.2 fun p howns => ?_,
        List.eq_nil_iff_forall_not_mem.2 fun p hw => ?_⟩
      · exact g.not_alive hc hover (alive_of_owner hfiled howns)
      · exact g.not_alive hc hover ⟨_, (hfiled.mem_waiters p).1 ⟨r, hw⟩, by simp⟩

/-- Two processes take the same two resources in the same order. -/
def Scenario.aligned : Scenario where
  jobs := [
    { pid := ⟨1⟩, name := "first", start := 0, lifespan := 4, priority := 1,
      holds := [{ resource := ⟨0⟩, since := 0, duration := 3 },
        { resource := ⟨1⟩, since := 1, duration := 2 }] },
    { pid := ⟨2⟩, name := "second", start := 1, lifespan := 3, priority := 1,
      holds := [{ resource := ⟨0⟩, since := 0, duration := 2 },
        { resource := ⟨1⟩, since := 0, duration := 1 }] }]
  resourceCount := 2
  limits := .standard
  maxTicks := 20
  audit := true

theorem ordered_run_ends_aligned :
    Scenario.aligned.lastStart + Scenario.aligned.workload = 8 ∧
      ∃ f, simulate .roundRobin .aligned = .ok ⟨traceOf .aligned f, logOf .roundRobin .aligned f⟩ ∧
        (traceOf .aligned f).exit = .normal ∧ (traceOf .aligned f).endTick ≤ 8 ∧
        (∀ k ∈ Scenario.aligned.jobs, ∃ t, ⟨t, .exited k.pid⟩ ∈ (traceOf .aligned f).events) ∧
        ∀ r, f.machine.resources.owner? r = none ∧ f.machine.resources.waiters r = [] := by
  obtain ⟨f, -, hsim, hexit, hend, hdone, hfree⟩ :=
    ordered_run_ends .roundRobin (c := .aligned) (by decide) (by decide) (by decide)
  exact ⟨by decide, f, hsim (by decide), hexit, hend, hdone, hfree⟩

end Uniprocessor
