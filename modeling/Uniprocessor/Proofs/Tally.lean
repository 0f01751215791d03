import Mathlib
import Uniprocessor.Proofs.HoldScript
import Uniprocessor.Proofs.Lifespan
import Uniprocessor.Trace.Summary
/-
  The counts of a run that ends normally.

  The numbers of a summary count the events of the trace (`Trace.summary_eq`).  A count of events
  is the sum of the counts for the single processes (`countP_eq_sum`, `Path.count_by_job`), and
  these are known when all processes have terminated: each has run for its lifespan, exited once,
  played all its holds (`Path.all_played`) and been woken as often as it was blocked
  (`Path.waits_of`).

  Proved: `lifespans_lived`.
-/

namespace Uniprocessor

namespace Event

/-- Who runs. -/
def runner? : Event → Option Pid
  | .ran p _ => some p
  | _ => none

/-- Who is put on the CPU. -/
def seated? : Event → Option Pid
  | .switched _ next => next
  | _ => none

/-- Who ends. -/
def leaver? : Event → Option Pid
  | .exited p => some p
  | _ => none

/-- Who starts to wait. -/
def sleeper? : Event → Option Pid
  | .blocked p _ => some p
  | _ => none

/-- Who is woken. -/
def woken? : Event → Option Pid
  | .woke p _ => some p
  | _ => none

/-- Who acquires or, where `gain` is false, releases what. -/
def handover? (gain : Bool) : Event → Option (Pid × ResourceId)
  | .acquired p r => if gain then some (p, r) else none
  | .released p r => if gain then none else some (p, r)
  | _ => none

variable {e : Event} {p : Pid} {r : ResourceId}

theorem runner?_eq_some : e.runner? = some p ↔ ∃ n, e = .ran p n := by
  cases e <;> simp [runner?]

theorem leaver?_eq_some : e.leaver? = some p ↔ e = .exited p := by
  cases e <;> simp [leaver?]

theorem sleeper?_eq_some : e.sleeper? = some p ↔ ∃ r, e = .blocked p r := by
  cases e <;> simp [sleeper?]

theorem woken?_eq_some : e.woken? = some p ↔ ∃ r, e = .woke p r := by
  cases e <;> simp [woken?]

end Event

/-! ## Counts by key -/

/-- What has a key is counted key by key. -/
theorem countP_eq_sum {α κ : Type} [DecidableEq κ] {f : α → Option κ} {l : List α} {s : Finset κ}
    (h : ∀ a ∈ l, ∀ k, f a = some k → k ∈ s) :
    (l.countP fun a => (f a).isSome) = ∑ k ∈ s, l.countP fun a => f a = some k := by
  induction l with
  | nil => simp
  | cons a l ih =>
    obtain ⟨ha, hl⟩ := List.forall_mem_cons.1 h
    simp only [List.countP_cons, Finset.sum_add_distrib, ih hl]
    congr 1
    cases hk : f a with
    | none => simp
    | some k => simp [ha k hk]

/-- The processes of a scenario. -/
def Scenario.pids (c : Scenario) : Finset Pid := (c.jobs.map (·.pid)).toFinset

theorem Scenario.mem_pids {c : Scenario} {p : Pid} : p ∈ c.pids ↔ ∃ j ∈ c.jobs, j.pid = p := by
  simp [pids]

theorem Scenario.sum_pids {c : Scenario} (hc : c.Sound) (F : Pid → Nat) :
    ∑ p ∈ c.pids, F p = (c.jobs.map fun j => F j.pid).sum := by
  rw [pids, List.sum_toFinset F hc.pids, List.map_map]
  rfl

/-- The CPU time that the processes of a scenario have used. -/
def Scenario.spent (c : Scenario) (m : Machine) : Nat := (c.jobs.map fun j => m.ageOf j.pid).sum

/-- The resources that the jobs of a scenario hold. -/
def Scenario.resources (c : Scenario) : Finset ResourceId :=
  ((c.jobs.flatMap (·.holds)).map (·.resource)).toFinset

theorem Scenario.resource_mem {c : Scenario} {p : Pid} {h : Hold} (hh : h ∈ c.holdsOf p) :
    h.resource ∈ c.resources := by
  obtain ⟨j, hj, -, hmem⟩ := job_of_holdsOf hh
  rw [resources, List.mem_toFinset]
  exact List.mem_map_of_mem (List.mem_flatMap.2 ⟨j, hj, hmem⟩)

/-- The scripts of a process make up its holds. -/
theorem Scenario.sum_script (c : Scenario) (p : Pid) :
    ∑ r ∈ c.resources, (c.script p r).length = (c.holdsOf p).length := by
  have hkeys : ∀ h ∈ c.holdsOf p, ∀ r, some h.resource = some r → r ∈ c.resources := by
    intro h hh r hr
    exact Option.some.inj hr ▸ resource_mem hh
  have hlength : ∀ r, (c.script p r).length =
      (c.holdsOf p).countP fun h => some h.resource = some r := by
    intro r
    rw [script, List.length_insertionSort, ← List.countP_eq_length_filter]
    simp only [Option.some.injEq]
  simp only [hlength]
  rw [← countP_eq_sum hkeys]
  exact List.countP_eq_length.2 fun h _ => rfl

/-! ## The summary -/

/-- What one event adds to a summary. -/
theorem TraceSummary.add_eq (s : TraceSummary) (e : Event) : s.add e =
    { totalEvents := s.totalEvents + 1
      busyTicks := s.busyTicks + if e.runner?.isSome then 1 else 0
      idleTicks := s.idleTicks + if e = .idle then 1 else 0
      contextSwitches := s.contextSwitches + if e.seated?.isSome then 1 else 0
      acquisitions := s.acquisitions + if (e.handover? true).isSome then 1 else 0
      blocks := s.blocks + if e.sleeper?.isSome then 1 else 0
      releases := s.releases + if (e.handover? false).isSome then 1 else 0
      exits := s.exits + if e.leaver?.isSome then 1 else 0 } := by
  cases e with
  | switched _ next => cases next <;> rfl
  | _ => rfl

/-- The numbers of a summary count the events of the trace. -/
theorem Trace.summary_eq (t : Trace) : t.summary =
    { totalEvents := t.events.length
      busyTicks := t.events.countP fun e => e.event.runner?.isSome
      idleTicks := t.events.countP fun e => e.event = .idle
      contextSwitches := t.events.countP fun e => e.event.seated?.isSome
      acquisitions := t.events.countP fun e => (e.event.handover? true).isSome
      blocks := t.events.countP fun e => e.event.sleeper?.isSome
      releases := t.events.countP fun e => (e.event.handover? false).isSome
      exits := t.events.countP fun e => e.event.leaver?.isSome } := by
  have hfold : ∀ (es : List TraceEvent) (s : TraceSummary),
      (es.map (·.event)).foldl TraceSummary.add s =
        { totalEvents := s.totalEvents + es.length
          busyTicks := s.busyTicks + es.countP fun e => e.event.runner?.isSome
          idleTicks := s.idleTicks + es.countP fun e => e.event = .idle
          contextSwitches := s.contextSwitches + es.countP fun e => e.event.seated?.isSome
          acquisitions := s.acquisitions + es.countP fun e => (e.event.handover? true).isSome
          blocks := s.blocks + es.countP fun e => e.event.sleeper?.isSome
          releases := s.releases + es.countP fun e => (e.event.handover? false).isSome
          exits := s.exits + es.countP fun e => e.event.leaver?.isSome } := by
    intro es
    induction es with
    | nil =>
      intro s
      rfl
    | cons e es ih =>
      intro s
      rw [List.map_cons, List.foldl_cons, ih, TraceSummary.add_eq]
      simp only [List.length_cons, List.countP_cons, decide_eq_true_eq]
      congr 1 <;> omega
  rw [summary, hfold]
  simp only [TraceSummary.zero, Nat.zero_add]

/-! ## Uses of resources -/

/-- Whether a use begins a hold. -/
def Use.isTaken : Use → Bool
  | .taken _ => true
  | .given _ => false

section Uses

variable {p : Pid} {r : ResourceId} {n : Nat} {es : List TraceEvent}

/-- Uses are handovers of the resource to or from the process. -/
theorem countP_handover (gain : Bool) (n : Nat) :
    (es.countP fun e => e.event.handover? gain = some (p, r)) =
      (usesFrom p r n es).countP fun u => u.isTaken == gain := by
  induction es generalizing n with
  | nil => rfl
  | cons e es ih =>
    rw [usesFrom, List.countP_append, List.countP_cons, ih, Nat.add_comm]
    congr 1
    cases e.event with
    | acquired q t =>
      by_cases h : q = p ∧ t = r <;> cases gain <;>
        simp [Event.handover?, Event.use?, Use.isTaken, h]
    | released q t =>
      by_cases h : q = p ∧ t = r <;> cases gain <;>
        simp [Event.handover?, Event.use?, Use.isTaken, h]
    | _ => rfl

/-- Every hold is begun once and ended once. -/
theorem countP_uses (gain : Bool) (hs : List Hold) :
    ((hs.flatMap Hold.uses).countP fun u => u.isTaken == gain) = hs.length := by
  induction hs with
  | nil => rfl
  | cons h hs ih =>
    have hone : (h.uses.countP fun u => u.isTaken == gain) = 1 := by
      cases gain <;> rfl
    rw [List.flatMap_cons, List.countP_append, ih, hone, List.length_cons, Nat.add_comm]

end Uses

namespace Simulation

variable {s : Strategy} {c : Scenario} {a b : Moment} {l : List Activity} {j : Journal}

/-! ## Waits -/

/-- A process has been blocked as often as it has been woken, and once more if it waits. -/
theorem Path.waits_of (hc : c.Valid) (g : Path s (opening c).moment j b) (p : Pid) :
    (j.events.countP fun e => e.event.sleeper? = some p) =
      (j.events.countP fun e => e.event.woken? = some p) +
        if b.machine.status? p = some .waiting then 1 else 0 := by
  induction g with
  | refl => rfl
  | @snoc d e j l g hm ih =>
    rw [events_snoc, List.countP_append, List.countP_append, ih,
      countP_within (fun e => decide (e.sleeper? = some p)),
      countP_within (fun e => decide (e.woken? = some p))]
    rcases status_move (g.regular hc) hm p with ⟨hes, hwait, -⟩ | ⟨hes, hd, he⟩ | ⟨hes, hd, he⟩ |
      ⟨hes, hd, he⟩
    · have hsleeper : (eventsOf l).countP (fun e => decide (e.sleeper? = some p)) = 0 := by
        refine List.countP_eq_zero.2 fun e he hp => ?_
        obtain ⟨r, heq⟩ := Event.sleeper?_eq_some.1 (of_decide_eq_true hp)
        exact ((hes e he).2 r).1 heq
      have hwoken : (eventsOf l).countP (fun e => decide (e.woken? = some p)) = 0 := by
        refine List.countP_eq_zero.2 fun e he hp => ?_
        obtain ⟨r, heq⟩ := Event.woken?_eq_some.1 (of_decide_eq_true hp)
        exact ((hes e he).2 r).2 heq
      rw [hsleeper, hwoken]
      simp only [hwait, Nat.add_zero]
    · rw [hes, hd, he]
      simp [Event.sleeper?, Event.woken?]
    · rw [hes, hd, he]
      simp [Event.sleeper?, Event.woken?]
    · rw [hes, hd, he]
      simp [Event.sleeper?, Event.woken?]

/-! ## A run that ends normally -/

/-- A count by process, of events that only processes with jobs take part in. -/
theorem Path.count_by_job (hc : c.Valid) (g : Path s (opening c).moment j b)
    {f : Event → Option Pid} {F : Job → Nat} (hf : ∀ e p, f e = some p → e.Engages p)
    (hF : ∀ k ∈ c.jobs, (j.events.countP fun e => f e.event = some k.pid) = F k) :
    (j.events.countP fun e => (f e.event).isSome) = (c.jobs.map F).sum := by
  have hkeys : ∀ e ∈ j.events, ∀ p, f e.event = some p → p ∈ c.pids := fun e he p hp =>
    Scenario.mem_pids.2 (g.job_of_engaged hc he (hf _ _ hp))
  rw [countP_eq_sum hkeys, Scenario.sum_pids hc.sound, List.map_congr_left hF]

/-- All holds are begun and ended. -/
theorem Path.count_handovers {ran : Bool} (hc : c.Valid) (g : Path s (opening c).moment j b)
    (hover : Over ran b.pending b.machine) (gain : Bool) :
    (j.events.countP fun e => (e.event.handover? gain).isSome) =
      (c.jobs.map fun k => k.holds.length).sum := by
  have hcount : ∀ p r, (j.events.countP fun e => e.event.handover? gain = some (p, r)) =
      (c.script p r).length := by
    intro p r
    rw [countP_handover gain 0, g.all_played hc hover, countP_uses]
  have hkeys : ∀ e ∈ j.events, ∀ k, e.event.handover? gain = some k →
      k ∈ c.pids ×ˢ c.resources := by
    intro e he ⟨p, r⟩ hk
    have hpos : 0 < (c.script p r).length := by
      rw [← hcount, List.countP_pos_iff]
      exact ⟨e, he, decide_eq_true hk⟩
    obtain ⟨h, hh⟩ := List.exists_mem_of_length_pos hpos
    obtain ⟨hmem, hr⟩ := Scenario.mem_script.1 hh
    obtain ⟨k, hk, hp, -⟩ := Scenario.job_of_holdsOf hmem
    rw [← hr]
    exact Finset.mem_product.2 ⟨Scenario.mem_pids.2 ⟨k, hk, hp⟩, Scenario.resource_mem hmem⟩
  rw [countP_eq_sum hkeys, Finset.sum_product]
  simp only [hcount, Scenario.sum_script]
  rw [Scenario.sum_pids hc.sound]
  refine congrArg _ (List.map_congr_left fun k hk => ?_)
  rw [Scenario.holdsOf_job hc.sound hk]

/-- Processes have run for as long as they are old. -/
theorem Path.count_spent (hc : c.Valid) (g : Path s (opening c).moment j b) :
    (j.events.countP fun e => e.event.runner?.isSome) = c.spent b.machine := by
  refine g.count_by_job hc ?_ fun k _ => ?_
  · intro e p hp
    obtain ⟨n, rfl⟩ := Event.runner?_eq_some.1 hp
    rfl
  · have hages := congrArg List.length (g.agesOf_run k.pid)
    rw [List.length_range'] at hages
    rw [← hages, length_agesOf]
    refine List.countP_congr fun e _ => ?_
    cases e.event <;> simp [Event.runner?, Trace.isRunOf]

/-- Every process runs for its lifespan. -/
theorem Path.count_runs {ran : Bool} (hc : c.Valid) (g : Path s (opening c).moment j b)
    (hover : Over ran b.pending b.machine) :
    (j.events.countP fun e => e.event.runner?.isSome) = (c.jobs.map (·.lifespan)).sum := by
  rw [g.count_spent hc, Scenario.spent]
  refine congrArg _ (List.map_congr_left fun k hk => ?_)
  exact g.age_terminated hc hk (g.all_terminated hc hover hk)

/-- Every process exits. -/
theorem Path.count_exits {ran : Bool} (hc : c.Valid) (g : Path s (opening c).moment j b)
    (hover : Over ran b.pending b.machine) :
    (j.events.countP fun e => e.event.leaver?.isSome) = c.jobs.length := by
  have hone : (c.jobs.map fun _ => 1).sum = c.jobs.length := by simp
  rw [← hone]
  refine g.count_by_job hc ?_ fun k hk => ?_
  · intro e p hp
    rw [Event.leaver?_eq_some.1 hp]
    rfl
  · simp only [Event.leaver?_eq_some]
    rw [g.exits_of hc, if_pos (g.all_terminated hc hover hk)]

/-- Everyone who was blocked has been woken. -/
theorem Path.count_wakes {ran : Bool} (hc : c.Valid) (g : Path s (opening c).moment j b)
    (hover : Over ran b.pending b.machine) :
    (j.events.countP fun e => e.event.woken?.isSome) =
      j.events.countP fun e => e.event.sleeper?.isSome := by
  have hblocks : (j.events.countP fun e => e.event.sleeper?.isSome) =
      (c.jobs.map fun k => j.events.countP fun e => e.event.woken? = some k.pid).sum := by
    refine g.count_by_job hc ?_ fun k hk => ?_
    · intro e p hp
      obtain ⟨r, rfl⟩ := Event.sleeper?_eq_some.1 hp
      rfl
    · rw [g.waits_of hc, g.all_terminated hc hover hk]
      rfl
  rw [hblocks]
  refine g.count_by_job hc ?_ fun k _ => rfl
  intro e p hp
  obtain ⟨r, rfl⟩ := Event.woken?_eq_some.1 hp
  rfl

end Simulation

open Simulation

variable {c : Scenario}

/-- Every process of a run lives its lifespan.  It has the ages 1, 2, 3 and so on, not beyond its
lifespan and not before it has arrived; it exits in the tick in which its lifespan is used up, once,
and takes part in nothing behind that.  If the run ends normally all processes have exited, and the
summary is that of their jobs. -/
theorem lifespans_lived (s : Strategy) (hc : c.Valid) {run : Run} (hrun : simulate s c = .ok run) :
    (∀ j ∈ c.jobs, ∃ n ≤ j.lifespan, agesOf j.pid run.trace.events = List.range' 1 n) ∧
    (∀ pre post t p n, run.trace.events = pre ++ ⟨t, .ran p n⟩ :: post →
      (∃ u, ⟨u, .forked p⟩ ∈ pre) ∧ ∀ u, ⟨u, .forked p⟩ ∉ post) ∧
    (∀ j ∈ c.jobs, ∀ t, ⟨t, .exited j.pid⟩ ∈ run.trace.events ↔
      ⟨t, .ran j.pid j.lifespan⟩ ∈ run.trace.events) ∧
    (∀ p, (run.trace.events.countP fun e => e.event = .exited p) ≤ 1) ∧
    (∀ pre post t p, run.trace.events = pre ++ ⟨t, .exited p⟩ :: post →
      ∀ e ∈ post, ¬ e.event.Engages p) ∧
    (run.trace.exit = .normal →
      (∀ j ∈ c.jobs, ∃ t, ⟨t, .exited j.pid⟩ ∈ run.trace.events) ∧
      run.trace.summary.busyTicks = (c.jobs.map (·.lifespan)).sum ∧
      run.trace.summary.exits = c.jobs.length ∧
      run.trace.summary.acquisitions = (c.jobs.map (·.holds.length)).sum ∧
      run.trace.summary.releases = (c.jobs.map (·.holds.length)).sum ∧
      (run.trace.events.countP fun e => e.event.woken?.isSome) = run.trace.summary.blocks) := by
  obtain ⟨j, b, g, hevents, hback, hnormal⟩ := path_of_simulate hc hrun
  rw [Trace.summary_eq, hevents]
  refine ⟨?_, ?_, ?_, ?_, ?_, ?_⟩
  · intro k hk
    exact ⟨_, ageOf_le_lifespan hc.sound (g.regular hc) hk, g.agesOf_run k.pid⟩
  · intro pre post t p n hj
    exact g.forked_before hj
  · intro k hk t
    refine ⟨g.ran_of_exited hc hk, fun hran => (g.exited_of_ran hc hk hran).resolve_right ?_⟩
    intro ⟨_, due, hphase⟩
    rw [hphase] at hback
    cases hback
  · intro p
    rw [g.exits_of hc]
    split <;> omega
  · intro pre post t p hj
    exact g.silent hc hj
  · intro hexit
    obtain ⟨ran, hover⟩ := hnormal hexit
    refine ⟨fun k hk => ?_, g.count_runs hc hover, g.count_exits hc hover,
      g.count_handovers hc hover true, g.count_handovers hc hover false, g.count_wakes hc hover⟩
    have hone := g.exits_of hc k.pid
    rw [if_pos (g.all_terminated hc hover hk)] at hone
    obtain ⟨e, he, hexited⟩ := List.countP_pos_iff.1 (hone ▸ Nat.one_pos)
    exact ⟨e.tick, of_decide_eq_true hexited ▸ he⟩

theorem lifespans_lived_contended :
    ∃ run, simulate .priorityInheritance .contended = .ok run ∧ run.trace.exit = .normal ∧
      (∃ n ≤ 4, agesOf ⟨1⟩ run.trace.events = List.range' 1 n) ∧
      (∀ t, ⟨t, .exited ⟨1⟩⟩ ∈ run.trace.events ↔ ⟨t, .ran ⟨1⟩ 4⟩ ∈ run.trace.events) ∧
      run.trace.summary.busyTicks = 6 ∧ run.trace.summary.exits = 2 ∧
      run.trace.summary.acquisitions = 2 ∧ run.trace.summary.releases = 2 ∧
      (run.trace.events.countP fun e => e.event.woken?.isSome) = run.trace.summary.blocks := by
  have hsim : (simulate .priorityInheritance .contended).toOption.any (fun run =>
      decide (run.trace.exit = .normal)) = true := by
    decide
  obtain ⟨run, hrun, hexit⟩ := Option.any_eq_true _ _ |>.1 hsim
  have hrun := toOption_eq_some.1 hrun
  have hexit := of_decide_eq_true hexit
  obtain ⟨hages, -, hexited, -, -, hnormal⟩ :=
    lifespans_lived .priorityInheritance (c := .contended) (by decide) hrun
  obtain ⟨-, hbusy, hexits, hacquired, hreleased, hwoken⟩ := hnormal hexit
  have hlow : Scenario.contended.jobs[0] ∈ Scenario.contended.jobs := List.getElem_mem _
  exact ⟨run, hrun, hexit, hages _ hlow, hexited _ hlow, hbusy, hexits, hacquired, hreleased,
    hwoken⟩

end Uniprocessor
