import Uniprocessor.Proofs.Backlog
import Uniprocessor.Proofs.Partition
/-
  Shortest remaining time first keeps the processes the least while in the system.

  In a run that ends normally each process arrives in the tick of its start and exits once
  (`Trace.Lives`).  Between these two ticks, both included, it has work left, and in no other
  (`leftAt_pos`).  So the sum of the turnaround times, taken process by process, is the number of
  the processes that have work left, taken tick by tick (`turnaround_eq_sum`).  At each tick this
  number is least under shortest remaining time first (`unfinishedAt_le`), since the work that it
  leaves is in the fewest hands (`majorizes_start`), and all runs have the same ticks.

  Main statement: `shortest_remaining_optimal`.
-/

namespace Uniprocessor

/-- The trace has one arrival of the job, in the tick of its start, and one exit. -/
structure Trace.Lives (t : Trace) (k : Job) : Prop where
  arrival : ∀ u, ⟨u, .forked k.pid⟩ ∈ t.events ↔ u = k.start
  exit : ∃ e, t.exitTick? k.pid = some e ∧ ∀ u, ⟨u, .exited k.pid⟩ ∈ t.events ↔ u = e

/-- The ticks from the arrival of a job to its exit, both included. -/
def Trace.turnaround (t : Trace) (k : Job) : Int :=
  ((t.exitTick? k.pid).getD 0 : Int) + 1 - k.start

/-- The turnaround times of all jobs together. -/
def Trace.totalTurnaround (t : Trace) (c : Scenario) : Int := (c.jobs.map t.turnaround).sum

namespace Simulation

open Finset

variable {s : Strategy} {c : Scenario} {a b : Moment} {i j : Journal} {l : List Activity}
variable {p : Pid} {k : Job} {g : Progress} {f : Finished} {e t u : Nat}

/-! ## Arrivals and exits -/

/-- Who arrives is the first of those that are to arrive, and is due. -/
theorem Move.of_forked (hm : Move s a l b) (he : .forked p ∈ eventsOf l) :
    ∃ k, a.pending = k :: b.pending ∧ k.pid = p ∧ k.start ≤ a.machine.tick := by
  cases hm with
  | @arrive _ _ _ k _ hstart =>
    cases List.mem_singleton.1 he
    exact ⟨k, rfl, rfl, hstart⟩
  | begin | remain => cases he
  | idle | dispatch => cases mem_events_decided he
  | grant | block | run | exit => cases List.mem_singleton.1 he
  | release =>
    rw [events_released] at he
    simp at he
  | close => rcases mem_events_closing he with he | ⟨_, _, _, he⟩ <;> cases he

/-- A job arrives in the tick of its start. -/
theorem Path.forked_at_start (hc : c.Valid) (g : Path s (opening c).moment j b) (hk : k ∈ c.jobs)
    (hu : ⟨u, .forked k.pid⟩ ∈ j.events) : u = k.start := by
  induction g with
  | refl => cases hu
  | @snoc d e j l g hm ih =>
    rw [events_snoc] at hu
    rcases List.mem_append.1 hu with hu | hu
    · exact ih hu
    · obtain ⟨rfl, hforked⟩ := mem_within.1 hu
      obtain ⟨i, hpending, hpid, hstart⟩ := hm.of_forked hforked
      have hi : i ∈ d.pending := hpending ▸ List.mem_cons_self
      obtain rfl := job_ext hc.sound ((g.regular hc).pending i hi).1 hk hpid
      exact Nat.le_antisymm (g.tick_le_start hc hi) hstart

theorem Path.job_of_forked (hc : c.Valid) (g : Path s (opening c).moment j b)
    (hu : ⟨u, .forked p⟩ ∈ j.events) : ∃ k ∈ c.jobs, k.pid = p := by
  obtain ⟨d, f, i, l, hd, hm, he⟩ := g.exists_move hu
  obtain ⟨k, hpending, hpid, -⟩ := hm.of_forked he
  exact ⟨k, ((hd.regular hc).pending k (hpending ▸ List.mem_cons_self)).1, hpid⟩

/-- Once the jobs of a tick have arrived, those that have started have arrived, and no others. -/
theorem Path.forked_iff (hc : c.Valid) (g : Path s (opening c).moment j b)
    (hb : b.phase ≠ .arriving) (hk : k ∈ c.jobs) :
    ⟨u, .forked k.pid⟩ ∈ j.events ↔ u = k.start ∧ u ≤ b.machine.tick := by
  constructor
  · exact fun hu => ⟨g.forked_at_start hc hk hu, (g.tick_mem hu).2⟩
  · rintro ⟨rfl, hle⟩
    have hknown := (g.pending_or_known hk).resolve_left fun hpending =>
      Nat.not_lt.2 hle ((g.pending_iff hb hk).1 hpending)
    obtain ⟨u, hu⟩ := g.known_iff_forked.1 (mt Machine.age?_eq_none.1 hknown)
    exact g.forked_at_start hc hk hu ▸ hu

/-- Nobody exits before the tick of its start. -/
theorem Path.start_le_exit (hc : c.Valid) (g : Path s (opening c).moment j b) (hk : k ∈ c.jobs)
    (hu : ⟨u, .exited k.pid⟩ ∈ j.events) : k.start ≤ u := by
  obtain ⟨pre, post, hj⟩ := List.append_of_mem hu
  obtain ⟨d, f, i, rest, -, -, hd, rfl, hm, -⟩ := g.split_exited hj
  obtain ⟨-, hphase, -⟩ := hm.of_exited (List.mem_singleton_self _)
  have hreg := hd.regular hc
  obtain ⟨x, hx⟩ := Machine.exists_record (hreg.returns hphase).2.running
  refine (hd.pending_or_due hk).resolve_left fun hpending => ?_
  cases hx.symm.trans (hreg.pending k hpending).2

/-- The history before a tick is that part of what a run has written. -/
theorem mem_historyBefore {x : Event} (hc : c.Valid) (hf : playAll s c = .ok f)
    (ht : t ≤ c.maxTicks) :
    ⟨u, x⟩ ∈ (historyBefore s c t).events ↔ u < t ∧ ⟨u, x⟩ ∈ f.journal.events := by
  rw [playAll_events hc hf, events_historyBefore, mem_annals, mem_annals]
  constructor
  · exact fun ⟨hlt, hx⟩ => ⟨hlt, Nat.lt_of_lt_of_le hlt ht, hx⟩
  · exact fun ⟨hlt, _, hx⟩ => ⟨hlt, hx⟩

theorem exitTick?_eq {tr : Trace} (h : ∀ u, ⟨u, .exited p⟩ ∈ tr.events ↔ u = e) :
    tr.exitTick? p = some e := by
  rw [Trace.exitTick?]
  cases hfind : tr.events.find? fun x => x.event = .exited p with
  | none =>
    have hno := List.find?_eq_none.1 hfind ⟨e, .exited p⟩ ((h e).2 rfl)
    exact absurd (decide_eq_true rfl) hno
  | some x =>
    obtain ⟨v, x⟩ := x
    have hx := List.find?_some hfind
    obtain rfl : x = .exited p := of_decide_eq_true hx
    rw [Option.map_some, (h v).1 (List.mem_of_find?_eq_some hfind)]

/-- Before the last tick of a run that ends normally everybody has exited. -/
theorem exited_before_end (hc : c.Valid) (hf : playAll s c = .ok f) (he : f.exit = .normal) :
    f.machine.tick < c.maxTicks ∧ (∃ g, startAt s c f.machine.tick = some g) ∧
      ∀ k ∈ c.jobs, ∃ e < f.machine.tick, ⟨e, .exited k.pid⟩ ∈ f.journal.events := by
  have hexits := playAll_exits hc hf
  rw [he] at hexits
  have hmem := fun {u x t} => mem_historyBefore (u := u) (x := x) (t := t) hc hf
  generalize f.machine = m at hexits ⊢
  cases hexits with
  | @ended t r _ hlt hr hexit =>
    obtain ⟨-, ht⟩ := tickAt_ended hc hr hexit
    have hall := (ended_tick hc hr (by simp [hexit])).1
    obtain ⟨g, hg, -⟩ := tickAt_eq_some.1 hr
    rw [ht]
    refine ⟨hlt, ⟨g, hg⟩, fun k hk => ?_⟩
    obtain ⟨e, he⟩ := hall k hk
    exact ⟨e, (hmem (Nat.le_of_lt hlt)).1 he⟩

theorem lives_of_normal (hc : c.Valid) (hf : playAll s c = .ok f) (he : f.exit = .normal)
    (hk : k ∈ c.jobs) : (traceOf c f).Lives k := by
  obtain ⟨⟨b, g, -⟩, -⟩ := ends_unbroken hc (regular_opening hc) (playAll_ends hf)
  obtain ⟨-, -, hall⟩ := exited_before_end hc hf he
  obtain ⟨e, -, hexit⟩ := hall k hk
  have hexits : ∀ u, ⟨u, .exited k.pid⟩ ∈ f.journal.events ↔ u = e := fun u =>
    ⟨fun hu => g.exited_once hc hu hexit, fun hu => hu ▸ hexit⟩
  refine ⟨fun u => ⟨fun hu => g.forked_at_start hc hk hu, ?_⟩, e, exitTick?_eq hexits, hexits⟩
  rintro rfl
  obtain ⟨x, hx⟩ := Machine.exists_record ((g.terminated_iff hc).2 ⟨e, hexit⟩)
  have hknown : b.machine.age? k.pid ≠ none := mt Machine.age?_eq_none.1 (by simp [hx])
  obtain ⟨u, hu⟩ := g.known_iff_forked.1 hknown
  exact g.forked_at_start hc hk hu ▸ hu

/-! ## Work left, tick by tick -/

/-- What is left of the jobs at the start of the `t`-th tick. -/
def leftAt (s : Strategy) (c : Scenario) (t : Nat) : Job → Nat :=
  ((startAt s c t).map fun g => g.machine.left).getD fun _ => 0

theorem leftAt_of (hg : startAt s c t = some g) : leftAt s c t = g.machine.left := by
  rw [leftAt, hg, Option.map_some, Option.getD_some]

/-- A job has work left from its arrival to its exit. -/
theorem leftAt_pos (hc : c.Valid) (hf : playAll s c = .ok f) (hg : startAt s c t = some g)
    (ht : t ≤ c.maxTicks) (hk : k ∈ c.jobs)
    (hexit : ∀ u, ⟨u, .exited k.pid⟩ ∈ f.journal.events ↔ u = e) :
    0 < leftAt s c t k ↔ k.start ≤ t ∧ t ≤ e := by
  obtain ⟨htick, hpath⟩ := startAt_moment hc hg
  have hreg := hpath.regular hc
  have hend : g.machine.status? k.pid = some .terminated ↔ e < t := by
    rw [show g.machine.status? k.pid = g.moment.machine.status? k.pid from rfl,
      hpath.terminated_iff hc]
    simp only [mem_historyBefore hc hf ht, hexit]
    exact ⟨fun ⟨u, hlt, hu⟩ => hu ▸ hlt, fun hlt => ⟨e, hlt, rfl⟩⟩
  rw [leftAt_of hg, Machine.left_pos, htick, ← Nat.not_lt (a := e), ← hend]
  refine and_congr_right fun _ => ⟨fun hlt hterm => ?_, fun hterm => ?_⟩
  · exact Nat.ne_of_lt hlt (hpath.age_terminated hc hk hterm)
  · cases hx : g.machine.process? k.pid with
    | none =>
      rw [Machine.ageOf, Machine.age?_eq_none.2 hx]
      exact (hc.sound.jobs k hk).lives
    | some x =>
      rw [Machine.ageOf_of hx, ← (record_of_job hc.sound hreg.scripted hk hx).2]
      refine hreg.scripted.age_lt hx fun hst => hterm ?_
      rw [Machine.status?_of hx, hst]

/-- The turnaround time of a job counts the ticks in which it has work left. -/
theorem turnaround_eq_card (hc : c.Valid) (hf : playAll s c = .ok f) (he : f.exit = .normal)
    (hk : k ∈ c.jobs) : (traceOf c f).turnaround k =
      (#{t ∈ range f.machine.tick | 0 < leftAt s c t k} : Int) := by
  obtain ⟨hlt, ⟨g, hg⟩, hall⟩ := exited_before_end hc hf he
  obtain ⟨v, hv, hexited⟩ := hall k hk
  obtain ⟨-, e, hexit, hiff⟩ := lives_of_normal hc hf he hk
  obtain rfl : v = e := (hiff v).1 hexited
  obtain ⟨⟨b, hpath, -⟩, -⟩ := ends_unbroken hc (regular_opening hc) (playAll_ends hf)
  have hstart := hpath.start_le_exit hc hk hexited
  -- the job has work left from its arrival to its exit, which is before the end of the run
  have hticks : {t ∈ range f.machine.tick | 0 < leftAt s c t k} = Icc k.start v := by
    ext t
    rw [mem_filter, mem_range, mem_Icc]
    constructor
    · rintro ⟨ht, hpos⟩
      obtain ⟨d, hd⟩ := exists_start (Nat.le_of_lt ht) hg
      exact (leftAt_pos hc hf hd (by omega) hk hiff).1 hpos
    · intro ht
      obtain ⟨d, hd⟩ := exists_start (k := t) (by omega) hg
      exact ⟨by omega, (leftAt_pos hc hf hd (by omega) hk hiff).2 ht⟩
  rw [Trace.turnaround, hexit, hticks, Nat.card_Icc, Option.getD_some]
  omega

/-- The number of the jobs that have work left at the start of the `t`-th tick. -/
def unfinishedAt (s : Strategy) (c : Scenario) (t : Nat) : Nat :=
  #{k ∈ c.jobs.toFinset | 0 < leftAt s c t k}

/-- The turnaround times together count, tick by tick, the jobs that have work left. -/
theorem turnaround_eq_sum (hc : c.Valid) (hf : playAll s c = .ok f) (he : f.exit = .normal) :
    (traceOf c f).totalTurnaround c = (∑ t ∈ range f.machine.tick, unfinishedAt s c t : Nat) := by
  calc (traceOf c f).totalTurnaround c
      = ∑ k ∈ c.jobs.toFinset, (#{t ∈ range f.machine.tick | 0 < leftAt s c t k} : Int) := by
        rw [Trace.totalTurnaround, ← List.sum_toFinset _ hc.sound.pids.of_map]
        exact sum_congr rfl fun k hk => turnaround_eq_card hc hf he (List.mem_toFinset.1 hk)
    _ = (∑ k ∈ c.jobs.toFinset, #{t ∈ range f.machine.tick | 0 < leftAt s c t k} : Nat) :=
        (Nat.cast_sum _ _).symm
    _ = (∑ t ∈ range f.machine.tick, unfinishedAt s c t : Nat) := by
        simp only [unfinishedAt, card_filter]
        rw [sum_comm]

/-- At no tick are more jobs unfinished than under another strategy. -/
theorem unfinishedAt_le {h : Progress} (hc : c.Valid) (hbare : c.Bare)
    (hg : startAt .shortestRemaining c t = some g) (hh : startAt s c t = some h) :
    unfinishedAt .shortestRemaining c t ≤ unfinishedAt s c t := by
  rw [unfinishedAt, unfinishedAt, leftAt_of hg, leftAt_of hh]
  exact (majorizes_start hc hbare hg hh).card_le

end Simulation

open Simulation

variable {c : Scenario}

/-- Shortest remaining time first is optimal where nothing is held: if its run and the run under
some strategy both end normally, each process arrives in the tick of its start and exits once in
both traces, and the sum of the turnaround times is the least under shortest remaining time
first. -/
theorem shortest_remaining_optimal (s : Strategy) (hc : c.Valid)
    (hbare : ∀ k ∈ c.jobs, k.holds = []) :
    ∃ t t', Leaves .shortestRemaining c t ∧ Leaves s c t' ∧
      (t.exit = .normal → t'.exit = .normal →
        (∀ k ∈ c.jobs, t.Lives k ∧ t'.Lives k) ∧ t.totalTurnaround c ≤ t'.totalTurnaround c) := by
  obtain ⟨f, hf⟩ := exists_playAll (s := .shortestRemaining) hc
  obtain ⟨f', hf'⟩ := exists_playAll (s := s) hc
  refine ⟨_, _, leaves_of_playAll hc hf, leaves_of_playAll hc hf', fun he he' => ?_⟩
  refine ⟨fun k hk => ⟨lives_of_normal hc hf he hk, lives_of_normal hc hf' he' hk⟩, ?_⟩
  have ho : c.Ordered := Scenario.Unnested.ordered hc.sound (Scenario.Bare.unnested hbare)
  have hsame : f'.machine.tick = f.machine.tick := by
    have hexits := (advance_exits (k := 0) hc rfl hf).1
    have hexits' := (advance_exits (k := 0) hc rfl hf').1
    rw [Nat.zero_add] at hexits hexits'
    exact (exits_agree hc ho hexits hexits').2.symm
  obtain ⟨-, ⟨g, hg⟩, -⟩ := exited_before_end hc hf he
  obtain ⟨-, ⟨g', hg'⟩, -⟩ := exited_before_end hc hf' he'
  rw [turnaround_eq_sum hc hf he, turnaround_eq_sum hc hf' he', hsame, Nat.cast_le]
  refine Finset.sum_le_sum fun t ht => ?_
  have hlt := Finset.mem_range.1 ht
  obtain ⟨d, hd⟩ := exists_start (Nat.le_of_lt hlt) hg
  obtain ⟨d', hd'⟩ := exists_start (Nat.le_of_lt (hsame ▸ hlt)) hg'
  exact unfinishedAt_le hc hbare hd hd'

/-- A long process is there first, two shorter ones arrive while it runs. -/
def Scenario.preempted : Scenario where
  jobs := [
    { pid := ⟨1⟩, name := "long", start := 0, lifespan := 5, priority := 0, holds := [] },
    { pid := ⟨2⟩, name := "short", start := 1, lifespan := 1, priority := 0, holds := [] },
    { pid := ⟨3⟩, name := "middle", start := 2, lifespan := 2, priority := 0, holds := [] }]
  resourceCount := 0
  limits := .standard
  maxTicks := 20
  audit := true

theorem shortest_remaining_optimal_preempted :
    ∃ t t', Leaves .shortestRemaining .preempted t ∧ Leaves .fifo .preempted t' ∧
      t.totalTurnaround .preempted = 11 ∧ t'.totalTurnaround .preempted = 16 ∧
      (∀ k ∈ Scenario.preempted.jobs, t.Lives k ∧ t'.Lives k) ∧
      t.totalTurnaround .preempted ≤ t'.totalTurnaround .preempted := by
  obtain ⟨t, t', ht, ht', hopt⟩ :=
    shortest_remaining_optimal .fifo (c := .preempted) (by decide) (by decide)
  obtain ⟨hend, htotal⟩ := ht.of_any
    (fun t => t.exit = .normal ∧ t.totalTurnaround .preempted = 11) (by decide)
  obtain ⟨hend', htotal'⟩ := ht'.of_any
    (fun t => t.exit = .normal ∧ t.totalTurnaround .preempted = 16) (by decide)
  exact ⟨t, t', ht, ht', htotal, htotal', hopt hend hend'⟩

end Uniprocessor
