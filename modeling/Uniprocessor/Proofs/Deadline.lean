import Uniprocessor.Proofs.Timeline
/-
  Which runs end normally.

  That nothing is left to do is noticed by a decision that finds nothing ready, one tick behind the
  last exit.  So a run ends normally if every process has exited and that tick is still one of the
  run (`exit_eq_inTime`): a run in whose last tick the last process exits is cut off with nobody
  left to be cut off (`cut_off_when_done`).

  Main statement: `exit_iff_exited`.
-/

namespace Uniprocessor

namespace Simulation

variable {s : Strategy} {c : Scenario} {g : Progress} {r : TickResult} {j : Journal} {b : Moment}
variable {run : Run} {p : Pid} {k t : Nat}

/-! ## Where everybody has exited -/

/-- Every process has exited. -/
def AllExited (c : Scenario) (es : List TraceEvent) : Prop :=
  ∀ job ∈ c.jobs, ∃ t, ⟨t, .exited job.pid⟩ ∈ es

/-- Where every process has exited nobody is to arrive and nobody is alive. -/
theorem AllExited.idle (hc : c.Valid) (g : Path s (opening c).moment j b)
    (hall : AllExited c j.events) : b.pending = [] ∧ b.machine.liveCount = 0 := by
  have hreg := g.regular hc
  have hend : ∀ job ∈ c.jobs, b.machine.status? job.pid = some .terminated :=
    fun job hjob => (g.terminated_iff hc).2 (hall job hjob)
  constructor
  · refine List.eq_nil_iff_forall_not_mem.2 fun job hjob => ?_
    obtain ⟨hmem, hnew⟩ := hreg.pending job hjob
    obtain ⟨x, hx⟩ := Machine.exists_record (hend job hmem)
    rw [hnew] at hx
    cases hx
  · refine (liveCount_eq_zero hreg.filed).2 fun p ⟨st, hst, hne⟩ => ?_
    obtain ⟨x, hx⟩ := Machine.exists_record hst
    obtain ⟨job, hjob, rfl, -⟩ := (hreg.scripted.plays p x hx).job
    rw [hend job hjob] at hst
    exact hne (Option.some.inj hst).symm

/-- Where every process has exited before a tick nothing runs in it. -/
theorem AllExited.quiet (hc : c.Valid) (hg : startAt s c k = some g) {ran : Bool} {m n : Machine}
    {u : List Job} {acts : List Activity}
    (hplay : Path s g.moment (stamp k acts) ⟨.closing ran, m, n, u⟩) (hm : m.tick = k)
    (hall : AllExited c (historyBefore s c k).events) : ran = false := by
  have hstart := (startAt_moment hc hg).2
  rw [Bool.eq_false_iff, ne_eq, ← (hplay.busy_iff hm).1]
  intro ⟨p, i, hran⟩
  have hevent : ⟨k, .ran p i⟩ ∈ (stamp k acts).events := by
    rw [events_stamp]
    exact mem_within.2 ⟨rfl, hran⟩
  have hwhole : ⟨k, .ran p i⟩ ∈ (historyBefore s c k ++ stamp k acts).events := by
    rw [events_append]
    exact List.mem_append_right _ hevent
  obtain ⟨job, hjob, rfl⟩ := (hstart.trans hplay).job_of_engaged hc hwhole rfl
  have hend := (hstart.terminated_iff hc).2 (hall job hjob)
  exact hplay.not_engaged hc (hstart.regular hc) hend _ hevent rfl

/-- In a tick in which nothing runs nobody exits. -/
theorem not_exited_idle (hc : c.Valid) {m n : Machine} {u : List Job} {acts : List Activity}
    (hg : startAt s c k = some g)
    (hplay : Path s g.moment (stamp k acts) ⟨.closing false, m, n, u⟩) (hm : m.tick = k) :
    .exited p ∉ eventsOf acts := by
  intro hexit
  have hpath := (startAt_moment hc hg).2.trans hplay
  have hevent : ⟨k, .exited p⟩ ∈ (historyBefore s c k ++ stamp k acts).events := by
    rw [events_snoc]
    exact List.mem_append_right _ (mem_within.2 ⟨rfl, hexit⟩)
  obtain ⟨job, hjob, rfl⟩ := hpath.job_of_engaged hc hevent rfl
  have hlast := hpath.ran_of_exited hc hjob hevent
  rcases hpath.timed.past _ hlast ⟨_, _, rfl⟩ with hlt | ⟨-, hphase⟩
  · exact absurd hm (Nat.ne_of_gt hlt)
  · exact hphase

/-! ## The last tick -/

/-- The tick in which a run ends is a path to where nothing is left to do. -/
theorem tickAt_last (hc : c.Valid) (hk : tickAt s c k = some r) (he : r.exit ≠ none) :
    ∃ g n m acts, startAt s c k = some g ∧ m.tick = k ∧
      Path s g.moment (stamp k acts) ⟨.closing false, m, n, g.later⟩ ∧ Over false g.later m ∧
      r.done = acts ∧ r.after.machine = m := by
  obtain ⟨g, ran, n, m, acts, hg, hm, hplay, hpath, hcloses⟩ := tickAt_closes hc hk
  obtain ⟨hover, -, hmachine⟩ := (hcloses.unbroken (hpath.regular hc).filed).resolve_right
    fun h => he h.2
  obtain rfl := hover.1
  have hdone := (hcloses.done.resolve_right fun h => h.1 hover).2
  exact ⟨g, n, m, acts, hg, hm, hplay, hover, hdone, hmachine⟩

/-- Any other tick is a path to where the time passes. -/
theorem tickAt_passed (hc : c.Valid) (hk : tickAt s c k = some r) (he : r.exit = none) :
    ∃ g ran n m acts, startAt s c k = some g ∧ m.tick = k ∧
      Path s g.moment (stamp k acts) ⟨.closing ran, m, n, g.later⟩ ∧ ¬ Over ran g.later m ∧
      r.done = acts ++ closingEntries ran n m ∧ r.after = ⟨m.pass, g.later⟩ := by
  obtain ⟨g, ran, n, m, acts, hg, hm, hplay, hpath, hcloses⟩ := tickAt_closes hc hk
  obtain ⟨hover, -⟩ := (hcloses.unbroken (hpath.regular hc).filed).resolve_left
    fun h => by simp [he] at h
  refine ⟨g, ran, n, m, acts, hg, hm, hplay, hover, ?_⟩
  cases hcloses with
  | ended | broken => cases he
  | next _ _ hn =>
    obtain ⟨-, rfl⟩ := Machine.advance_eq_ok.1 hn
    exact ⟨rfl, rfl⟩

/-- In the tick in which a run ends nobody exits, and everybody has exited before. -/
theorem ended_tick (hc : c.Valid) (hk : tickAt s c k = some r) (he : r.exit ≠ none) :
    AllExited c (historyBefore s c k).events ∧ ∀ p, .exited p ∉ eventsOf r.done := by
  obtain ⟨g, n, m, acts, hg, hm, hplay, hover, rfl, -⟩ := tickAt_last hc hk he
  have hpath := (startAt_moment hc hg).2.trans hplay
  have hnone : ∀ p, .exited p ∉ eventsOf r.done := fun p => not_exited_idle hc hg hplay hm
  refine ⟨fun job hjob => ?_, hnone⟩
  obtain ⟨v, hv⟩ := (hpath.terminated_iff hc).1 (hpath.all_terminated hc hover hjob)
  rw [events_snoc] at hv
  rcases List.mem_append.1 hv with hv | hv
  · exact ⟨v, hv⟩
  · exact absurd (mem_within.1 hv).2 (hnone _)

/-- A run does not go on behind a tick before which everybody has exited. -/
theorem not_all_exited (hc : c.Valid) (hk : tickAt s c k = some r) (he : r.exit = none) :
    ¬ AllExited c (historyBefore s c k).events := by
  intro hall
  obtain ⟨g, ran, n, m, acts, hg, hm, hplay, hover, -⟩ := tickAt_passed hc hk he
  have hwhole : AllExited c (historyBefore s c k ++ stamp k acts).events := by
    intro job hjob
    obtain ⟨v, hv⟩ := hall job hjob
    rw [events_append]
    exact ⟨v, List.mem_append_left _ hv⟩
  obtain ⟨hpending, hlive⟩ := hwhole.idle hc ((startAt_moment hc hg).2.trans hplay)
  exact hover ⟨hall.quiet hc hg hplay hm, hpending, hlive⟩

/-- Everybody has exited, and nobody in the last tick that the limit permits. -/
def InTime (c : Scenario) (es : List TraceEvent) : Prop :=
  AllExited c es ∧ 0 < c.maxTicks ∧ ∀ p, ⟨c.maxTicks - 1, .exited p⟩ ∉ es

/-- A run that comes to its end has everybody exited in time. -/
theorem inTime_of_ended (hc : c.Valid) (hrun : simulate s c = .ok run) (hlt : k < c.maxTicks)
    (hk : tickAt s c k = some r) (he : r.exit ≠ none) : InTime c run.trace.events := by
  obtain ⟨hall, hnone⟩ := ended_tick hc hk he
  refine ⟨fun job hjob => ?_, by omega, fun p hp => ?_⟩
  · obtain ⟨v, hv⟩ := hall job hjob
    exact ⟨v, ((mem_events_historyBefore hc hrun (Nat.le_of_lt hlt)).1 hv).2⟩
  · obtain ⟨-, q, hq, hexit⟩ := (mem_trace hc hrun).1 hp
    rcases Nat.lt_or_ge k (c.maxTicks - 1) with hbehind | hge
    · rw [tickAt_after hk he hbehind] at hq
      cases hq
    · obtain rfl : c.maxTicks - 1 = k := by omega
      rw [hk] at hq
      cases hq
      exact hnone p hexit

/-- A run that is cut off has not had everybody exited in time. -/
theorem not_inTime_of_limit (hc : c.Valid) (hrun : simulate s c = .ok run)
    (hg : startAt s c c.maxTicks = some g) : ¬ InTime c run.trace.events := by
  intro ⟨hall, hpos, hnone⟩
  obtain ⟨k, hk⟩ : ∃ k, c.maxTicks = k + 1 := ⟨c.maxTicks - 1, by omega⟩
  rw [hk] at hg
  rw [hk, Nat.add_sub_cancel] at hnone
  obtain ⟨r, hr, he, -⟩ := startAt_succ.1 hg
  refine not_all_exited hc hr he fun job hjob => ?_
  obtain ⟨v, hv⟩ := hall job hjob
  refine ⟨v, (mem_events_historyBefore hc hrun (by omega)).2 ⟨?_, hv⟩⟩
  have hlt := ((mem_trace hc hrun).1 hv).1
  have hne : v ≠ k := fun heq => hnone _ (heq ▸ hv)
  omega

/-- A run ends normally if everybody exits in time, and is cut off if not. -/
theorem exit_eq_inTime (hc : c.Valid) (hrun : simulate s c = .ok run) :
    run.trace.exit = .normal ∧ InTime c run.trace.events ∨
      run.trace.exit = .tickLimit c.maxTicks ∧ ¬ InTime c run.trace.events := by
  obtain ⟨m, hexits, -⟩ := simulate_exits hc hrun
  generalize run.trace.exit = e at hexits ⊢
  cases hexits with
  | ended hlt hk he =>
    exact .inl ⟨(tickAt_ended hc hk he).1, inTime_of_ended hc hrun hlt hk (by simp [he])⟩
  | limit hg => exact .inr ⟨rfl, not_inTime_of_limit hc hrun hg⟩

end Simulation

open Simulation

variable {c : Scenario}

/-- A run ends normally exactly when every process has exited before the last tick that the limit
permits.  Else it is cut off at the limit: some process has not exited, or the last one exited in
that tick, or the limit permits no tick at all. -/
theorem exit_iff_exited (s : Strategy) (hc : c.Valid) {run : Run}
    (hrun : simulate s c = .ok run) :
    (run.trace.exit = .normal ↔
      (∀ job ∈ c.jobs, ∃ t, ⟨t, .exited job.pid⟩ ∈ run.trace.events) ∧
        0 < c.maxTicks ∧ ∀ p, ⟨c.maxTicks - 1, .exited p⟩ ∉ run.trace.events) ∧
    (run.trace.exit = .tickLimit c.maxTicks ↔
      (∃ job ∈ c.jobs, ∀ t, ⟨t, .exited job.pid⟩ ∉ run.trace.events) ∨
        c.maxTicks = 0 ∨ ∃ p, ⟨c.maxTicks - 1, .exited p⟩ ∈ run.trace.events) := by
  have hnot : ¬ InTime c run.trace.events ↔
      (∃ job ∈ c.jobs, ∀ t, ⟨t, .exited job.pid⟩ ∉ run.trace.events) ∨
        c.maxTicks = 0 ∨ ∃ p, ⟨c.maxTicks - 1, .exited p⟩ ∈ run.trace.events := by
    simp only [InTime, AllExited, Classical.not_and_iff_not_or_not, Classical.not_forall,
      not_exists, exists_prop, Classical.not_not, Nat.pos_iff_ne_zero, ne_eq]
  rw [← hnot]
  change (_ ↔ InTime c run.trace.events) ∧ _
  rcases exit_eq_inTime hc hrun with ⟨he, htime⟩ | ⟨he, htime⟩
  · rw [he]
    simp [htime]
  · rw [he]
    simp [htime]

theorem exit_iff_exited_contended :
    ∃ run, simulate .roundRobin .contended = .ok run ∧ run.trace.exit = .normal ∧
      (∀ job ∈ Scenario.contended.jobs, ∃ t, ⟨t, .exited job.pid⟩ ∈ run.trace.events) ∧
      0 < Scenario.contended.maxTicks ∧
      ∀ p, ⟨Scenario.contended.maxTicks - 1, .exited p⟩ ∉ run.trace.events := by
  obtain ⟨run, hrun, hexit⟩ : ∃ run, (simulate .roundRobin .contended).toOption = some run ∧
      run.trace.exit = .normal := by
    simpa only [Option.any_eq_true, decide_eq_true_eq] using
      show (simulate .roundRobin .contended).toOption.any
        (fun run => decide (run.trace.exit = .normal)) = true by decide
  have hrun := toOption_eq_some.1 hrun
  exact ⟨run, hrun, hexit,
    (exit_iff_exited .roundRobin (c := .contended) (by decide) hrun).1.1 hexit⟩

/-- One process needs one tick, and one tick is all that the limit permits. -/
def Scenario.punctual : Scenario where
  jobs := [{ pid := ⟨1⟩, name := "only", start := 0, lifespan := 1, priority := 1, holds := [] }]
  resourceCount := 0
  limits := .standard
  maxTicks := 1
  audit := true

/-- A run whose last process exits in the last tick that the limit permits is cut off, although
every process has exited. -/
theorem cut_off_when_done :
    Scenario.punctual.Valid ∧ ∃ run, simulate .fifo .punctual = .ok run ∧
      (∀ job ∈ Scenario.punctual.jobs, ∃ t, ⟨t, .exited job.pid⟩ ∈ run.trace.events) ∧
      run.trace.exit ≠ .normal ∧ run.trace.exit = .tickLimit 1 := by
  refine ⟨by decide, ?_⟩
  obtain ⟨run, hrun, hmem, hexit⟩ : ∃ run, (simulate .fifo .punctual).toOption = some run ∧
      ⟨0, .exited ⟨1⟩⟩ ∈ run.trace.events ∧ run.trace.exit = .tickLimit 1 := by
    simpa only [Option.any_eq_true, decide_eq_true_eq] using
      show (simulate .fifo .punctual).toOption.any (fun run =>
        decide (⟨0, .exited ⟨1⟩⟩ ∈ run.trace.events ∧ run.trace.exit = .tickLimit 1)) = true by
          decide
  refine ⟨run, toOption_eq_some.1 hrun, fun job hjob => ⟨0, ?_⟩, by simp [hexit], hexit⟩
  rw [List.mem_singleton.1 hjob]
  exact hmem

end Uniprocessor
