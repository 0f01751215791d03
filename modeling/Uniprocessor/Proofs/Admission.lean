import Uniprocessor.Proofs.Turnaround
/-
  Admission is exact.

  `Scenario.timetable` lists tick by tick who starts in it, those of one tick in the order in which
  they are defined.  The jobs in the order of their arrival are the timetable
  (`timetable_eq_arrivals`).  A run takes them from the head of this order and writes each down in
  the tick of its start (`Path.admitted`); what it has not taken at its end starts beyond the tick
  limit.  So the arrivals in a trace are the timetable up to the tick limit, whatever the strategy
  and however long nobody arrives.

  Main statement: `admission_exact`.
-/

namespace Uniprocessor

/-- The tick and the process of an arrival. -/
def TraceEvent.admission? : TraceEvent → Option (Nat × Pid)
  | ⟨t, .forked p⟩ => some (t, p)
  | _ => none

/-- The arrivals in a trace, one after the other. -/
def Trace.admissions (t : Trace) : List (Nat × Pid) := t.events.filterMap TraceEvent.admission?

/-- Who starts below the tick `n`, tick by tick. -/
def Scenario.timetable (c : Scenario) (n : Nat) : List (Nat × Pid) :=
  (List.range n).flatMap fun t => (c.jobs.filter fun k => k.start = t).map fun k => (t, k.pid)

namespace Simulation

variable {s : Strategy} {c : Scenario} {b : Moment} {j : Journal} {k : Job} {f : Finished}
variable {u : List Job} {n : Nat}

/-! ## The timetable -/

/-- Of sorted jobs those that start below a tick come before those that start in it. -/
theorem filter_start_succ (hu : u.Pairwise (·.start ≤ ·.start)) (n : Nat) :
    (u.filter fun k => k.start < n + 1) =
      (u.filter fun k => k.start < n) ++ u.filter fun k => k.start = n := by
  induction u with
  | nil => rfl
  | cons k u ih =>
    obtain ⟨hk, hu⟩ := List.pairwise_cons.1 hu
    have hrest := ih hu
    rcases Nat.lt_trichotomy k.start n with hlt | heq | hgt
    · have hle : k.start < n + 1 := by omega
      have hne : k.start ≠ n := by omega
      simp only [List.filter_cons, hlt, hle, hne, decide_true, decide_false, if_true,
        Bool.false_eq_true, if_false, List.cons_append]
      rw [hrest]
    · -- nobody behind starts earlier
      have hnone : (u.filter fun i => i.start < n) = [] := by
        refine List.filter_eq_nil_iff.2 fun i hi => ?_
        have hki := hk i hi
        rw [decide_eq_true_eq]
        omega
      rw [hnone, List.nil_append] at hrest
      have hle : k.start < n + 1 := by omega
      have hge : ¬ k.start < n := by omega
      simp only [List.filter_cons, hle, hge, decide_true, decide_false, if_true,
        Bool.false_eq_true, if_false]
      rw [hrest, hnone, List.nil_append, if_pos (decide_eq_true heq)]
    · have hnot : ¬ k.start < n + 1 := by omega
      have hne : k.start ≠ n := by omega
      have hge : ¬ k.start < n := by omega
      simp only [List.filter_cons, hnot, hne, hge, decide_false, Bool.false_eq_true, if_false]
      exact hrest

/-- Jobs of one start arrive in the order in which they are defined. -/
theorem filter_start_arrivals (u : List Job) (t : Nat) :
    ((arrivals u).filter fun k => k.start = t) = u.filter fun k => k.start = t := by
  rw [filter_arrivals]
  refine arrivals_of_same_start (t := t) fun k hk => ?_
  exact of_decide_eq_true (List.mem_filter.1 hk).2

/-- The timetable is the order of arrival. -/
theorem timetable_eq_arrivals (c : Scenario) (n : Nat) :
    c.timetable n =
      ((arrivals c.jobs).filter fun k => k.start < n).map fun k => (k.start, k.pid) := by
  induction n with
  | zero => simp [Scenario.timetable]
  | succ n ih =>
    have hnow : ((c.jobs.filter fun k => k.start = n).map fun k => (k.start, k.pid)) =
        (c.jobs.filter fun k => k.start = n).map fun k => (n, k.pid) := by
      refine List.map_congr_left fun k hk => ?_
      rw [of_decide_eq_true (List.mem_filter.1 hk).2]
    have htable : c.timetable (n + 1) = c.timetable n ++
        (c.jobs.filter fun k => k.start = n).map fun k => (n, k.pid) := by
      unfold Scenario.timetable
      rw [List.range_succ, List.flatMap_append, List.flatMap_singleton]
    rw [htable, ih, filter_start_succ (arrivals_sorted c.jobs) n, filter_start_arrivals,
      List.map_append, hnow]

/-! ## Arrivals along a path -/

/-- A path takes the jobs in the order of arrival, each in the tick of its start. -/
theorem Path.admitted (hc : c.Valid) (g : Path s (opening c).moment j b) :
    ∃ u, arrivals c.jobs = u ++ b.pending ∧
      j.events.filterMap TraceEvent.admission? = u.map fun k => (k.start, k.pid) := by
  induction g with
  | refl => exact ⟨[], rfl, rfl⟩
  | @snoc d e j l g hm ih =>
    obtain ⟨u, hu, hadmitted⟩ := ih
    rw [events_snoc, List.filterMap_append, hadmitted]
    rcases pending_move hm with hsame | ⟨k, hpending, hl⟩
    · have hnone : (within d.machine.tick (eventsOf l)).filterMap TraceEvent.admission? = [] := by
        refine List.filterMap_eq_nil_iff.2 fun x hx => ?_
        obtain ⟨t, x⟩ := x
        cases x with
        | forked p =>
          -- an arrival would have taken a job
          obtain ⟨k, hk, -, -⟩ := hm.of_forked (mem_within.1 hx).2
          have hlength := congrArg List.length hk
          rw [hsame, List.length_cons] at hlength
          omega
        | _ => rfl
      exact ⟨u, hsame ▸ hu, by rw [hnone, List.append_nil]⟩
    · have hforked : Event.forked k.pid ∈ eventsOf l := by
        rw [hl]
        exact List.mem_singleton_self _
      have hstart : d.machine.tick = k.start := by
        obtain ⟨i, hi, -, hle⟩ := hm.of_forked hforked
        obtain ⟨rfl, -⟩ := List.cons.inj (hpending.symm.trans hi)
        exact Nat.le_antisymm (g.tick_le_start hc (hpending ▸ List.mem_cons_self)) hle
      refine ⟨u ++ [k], ?_, ?_⟩
      · rw [hu, hpending, List.append_assoc, List.singleton_append]
      · rw [hl, hstart, List.map_append]
        rfl

/-- The arrivals in a run are the timetable up to the tick limit. -/
theorem admissions_eq_timetable (hc : c.Valid) (hf : playAll s c = .ok f) :
    (traceOf c f).admissions = c.timetable c.maxTicks := by
  obtain ⟨a, g, hend, hbefore⟩ := exists_last hc hf
  obtain ⟨u, hu, hadmitted⟩ := g.admitted hc
  have hfront : ∀ k ∈ u, k.start < c.maxTicks := by
    intro k hk
    have hmem : (k.start, k.pid) ∈ f.journal.events.filterMap TraceEvent.admission? := by
      rw [hadmitted]
      exact List.mem_map.2 ⟨k, hk, rfl⟩
    obtain ⟨⟨t, e⟩, he, heq⟩ := List.mem_filterMap.1 hmem
    have htick : t = k.start := by
      cases e <;> cases heq
      rfl
    exact htick ▸ hbefore _ he
  have hback : ∀ k ∈ a.pending, c.maxTicks ≤ k.start := by
    intro k hk
    rcases hend with hended | ⟨-, htick⟩
    · rw [hended.2.2.1] at hk
      cases hk
    · exact htick ▸ g.tick_le_start hc hk
  have htaken : ((arrivals c.jobs).filter fun k => k.start < c.maxTicks) = u := by
    have hnone : (a.pending.filter fun k => k.start < c.maxTicks) = [] := by
      refine List.filter_eq_nil_iff.2 fun k hk => ?_
      rw [decide_eq_true_eq]
      exact Nat.not_lt.2 (hback k hk)
    rw [hu, List.filter_append, hnone, List.append_nil]
    exact List.filter_eq_self.2 fun k hk => decide_eq_true (hfront k hk)
  rw [timetable_eq_arrivals, htaken]
  exact hadmitted

/-! ## Arrivals of one process -/

theorem filter_forked (es : List TraceEvent) (p : Pid) :
    (es.filter fun e => e.event = .forked p) =
      ((es.filterMap TraceEvent.admission?).filter fun x => x.2 = p).map
        fun x => ⟨x.1, .forked x.2⟩ := by
  induction es with
  | nil => rfl
  | cons e es ih =>
    obtain ⟨t, e⟩ := e
    cases e with
    | forked q =>
      by_cases hq : q = p
      · simp [TraceEvent.admission?, hq, ih]
      · simp [TraceEvent.admission?, hq, ih]
    | _ =>
      rw [List.filterMap_cons_none rfl, ← ih]
      exact List.filter_cons_of_neg (by simp)

/-- The timetable has a job once if it starts in time, and else not at all. -/
theorem filter_timetable (hc : c.Sound) (hk : k ∈ c.jobs) :
    ((c.timetable n).filter fun x => x.2 = k.pid) =
      if k.start < n then [(k.start, k.pid)] else [] := by
  have hsole : ((arrivals c.jobs).filter fun i => i.pid = k.pid) = [k] := by
    rw [filter_arrivals, Scenario.filter_pid hc hk]
    rfl
  rw [timetable_eq_arrivals, List.filter_map, List.filter_filter]
  have hswap : ((arrivals c.jobs).filter fun i =>
      ((fun x : Nat × Pid => decide (x.2 = k.pid)) ∘ fun k => (k.start, k.pid)) i &&
        decide (i.start < n)) = [k].filter fun i => i.start < n := by
    rw [← hsole, List.filter_filter]
    refine List.filter_congr fun i _ => ?_
    exact Bool.and_comm _ _
  rw [hswap]
  by_cases hlt : k.start < n <;> simp [hlt]

end Simulation

open Simulation

/-- In the trace of a run the arrivals are the timetable up to the tick limit: tick by tick, in the
order of definition.  A job whose start is below the limit arrives once, in that tick, and one
whose start is not never arrives.  A run that ends normally has nobody left to arrive. -/
theorem admission_exact (s : Strategy) {c : Scenario} (hc : c.Valid) :
    ∃ t, Leaves s c t ∧ t.admissions = c.timetable c.maxTicks ∧
      (∀ k ∈ c.jobs, (t.events.filter fun e => e.event = .forked k.pid) =
        if k.start < c.maxTicks then [⟨k.start, .forked k.pid⟩] else []) ∧
      (t.exit = .normal → ∀ k ∈ c.jobs, ⟨k.start, .forked k.pid⟩ ∈ t.events) ∧
      ∀ u r, tickAt s c u = some r → r.exit = some .normal → r.after.pending = [] := by
  obtain ⟨f, hf⟩ := exists_playAll (s := s) hc
  have hadmissions := admissions_eq_timetable hc hf
  refine ⟨traceOf c f, leaves_of_playAll hc hf, hadmissions, ?_, ?_, ?_⟩
  · intro k hk
    rw [filter_forked]
    change ((traceOf c f).admissions.filter _).map _ = _
    rw [hadmissions, filter_timetable hc.sound hk]
    split <;> rfl
  · intro hexit k hk
    exact ((lives_of_normal hc hf hexit hk).arrival k.start).2 rfl
  · intro u r hr hexit
    obtain ⟨g, ran, b, m, acts, -, -, -, hpath, hcloses⟩ := tickAt_closes hc hr
    rcases hcloses.unbroken (hpath.regular hc).filed with ⟨hover, -, -⟩ | ⟨-, hnone⟩
    · rw [hcloses.after.1]
      exact hover.2.1
    · rw [hexit] at hnone
      cases hnone

/-- Two processes start together behind an idle stretch, one is listed after them and starts first,
one starts when the run is over. -/
def Scenario.scattered : Scenario where
  jobs := [
    { pid := ⟨4⟩, name := "late", start := 5, lifespan := 1, priority := 0, holds := [] },
    { pid := ⟨3⟩, name := "later", start := 5, lifespan := 1, priority := 2, holds := [] },
    { pid := ⟨2⟩, name := "absent", start := 9, lifespan := 1, priority := 0, holds := [] },
    { pid := ⟨1⟩, name := "early", start := 0, lifespan := 2, priority := 1, holds := [] }]
  resourceCount := 0
  limits := .standard
  maxTicks := 9
  audit := true

theorem admission_exact_scattered :
    ∃ t, Leaves .priority .scattered t ∧ t.exit = .tickLimit 9 ∧
      t.admissions = [(0, ⟨1⟩), (5, ⟨4⟩), (5, ⟨3⟩)] ∧
      (t.events.filter fun e => e.event = .forked ⟨3⟩) = [⟨5, .forked ⟨3⟩⟩] ∧
      (t.events.filter fun e => e.event = .forked ⟨2⟩) = [] := by
  obtain ⟨t, ht, hadmissions, honce, -, -⟩ :=
    admission_exact .priority (c := .scattered) (by decide)
  have hexit := ht.of_any (fun t => t.exit = .tickLimit 9) (by decide)
  have hlater := honce _ (.tail _ (.head _))
  have habsent := honce _ (.tail _ (.tail _ (.head _)))
  exact ⟨t, ht, hexit, hadmissions, hlater, habsent⟩

end Uniprocessor
