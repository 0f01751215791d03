import Uniprocessor.Proofs.Inversion
import Uniprocessor.Proofs.Workload
/-
  All strategies carry the same load.

  The demand of a moment is the CPU time that the jobs need that have arrived.  In a scenario
  without deadlocks a tick is busy exactly if less than the demand has been used before it
  (`busy_iff_demand`): an idle tick leaves nobody alive, and those who have ended have used what
  they need.  So the CPU time used and the jobs still to arrive decide whether a tick is busy and
  whether it is the last one, and they come out of the tick the same under any two strategies
  (`SameLoad`, `sameLoad_tick`, `sameLoad_run`).

  Main statement: `strategies_equal_in_load`.
-/

namespace Uniprocessor

/-- Who holds one resource at a time requests none while it has another. -/
theorem Scenario.Unnested.ordered {c : Scenario} (hc : c.Sound) (hu : c.Unnested) :
    c.Ordered := by
  intro k hk
  have hfits := (hc.jobs k hk).fits
  constructor
  · intro a ha b hb hlt hstop
    rcases eq_or_of_pairwise (fun _ _ => Hold.Apart.symm) (hu k hk) ha hb with rfl | hap | hap
    · omega
    · omega
    · have := (hfits b hb).since_lt
      omega
  · refine (hu k hk).imp_of_mem fun {a b} ha hb hap heq => ?_
    have := (hfits a ha).since_lt
    have := (hfits b hb).since_lt
    rcases hap with hap | hap <;> omega

/-- The CPU time that the jobs need that are not pending. -/
def Scenario.demand (c : Scenario) (pending : List Job) : Nat :=
  (c.jobs.map fun k => if k ∈ pending then 0 else k.lifespan).sum

namespace Simulation

variable {s s' : Strategy} {c : Scenario} {a b : Moment} {i j : Journal} {g g' : Progress}
variable {r r' : TickResult} {m : Machine} {k n : Nat} {p : Pid}

/-! ## Busy ticks -/

/-- A job that is still to arrive has used nothing. -/
theorem ageOf_pending (h : a.Regular c) {k : Job} (hk : k ∈ a.pending) :
    a.machine.ageOf k.pid = 0 := by
  rw [Machine.ageOf, Machine.age?_eq_none.2 (h.pending k hk).2]
  rfl

theorem Path.spent_le_demand (hc : c.Valid) (g : Path s (opening c).moment j b) :
    c.spent b.machine ≤ c.demand b.pending := by
  refine List.sum_le_sum fun k hk => ?_
  split
  · next hpending => exact Nat.le_of_eq (ageOf_pending (g.regular hc) hpending)
  · exact ageOf_le_lifespan hc.sound (g.regular hc) hk

/-- Where nobody is alive the demand has been met. -/
theorem Path.spent_eq_demand (hc : c.Valid) (g : Path s (opening c).moment j b)
    (hb : ∀ p, ¬ Alive b.machine p) : c.spent b.machine = c.demand b.pending := by
  refine congrArg _ (List.map_congr_left fun k hk => ?_)
  split
  · next hpending => exact ageOf_pending (g.regular hc) hpending
  · next hpending =>
    refine g.age_terminated hc hk (Decidable.byContradiction fun hend => ?_)
    have hknown := (g.pending_or_known hk).resolve_left hpending
    obtain ⟨x, hx⟩ := Option.ne_none_iff_exists'.1 hknown
    rw [Machine.status?_of hx] at hend
    exact hb k.pid ⟨_, Machine.status?_of hx, fun he => hend (congrArg some he)⟩

/-- Within a tick CPU time is used once, if at all. -/
theorem Path.spent_tick (hc : c.Valid) (g : Path s (opening c).moment i a) (h : Path s a j b)
    (ha : ¬ a.phase.Ran) (ht : b.machine.tick = a.machine.tick) :
    (b.phase.Ran → c.spent b.machine = c.spent a.machine + 1) ∧
      (¬ b.phase.Ran → c.spent b.machine = c.spent a.machine) := by
  induction h with
  | refl => exact ⟨fun hb => absurd hb ha, fun _ => rfl⟩
  | @snoc d e j l h hm ih =>
    have hle := h.tick_le
    have hmove := tick_le_move hm
    obtain ⟨hran, hquiet⟩ := ih (by omega)
    rcases spent_move hc (g.trans h) hm with ⟨hs, -, hiff⟩ | ⟨hs, -, hd, he⟩ | ⟨-, hpass, -, -⟩
    · rw [hs, hiff]
      exact ⟨hran, hquiet⟩
    · rw [hs, hquiet hd]
      exact ⟨fun _ => rfl, fun hn => absurd he hn⟩
    · omega

/-- What a tick of an ordered scenario does with the demand. -/
theorem busy_iff_demand (hc : c.Valid) (ho : c.Ordered) {ran : Bool} {before : Machine}
    (h : Path s (opening c).moment i g.moment)
    (hplay : Path s g.moment j ⟨.closing ran, m, before, g.later⟩)
    (ht : m.tick = g.machine.tick) :
    (ran = true ↔ c.spent g.machine < c.demand g.later) ∧
      c.spent m = c.spent g.machine + if ran then 1 else 0 := by
  have hpath := h.trans hplay
  obtain ⟨hbusy, hidle⟩ := h.spent_tick hc hplay id ht
  dsimp only [Progress.moment] at hbusy hidle
  cases ran with
  | true =>
    have hle := hpath.spent_le_demand hc
    dsimp only at hle
    rw [hbusy trivial] at hle ⊢
    exact ⟨⟨fun _ => hle, fun _ => rfl⟩, rfl⟩
  | false =>
    have heq := hpath.spent_eq_demand hc fun _ => hpath.none_alive hc ho rfl
    dsimp only at heq
    rw [hidle id] at heq ⊢
    exact ⟨⟨fun he => absurd he Bool.false_ne_true, fun hlt => absurd heq (Nat.ne_of_lt hlt)⟩, rfl⟩

/-! ## Two strategies, tick by tick -/

/-- Two ticks come to the same as far as the load goes. -/
structure SameLoad (c : Scenario) (r r' : TickResult) : Prop where
  exit : r.exit = r'.exit
  pending : r.after.pending = r'.after.pending
  spent : c.spent r.after.machine = c.spent r'.after.machine
  busy : (∃ p n, .ran p n ∈ eventsOf r.done) ↔ ∃ p n, .ran p n ∈ eventsOf r'.done
  idle : .idle ∈ eventsOf r.done ↔ .idle ∈ eventsOf r'.done

theorem exit_eq (hc : c.Valid) (ho : c.Ordered) {ran : Bool} {before : Machine} {u : List Job}
    {acts : List Activity} (g : Path s (opening c).moment j ⟨.closing ran, m, before, u⟩)
    (h : Closes c.audit ran before m u acts r) :
    r.exit = if ran = false ∧ u = [] then some .normal else none := by
  have hover := g.over_iff hc ho rfl
  rcases h.unbroken (g.regular hc).filed with ⟨h, hexit, -⟩ | ⟨h, hexit⟩
  · rw [hexit, if_pos (hover.1 h)]
  · rw [hexit, if_neg (mt hover.2 h)]

/-- From states that agree in what is to arrive and in the CPU time used, two strategies come to
the same in the next tick. -/
theorem sameLoad_tick (hc : c.Valid) (ho : c.Ordered) (s' : Strategy) (hk : k < c.maxTicks)
    (hg : startAt s c k = some g) (hg' : startAt s' c k = some g')
    (hpending : g.pending = g'.pending) (hspent : c.spent g.machine = c.spent g'.machine)
    (hr : tickAt s c k = some r) : ∃ r', tickAt s' c k = some r' ∧ SameLoad c r r' := by
  obtain ⟨ht, hbefore⟩ := startAt_moment hc hg
  obtain ⟨ht', hbefore'⟩ := startAt_moment hc hg'
  have hbound := hc.inRange.2.2.1
  obtain ⟨r', hr'⟩ : ∃ r', step s' c.audit g' = .ok r' :=
    exists_step hc (hbefore'.regular hc) (by omega)
  have hr' : tickAt s' c k = some r' := tickAt_eq_some.2 ⟨g', hg', hr'⟩
  refine ⟨r', hr', ?_⟩
  obtain ⟨d, ran, b, m, acts, hd, hm, hplay, hpath, hcloses⟩ := tickAt_closes hc hr
  obtain ⟨d', ran', b', m', acts', hd', hm', hplay', hpath', hcloses'⟩ := tickAt_closes hc hr'
  obtain rfl := Option.some.inj (hg.symm.trans hd)
  obtain rfl := Option.some.inj (hg'.symm.trans hd')
  have hlater : g.later = g'.later := by
    rw [Progress.later, Progress.later, hpending, ht, ht']
  obtain ⟨hran, hused⟩ := busy_iff_demand hc ho hbefore hplay (hm.trans ht.symm)
  obtain ⟨hran', hused'⟩ := busy_iff_demand hc ho hbefore' hplay' (hm'.trans ht'.symm)
  have hsame : ran = ran' := by
    rw [Bool.eq_iff_iff, hran, hran', hspent, hlater]
  obtain ⟨hbusy, hidle⟩ := hcloses.busy_iff hm hplay
  obtain ⟨hbusy', hidle'⟩ := hcloses'.busy_iff hm' hplay'
  obtain ⟨hafter, tick, hmachine⟩ := hcloses.after
  obtain ⟨hafter', tick', hmachine'⟩ := hcloses'.after
  refine ⟨?_, ?_, ?_, ?_, ?_⟩
  · rw [exit_eq hc ho hpath hcloses, exit_eq hc ho hpath' hcloses', hsame, hlater]
  · rw [hafter, hafter', hlater]
  · rw [hmachine, hmachine']
    change c.spent m = c.spent m'
    rw [hused, hused', hspent, hsame]
  · rw [hbusy, hbusy', hsame]
  · rw [hidle, hidle', hpath.over_iff hc ho rfl, hpath'.over_iff hc ho rfl, hsame, hlater]

theorem sameLoad_start (hc : c.Valid) (ho : c.Ordered) (s' : Strategy) (hk : k ≤ c.maxTicks)
    (hg : startAt s c k = some g) :
    ∃ g', startAt s' c k = some g' ∧ g.pending = g'.pending ∧
      c.spent g.machine = c.spent g'.machine := by
  induction k generalizing g with
  | zero =>
    cases hg
    exact ⟨opening c, rfl, rfl, rfl⟩
  | succ k ih =>
    obtain ⟨r, hr, he, rfl⟩ := startAt_succ.1 hg
    obtain ⟨g, hg, -⟩ := tickAt_eq_some.1 hr
    obtain ⟨g', hg', hpending, hspent⟩ := ih (Nat.le_of_succ_le hk) hg
    obtain ⟨r', hr', hsame⟩ := sameLoad_tick hc ho s' hk hg hg' hpending hspent hr
    exact ⟨r'.after, startAt_succ.2 ⟨r', hr', hsame.exit ▸ he, rfl⟩, hsame.pending, hsame.spent⟩

/-- Every tick of a run comes to the same as that of any other strategy. -/
theorem sameLoad_run (hc : c.Valid) (ho : c.Ordered) (s' : Strategy) (hk : k < c.maxTicks)
    (hr : tickAt s c k = some r) : ∃ r', tickAt s' c k = some r' ∧ SameLoad c r r' := by
  obtain ⟨g, hg, -⟩ := tickAt_eq_some.1 hr
  obtain ⟨g', hg', hpending, hspent⟩ := sameLoad_start hc ho s' (Nat.le_of_lt hk) hg
  exact sameLoad_tick hc ho s' hk hg hg' hpending hspent hr

/-- Two runs come to the same exit at one time. -/
theorem exits_agree {m' : Machine} {e e' : Exit} (hc : c.Valid) (ho : c.Ordered)
    (h : Exits s c c.maxTicks m e) (h' : Exits s' c c.maxTicks m' e') :
    e = e' ∧ m.tick = m'.tick := by
  cases h with
  | @ended k r _ hk hr he =>
    obtain ⟨q, hq, hsame⟩ := sameLoad_run hc ho s' hk hr
    have hlast : q.exit ≠ none := by
      rw [← hsame.exit, he]
      exact Option.some_ne_none _
    cases h' with
    | @ended t _ _ ht hr' he' =>
      rcases Nat.lt_trichotomy k t with hlt | heq | hlt
      · rw [tickAt_after hq hlast hlt] at hr'
        cases hr'
      · subst heq
        exact ⟨(tickAt_ended hc hr he).1.trans (tickAt_ended hc hr' he').1.symm,
          (tickAt_ended hc hr he).2.trans (tickAt_ended hc hr' he').2.symm⟩
      · rw [tickAt_after hr' (by simp [he']) hlt] at hq
        cases hq
    | limit hg' =>
      rw [startAt_after hq hlast hk] at hg'
      cases hg'
  | limit hg =>
    obtain ⟨d, hd, -⟩ := sameLoad_start hc ho s' (Nat.le_refl _) hg
    cases h' with
    | ended hk' hr' he' =>
      rw [startAt_after hr' (by simp [he']) hk'] at hd
      cases hd
    | limit hg' => exact ⟨rfl, (startAt_moment hc hg).1.trans (startAt_moment hc hg').1.symm⟩

/-! ## Work -/

variable {run run' : Run}

/-- A process that runs has not exited before. -/
theorem not_exited_before {v : Nat} (hc : c.Valid) (hrun : simulate s c = .ok run)
    (hran : ⟨k, .ran p n⟩ ∈ run.trace.events) (hv : v < k) :
    ⟨v, .exited p⟩ ∉ run.trace.events := by
  intro hexit
  obtain ⟨hlt, r, hr, hdone⟩ := (mem_trace hc hrun).1 hran
  obtain ⟨d, hd, hstep⟩ := tickAt_eq_some.1 hr
  obtain ⟨ht, hbefore⟩ := startAt_moment hc hd
  have hend := (hbefore.terminated_iff hc).2
    ⟨v, (mem_events_historyBefore hc hrun (Nat.le_of_lt hlt)).2 ⟨hv, hexit⟩⟩
  obtain ⟨_, hplay, -⟩ := step_moment hc (hbefore.regular hc) hstep
  refine hplay.not_engaged hc (hbefore.regular hc) hend ⟨k, .ran p n⟩ ?_ rfl
  rw [events_stamp, ht]
  exact mem_within.2 ⟨rfl, hdone⟩

/-- A tick is busy at whose end a process is alive. -/
theorem busy_of_alive (hc : c.Valid) (ho : c.Ordered) (hr : tickAt s c k = some r)
    (hp : Alive r.after.machine p) : ∃ p n, .ran p n ∈ eventsOf r.done := by
  obtain ⟨d, ran, before, m, acts, -, hm, hplay, hpath, hcloses⟩ := tickAt_closes hc hr
  obtain ⟨-, tick, hafter⟩ := hcloses.after
  rw [hafter] at hp
  cases ran with
  | true => exact (hcloses.busy_iff hm hplay).1.2 rfl
  | false => exact absurd hp (hpath.none_alive hc ho rfl)

/-- A tick before the end is busy if a process is there for it that has not exited before. -/
theorem busy_iff_alive (hc : c.Valid) (ho : c.Ordered) (hrun : simulate s c = .ok run)
    (hk : k < run.trace.endTick) :
    (∃ p n, ⟨k, .ran p n⟩ ∈ run.trace.events) ↔
      ∃ p, (∃ u ≤ k, ⟨u, .forked p⟩ ∈ run.trace.events) ∧
        ∀ v < k, ⟨v, .exited p⟩ ∉ run.trace.events := by
  obtain ⟨hle, g, hg⟩ := simulate_end hc hrun
  have hlt : k < c.maxTicks := Nat.lt_of_lt_of_le hk hle
  obtain ⟨r, hr, -⟩ := startAt_before hg hk
  obtain ⟨e, hhistory, -⟩ := tickAt_moment hc hr
  have hmem := fun {t : Nat} {x : Event} => mem_events_historyAt (t := t) (e := x) hc hrun hlt
  constructor
  · rintro ⟨p, n, hran⟩
    obtain ⟨pre, post, hcut⟩ := List.append_of_mem (hmem.2 ⟨Nat.le_refl k, hran⟩)
    obtain ⟨⟨u, hu⟩, -⟩ := hhistory.forked_before hcut
    obtain ⟨huk, hforked⟩ := hmem.1 (hcut ▸ List.mem_append_left _ hu)
    exact ⟨p, ⟨u, huk, hforked⟩, fun v hv => not_exited_before hc hrun hran hv⟩
  · rintro ⟨p, hforked, hexit⟩
    by_cases hleft : ⟨k, .exited p⟩ ∈ run.trace.events
    · -- who exits in a tick runs in it
      have hleft := hmem.2 ⟨Nat.le_refl k, hleft⟩
      obtain ⟨job, hjob, rfl⟩ := hhistory.job_of_engaged hc hleft rfl
      exact ⟨_, _, (hmem.1 (hhistory.ran_of_exited hc hjob hleft)).2⟩
    · have halive : Alive r.after.machine p := by
        refine (tickAt_alive hc hrun hlt hr).2 ⟨hforked, fun v hv hgone => ?_⟩
        rcases Nat.lt_or_eq_of_le hv with hvk | rfl
        · exact hexit v hvk hgone
        · exact hleft hgone
      obtain ⟨q, n, hran⟩ := busy_of_alive hc ho hr halive
      exact ⟨q, n, (mem_trace hc hrun).2 ⟨hlt, r, hr, hran⟩⟩

/-- What is busy in one run is busy in any other, and what is idle is idle. -/
theorem ticks_agree (hc : c.Valid) (ho : c.Ordered) (hrun : simulate s c = .ok run)
    (hrun' : simulate s' c = .ok run') :
    ((∃ p n, ⟨k, .ran p n⟩ ∈ run.trace.events) → ∃ p n, ⟨k, .ran p n⟩ ∈ run'.trace.events) ∧
      (⟨k, .idle⟩ ∈ run.trace.events → ⟨k, .idle⟩ ∈ run'.trace.events) := by
  simp only [mem_trace hc hrun, mem_trace hc hrun']
  constructor
  · rintro ⟨p, n, hlt, r, hr, hran⟩
    obtain ⟨r', hr', hsame⟩ := sameLoad_run hc ho s' hlt hr
    obtain ⟨q, i, hran'⟩ := hsame.busy.1 ⟨p, n, hran⟩
    exact ⟨q, i, hlt, r', hr', hran'⟩
  · rintro ⟨hlt, r, hr, hidle⟩
    obtain ⟨r', hr', hsame⟩ := sameLoad_run hc ho s' hlt hr
    exact ⟨hlt, r', hr', hsame.idle.1 hidle⟩

end Simulation

open Simulation

variable {c : Scenario}

/-- Where no process holds two resources at a time, all strategies are work-conserving and equal in
load: a tick before the end of a run is busy exactly when a process that has arrived by then has not
exited before, and the runs of any two strategies have the same busy ticks, the same idle ticks, the
same end and the same exit. -/
theorem strategies_equal_in_load {run : Run} (s : Strategy) (hc : c.Valid) (hu : c.Unnested)
    (hrun : simulate s c = .ok run) :
    (∀ k < run.trace.endTick, (∃ p n, ⟨k, .ran p n⟩ ∈ run.trace.events) ↔
      ∃ p, (∃ u ≤ k, ⟨u, .forked p⟩ ∈ run.trace.events) ∧
        ∀ v < k, ⟨v, .exited p⟩ ∉ run.trace.events) ∧
    ∀ s' run', simulate s' c = .ok run' →
      (∀ k, (∃ p n, ⟨k, .ran p n⟩ ∈ run.trace.events) ↔
        ∃ p n, ⟨k, .ran p n⟩ ∈ run'.trace.events) ∧
      (∀ k, ⟨k, .idle⟩ ∈ run.trace.events ↔ ⟨k, .idle⟩ ∈ run'.trace.events) ∧
      run.trace.endTick = run'.trace.endTick ∧ run.trace.exit = run'.trace.exit := by
  have ho := hu.ordered hc.sound
  refine ⟨fun k hk => busy_iff_alive hc ho hrun hk, fun s' run' hrun' => ⟨?_, ?_, ?_⟩⟩
  · exact fun k => ⟨(ticks_agree hc ho hrun hrun').1, (ticks_agree hc ho hrun' hrun).1⟩
  · exact fun k => ⟨(ticks_agree hc ho hrun hrun').2, (ticks_agree hc ho hrun' hrun).2⟩
  · obtain ⟨m, hexits, hend⟩ := simulate_exits hc hrun
    obtain ⟨m', hexits', hend'⟩ := simulate_exits hc hrun'
    obtain ⟨hexit, htick⟩ := exits_agree hc ho hexits hexits'
    exact ⟨by rw [hend, hend', htick], hexit⟩

/-- Two strategies may differ in everything else. -/
theorem strategies_equal_in_load_contended :
    ∃ run run', simulate .roundRobin .contended = .ok run ∧
      simulate .priorityInheritance .contended = .ok run' ∧
      run.trace.events ≠ run'.trace.events ∧
      (∀ k, (∃ p n, ⟨k, .ran p n⟩ ∈ run.trace.events) ↔
        ∃ p n, ⟨k, .ran p n⟩ ∈ run'.trace.events) ∧
      (∀ k, ⟨k, .idle⟩ ∈ run.trace.events ↔ ⟨k, .idle⟩ ∈ run'.trace.events) ∧
      run.trace.endTick = run'.trace.endTick ∧ run.trace.exit = run'.trace.exit := by
  have hsim : (simulate .roundRobin .contended).toOption.any (fun run =>
      (simulate .priorityInheritance .contended).toOption.any fun run' =>
        decide (run.trace.events ≠ run'.trace.events)) = true := by
    decide
  obtain ⟨run, hrun, hsim⟩ := Option.any_eq_true _ _ |>.1 hsim
  obtain ⟨run', hrun', hne⟩ := Option.any_eq_true _ _ |>.1 hsim
  have hrun := toOption_eq_some.1 hrun
  have hrun' := toOption_eq_some.1 hrun'
  obtain ⟨-, hequal⟩ := strategies_equal_in_load .roundRobin (c := .contended) (by decide)
    (by unfold Scenario.Unnested; decide) hrun
  exact ⟨run, run', hrun, hrun', of_decide_eq_true hne, hequal _ _ hrun'⟩

end Uniprocessor
