import Uniprocessor.Proofs.Rotation
import Uniprocessor.Proofs.Turnaround
/-
  Round robin is fair where nobody holds anything.

  From one turn of a process to its next, every other process that was there at the first has one
  turn.  Arrivals join the line in front of the process that runs, and processes leave it when they
  are done, so that no place in the line is fixed.  What stays is who is ahead of whom.  `Lap`
  follows a process `q` from one turn of `p` to the next: it is ahead of `p` in the line, it has the
  CPU, it is behind `p` or gone, and then `p` has the CPU.

  Main statement: `round_robin_is_fair`.
-/

namespace Uniprocessor

section Lines

variable {l k : List Pid} {p q v : Pid}

theorem ahead_append_singleton (hv : v ≠ p) :
    [q, p].Sublist (l ++ [v]) ↔ [q, p].Sublist l := by
  refine ⟨fun h => ?_, fun h => h.trans (List.sublist_append_left _ _)⟩
  obtain ⟨xs, ys, heq, hxs, hys⟩ := List.sublist_append_iff.1 h
  rcases List.sublist_singleton.1 hys with rfl | rfl
  · rwa [heq, List.append_nil]
  · have hlast := congrArg List.getLast? heq
    simp only [List.getLast?_append, List.getLast?_singleton, List.getLast?_cons_cons,
      Option.some_or, Option.some.injEq] at hlast
    exact absurd hlast.symm hv

/-- Who joins the line changes nobody's place to another. -/
theorem ahead_insert (hp : v ≠ p) (hq : v ≠ q) :
    [q, p].Sublist (l ++ v :: k) ↔ [q, p].Sublist (l ++ k) := by
  refine ⟨fun h => ?_, fun h => h.trans ((List.Sublist.refl l).append (List.sublist_cons_self v k))⟩
  have hfilter := h.filter (· ≠ v)
  have hpair : [q, p].filter (· ≠ v) = [q, p] := by simp [hp.symm, hq.symm]
  rw [hpair, List.filter_append, List.filter_cons_of_neg (by simp), ← List.filter_append] at hfilter
  exact hfilter.trans List.filter_sublist

theorem ahead_of_cons (hv : v ≠ q) (h : [q, p].Sublist (v :: l)) : [q, p].Sublist l := by
  rcases List.sublist_cons_iff.1 h with h | ⟨_, heq, -⟩
  · exact h
  · exact absurd (List.cons.inj heq).1.symm hv

end Lines

namespace Simulation

variable {c : Scenario} {a b : Moment} {l : List Activity} {i j : Journal} {p q v : Pid} {n : Nat}

/-- How the process `q`, which has run `n` times since the last turn of `p`, stands to it. -/
inductive Lap (p q : Pid) (a : Moment) : Nat → Prop
  | ahead : [q, p].Sublist a.rota.line → a.phase.called ≠ some p → a.phase.called ≠ some q →
      Lap p q a 0
  | turn : p ∈ a.rota.ready → a.phase.called = some q → Lap p q a 0
  | behind : p ∈ a.rota.line → ¬ [q, p].Sublist a.rota.line → a.phase.called ≠ some p →
      a.phase.called ≠ some q → Lap p q a 1
  | again : a.phase.called = some p → Lap p q a 1

/-- The number of times that `q` runs in these events. -/
def runsIn (q : Pid) (es : List TraceEvent) : Nat := es.countP fun e => Trace.isRunOf q e.event

/-- Where nobody is put on the CPU and nobody passes another, nothing changes. -/
theorem Lap.still (h : Lap p q a n) (ha : a.phase.called = none) (hb : b.phase.called = none)
    (hp : p ∈ a.rota.line → p ∈ b.rota.line)
    (hline : [q, p].Sublist b.rota.line ↔ [q, p].Sublist a.rota.line) : Lap p q b n := by
  have hnone : ∀ v, b.phase.called ≠ some v := by simp [hb]
  cases h with
  | ahead hahead => exact .ahead (hline.2 hahead) (hnone p) (hnone q)
  | behind hmem hahead => exact .behind (hp hmem) (mt hline.1 hahead) (hnone p) (hnone q)
  | turn _ hcalled | again hcalled =>
    rw [ha] at hcalled
    cases hcalled

/-- Round robin calls the first in the line, who goes to its end. -/
theorem Lap.pick {rest : List Pid} (h : Lap p q a n) (hpq : p ≠ q) (ha : a.phase.called = none)
    (hnodup : a.rota.line.Nodup) (hline : a.rota.line = v :: rest)
    (hcalled : b.phase.called = some v) (hrota : b.rota = ⟨rest, some v⟩) : Lap p q b n := by
  have hb : b.rota.line = rest ++ [v] := by rw [hrota]; rfl
  rw [hline] at hnodup
  have hfresh := (List.nodup_cons.1 hnodup).1
  cases h with
  | ahead hahead =>
    rw [hline] at hahead
    by_cases hvq : v = q
    · refine .turn ?_ (hvq ▸ hcalled)
      rw [hrota]
      exact (List.mem_cons.1 (hahead.subset (by simp))).resolve_left fun hpv => hpq (hpv.trans hvq)
    · have hrest := ahead_of_cons hvq hahead
      have hvp : v ≠ p := fun hvp => hfresh (hvp ▸ hrest.subset (by simp))
      refine .ahead ?_ (by simpa [hcalled] using hvp) (by simpa [hcalled] using hvq)
      rw [hb]
      exact (ahead_append_singleton hvp).2 hrest
  | behind hmem hahead =>
    rw [hline] at hmem hahead
    by_cases hvp : v = p
    · exact .again (hvp ▸ hcalled)
    · have hrest := (List.mem_cons.1 hmem).resolve_left (Ne.symm hvp)
      have hvq : v ≠ q := by
        rintro rfl
        exact hahead ((List.singleton_sublist.2 hrest).cons_cons v)
      refine .behind ?_ ?_ (by simpa [hcalled] using hvp) (by simpa [hcalled] using hvq)
      · rw [hb]
        exact List.mem_append_left _ hrest
      · rw [hb, ahead_append_singleton hvp]
        exact fun h => hahead (h.cons v)
  | turn _ hcall | again hcall =>
    rw [ha] at hcall
    cases hcall

/-- The turn of another process counts if it is that of `q`. -/
theorem Lap.run (h : Lap p q a n) (hpq : p ≠ q) (hv : v ≠ p) (hcalled : a.phase.called = some v)
    (hb : b.phase.called = none) (hnodup : a.rota.line.Nodup) (hrunner : a.rota.runner = some v)
    (hrota : b.rota = a.rota) : Lap p q b (n + if v = q then 1 else 0) := by
  have hnone : ∀ v, b.phase.called ≠ some v := by simp [hb]
  cases h with
  | ahead hahead _ hq =>
    have hvq : v ≠ q := fun hvq => hq (hvq ▸ hcalled)
    rw [if_neg hvq]
    exact .ahead (hrota ▸ hahead) (hnone p) (hnone q)
  | turn hready hq =>
    obtain rfl : v = q := Option.some.inj (hcalled.symm.trans hq)
    have hline : a.rota.line = a.rota.ready ++ [v] := by rw [Rota.line, hrunner]; rfl
    rw [if_pos rfl]
    refine .behind ?_ ?_ (hnone p) (hnone v)
    · rw [hrota, hline]
      exact List.mem_append_left _ hready
    · rw [hrota, hline, ahead_append_singleton hv]
      intro hahead
      rw [hline] at hnodup
      have hmem : v ∈ a.rota.ready := hahead.subset (by simp)
      exact List.disjoint_of_nodup_append hnodup hmem (List.mem_singleton_self v)
  | behind hmem hahead _ hq =>
    have hvq : v ≠ q := fun hvq => hq (hvq ▸ hcalled)
    rw [if_neg hvq]
    exact .behind (hrota ▸ hmem) (hrota ▸ hahead) (hnone p) (hnone q)
  | again hp => exact absurd (Option.some.inj (hcalled.symm.trans hp)) hv

theorem runsIn_eq_zero {t : Nat} (hl : ∀ k, .ran q k ∉ l) :
    runsIn q (within t (eventsOf l)) = 0 := by
  refine List.countP_eq_zero.2 fun e he hrun => ?_
  have hmem := (mem_within.1 he).2
  cases hev : e.event with
  | ran o k =>
    rw [hev] at hrun hmem
    obtain rfl : o = q := by simpa [Trace.isRunOf] using hrun
    exact hl k (ran_mem_eventsOf.1 hmem)
  | _ => simp [hev, Trace.isRunOf] at hrun

theorem Lap.move (hc : c.Valid) (hbare : c.Bare) (hreg : a.Regular c)
    (hm : Move .roundRobin a l b) (hpq : p ≠ q) (hp : a.machine.process? p ≠ none)
    (hq : a.machine.process? q ≠ none) (hran : ∀ k, .ran p k ∉ l) (hexit : .exited p ∉ l)
    (h : Lap p q a n) : Lap p q b (n + runsIn q (within a.machine.tick (eventsOf l))) := by
  have hnodup : a.rota.line.Nodup := hreg.filed.line_nodup
  have still (hl : ∀ k, .ran q k ∉ l) (h : Lap p q b n) :
      Lap p q b (n + runsIn q (within a.machine.tick (eventsOf l))) := by
    rwa [runsIn_eq_zero hl]
  cases rotates_move rfl hc hbare hreg hm with
  | @arrive k hl ha hb _ _ hnew hrota =>
    have hline : b.rota.line = a.rota.ready ++ k.pid :: a.rota.runner.toList := by
      rw [hrota]
      exact List.append_assoc _ _ _
    have hkp : k.pid ≠ p := fun hkp => hp (hkp ▸ hnew)
    have hkq : k.pid ≠ q := fun hkq => hq (hkq ▸ hnew)
    refine still (by simp [hl]) (h.still (by rw [ha]; rfl) (by rw [hb]; rfl) (fun hmem => ?_) ?_)
    · rw [hline]
      rcases List.mem_append.1 hmem with hmem | hmem
      · exact List.mem_append_left _ hmem
      · exact List.mem_append_right _ (List.mem_cons_of_mem _ hmem)
    · rw [hline]
      exact ahead_insert hkp hkq
  | begin hl ha hb _ _ hrota | remain hl ha hb hrota =>
    refine still (by simp [hl]) (h.still (by rw [ha]; rfl) (by rw [hb]; rfl) ?_ ?_)
    · rw [hrota]
      exact id
    · rw [hrota]
  | close hl ha hb _ _ hrota =>
    refine still (fun k hk => ?_) (h.still (by rw [ha]; rfl) (by rw [hb]; rfl) ?_ ?_)
    · rcases mem_closingEntries (hl ▸ hk) with heq | ⟨_, _, _, heq⟩ <;> cases heq
    · rw [hrota]
      exact id
    · rw [hrota]
  | idle hl ha _ hempty =>
    refine still (by simp [hl]) ?_
    cases h with
    | ahead hahead =>
      rw [hempty] at hahead
      cases hahead
    | behind hmem =>
      rw [hempty] at hmem
      cases hmem
    | turn _ hcalled | again hcalled =>
      rw [ha] at hcalled
      cases hcalled
  | @pick o d v hl ha hb hbest hrota =>
    obtain ⟨rest, hline⟩ := hbest.head fun _ ⟨_, _, _, _, hxy⟩ => hxy
    refine still (by simp [hl]) (h.pick hpq (by rw [ha]; rfl) hnodup hline (by rw [hb]; rfl) ?_)
    rw [hrota, hline, List.erase_cons_head]
  | @run d v k hl ha hb hrunner hrota =>
    have hv : v ≠ p := by
      rintro rfl
      exact hran k (by simp [hl])
    have hcount : runsIn q (within a.machine.tick (eventsOf l)) = if v = q then 1 else 0 := by
      rw [hl]
      by_cases hvq : v = q <;> simp [runsIn, eventsOf, Activity.event?, within, Trace.isRunOf, hvq]
    rw [hcount]
    exact h.run hpq hv (by rw [ha]; rfl) (by rw [hb]; rfl) hnodup hrunner hrota
  | @exit v hl ha hb hrunner hrota =>
    have hv : v ≠ p := by
      rintro rfl
      exact hexit (by simp [hl])
    have hline : a.rota.line = a.rota.ready ++ [v] := by rw [Rota.line, hrunner]; rfl
    have hrest : b.rota.line = a.rota.ready := by rw [hrota]; exact List.append_nil _
    refine still (by simp [hl]) (h.still (by rw [ha]; rfl) (by rw [hb]; rfl) (fun hmem => ?_) ?_)
    · rw [hline] at hmem
      rw [hrest]
      exact (List.mem_append.1 hmem).resolve_right fun hlast => hv (List.mem_singleton.1 hlast).symm
    · rw [hline, hrest, ahead_append_singleton hv]

theorem Path.lap (hc : c.Valid) (hbare : c.Bare) (ha : a.Regular c) (g : Path .roundRobin a j b)
    (hpq : p ≠ q) (hp : a.machine.process? p ≠ none) (hq : a.machine.process? q ≠ none)
    (hran : ∀ t k, ⟨t, .ran p k⟩ ∉ j.events) (hexit : ∀ t, ⟨t, .exited p⟩ ∉ j.events)
    (h : Lap p q a n) : Lap p q b (n + runsIn q j.events) := by
  induction g with
  | refl => exact h
  | @snoc d e j l g hm ih =>
    simp only [events_snoc, List.mem_append, not_or] at hran hexit
    have hlast := ih (fun t k => (hran t k).1) fun t => (hexit t).1
    rw [events_snoc, runsIn, List.countP_append, ← Nat.add_assoc]
    refine hlast.move hc hbare (ha.path hc g) hm hpq ?_ ?_ (fun k hk => ?_) fun hl => ?_
    · exact g.invariant (fun _ _ _ h hm => known_move hm h) hp
    · exact g.invariant (fun _ _ _ h hm => known_move hm h) hq
    · exact (hran d.machine.tick k).2 (mem_within.2 ⟨rfl, ran_mem_eventsOf.2 hk⟩)
    · exact (hexit d.machine.tick).2 (mem_within.2 ⟨rfl, exited_mem_eventsOf.2 hl⟩)

/-- When `p` has run, everybody else that is there is ahead of it. -/
theorem Path.lap_start (hc : c.Valid) (hbare : c.Bare) (g : Path .roundRobin (opening c).moment j a)
    {due : List ResourceId} (ha : a.phase = .releasing p due) (hpq : p ≠ q)
    (hq : Alive a.machine q) : Lap p q a 0 := by
  have hreg := g.regular hc
  have hrun := (hreg.returns ha).2.running
  have hrunner : a.rota.runner = some p := hreg.filed.runner?_eq_some.2 hrun
  have hactive := hq.active_or_waiting.resolve_right (g.not_waiting hc hbare)
  have hready : q ∈ a.rota.ready :=
    (hreg.filed.mem_ready q).2 (hactive.resolve_right fun hother =>
      hpq (hreg.filed.running_unique hrun hother))
  refine .ahead ?_ (by rw [ha]; nofun) (by rw [ha]; nofun)
  rw [Rota.line, hrunner]
  exact (List.singleton_sublist.2 hready).append (.refl [p])

/-- When `p` is to run again, everybody else has had a turn. -/
theorem Lap.complete (h : Lap p q a n) (hpq : p ≠ q) (ha : a.phase.called = some p) : n = 1 := by
  cases h with
  | ahead _ hp | behind _ _ hp => exact absurd ha hp
  | turn _ hq => exact absurd (Option.some.inj (ha.symm.trans hq)) hpq
  | again => rfl

end Simulation

open Simulation

/-- Under round robin, where nobody holds anything, everybody has one turn between one turn of a
process and its next who had arrived and not exited by the first of them. -/
theorem round_robin_is_fair {c : Scenario} (hc : c.Valid) (hbare : c.Bare) {run : Run}
    (hrun : simulate .roundRobin c = .ok run) {p q : Pid} {t t' n n' : Nat}
    {pre mid post : List TraceEvent}
    (hevents : run.trace.events = pre ++ ⟨t, .ran p n⟩ :: (mid ++ ⟨t', .ran p n'⟩ :: post))
    (hmid : ∀ u k, ⟨u, .ran p k⟩ ∉ mid) (hpq : p ≠ q)
    (hforked : ∃ u ≤ t, ⟨u, .forked q⟩ ∈ run.trace.events)
    (hexit : ∀ u ≤ t, ⟨u, .exited q⟩ ∉ run.trace.events) : runsIn q mid = 1 := by
  obtain ⟨j, b, g, hj, -, -⟩ := path_of_simulate hc hrun
  rw [hj] at hevents hforked hexit
  obtain ⟨d, f, i, rest, rfl, hrest, hd, ht, hm, hpath⟩ := g.split_run hevents
  obtain ⟨d', f', i', rest', rfl, -, hpath', -, hm', -⟩ := hpath.split_run hrest.symm
  obtain ⟨-, _, -, due, _, hphase, -⟩ := hm.of_ran (List.mem_singleton_self _)
  obtain ⟨-, _, hphase', -⟩ := hm'.of_ran (List.mem_singleton_self _)
  have hf := hd.snoc hm
  have hf' := hf.trans hpath'
  have htick : f.machine.tick = t := (tick_of_ran hm (List.mem_singleton_self _)).trans ht
  -- the events up to the first turn are events of the run
  have hpast : ∀ e, e ∈ (i ++ stamp d.machine.tick [.ran p n]).events → e ∈ j.events := by
    intro e he
    rw [hevents]
    rw [events_snoc, ht] at he
    rcases List.mem_append.1 he with he | he
    · exact List.mem_append_left _ he
    · rw [List.mem_singleton.1 he]
      exact List.mem_append_right _ List.mem_cons_self
  have halive : Alive f.machine q := by
    obtain ⟨u, hle, hu⟩ := hforked
    obtain ⟨k, hk, rfl⟩ := g.job_of_forked hc hu
    have hstart := (hf.forked_iff hc (by simp [hphase]) hk).2
      ⟨g.forked_at_start hc hk hu, Nat.le_trans hle (Nat.le_of_eq htick.symm)⟩
    refine (hf.alive_iff hc).2 ⟨⟨u, hstart⟩, fun v hv => ?_⟩
    exact hexit v (Nat.le_trans (hf.tick_mem hv).2 (Nat.le_of_eq htick)) (hpast _ hv)
  have hrunning := ((hf.regular hc).returns hphase).2.running
  have hrunning' := ((hf'.regular hc).requests hphase').2.running
  have hstill : ∀ u, ⟨u, .exited p⟩ ∉ i'.events := by
    intro u hu
    refine ((hf'.alive_iff hc).1 (alive_of_running hrunning')).2 u ?_
    rw [events_append]
    exact List.mem_append_right _ hu
  have hlap := hpath'.lap hc hbare (hf.regular hc) hpq (alive_of_running hrunning).known
    halive.known hmid hstill (hf.lap_start hc hbare hphase hpq halive)
  rw [Nat.zero_add] at hlap
  exact hlap.complete hpq (by rw [hphase']; rfl)

/-- A short process leaves the line and another one joins it between two turns of the longest. -/
def Scenario.circling : Scenario where
  jobs := [
    { pid := ⟨1⟩, name := "long", start := 0, lifespan := 3, priority := 0, holds := [] },
    { pid := ⟨2⟩, name := "short", start := 0, lifespan := 1, priority := 0, holds := [] },
    { pid := ⟨3⟩, name := "late", start := 1, lifespan := 2, priority := 0, holds := [] }]
  resourceCount := 0
  limits := .standard
  maxTicks := 20
  audit := true

theorem round_robin_is_fair_circling :
    ∃ run pre mid post, simulate .roundRobin .circling = .ok run ∧
      run.trace.events = pre ++ ⟨0, .ran ⟨1⟩ 1⟩ :: (mid ++ ⟨3, .ran ⟨1⟩ 2⟩ :: post) ∧
      ⟨1, .forked ⟨3⟩⟩ ∈ mid ∧ ⟨1, .exited ⟨2⟩⟩ ∈ mid ∧ runsIn ⟨2⟩ mid = 1 := by
  have hsim : (simulate .roundRobin .circling).toOption.any (fun run =>
      decide (run.trace.events = run.trace.events.take 3 ++ ⟨0, .ran ⟨1⟩ 1⟩ ::
          ((run.trace.events.drop 4).take 7 ++ ⟨3, .ran ⟨1⟩ 2⟩ :: run.trace.events.drop 12) ∧
        runsIn ⟨1⟩ ((run.trace.events.drop 4).take 7) = 0 ∧
        ⟨1, .forked ⟨3⟩⟩ ∈ (run.trace.events.drop 4).take 7 ∧
        ⟨1, .exited ⟨2⟩⟩ ∈ (run.trace.events.drop 4).take 7 ∧
        ⟨0, .forked ⟨2⟩⟩ ∈ run.trace.events ∧ ⟨0, .exited ⟨2⟩⟩ ∉ run.trace.events)) = true := by
    decide
  obtain ⟨run, hrun, hsplit⟩ := Option.any_eq_true _ _ |>.1 hsim
  obtain ⟨hevents, hmid, hjoins, hleaves, hforked, hexit⟩ := of_decide_eq_true hsplit
  have hrun := toOption_eq_some.1 hrun
  refine ⟨run, _, _, _, hrun, hevents, hjoins, hleaves, round_robin_is_fair (by decide) (by decide)
    hrun hevents (fun u k hu => ?_) (by decide) ⟨0, Nat.le_refl 0, hforked⟩ fun u hu => ?_⟩
  · exact List.countP_eq_zero.1 hmid _ hu (by simp [Trace.isRunOf])
  · exact Nat.le_zero.1 hu ▸ hexit

end Uniprocessor
