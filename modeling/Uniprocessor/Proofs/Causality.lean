import Uniprocessor.Proofs.Division
import Uniprocessor.Proofs.Lockstep
/-
  The past of a run is settled by what has arrived.

  The jobs that are still to arrive are listed by their start, so that those of a tick are the
  front of the list whatever stands behind them (`takeWhile_start`).  Two runs whose machines agree
  before a tick, and whose lists agree up to that tick, play the same in it (`sameBy_tick`); they
  can differ in whether they end there, for one may still wait for a job where the other is done,
  but as long as both go on they agree before the next tick as well (`sameBy_start`).  The audit
  and the tick limit have a say in the end only.

  Main statement: `runs_causal`.
-/

namespace Uniprocessor

/-- The jobs that arrive by the tick `T`, in the order of definition. -/
def Scenario.jobsBy (c : Scenario) (T : Nat) : List Job := c.jobs.filter fun j => j.start ≤ T

namespace Simulation

/-! ## What is to arrive by a tick -/

section Arrivals

variable {u v : List Job} {t T : Nat}

theorem takeWhile_start (hu : u.Pairwise (·.start ≤ ·.start)) :
    u.takeWhile (fun j => decide (j.start ≤ t)) = u.filter fun j => j.start ≤ t := by
  induction u with
  | nil => rfl
  | cons j u ih =>
    obtain ⟨hj, hu⟩ := List.pairwise_cons.1 hu
    by_cases hstart : j.start ≤ t
    · rw [List.takeWhile_cons_of_pos (by simpa using hstart),
        List.filter_cons_of_pos (by simpa using hstart), ih hu]
    · -- the first one is late, and with it all that follow
      have hlate : (j :: u).filter (fun j => j.start ≤ t) = [] := by
        refine List.filter_eq_nil_iff.2 fun k hk => ?_
        have hle : j.start ≤ k.start := by
          rcases List.mem_cons.1 hk with rfl | hk
          · exact Nat.le_refl _
          · exact hj k hk
        rw [decide_eq_true_eq]
        omega
      rw [List.takeWhile_cons_of_neg (by simpa using hstart), hlate]

/-- What arrives in a tick is settled by what is to arrive by a later one. -/
theorem takeWhile_congr (hu : u.Pairwise (·.start ≤ ·.start)) (hv : v.Pairwise (·.start ≤ ·.start))
    (htT : t ≤ T) (h : (v.filter fun j => j.start ≤ T) = u.filter fun j => j.start ≤ T) :
    v.takeWhile (fun j => decide (j.start ≤ t)) = u.takeWhile fun j => decide (j.start ≤ t) := by
  have hfilter : ∀ w : List Job, (w.filter fun j => j.start ≤ t) =
      (w.filter fun j => j.start ≤ T).filter fun j => j.start ≤ t := by
    intro w
    rw [List.filter_filter]
    refine List.filter_congr fun j _ => ?_
    rw [Bool.eq_iff_iff]
    simp only [Bool.and_eq_true, decide_eq_true_eq]
    omega
  rw [takeWhile_start hv, takeWhile_start hu, hfilter v, hfilter u, h]

end Arrivals

/-- The two runs differ in what arrives after `T` at most. -/
structure Progress.SameBy (T : Nat) (g h : Progress) : Prop where
  machine : h.machine = g.machine
  pending : (h.pending.filter fun j => j.start ≤ T) = g.pending.filter fun j => j.start ≤ T

namespace Progress.SameBy

variable {g h : Progress} {T : Nat}

theorem due (same : g.SameBy T h) (hT : g.machine.tick ≤ T)
    (hg : g.pending.Pairwise (·.start ≤ ·.start)) (hh : h.pending.Pairwise (·.start ≤ ·.start)) :
    h.due = g.due := by
  rw [Progress.due, Progress.due, same.machine]
  exact takeWhile_congr hg hh hT same.pending

theorem later (same : g.SameBy T h) (hdue : h.due = g.due) :
    (h.later.filter fun j => j.start ≤ T) = g.later.filter fun j => j.start ≤ T := by
  have hpending := same.pending
  rw [← h.due_append_later, ← g.due_append_later, hdue, List.filter_append,
    List.filter_append] at hpending
  exact List.append_cancel_left hpending

end Progress.SameBy

/-! ## Two runs -/

variable {s : Strategy} {c c' : Scenario} {g h : Progress} {r r' : TickResult} {k T : Nat}

/-- Up to `T` two runs that both go on play the same tick. -/
theorem sameBy_tick (hc : c.Valid) (hc' : c'.Valid) (hkT : k ≤ T) (hg : startAt s c k = some g)
    (hh : startAt s c' k = some h) (same : g.SameBy T h) (hr : tickAt s c k = some r)
    (hr' : tickAt s c' k = some r') (he : r.exit = none) (he' : r'.exit = none) :
    r'.done = r.done ∧ r.after.SameBy T r'.after := by
  obtain ⟨_, hg', hstep⟩ := tickAt_eq_some.1 hr
  obtain rfl := Option.some.inj (hg.symm.trans hg')
  obtain ⟨_, hh', hstep'⟩ := tickAt_eq_some.1 hr'
  obtain rfl := Option.some.inj (hh.symm.trans hh')
  obtain ⟨htick, hpath⟩ := startAt_moment hc hg
  obtain ⟨-, hpath'⟩ := startAt_moment hc' hh
  have hdue : h.due = g.due :=
    same.due (by omega) hpath.pending_sorted hpath'.pending_sorted
  obtain ⟨m, n, acts, ran, hm, hn, hcloses⟩ := step_play hstep
  obtain ⟨m', n', acts', ran', hm', hn', hcloses'⟩ := step_play hstep'
  rw [hdue, same.machine, hm] at hm'
  obtain rfl := Except.ok.inj hm'
  cases hn.symm.trans hn'
  cases hcloses with
  | ended | broken => cases he
  | next _ _ hpass =>
    cases hcloses' with
    | ended | broken => cases he'
    | next _ _ hpass' =>
      cases hpass.symm.trans hpass'
      exact ⟨by rw [hdue], ⟨rfl, same.later hdue⟩⟩

/-- As long as both runs go on they agree before every tick up to `T`, and before the next. -/
theorem sameBy_start (hc : c.Valid) (hc' : c'.Valid) (hsize : c'.resourceCount = c.resourceCount)
    (hlimits : c'.limits = c.limits) (hjobs : c'.jobsBy T = c.jobsBy T) (hkT : k ≤ T + 1)
    (hg : startAt s c k = some g) (hh : startAt s c' k = some h) : g.SameBy T h := by
  induction k generalizing g h with
  | zero =>
    cases hg
    cases hh
    refine ⟨?_, ?_⟩
    · show Machine.start c'.resourceCount c'.limits = Machine.start c.resourceCount c.limits
      rw [hsize, hlimits]
    · show (arrivals c'.jobs).filter _ = (arrivals c.jobs).filter _
      rw [filter_arrivals, filter_arrivals]
      exact congrArg arrivals hjobs
  | succ k ih =>
    obtain ⟨r, hr, he, rfl⟩ := startAt_succ.1 hg
    obtain ⟨r', hr', he', rfl⟩ := startAt_succ.1 hh
    obtain ⟨d, hd, -⟩ := tickAt_eq_some.1 hr
    obtain ⟨d', hd', -⟩ := tickAt_eq_some.1 hr'
    have hle : k ≤ T := Nat.le_of_succ_le_succ hkT
    have same := ih (Nat.le_succ_of_le hle) hd hd'
    exact (sameBy_tick hc hc' hle hd hd' same hr hr' he he').2

/-- Behind a tick up to `T` from which both runs go on the same has happened in it. -/
theorem sameBy_events (hc : c.Valid) (hc' : c'.Valid)
    (hsize : c'.resourceCount = c.resourceCount) (hlimits : c'.limits = c.limits)
    (hjobs : c'.jobsBy T = c.jobsBy T) (hkT : k ≤ T) (hr : tickAt s c k = some r)
    (hr' : tickAt s c' k = some r') (he : r.exit = none) (he' : r'.exit = none) :
    eventsAt s c' k = eventsAt s c k := by
  obtain ⟨g, hg, -⟩ := tickAt_eq_some.1 hr
  obtain ⟨h, hh, -⟩ := tickAt_eq_some.1 hr'
  have same := sameBy_start hc hc' hsize hlimits hjobs (Nat.le_succ_of_le hkT) hg hh
  rw [eventsAt_of hr, eventsAt_of hr', (sameBy_tick hc hc' hkT hg hh same hr hr' he he').1]

/-- What a trace has before a tick within the limit are the annals up to it. -/
theorem events_before {f : Finished} {n : Nat} (hc : c.Valid) (hf : playAll s c = .ok f)
    (hn : n ≤ c.maxTicks) : (traceOf c f).before n = annals (eventsAt s c) n := by
  change f.journal.events.filter _ = _
  rw [playAll_events hc hf, filter_annals_lt hn]

end Simulation

open Simulation

variable {c c' : Scenario}

/-- A run is causal: two scenarios with as many resources and the same limits, whose jobs that
arrive by the tick `T` are the same, leave under any strategy the same events up to `T`, as far as
neither run has come to its end; when the other jobs arrive, the tick limits and the audits do not
matter. -/
theorem runs_causal (s : Strategy) (T : Nat) (hc : c.Valid) (hc' : c'.Valid)
    (hsize : c'.resourceCount = c.resourceCount) (hlimits : c'.limits = c.limits)
    (hjobs : (c'.jobs.filter fun j => j.start ≤ T) = c.jobs.filter fun j => j.start ≤ T) :
    ∃ t t', Leaves s c t ∧ Leaves s c' t' ∧
      (t'.events.filter fun e => e.tick ≤ T ∧ e.tick < t.endTick ∧ e.tick < t'.endTick) =
        t.events.filter fun e => e.tick ≤ T ∧ e.tick < t.endTick ∧ e.tick < t'.endTick := by
  obtain ⟨f, hf⟩ := exists_playAll (s := s) hc
  obtain ⟨f', hf'⟩ := exists_playAll (s := s) hc'
  refine ⟨_, _, leaves_of_playAll hc hf, leaves_of_playAll hc' hf', ?_⟩
  obtain ⟨hle, g, hg⟩ := (playAll_exits hc hf).boundary hc
  obtain ⟨hle', g', hg'⟩ := (playAll_exits hc' hf').boundary hc'
  -- the three bounds on the tick are one
  let n := min (T + 1) (min f.machine.tick f'.machine.tick)
  have hcut : ∀ u : Trace, (u.events.filter fun e => e.tick ≤ T ∧ e.tick < (traceOf c f).endTick ∧
      e.tick < (traceOf c' f').endTick) = u.before n := by
    intro u
    refine List.filter_congr fun e _ => decide_eq_decide.2 ?_
    show e.tick ≤ T ∧ e.tick < f.machine.tick ∧ e.tick < f'.machine.tick ↔ e.tick < n
    omega
  rw [hcut, hcut, events_before hc hf (by omega), events_before hc' hf' (by omega)]
  refine annals_congr fun k hk => ?_
  obtain ⟨r, hr, he⟩ := startAt_before hg (k := k) (by omega)
  obtain ⟨r', hr', he'⟩ := startAt_before hg' (k := k) (by omega)
  exact sameBy_events hc hc' hsize hlimits hjobs (by omega) hr hr' he he'

/-- The two processes of `contended`, and a third one that joins them later. -/
def Scenario.joined : Scenario where
  jobs := Scenario.contended.jobs ++ [
    { pid := ⟨3⟩, name := "late", start := 3, lifespan := 1, priority := 20, holds := [] }]
  resourceCount := 1
  limits := .standard
  maxTicks := 10
  audit := false

/-- The third process changes what happens when it comes, and nothing before. -/
theorem runs_causal_joined :
    ∃ t t', Leaves .priorityInheritance .contended t ∧ Leaves .priorityInheritance .joined t' ∧
      ⟨1, .blocked ⟨2⟩ ⟨0⟩⟩ ∈ t.events ∧ ⟨3, .forked ⟨3⟩⟩ ∈ t'.events ∧ t.endTick ≠ t'.endTick ∧
      (t'.events.filter fun e => e.tick ≤ 2 ∧ e.tick < t.endTick ∧ e.tick < t'.endTick) =
        t.events.filter fun e => e.tick ≤ 2 ∧ e.tick < t.endTick ∧ e.tick < t'.endTick := by
  have hjoined : Scenario.joined.Valid := by decide
  obtain ⟨t, t', ht, ht', hsame⟩ := runs_causal .priorityInheritance 2 (c := .contended)
    (by decide) hjoined rfl rfl (by decide)
  have hblocked := ht.of_any (fun t => ⟨1, .blocked ⟨2⟩ ⟨0⟩⟩ ∈ t.events) (by decide)
  have hforked := ht'.of_any (fun t => ⟨3, .forked ⟨3⟩⟩ ∈ t.events) (by decide)
  have hend := ht.of_any (fun t => t.endTick = 6) (by decide)
  have hend' := ht'.of_any (fun t => t.endTick = 7) (by decide)
  exact ⟨t, t', ht, ht', hblocked, hforked, by omega, hsame⟩

end Uniprocessor
