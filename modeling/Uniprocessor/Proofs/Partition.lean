import Uniprocessor.Proofs.Closing
import Uniprocessor.Proofs.Grammar
/-
  How the lifetime of a process is divided.

  The arrivals and the exits that a tally knows are in the events (`Vouched`), and each happens
  once (`Path.forked_once`, `Path.exited_once`).  The trace of a run leads to a tally that agrees
  with the machines at the turns (`run_ledger`) and that can be closed, so that every tick from the
  arrival of a process to its exit, or to the end of the run, is counted once.

  Main statement: `lifetimes_partitioned`.
-/

namespace Uniprocessor

namespace Lifetimes

/-! ## Arrivals and exits -/

/-- The arrivals and the exits are in the events. -/
def Vouched (es : List TraceEvent) (ps : PidMap Lifetime) : Prop :=
  ∀ p l, ps.get? p = some l →
    ⟨l.arrival, .forked p⟩ ∈ es ∧ ∀ t, l.exit = some t → ⟨t, .exited p⟩ ∈ es

variable {es fs : List TraceEvent} {e : TraceEvent} {ps : PidMap Lifetime} {T T' : Tally}

theorem Vouched.append (h : Vouched es ps) (fs : List TraceEvent) : Vouched (es ++ fs) ps := by
  intro p l hl
  obtain ⟨harrival, hexit⟩ := h p l hl
  exact ⟨List.mem_append_left _ harrival, fun t ht => List.mem_append_left _ (hexit t ht)⟩

theorem Vouched.adjust {f : Lifetime → Lifetime} (h : Vouched es ps)
    (hf : ∀ l, (f l).arrival = l.arrival)
    (hexit : ∀ l t, (f l).exit = some t → l.exit = some t ∨ ⟨t, .exited p⟩ ∈ es) :
    Vouched es (ps.adjust p f) := by
  intro q x hx
  rw [PidMap.get?_adjust] at hx
  split at hx
  · next hpq =>
    subst hpq
    obtain ⟨l, hl, rfl⟩ := Option.map_eq_some_iff.1 hx
    obtain ⟨harrival, hold⟩ := h p l hl
    rw [hf]
    exact ⟨harrival, fun t ht => (hexit l t ht).elim (hold t) id⟩
  · exact h q x hx

theorem Vouched.add (h : Vouched es T.processes) (hT : T.add e = .ok T') :
    Vouched (es ++ [e]) T'.processes := by
  have hkept := h.append [e]
  have hmem : e ∈ es ++ [e] := List.mem_append_right _ (List.mem_singleton_self e)
  obtain ⟨t, e⟩ := e
  cases e with
  | forked p =>
    cases hT
    intro q x hx
    rw [PidMap.get?_insert] at hx
    split at hx
    · next hpq =>
      subst hpq
      cases hx
      exact ⟨hmem, fun t ht => by cases ht⟩
    · exact hkept q x hx
  | switched _ o =>
    cases o with
    | none =>
      cases hT
      exact hkept
    | some p =>
      cases hT
      exact hkept.adjust (fun _ => rfl) fun _ _ => .inl
  | ran p _ | blocked p _ =>
    cases hT
    exact hkept.adjust (fun _ => rfl) fun _ _ => .inl
  | exited p =>
    cases hT
    exact hkept.adjust (fun _ => rfl) fun _ u hu => .inr (Option.some.inj hu ▸ hmem)
  | woke p r =>
    simp only [Tally.add] at hT
    split at hT
    · cases hT
      exact hkept
    · rw [Tally.settle] at hT
      split at hT
      · cases hT
        exact hkept
      · obtain ⟨_, -, hT⟩ := bind_eq_ok.1 hT
        obtain ⟨_, -, hT⟩ := bind_eq_ok.1 hT
        obtain ⟨_, -, hT⟩ := bind_eq_ok.1 hT
        cases hT
        exact hkept.adjust (fun _ => rfl) fun _ _ => .inl
  | idle | acquired | released | priorityChanged =>
    cases hT
    exact hkept

theorem Vouched.addAll (h : Vouched es T.processes) (hT : Tally.addAll fs T = .ok T') :
    Vouched (es ++ fs) T'.processes := by
  induction fs generalizing es T with
  | nil =>
    cases hT
    rwa [List.append_nil]
  | cons e fs ih =>
    rw [Tally.addAll, bind_eq_ok] at hT
    obtain ⟨U, hU, hT⟩ := hT
    rw [List.append_cons]
    exact ih (h.add hU) hT

end Lifetimes

namespace Simulation

open Lifetimes

variable {s : Strategy} {c : Scenario} {b : Moment} {j : Journal} {T : Tally} {m : Machine}
variable {e : Event} {t u : Nat} {ms : List Machine} {st : Status} {l : Lifetime}
variable {since : Option Nat}

/-- An event happens once if it makes a difference that rules it out. -/
theorem Path.once {P : Moment → Prop} (g : Path s (opening c).moment j b)
    (hdone : ∀ {j b}, Path s (opening c).moment j b → (∃ u, ⟨u, e⟩ ∈ j.events) → P b)
    (hnew : ∀ {j a l b}, Path s (opening c).moment j a → Move s a l b → e ∈ eventsOf l → ¬ P a)
    (ht : ⟨t, e⟩ ∈ j.events) (hu : ⟨u, e⟩ ∈ j.events) : t = u := by
  induction g with
  | refl => cases ht
  | snoc g hm ih =>
    rw [events_snoc, List.mem_append, mem_within] at ht hu
    rcases ht with ht | ⟨rfl, ht⟩
    · rcases hu with hu | ⟨-, hu⟩
      · exact ih ht hu
      · exact absurd (hdone g ⟨t, ht⟩) (hnew g hm hu)
    · rcases hu with hu | ⟨rfl, -⟩
      · exact absurd (hdone g ⟨u, hu⟩) (hnew g hm ht)
      · rfl

theorem Path.forked_once (g : Path s (opening c).moment j b) (ht : ⟨t, .forked p⟩ ∈ j.events)
    (hu : ⟨u, .forked p⟩ ∈ j.events) : t = u := by
  refine g.once (P := fun a => a.machine.age? p ≠ none) (fun g => g.known_iff_forked.2) ?_ ht hu
  intro j a l b g hm hl
  rcases age_move hm p with ⟨hes, -⟩ | ⟨-, ho, -⟩ | ⟨hes, -, -⟩
  · exact absurd rfl (hes _ hl).1
  · exact not_not_intro ho
  · rw [hes] at hl
    cases List.mem_singleton.1 hl

theorem Path.exited_once (hc : c.Valid) (g : Path s (opening c).moment j b)
    (ht : ⟨t, .exited p⟩ ∈ j.events) (hu : ⟨u, .exited p⟩ ∈ j.events) : t = u := by
  refine g.once (P := fun a => a.machine.status? p = some .terminated)
    (fun g => (g.terminated_iff hc).2) ?_ ht hu
  intro j a l b g hm hl hp
  rcases status_move (g.regular hc) hm p with ⟨hes, -⟩ | ⟨-, ho, -⟩ | ⟨-, ho, -⟩ | ⟨-, ho, -⟩
  · exact (hes _ hl).1 rfl
  · rw [hp] at ho
    cases ho
  · rw [hp] at ho
    cases ho
  · rw [hp] at ho
    cases ho

/-- The jobs of a scenario are all that can be known. -/
theorem Path.job_of_known (hc : c.Valid) (g : Path s (opening c).moment j b)
    (hp : b.machine.status? p ≠ none) : p ∈ c.jobs.map (·.pid) := by
  obtain ⟨x, hx⟩ := Machine.status?_ne_none.1 hp
  obtain ⟨k, hk, hpid, -⟩ := ((g.regular hc).scripted.plays p x hx).job
  exact List.mem_map.2 ⟨k, hk, hpid⟩

/-- Who has arrived is in the tally. -/
theorem Path.lived (g : Path s (opening c).moment j b) (h : Ledger ms T b.machine)
    (hp : ⟨t, .forked p⟩ ∈ j.events) : ∃ st l, b.machine.status? p = some st ∧
      T.processes.get? p = some l ∧ Lived ms p st l (T.blockedSince.get? p) := by
  have hage := g.known_iff_forked.2 ⟨t, hp⟩
  rw [ne_eq, Machine.age?_eq_none] at hage
  have hknown := Machine.status?_ne_none.2 (Option.ne_none_iff_exists'.1 hage)
  obtain ⟨st, hst⟩ := Option.ne_none_iff_exists'.1 hknown
  have hbooked := h.booked p
  rw [hst] at hbooked
  obtain ⟨l, hl, hlived⟩ := hbooked.of_status
  exact ⟨st, l, hst, hl, hlived⟩

/-- The tally knows of an exit when it has happened. -/
theorem Path.exit_iff (hc : c.Valid) (g : Path s (opening c).moment j b)
    (hst : b.machine.status? p = some st) (h : Lived ms p st l since)
    (hexit : ∀ t, l.exit = some t → ⟨t, .exited p⟩ ∈ j.events) :
    ⟨t, .exited p⟩ ∈ j.events ↔ l.exit = some t := by
  refine ⟨fun ht => ?_, hexit t⟩
  have hend := (g.terminated_iff hc).2 ⟨t, ht⟩
  obtain ⟨u, hu, -⟩ := h.ended (Option.some.inj (hst.symm.trans hend))
  rw [hu, g.exited_once hc (hexit u hu) ht]

/-- The tally of a run is that of the path to its last tick. -/
theorem run_ledger (hc : c.Valid) {run : Run} (hrun : simulate s c = .ok run) :
    ∃ j b T, Path s (opening c).moment j b ∧
      (∀ t e, (∀ o o', e ≠ .switched o o') → (⟨t, e⟩ ∈ run.trace.events ↔ ⟨t, e⟩ ∈ j.events)) ∧
      Tally.addAll run.trace.events ⟨.empty, .empty⟩ = .ok T ∧
      Ledger (turnsBefore s c run.trace.endTick) T b.machine ∧
      (turnsBefore s c run.trace.endTick).length = run.trace.endTick ∧
      ∀ m ∈ turnsBefore s c run.trace.endTick, m.Filed := by
  obtain ⟨hle, g, hg⟩ := simulate_end hc hrun
  obtain ⟨rest, hrest, hquiet⟩ := trace_rest hc hrun
  obtain ⟨-, hpath⟩ := startAt_moment hc hg
  obtain ⟨T, hT, hledger, hlength, hfiled⟩ :=
    startAt_ledger hc hg (Nat.lt_of_le_of_lt hle hc.inRange.2.2.1)
  have hevents : run.trace.events = (historyBefore s c run.trace.endTick).events ++ rest := by
    rw [events_historyBefore, ← filter_annals_lt hle, ← events_eq_annals hc hrun]
    exact hrest
  refine ⟨_, _, T, hpath, fun t e he => ?_, ?_, hledger, hlength, hfiled⟩
  · rw [hevents, List.mem_append]
    refine or_iff_left fun hmem => ?_
    rcases hquiet with rfl | ⟨-, p, rfl⟩
    · cases hmem
    · obtain ⟨-, rfl⟩ := TraceEvent.mk.inj (List.mem_singleton.1 hmem)
      exact he _ _ rfl
  · rw [hevents]
    refine Tally.addAll_append hT ?_
    rcases hquiet with rfl | ⟨-, p, rfl⟩ <;> rfl

end Simulation

/-! ## The partition -/

theorem census_waiting (h : ∀ m ∈ ms, m.Filed) :
    census p .waiting ms = ms.countP fun m => (m.resources.waitingOn? p).isSome :=
  List.countP_congr fun m hm => by
    rw [decide_eq_true_eq, ← (h m hm).mem_waiters, ResourceTable.waitingOn?_isSome]

theorem census_ready (h : ∀ m ∈ ms, m.Filed) :
    census p .ready ms = ms.countP fun m => p ∈ m.ready.pids :=
  List.countP_congr fun m hm => by
    rw [decide_eq_true_eq, decide_eq_true_eq, (h m hm).mem_ready]

open Simulation Lifetimes

variable {c : Scenario}

/-- The lifetimes of a run are defined if the processes times the ticks fit a word.  For every
process that has arrived they count the ticks at whose turn it ran, waited for a resource and was
ready, and the three make up the time from its arrival to its exit or, if it has none, to the end
of the run.  No wait that is not over began behind the end. -/
theorem lifetimes_partitioned (s : Strategy) (hc : c.Valid) {run : Run}
    (hrun : simulate s c = .ok run) (hroom : c.jobs.length * run.trace.endTick < tickBound) :
    ∃ T L, Tally.addAll run.trace.events ⟨.empty, .empty⟩ = .ok T ∧
      (∀ e ∈ T.blockedSince.entries, e.2 ≤ run.trace.endTick) ∧
      ofTrace run.trace = .ok L ∧
      (∀ k < run.trace.endTick, ∃ m, turnAt s c k = some m ∧
        ((∃ p n, m.status? p = some .running ∧ ⟨k, .ran p n⟩ ∈ run.trace.events) ∨
          (∀ p, m.status? p ≠ some .running) ∧ ⟨k, .idle⟩ ∈ run.trace.events)) ∧
      ∀ t p, ⟨t, .forked p⟩ ∈ run.trace.events → ∃ l, L.processes.get? p = some l ∧
        l.arrival = t ∧
        l.ran = (turnsBefore s c run.trace.endTick).countP
          (fun m => m.status? p = some .running) ∧
        l.blocked = (turnsBefore s c run.trace.endTick).countP
          (fun m => (m.resources.waitingOn? p).isSome) ∧
        l.readyWait = (turnsBefore s c run.trace.endTick).countP (fun m => p ∈ m.ready.pids) ∧
        (∀ e, ⟨e, .exited p⟩ ∈ run.trace.events →
          l.exit = some e ∧ t + (l.ran + l.blocked + l.readyWait) = e + 1) ∧
        ((∀ e, ⟨e, .exited p⟩ ∉ run.trace.events) →
          l.exit = none ∧ t + (l.ran + l.blocked + l.readyWait) = run.trace.endTick) := by
  obtain ⟨j, b, T, hpath, hmem, hT, hledger, hlength, hfiled⟩ := run_ledger hc hrun
  have hbound : run.trace.endTick < tickBound :=
    Nat.lt_of_le_of_lt (simulate_end hc hrun).1 hc.inRange.2.2.1
  rw [← List.length_map (f := Job.pid)] at hroom
  obtain ⟨ps, L, hps, hL, hclosed⟩ := hledger.close (fun p => hpath.job_of_known hc)
    (hlength.symm ▸ hbound) (hlength.symm ▸ hroom)
  have hvouched : Vouched run.trace.events T.processes := by
    have hnone : Vouched [] (PidMap.empty : PidMap Lifetime) := fun p l hl => by cases hl
    exact hnone.addAll hT
  rw [hlength] at hps hL
  refine ⟨T, L, hT, fun e he => hlength ▸ hledger.since_le he, ?_,
    fun k hk => turn_recorded hc hrun hk, fun t p ht => ?_⟩
  · simp only [ofTrace, hT, hps, ok_bind]
    exact hL
  have hforked := (hmem t _ (by simp)).1 ht
  obtain ⟨st, l, hst, hl, hlived⟩ := hpath.lived hledger hforked
  obtain ⟨harrived, hexited⟩ := hvouched p l hl
  obtain ⟨x, hx, harrival, hexit, hready, hran, hblocked, -, hspan, -⟩ := hclosed p l hl
  have ht : x.arrival = t :=
    harrival.trans (hpath.forked_once ((hmem _ _ (by simp)).1 harrived) hforked)
  have hend : ∀ e, ⟨e, .exited p⟩ ∈ run.trace.events ↔ x.exit = some e := by
    intro e
    rw [hmem e _ (by simp), hexit]
    exact hpath.exit_iff hc hst hlived fun u hu => (hmem u _ (by simp)).1 (hexited u hu)
  have hsum : t + (x.ran + x.blocked + x.readyWait) = x.stop run.trace.endTick := by
    rw [hlength] at hspan
    rw [hran, hblocked, hready, ← ht]
    exact hspan
  refine ⟨x, hx, ht, hran, hblocked.trans (census_waiting hfiled),
    hready.trans (census_ready hfiled), fun e he => ?_, fun hnone => ?_⟩
  · have he := (hend e).1 he
    exact ⟨he, hsum.trans (Lifetime.stop_of_exit he)⟩
  · have hnone := Option.eq_none_iff_forall_ne_some.2 fun e he => hnone e ((hend e).2 he)
    exact ⟨hnone, hsum.trans (Lifetime.stop_of_none hnone)⟩

/-- The urgent process of this run waits in two of its ticks and runs in two. -/
theorem lifetimes_partitioned_contended :
    ∃ run L l, simulate .priorityInheritance .contended = .ok run ∧
      Scenario.contended.jobs.length * run.trace.endTick < tickBound ∧
      ⟨1, .forked ⟨2⟩⟩ ∈ run.trace.events ∧ ⟨4, .exited ⟨2⟩⟩ ∈ run.trace.events ∧
      ofTrace run.trace = .ok L ∧ L.processes.get? ⟨2⟩ = some l ∧ l.exit = some 4 ∧
      l.blocked = (turnsBefore .priorityInheritance .contended run.trace.endTick).countP
        (fun m => (m.resources.waitingOn? ⟨2⟩).isSome) ∧
      1 + (l.ran + l.blocked + l.readyWait) = 4 + 1 := by
  have hsim : (simulate .priorityInheritance .contended).toOption.any (fun run =>
      decide (Scenario.contended.jobs.length * run.trace.endTick < tickBound ∧
        ⟨1, .forked ⟨2⟩⟩ ∈ run.trace.events ∧ ⟨4, .exited ⟨2⟩⟩ ∈ run.trace.events)) = true := by
    decide
  obtain ⟨run, hrun, hsim⟩ := Option.any_eq_true _ _ |>.1 hsim
  obtain ⟨hroom, hforked, hexited⟩ := of_decide_eq_true hsim
  have hrun := toOption_eq_some.1 hrun
  obtain ⟨T, L, -, -, hL, -, hall⟩ :=
    lifetimes_partitioned .priorityInheritance (c := .contended) (by decide) hrun hroom
  obtain ⟨l, hl, -, -, hblocked, -, hended, -⟩ := hall 1 ⟨2⟩ hforked
  obtain ⟨hexit, hsum⟩ := hended 4 hexited
  exact ⟨run, L, l, hrun, hroom, hforked, hexited, hL, hl, hexit, hblocked, hsum⟩

end Uniprocessor
