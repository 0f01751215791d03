import Uniprocessor.Proofs.Ages
/-
  The life of a process in the trace of a run.

  A process arrives before it runs, and once (`Path.forked_before`).  It exits in the tick in which
  it uses up its lifespan (`Path.exited_iff`), once (`Path.exits_of`), and no event behind that
  engages it (`Path.silent`).
-/

namespace Uniprocessor

/-- An event in which `p` runs, asks for something, gives something back, is woken, is put on the
CPU or ends. -/
def Event.Engages (p : Pid) : Event → Prop
  | .ran q _ | .acquired q _ | .blocked q _ | .released q _ | .woke q _ | .exited q => q = p
  | .switched _ next => next = some p
  | .forked _ | .idle | .priorityChanged _ _ _ => False

namespace Simulation

variable {s : Strategy} {c : Scenario} {a b : Moment} {l : List Activity} {j : Journal} {t n : Nat}
variable {p q : Pid} {m : Machine} {job : Job}

/-! ## Who takes part -/

/-- The process is known and has not ended. -/
def Alive (m : Machine) (p : Pid) : Prop := ∃ st, m.status? p = some st ∧ st ≠ .terminated

theorem alive_of_active (h : m.Active p) : Alive m p := by
  rcases h with h | h
  · exact ⟨_, h, by simp⟩
  · exact ⟨_, h, by simp⟩

theorem alive_of_running (h : m.status? p = some .running) : Alive m p := alive_of_active (.inr h)

theorem Alive.known {m : Machine} (h : Alive m p) : m.process? p ≠ none := by
  obtain ⟨_, hst, -⟩ := h
  obtain ⟨x, hx⟩ := Machine.exists_record hst
  simp [hx]

/-- What is alive waits or could use the CPU. -/
theorem Alive.active_or_waiting (h : Alive m p) :
    m.Active p ∨ m.status? p = some .waiting := by
  obtain ⟨st, hst, hne⟩ := h
  rw [Machine.Active, hst]
  cases st <;> simp at hne ⊢

theorem alive_of_owner {r : ResourceId} (hm : m.Filed) (ho : m.resources.owner? r = some p) :
    Alive m p := by
  obtain ⟨hknown, hend⟩ := hm.owner_alive r p ho
  obtain ⟨st, hst⟩ := Option.ne_none_iff_exists'.1 hknown
  exact ⟨st, hst, fun he => hend (he ▸ hst)⟩

theorem engaged_decided {π : Policy} {m n : Machine} {d : Decision} {o : Option Pid} {e : Event}
    (hd : π.Decides m n d) (he : e ∈ eventsOf [.decided o d]) (hp : e.Engages p) :
    Alive m p := by
  rw [mem_events_decided he] at hp
  have hrun := (Machine.running_of_decides hd hp).2
  rcases status_decides hd p with heq | ⟨hactive, -⟩
  · exact alive_of_running (heq ▸ hrun)
  · exact alive_of_active hactive

/-- Only what is alive takes part in an event. -/
theorem engaged_move (hreg : a.Regular c) (hm : Move s a l b) {e : Event} (he : e ∈ eventsOf l)
    (hp : e.Engages p) : Alive a.machine p := by
  have alone : ∀ {q : Pid} {x : Event}, e ∈ [x] → x.Engages p = (q = p) →
      a.machine.status? q = some .running → Alive a.machine p := by
    intro q x hx heq hq
    rw [List.mem_singleton.1 hx, heq] at hp
    exact alive_of_running (hp ▸ hq)
  cases hm with
  | arrive =>
    rw [List.mem_singleton.1 he] at hp
    exact hp.elim
  | begin | remain => cases he
  | idle hn => exact engaged_decided (Policy.schedule_decides hn) he hp
  | dispatch hn => exact engaged_decided (Policy.schedule_decides hn) he hp
  | grant => exact alone he rfl hreg.phase.2.running
  | block => exact alone he rfl hreg.phase.2.running
  | run => exact alone he rfl hreg.phase.2.running
  | @release _ _ _ _ _ w _ _ hn =>
    rw [events_release hreg.filed hn, List.mem_cons] at he
    rcases he with rfl | he
    · exact alone (List.mem_singleton_self _) rfl hreg.phase.running
    · cases w with
      | none => cases he
      | some w =>
        rw [List.mem_singleton.1 he] at hp
        rw [← show w = p from hp]
        exact ⟨_, Machine.status?_woken (hreg.phase.releases hn), by simp⟩
  | exit => exact alone he rfl hreg.phase.running
  | close =>
    rcases mem_events_closing he with rfl | ⟨_, _, _, rfl⟩
    · exact hp.elim
    · exact hp.elim

/-- What takes part in an event has a job. -/
theorem Path.job_of_engaged (hc : c.Valid) (g : Path s (opening c).moment j b) {e : TraceEvent}
    (he : e ∈ j.events) (hp : e.event.Engages p) : ∃ k ∈ c.jobs, k.pid = p := by
  obtain ⟨d, f, i, l, hd, hm, hmem⟩ := g.exists_move he
  obtain ⟨st, hst, -⟩ := engaged_move (hd.regular hc) hm hmem hp
  obtain ⟨y, hy⟩ := Machine.exists_record hst
  obtain ⟨k, hk, hpid, -⟩ := ((hd.regular hc).scripted.plays p y hy).job
  exact ⟨k, hk, hpid⟩

/-! ## The end -/

theorem countP_within (P : Event → Bool) (t : Nat) (es : List Event) :
    ((within t es).countP fun e => P e.event) = es.countP P :=
  List.countP_map

/-- The dead stay dead. -/
theorem Path.terminated_kept (hc : c.Valid) (ha : a.Regular c) (g : Path s a j b)
    (hp : a.machine.status? p = some .terminated) : b.machine.status? p = some .terminated := by
  induction g with
  | refl => exact hp
  | snoc g hm ih =>
    rcases status_move (ha.path hc g) hm p with ⟨-, -, hend⟩ | ⟨-, hd, -⟩ | ⟨-, hd, -⟩ | ⟨-, -, he⟩
    · exact hend.2 ih
    · rw [ih] at hd
      cases hd
    · rw [ih] at hd
      cases hd
    · exact he

/-- A process exits once, if it has terminated, and else not at all. -/
theorem Path.exits_of (hc : c.Valid) (g : Path s (opening c).moment j b) (p : Pid) :
    (j.events.countP fun e => e.event = .exited p) =
      if b.machine.status? p = some .terminated then 1 else 0 := by
  induction g with
  | refl => rfl
  | @snoc d e j l g hm ih =>
    rw [events_snoc, List.countP_append, ih,
      countP_within (fun e => decide (e = .exited p))]
    rcases status_move (g.regular hc) hm p with ⟨hes, -, hend⟩ | ⟨hes, hd, he⟩ | ⟨hes, hd, he⟩ |
      ⟨hes, hd, he⟩
    · have hnone : (eventsOf l).countP (fun e => decide (e = .exited p)) = 0 :=
        List.countP_eq_zero.2 fun e he => by simpa using (hes e he).1
      rw [hnone, Nat.add_zero]
      simp only [hend]
    · rw [hes, hd, he]
      rfl
    · rw [hes, hd, he]
      rfl
    · rw [hes, hd, he, List.countP_singleton]
      simp

/-- What has ended takes part in nothing. -/
theorem Path.not_engaged (hc : c.Valid) (ha : a.Regular c) (g : Path s a j b)
    (hp : a.machine.status? p = some .terminated) : ∀ e ∈ j.events, ¬ e.event.Engages p := by
  intro e he hengaged
  obtain ⟨d, f, i, l, hd, hm, hmem⟩ := g.exists_move he
  obtain ⟨st, hst, hne⟩ := engaged_move (ha.path hc hd) hm hmem hengaged
  rw [hd.terminated_kept hc ha hp] at hst
  exact hne (Option.some.inj hst).symm

/-- Behind its exit a process takes part in nothing. -/
theorem Path.silent (hc : c.Valid) {pre post : List TraceEvent}
    (g : Path s (opening c).moment j b) (hj : j.events = pre ++ ⟨t, .exited p⟩ :: post) :
    ∀ e ∈ post, ¬ e.event.Engages p := by
  obtain ⟨d, f, i, rest, -, rfl, hd, -, hm, hrest⟩ := g.split_exited hj
  have hreg := hd.regular hc
  obtain ⟨-, hphase, -, hmachine, -⟩ := hm.of_exited (List.mem_singleton_self _)
  have hend : f.machine.status? p = some .terminated := by
    rw [hmachine, Machine.status?_turn, if_pos rfl, (hreg.returns hphase).2.running]
    rfl
  exact hrest.not_engaged hc (hreg.move hc hm) hend

/-- A process exits in the tick in which it uses up its lifespan. -/
theorem Path.ran_of_exited (hc : c.Valid) (g : Path s (opening c).moment j b) (hj : job ∈ c.jobs)
    (he : ⟨t, .exited job.pid⟩ ∈ j.events) : ⟨t, .ran job.pid job.lifespan⟩ ∈ j.events := by
  obtain ⟨pre, post, hcut⟩ := List.append_of_mem he
  obtain ⟨d, f, i, rest, rfl, -, hd, rfl, hm, -⟩ := g.split_exited hcut
  obtain ⟨-, hphase, -, -, y, hy, hdone⟩ := hm.of_exited (List.mem_singleton_self _)
  have hreg := hd.regular hc
  have hspan := (record_of_job hc.sound hreg.scripted hj hy).2
  rw [ProcessRecord.isDone_iff, hspan, ← Machine.ageOf_of hy] at hdone
  have hage : d.machine.ageOf job.pid = job.lifespan :=
    Nat.le_antisymm (ageOf_le_lifespan hc.sound hreg hj) hdone
  have hran := hd.ran_now hphase
  rw [hage] at hran
  rw [hcut]
  exact List.mem_append_left _ hran

/-- A process that has used up its lifespan has exited, or is giving back its last resources. -/
theorem Path.exited_of_ran (hc : c.Valid) (g : Path s (opening c).moment j b) (hj : job ∈ c.jobs)
    (hr : ⟨t, .ran job.pid job.lifespan⟩ ∈ j.events) :
    ⟨t, .exited job.pid⟩ ∈ j.events ∨
      b.machine.tick = t ∧ ∃ due, b.phase = .releasing job.pid due := by
  induction g with
  | refl => cases hr
  | @snoc d e j l g hm ih =>
    rw [events_snoc] at hr ⊢
    rcases List.mem_append.1 hr with hr | hr
    · rcases ih hr with hex | ⟨ht, due, hphase⟩
      · exact .inl (List.mem_append_left _ hex)
      · have hmem := mem_agesOf.2 ⟨t, hr⟩
        rw [g.agesOf_run, List.mem_range'_1] at hmem
        have hreg := g.regular hc
        cases hm with
        | release hn =>
          obtain ⟨rfl, -⟩ := Phase.releasing.inj hphase
          exact .inr ⟨(Strategy.steady_release hn).tick.trans ht, _, rfl⟩
        | remain hx hdone =>
          -- the lifespan is used up, so that the process does not remain
          obtain ⟨rfl, -⟩ := Phase.releasing.inj hphase
          have hspan := (record_of_job hc.sound hreg.scripted hj hx).2
          dsimp only at hmem
          rw [Machine.ageOf_of hx, ← hspan] at hmem
          rw [ProcessRecord.isDone_iff.2 (by omega)] at hdone
          cases hdone
        | exit hx hdone =>
          obtain ⟨rfl, -⟩ := Phase.releasing.inj hphase
          exact .inl (List.mem_append_right _ (mem_within.2 ⟨ht.symm, List.mem_singleton_self _⟩))
        | arrive | begin | idle | dispatch | grant | block | run | close => cases hphase
    · obtain ⟨ht, hran⟩ := mem_within.1 hr
      have hl := ran_mem_eventsOf.1 hran
      obtain ⟨-, d', -, due, x, hphase, -⟩ := hm.of_ran hl
      exact .inr ⟨(tick_of_ran hm hl).trans ht.symm, due, hphase⟩

/-! ## The beginning -/

/-- A process is known if it has arrived. -/
theorem Path.known_iff_forked (g : Path s (opening c).moment j b) :
    b.machine.age? p ≠ none ↔ ∃ u, ⟨u, .forked p⟩ ∈ j.events := by
  induction g with
  | refl =>
    constructor
    · intro hknown
      exact absurd rfl hknown
    · intro ⟨u, hu⟩
      cases hu
  | @snoc d e j l g hm ih =>
    have hforked : (∃ u, ⟨u, .forked p⟩ ∈ j.events ++ within d.machine.tick (eventsOf l)) ↔
        (∃ u, ⟨u, .forked p⟩ ∈ j.events) ∨ .forked p ∈ eventsOf l := by
      constructor
      · intro ⟨u, hu⟩
        exact (List.mem_append.1 hu).imp (fun hu => ⟨u, hu⟩) fun hu => (mem_within.1 hu).2
      · intro h
        rcases h with ⟨u, hu⟩ | hu
        · exact ⟨u, List.mem_append_left _ hu⟩
        · exact ⟨_, List.mem_append_right _ (mem_within.2 ⟨rfl, hu⟩)⟩
    rw [events_snoc, hforked, ← ih]
    rcases age_move hm p with ⟨hes, ho⟩ | ⟨hes, -, ho⟩ | @⟨k, hes, hd, ho⟩
    · have hno : .forked p ∉ eventsOf l := fun hl => (hes _ hl).1 rfl
      rw [ho]
      simp [hno]
    · simp [hes, ho]
    · simp [hd, ho]

/-- A process has terminated if it has exited. -/
theorem Path.terminated_iff (hc : c.Valid) (g : Path s (opening c).moment j b) :
    b.machine.status? p = some .terminated ↔ ∃ v, ⟨v, .exited p⟩ ∈ j.events := by
  have hcount := g.exits_of hc p
  constructor
  · intro hst
    rw [if_pos hst] at hcount
    obtain ⟨e, he, hexit⟩ := List.countP_pos_iff.1 (hcount ▸ Nat.one_pos)
    exact ⟨e.tick, of_decide_eq_true hexit ▸ he⟩
  · rintro ⟨v, hv⟩
    refine Decidable.byContradiction fun hst => ?_
    rw [if_neg hst, List.countP_eq_zero] at hcount
    exact hcount _ hv (decide_eq_true rfl)

/-- A process is alive from its arrival to its exit. -/
theorem Path.alive_iff (hc : c.Valid) (g : Path s (opening c).moment j b) :
    Alive b.machine p ↔
      (∃ u, ⟨u, .forked p⟩ ∈ j.events) ∧ ∀ v, ⟨v, .exited p⟩ ∉ j.events := by
  have hknown : b.machine.status? p ≠ none ↔ ∃ u, ⟨u, .forked p⟩ ∈ j.events := by
    rw [← g.known_iff_forked, Machine.status?, Machine.age?]
    cases b.machine.process? p <;> simp
  rw [← hknown, ← not_exists, ← g.terminated_iff hc]
  constructor
  · rintro ⟨st, hst, hne⟩
    rw [hst]
    exact ⟨by simp, fun he => hne (Option.some.inj he)⟩
  · rintro ⟨hsome, hne⟩
    obtain ⟨st, hst⟩ := Option.ne_none_iff_exists'.1 hsome
    exact ⟨st, hst, fun he => hne (he ▸ hst)⟩

/-- The live processes are those that are alive. -/
theorem liveCount_eq_zero (hm : m.Filed) : m.liveCount = 0 ↔ ∀ p, ¬ Alive m p := by
  constructor
  · rintro hl p ⟨st, hst, hne⟩
    obtain ⟨x, hx, rfl⟩ := Machine.status?_eq_some.1 hst
    exact hne (terminated_of_live hm hl hx)
  · intro h
    refine List.countP_eq_zero.2 fun x hx => ?_
    obtain ⟨⟨p, _⟩, hmem, rfl⟩ := List.mem_map.1 hx
    have hp : m.process? p = some _ := (PidMap.mem_entries hm.sorted).1 hmem
    rw [decide_eq_true_eq]
    exact fun hne => h p ⟨_, Machine.status?_of hp, hne⟩

/-- A process arrives before it runs, and not again. -/
theorem Path.forked_before {pre post : List TraceEvent} (g : Path s (opening c).moment j b)
    (hj : j.events = pre ++ ⟨t, .ran p n⟩ :: post) :
    (∃ u, ⟨u, .forked p⟩ ∈ pre) ∧ ∀ u, ⟨u, .forked p⟩ ∉ post := by
  obtain ⟨d, f, i, rest, rfl, rfl, hd, -, hm, hrest⟩ := g.split_run hj
  have hknown : d.machine.age? p ≠ none := by
    rcases age_move hm p with ⟨hes, -⟩ | ⟨hes, -⟩ | ⟨-, ha, -⟩
    · exact absurd rfl ((hes _ (ran_mem_eventsOf.2 (List.mem_singleton_self _))).2 n)
    · cases hes
    · simp [ha]
  refine ⟨hd.known_iff_forked.1 hknown, fun u hu => ?_⟩
  obtain ⟨d', f', i', l', hd', hm', hforked⟩ := hrest.exists_move hu
  have hknown' : d'.machine.process? p ≠ none := by
    refine hd'.invariant (P := fun a => a.machine.process? p ≠ none) ?_ ?_
    · intro a l b ha hm
      exact known_move hm ha
    · exact known_move hm (mt Machine.age?_eq_none.2 hknown)
  rcases age_move hm' p with ⟨hes, -⟩ | ⟨-, ho, -⟩ | ⟨hes, -⟩
  · exact (hes _ hforked).1 rfl
  · exact hknown' (Machine.age?_eq_none.1 ho)
  · rw [hes] at hforked
    cases List.mem_singleton.1 hforked

end Simulation

end Uniprocessor
