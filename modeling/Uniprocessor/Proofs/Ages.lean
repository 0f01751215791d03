import Uniprocessor.Proofs.Chronicle
/-
  The ages that a trace gives a process, against its age in the machine.

  `agesOf p es` are the ages with which `p` runs in the events `es`, and `ageAfter p n es` is the
  last of them.  Along a path they are the ages behind that of the first moment up to that of the
  last one, one by one (`Path.agesOf_events`); from the opening of a run on they count from 1.

  Every job of the scenario is pending or known (`Path.pending_or_known`), and a process that has
  terminated has the age of its lifespan (`Path.age_terminated`).
-/

namespace Uniprocessor

/-- The age that `p` reaches in an event. -/
def Event.ageOf? (p : Pid) : Event → Option Nat
  | .ran q n => if q = p then some n else none
  | _ => none

/-- The ages that `p` reaches in `es`, in order. -/
def agesOf (p : Pid) (es : List TraceEvent) : List Nat := es.filterMap fun e => e.event.ageOf? p

/-- The age of `p` behind `es`, if it was `n` before. -/
def ageAfter (p : Pid) (n : Nat) (es : List TraceEvent) : Nat := (agesOf p es).getLastD n

/-- The age of `p`; a process that has not arrived has the age 0. -/
def Machine.ageOf (m : Machine) (p : Pid) : Nat := (m.age? p).getD 0

theorem Machine.ageOf_of {m : Machine} {p : Pid} {x : ProcessRecord}
    (hx : m.process? p = some x) : m.ageOf p = x.age := by
  rw [ageOf, age?_of hx, Option.getD_some]

theorem Machine.Follows.ageOf {m n : Machine} {p : Pid} (h : m.Follows n) :
    n.ageOf p = m.ageOf p := by
  rw [Machine.ageOf, h.age?, Machine.ageOf]

/-! ## Ages in traces -/

variable {p q : Pid} {n : Nat} {es fs : List TraceEvent}

theorem Event.ageOf?_eq_some {e : Event} : e.ageOf? p = some n ↔ e = .ran p n := by
  cases e <;> simp [ageOf?]

theorem agesOf_append : agesOf p (es ++ fs) = agesOf p es ++ agesOf p fs := List.filterMap_append

theorem mem_agesOf : n ∈ agesOf p es ↔ ∃ t, ⟨t, .ran p n⟩ ∈ es := by
  rw [agesOf, List.mem_filterMap]
  constructor
  · rintro ⟨⟨t, e⟩, he, hn⟩
    rw [Event.ageOf?_eq_some] at hn
    exact ⟨t, hn ▸ he⟩
  · rintro ⟨t, he⟩
    exact ⟨_, he, Event.ageOf?_eq_some.2 rfl⟩

theorem ageAfter_append : ageAfter p n (es ++ fs) = ageAfter p (ageAfter p n es) fs := by
  unfold ageAfter
  rw [agesOf_append, List.getLastD_eq_getLast?, List.getLastD_eq_getLast?,
    List.getLastD_eq_getLast?, List.getLast?_append]
  cases (agesOf p fs).getLast? <;> rfl

/-- Where the ages go up one by one from `n` on, the last of them tells their number. -/
theorem ageAfter_of_range' {k : Nat} (h : agesOf p es = List.range' (n + 1) k) :
    ageAfter p n es = n + k := by
  rw [ageAfter, h, List.getLastD_eq_getLast?, List.getLast?_range']
  split
  · rw [Option.getD_none]
    omega
  · rw [Option.getD_some]
    omega

/-- The ticks that `p` ran in are as many as the ages that it reached. -/
theorem length_agesOf : (agesOf p es).length = es.countP fun e => Trace.isRunOf p e.event := by
  rw [agesOf, List.length_filterMap_eq_countP]
  refine List.countP_congr fun e _ => ?_
  cases e.event with
  | ran q k => simp [Event.ageOf?, Trace.isRunOf]
  | _ => simp [Event.ageOf?, Trace.isRunOf]

namespace Simulation

variable {s : Strategy} {c : Scenario} {a b : Moment} {l : List Activity} {j : Journal} {t : Nat}
variable {due : List ResourceId} {job : Job}

/-! ## Ages in runs -/

theorem agesOf_within {es : List Event} :
    agesOf p (within t es) = es.filterMap (Event.ageOf? p) := by
  rw [agesOf, within, List.filterMap_map]
  rfl

/-- A move takes a process through the ages between those of its two moments. -/
theorem agesOf_move (hm : Move s a l b) (p : Pid) (t : Nat) :
    a.machine.ageOf p ≤ b.machine.ageOf p ∧
      agesOf p (within t (eventsOf l)) =
        List.range' (a.machine.ageOf p + 1) (b.machine.ageOf p - a.machine.ageOf p) := by
  unfold Machine.ageOf
  rcases age_move hm p with ⟨hl, ho⟩ | ⟨hl, ha, hb⟩ | @⟨n, hl, ha, hb⟩
  · rw [ho, Nat.sub_self]
    rw [agesOf_within]
    refine ⟨Nat.le_refl _, List.filterMap_eq_nil_iff.2 fun e he => ?_⟩
    rw [Option.eq_none_iff_forall_ne_some]
    intro n hn
    exact (hl e he).2 n (Event.ageOf?_eq_some.1 hn)
  · rw [hl, ha, hb]
    exact ⟨Nat.le_refl _, rfl⟩
  · rw [hl, ha, hb, Option.getD_some, Option.getD_some, Nat.add_sub_cancel_left]
    have hran : (Event.ran p (n + 1)).ageOf? p = some (n + 1) := if_pos rfl
    refine ⟨Nat.le_succ n, ?_⟩
    rw [agesOf_within, List.range'_one]
    exact List.filterMap_cons_some hran

/-- A process that does not run keeps its age. -/
theorem ageOf_move (hm : Move s a l b) (hl : ∀ n, .ran p n ∉ l) :
    b.machine.ageOf p = a.machine.ageOf p := by
  unfold Machine.ageOf
  rcases age_move hm p with ⟨-, ho⟩ | ⟨-, ha, hb⟩ | ⟨hes, -, -⟩
  · rw [ho]
  · rw [ha, hb]
    rfl
  · exact absurd (ran_mem_eventsOf.1 (hes ▸ List.mem_singleton_self _)) (hl _)

/-- A process that runs grows one tick older. -/
theorem ageOf_ran (hm : Move s a l b) (hl : .ran p n ∈ l) :
    n = a.machine.ageOf p + 1 ∧ b.machine.ageOf p = n := by
  unfold Machine.ageOf
  have hmem := ran_mem_eventsOf.2 hl
  rcases age_move hm p with ⟨hkeep, -⟩ | ⟨hes, -, -⟩ | @⟨k, hes, ha, hb⟩
  · exact absurd rfl ((hkeep _ hmem).2 n)
  · rw [hes] at hmem
    cases List.mem_singleton.1 hmem
  · rw [hes] at hmem
    obtain ⟨-, rfl⟩ := Event.ran.inj (List.mem_singleton.1 hmem)
    rw [ha, hb]
    exact ⟨rfl, rfl⟩

/-- A run takes a process through all the ages between those of its two ends, one by one. -/
theorem Path.agesOf_events (g : Path s a j b) (p : Pid) :
    a.machine.ageOf p ≤ b.machine.ageOf p ∧
      agesOf p j.events =
        List.range' (a.machine.ageOf p + 1) (b.machine.ageOf p - a.machine.ageOf p) := by
  induction g with
  | refl =>
    rw [Nat.sub_self]
    exact ⟨Nat.le_refl _, rfl⟩
  | @snoc d e j l g hm ih =>
    obtain ⟨hle, hages⟩ := ih
    obtain ⟨hle', hages'⟩ := agesOf_move hm p d.machine.tick
    refine ⟨Nat.le_trans hle hle', ?_⟩
    have hfirst : d.machine.ageOf p + 1 =
        a.machine.ageOf p + 1 + (d.machine.ageOf p - a.machine.ageOf p) := by omega
    have hcount : e.machine.ageOf p - a.machine.ageOf p =
        (d.machine.ageOf p - a.machine.ageOf p) + (e.machine.ageOf p - d.machine.ageOf p) := by
      omega
    rw [events_snoc, agesOf_append, hages, hages', hfirst, List.range'_append_1, ← hcount]

theorem Path.ageAfter_events (g : Path s a j b) (p : Pid) :
    ageAfter p (a.machine.ageOf p) j.events = b.machine.ageOf p := by
  obtain ⟨hle, hages⟩ := g.agesOf_events p
  rw [ageAfter_of_range' hages]
  omega

theorem ageOf_opening : (opening c).moment.machine.ageOf p = 0 := rfl

/-- From the opening on a process has the ages 1, 2, 3 and so on. -/
theorem Path.agesOf_run (g : Path s (opening c).moment j b) (p : Pid) :
    agesOf p j.events = List.range' 1 (b.machine.ageOf p) := by
  rw [(g.agesOf_events p).2, ageOf_opening, Nat.sub_zero]

theorem Path.ageAfter_run (g : Path s (opening c).moment j b) (p : Pid) :
    ageAfter p 0 j.events = b.machine.ageOf p :=
  g.ageAfter_events p

/-- Wherever the trace is cut, the ages before it are those from 1 on. -/
theorem Path.agesOf_pre {pre post : List TraceEvent} (g : Path s (opening c).moment j b)
    (hj : j.events = pre ++ post) (p : Pid) :
    agesOf p pre = List.range' 1 (ageAfter p 0 pre) := by
  have hages := g.agesOf_run p
  rw [hj, agesOf_append] at hages
  obtain ⟨k, -, hpre, -⟩ := List.range'_eq_append_iff.1 hages.symm
  rw [ageAfter_of_range' (n := 0) hpre, Nat.zero_add, hpre]

/-- Where the trace is cut at an event, the ages before it are those before its move. -/
theorem Path.split_age {e : Event} {pre post : List TraceEvent}
    (g : Path s (opening c).moment j b) (hj : j.events = pre ++ ⟨t, e⟩ :: post) :
    ∃ d f i l x k rest, Activity.event? x = some e ∧
      pre = Journal.events i ++ within t (eventsOf l) ∧
      post = within t (eventsOf k) ++ Journal.events rest ∧ Path s (opening c).moment i d ∧
      d.machine.tick = t ∧ Move s d (l ++ x :: k) f ∧ Path s f rest b ∧
      ∀ p, ageAfter p 0 pre = d.machine.ageOf p := by
  obtain ⟨d, f, i, l, x, k, rest, hx, rfl, hpost, hd, ht, hm, hrest⟩ := g.split_event hj
  refine ⟨d, f, i, l, x, k, rest, hx, rfl, hpost, hd, ht, hm, hrest, fun p => ?_⟩
  -- a process runs in a move of its own, so not in the part of the move before the event
  have hnone : agesOf p (within t (eventsOf l)) = [] := by
    refine List.eq_nil_iff_forall_not_mem.2 fun n hn => ?_
    obtain ⟨u, hu⟩ := mem_agesOf.1 hn
    have hl := ran_mem_eventsOf.1 (mem_within.1 hu).2
    obtain ⟨hsingle, -⟩ := hm.of_ran (List.mem_append_left _ hl)
    obtain ⟨rfl, -⟩ := eq_nil_of_append_singleton hsingle
    cases hl
  rw [ageAfter_append, hd.ageAfter_run, ageAfter, hnone]
  rfl

/-- A process that gives resources back has run in this tick. -/
theorem Path.ran_now (g : Path s (opening c).moment j b) (hb : b.phase = .releasing p due) :
    ⟨b.machine.tick, .ran p (b.machine.ageOf p)⟩ ∈ j.events := by
  induction g generalizing due with
  | refl => cases hb
  | snoc g hm ih =>
    rw [events_snoc]
    cases hm with
    | @run m _ _ _ _ _ _ _ _ hn =>
      cases hb
      obtain ⟨y, hy, -, rfl, rfl⟩ := Machine.grow_eq_ok.1 hn
      have hgrown : (m.adjust p (.aged (y.age + 1))).process? p = some (y.aged (y.age + 1)) := by
        rw [Machine.process?_adjust, if_pos rfl, hy]
        rfl
      dsimp only
      rw [Machine.ageOf_of hgrown]
      exact List.mem_append_right _ (mem_within.2 ⟨rfl, List.mem_singleton_self _⟩)
    | release hn =>
      cases hb
      have hmem := ih rfl
      obtain ⟨q, -, hr⟩ := Strategy.release_eq_ok.1 hn
      dsimp only at hmem ⊢
      rw [(Strategy.steady_release hn).tick,
        (Machine.follows_releases (Protocol.release_releases hr)).ageOf]
      exact List.mem_append_left _ hmem
    | arrive | begin | idle | dispatch | grant | block | remain | exit | close => cases hb

/-! ## Jobs in runs -/

/-- A job is settled by its pid. -/
theorem job_ext (hc : c.Sound) {k : Job} (hj : job ∈ c.jobs) (hk : k ∈ c.jobs)
    (hp : job.pid = k.pid) : job = k := by
  have hpids : c.jobs.Pairwise fun a b => a.pid ≠ b.pid := List.pairwise_map.1 hc.pids
  exact (eq_or_of_pairwise (fun _ _ => Ne.symm) hpids hj hk).resolve_right fun hne => hne hp

/-- What the record of a process says of its job. -/
theorem record_of_job {back : Option (Pid × List ResourceId)} {m : Machine} {x : ProcessRecord}
    (hc : c.Sound) (hs : Scripted c back m) (hj : job ∈ c.jobs)
    (hx : m.process? job.pid = some x) : x.holds = job.holds ∧ x.lifespan = job.lifespan := by
  obtain ⟨k, hk, hp, hl, -, hh⟩ := (hs.plays job.pid x hx).job
  rw [job_ext hc hj hk hp.symm]
  exact ⟨hh.symm, hl.symm⟩

/-- A process never grows older than its job has it. -/
theorem ageOf_le_lifespan (hc : c.Sound) (h : a.Regular c) (hj : job ∈ c.jobs) :
    a.machine.ageOf job.pid ≤ job.lifespan := by
  cases hx : a.machine.process? job.pid with
  | none =>
    rw [Machine.ageOf, Machine.age?_eq_none.2 hx]
    exact Nat.zero_le _
  | some x =>
    rw [Machine.ageOf_of hx, ← (record_of_job hc h.scripted hj hx).2]
    exact (h.scripted.plays _ x hx).age

/-- A known process stays known. -/
theorem known_move (hm : Move s a l b) (ha : a.machine.process? p ≠ none) :
    b.machine.process? p ≠ none := by
  rw [ne_eq, ← Machine.age?_eq_none] at ha ⊢
  rcases age_move hm p with ⟨-, ho⟩ | ⟨-, hnone, -⟩ | ⟨-, -, hb⟩
  · rwa [ho]
  · exact absurd hnone ha
  · simp [hb]

/-- A process is known once it has arrived. -/
theorem known_of_forked (hm : Move s a [.forked job] b) :
    b.machine.process? job.pid ≠ none := by
  rw [ne_eq, ← Machine.age?_eq_none]
  have hforked : .forked job.pid ∈ eventsOf [.forked job] := List.mem_singleton_self _
  rcases age_move hm job.pid with ⟨hl, -⟩ | ⟨-, -, hb⟩ | ⟨-, -, hb⟩
  · exact absurd rfl (hl _ hforked).1
  · simp [hb]
  · simp [hb]

theorem pending_move (hm : Move s a l b) :
    b.pending = a.pending ∨ ∃ j, a.pending = j :: b.pending ∧ l = [.forked j] := by
  cases hm with
  | arrive => exact .inr ⟨_, rfl, rfl⟩
  | begin | idle | dispatch | grant | block | run | release | remain | exit | close =>
    exact .inl rfl

/-- A job has arrived or is still to arrive. -/
theorem Path.pending_or_known (g : Path s (opening c).moment j a) (hj : job ∈ c.jobs) :
    job ∈ a.pending ∨ a.machine.process? job.pid ≠ none := by
  refine g.invariant (P := fun a => job ∈ a.pending ∨ a.machine.process? job.pid ≠ none) ?_ ?_
  · intro a l b ha hm
    rcases ha with ha | ha
    · rcases pending_move hm with heq | ⟨k, heq, hl⟩
      · rw [heq]
        exact .inl ha
      · rw [heq, List.mem_cons] at ha
        rcases ha with rfl | ha
        · exact .inr (known_of_forked (hl ▸ hm))
        · exact .inl ha
    · exact .inr (known_move hm ha)
  · exact .inl ((arrivals_perm c.jobs).mem_iff.2 hj)

theorem terminated_of_live {m : Machine} {x : ProcessRecord} (hm : m.Filed) (hl : m.liveCount = 0)
    (hx : m.process? p = some x) : x.status = .terminated := by
  have hmem : (p, x) ∈ m.processes.entries := (PidMap.mem_entries hm.sorted).2 hx
  have hall := List.countP_eq_zero.1 hl x (List.mem_map.2 ⟨_, hmem, rfl⟩)
  simpa using hall

/-- When a run ends normally every job has been done. -/
theorem Path.all_terminated {ran : Bool} (hc : c.Valid) (g : Path s (opening c).moment j b)
    (hover : Over ran b.pending b.machine) (hj : job ∈ c.jobs) :
    b.machine.status? job.pid = some .terminated := by
  obtain ⟨-, hpending, hlive⟩ := hover
  have hknown : b.machine.process? job.pid ≠ none := by
    refine (g.pending_or_known hj).resolve_left fun hmem => ?_
    rw [hpending] at hmem
    cases hmem
  obtain ⟨x, hx⟩ := Option.ne_none_iff_exists'.1 hknown
  rw [Machine.status?_of hx, terminated_of_live (g.regular hc).filed hlive hx]

/-- A process that has terminated has used up its lifespan. -/
theorem Path.age_terminated (hc : c.Valid) (g : Path s (opening c).moment j a)
    (hj : job ∈ c.jobs) (ht : a.machine.status? job.pid = some .terminated) :
    a.machine.ageOf job.pid = job.lifespan := by
  refine Nat.le_antisymm (ageOf_le_lifespan hc.sound (g.regular hc) hj) ?_
  induction g with
  | refl => cases ht
  | @snoc d e j l g hm ih =>
    have hreg := g.regular hc
    have hgrow := (agesOf_move hm job.pid 0).1
    rcases status_move hreg hm job.pid with ⟨-, -, hend⟩ | ⟨-, -, hb⟩ | ⟨-, -, hb⟩ | ⟨hes, -, -⟩
    · exact Nat.le_trans (ih (hend.1 ht)) hgrow
    · simp [ht] at hb
    · simp [ht] at hb
    · have hl := exited_mem_eventsOf.1 (hes ▸ List.mem_singleton_self _)
      obtain ⟨-, -, -, -, x, hx, hd⟩ := hm.of_exited hl
      have hspan := (record_of_job hc.sound hreg.scripted hj hx).2
      rw [ProcessRecord.isDone_iff, hspan, ← Machine.ageOf_of hx] at hd
      exact Nat.le_trans hd hgrow

end Simulation

end Uniprocessor
