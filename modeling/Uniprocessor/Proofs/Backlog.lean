import Uniprocessor.Proofs.CommonStart
import Uniprocessor.Proofs.Division
import Uniprocessor.Proofs.Load
import Uniprocessor.Proofs.Majorization
/-
  What is left to do, tick by tick.

  `Machine.left` is the CPU time that a job needs from a moment on, none before its arrival.  A tick
  takes one unit off what is left of one job, unless nothing is left at all, and then the jobs of
  the next tick come in (`Served`, `left_next`).  Which job it is depends on the strategy.  Shortest
  remaining time first puts a process on the CPU of which no more is left than of any other that is
  ready (`Path.least`).  Without resources nobody waits, so that this is the least of all that is
  left.  Hence what it leaves majorizes what any strategy leaves, at every tick
  (`majorizes_start`).
-/

namespace Uniprocessor

/-- The CPU time that a job needs from now on, if it has arrived. -/
def Machine.left (m : Machine) (k : Job) : Nat :=
  if k.start ≤ m.tick then k.lifespan - m.ageOf k.pid else 0

theorem Machine.left_pos {m : Machine} {k : Job} :
    0 < m.left k ↔ k.start ≤ m.tick ∧ m.ageOf k.pid < k.lifespan := by
  rw [Machine.left]
  split
  · next hstart => rw [Nat.sub_pos_iff_lt, and_iff_right hstart]
  · next hstart => exact iff_of_false (Nat.lt_irrefl 0) fun hle => hstart hle.1

/-- What the jobs need that arrive now. -/
def Machine.incoming (m : Machine) (k : Job) : Nat := if k.start = m.tick then k.lifespan else 0

/-- No process holds anything. -/
def Scenario.Bare (c : Scenario) : Prop := ∀ k ∈ c.jobs, k.holds = []

instance (c : Scenario) : Decidable c.Bare :=
  inferInstanceAs (Decidable (∀ k ∈ c.jobs, k.holds = []))

theorem Scenario.Bare.unnested {c : Scenario} (h : c.Bare) : c.Unnested := by
  intro k hk
  rw [h k hk]
  exact .nil

/-- What changes statuses and priorities alone leaves the time that is needed. -/
theorem ProcessRecord.Alike.remaining {x y : ProcessRecord} (h : x.Alike y) :
    y.remaining = x.remaining := by
  obtain ⟨_, _, rfl⟩ := h
  rfl

namespace Simulation

variable {s : Strategy} {c : Scenario} {a b : Moment} {i j : Journal} {l : List Activity}
variable {m n : Machine} {p q : Pid} {k : Job} {d : Decision} {t : Nat} {g h : Progress}

/-! ## Arrivals -/

/-- Once the jobs of a tick have arrived, those are to arrive that start later. -/
theorem Path.pending_iff (g : Path s (opening c).moment j b) (hb : b.phase ≠ .arriving)
    (hk : k ∈ c.jobs) : k ∈ b.pending ↔ b.machine.tick < k.start := by
  constructor
  · exact later_of_head g.pending_sorted (g.pending_later hb) k
  · exact fun hlate => (g.pending_or_due hk).resolve_right (Nat.not_le.2 hlate)

/-- Nobody is late. -/
theorem Path.tick_le_start (hc : c.Valid) (g : Path s (opening c).moment j b)
    (hk : k ∈ b.pending) : b.machine.tick ≤ k.start := by
  induction g with
  | refl => exact Nat.zero_le _
  | @snoc d e j l g hm ih =>
    have hold : k ∈ d.pending := by
      rcases pending_move hm with heq | ⟨i, heq, -⟩
      · exact heq ▸ hk
      · exact heq ▸ List.mem_cons_of_mem i hk
    rcases time_move hm with ⟨-, ht, -⟩ | ⟨-, ht, -, -⟩ | ⟨-, ht, hclosing, -⟩
    · exact ht ▸ ih hold
    · exact ht ▸ ih hold
    · rw [ht]
      exact (g.pending_iff (by simp [hclosing]) (((g.regular hc).pending k hold).1)).1 hold

/-! ## Who has something left to do -/

/-- Once the jobs of a tick have arrived, those that have work left are alive. -/
theorem Path.alive_of_left (hc : c.Valid) (g : Path s (opening c).moment j b)
    (hb : b.phase ≠ .arriving) (hk : k ∈ c.jobs) (hl : 0 < b.machine.left k) :
    Alive b.machine k.pid := by
  obtain ⟨hstart, hage⟩ := Machine.left_pos.1 hl
  have hknown := (g.pending_or_known hk).resolve_left fun hpending =>
    Nat.not_lt.2 hstart ((g.pending_iff hb hk).1 hpending)
  obtain ⟨x, hx⟩ := Option.ne_none_iff_exists'.1 hknown
  refine ⟨x.status, Machine.status?_of hx, fun hend => ?_⟩
  have := g.age_terminated hc hk (by rw [Machine.status?_of hx, hend])
  omega

/-- Where nothing is ever held nobody waits. -/
theorem Path.not_waiting (hc : c.Valid) (hbare : c.Bare) (g : Path s (opening c).moment j b) :
    b.machine.status? p ≠ some .waiting := by
  intro hwaiting
  have hreg := g.regular hc
  obtain ⟨r, hr⟩ := (hreg.filed.mem_waiters p).2 hwaiting
  obtain ⟨i, hi, -, h, hh, -⟩ := hreg.uses_of_waiter (g.waits hc) hr
  rw [hbare i hi] at hh
  cases hh

theorem Path.active_of_left (hc : c.Valid) (hbare : c.Bare) (g : Path s (opening c).moment j b)
    (hb : b.phase ≠ .arriving) (hk : k ∈ c.jobs) (hl : 0 < b.machine.left k) :
    b.machine.Active k.pid :=
  (g.alive_of_left hc hb hk hl).active_or_waiting.resolve_right (g.not_waiting hc hbare)

/-! ## The least remaining time -/

/-- Who is picked by remaining time needs no more than who is left in the queue. -/
theorem remaining_le_of_decides {x y : ProcessRecord} (hm : m.Filed)
    (hunf : ∀ p x, m.process? p = some x → x.status = .running → x.isDone = false)
    (hd : Policy.shortestRemaining.Decides m n d) (hp : d.next = some p)
    (hx : n.process? p = some x) (hy : n.process? q = some y) (hready : y.status = .ready) :
    x.remaining ≤ y.remaining := by
  cases hd with
  | keep _ hkeep => cases hkeep
  | idle => cases hp
  | @pick k p' z hret hbest hz hst =>
    obtain rfl : p' = p := Option.some.inj hp
    rw [Policy.ripen_eq (by simp)] at *
    rw [Machine.process?_seat, Machine.process?_dequeue, Machine.process?_put] at hx hy
    rw [if_pos rfl, hz] at hx
    cases hx
    split at hy
    · next heq =>
      subst heq
      rw [hz] at hy
      cases hy
      cases hready
    · have hq : q ∈ k.ready.pids :=
        ((hm.retires hunf hret).1.mem_ready q).2 (Machine.status?_eq_some.2 ⟨y, hy, hready⟩)
      have hle := Machine.unbeaten_of_firstBest (fun _ _ => Nat.lt_asymm) hbest hz hq hy
      exact Nat.le_of_not_lt hle

/-- Who is to run by remaining time needs no more than who is ready. -/
theorem Path.least (hc : c.Valid) (g : Path .shortestRemaining (opening c).moment j b)
    {due : List ResourceId} (hb : b.phase = .requesting d p due) {x y : ProcessRecord}
    (hx : b.machine.process? p = some x) (hy : b.machine.process? q = some y)
    (hready : y.status = .ready) : x.remaining ≤ y.remaining := by
  induction g generalizing d p due x y with
  | refl => cases hb
  | snoc g hm ih =>
    have hreg := g.regular hc
    cases hm with
    | arrive | begin | idle | block | run | release | remain | exit | close => cases hb
    | dispatch hn hnext =>
      cases hb
      exact remaining_le_of_decides hreg.filed hreg.scripted.unfinished_running
        (Policy.schedule_decides hn) hnext hx hy hready
    | grant hn =>
      cases hb
      have ha := hreg.phase.2.acquires hn
      have hst := Machine.status?_granted (q := q) ha
      obtain ⟨u, hu, hux⟩ := (Machine.follows_acquires ha).of hx
      obtain ⟨v, hv, hvy⟩ := (Machine.follows_acquires ha).of hy
      rw [Machine.status?_of hv] at hst
      dsimp only at hx hy
      rw [Machine.status?_of hy, hready, Option.some.injEq] at hst
      rw [hux.remaining, hvy.remaining]
      exact ih rfl hu hv hst.symm

/-- Who runs has the least left to do. -/
theorem Path.left_le (hc : c.Valid) (hbare : c.Bare)
    (g : Path .shortestRemaining (opening c).moment j b) {i : Job} {due : List ResourceId}
    (hb : b.phase = .requesting d i.pid due) (hi : i ∈ c.jobs) (hk : k ∈ c.jobs)
    (hl : 0 < b.machine.left k) : b.machine.left i ≤ b.machine.left k := by
  have hreg := g.regular hc
  obtain ⟨hscripted, hreq⟩ := hreg.requests hb
  obtain ⟨x, hx⟩ := Machine.exists_record hreq.running
  rcases g.active_of_left hc hbare (by simp [hb]) hk hl with hready | hrun
  · obtain ⟨y, hy, hst⟩ := Machine.status?_eq_some.1 hready
    have hle := g.least hc hb hx hy hst
    obtain ⟨hstart, -⟩ := Machine.left_pos.1 hl
    have hxi := (record_of_job hc.sound hscripted hi hx).2
    have hyk := (record_of_job hc.sound hscripted hk hy).2
    rw [ProcessRecord.remaining, ProcessRecord.remaining, hxi, hyk, ← Machine.ageOf_of hx,
      ← Machine.ageOf_of hy] at hle
    rw [Machine.left, Machine.left, if_pos hstart]
    split
    · exact hle
    · exact Nat.zero_le _
  · rw [job_ext hc.sound hi hk (hreg.filed.running_unique hreq.running hrun)]

/-! ## One tick -/

/-- Within a tick one process at the most grows older, and it has been put on the CPU for it. -/
theorem Path.ages_tick (h : Path s a j b) (ha : ¬ a.phase.Ran)
    (ht : b.machine.tick = a.machine.tick) :
    (¬ b.phase.Ran → b.machine.ageOf = a.machine.ageOf) ∧
      (b.phase.Ran → ∃ i e d p, Path s a i e ∧ e.phase = .requesting d p [] ∧
        e.machine.tick = a.machine.tick ∧ e.machine.ageOf = a.machine.ageOf ∧
        b.machine.ageOf = Function.update a.machine.ageOf p (a.machine.ageOf p + 1)) := by
  induction h with
  | refl => exact ⟨fun _ => rfl, fun hb => absurd hb ha⟩
  | @snoc d e j l h hm ih =>
    have hle := h.tick_le
    have hmove := tick_le_move hm
    obtain ⟨hquiet, hran⟩ := ih (by omega)
    rcases time_move hm with ⟨hno, -, hiff⟩ | @⟨p, n, hl, -, hd, he⟩ | ⟨-, hpass, -, -⟩
    · have hage : e.machine.ageOf = d.machine.ageOf := funext fun p =>
        ageOf_move hm fun n hmem => hno _ (ran_mem_eventsOf.2 hmem) ⟨p, n, rfl⟩
      rw [hage, hiff]
      exact ⟨hquiet, hran⟩
    · have hmem : .ran p n ∈ l := ran_mem_eventsOf.1 (hl ▸ List.mem_singleton_self _)
      obtain ⟨rfl, d', hphase, -⟩ := hm.of_ran hmem
      obtain ⟨hn, hpn⟩ := ageOf_ran hm hmem
      have hold := hquiet hd
      refine ⟨fun hn => absurd he hn, fun _ => ⟨j, d, d', p, h, hphase, by omega, hold, ?_⟩⟩
      funext q
      rw [Function.update_apply]
      split
      · next hq => rw [hq, hpn, hn, hold]
      · next hq => rw [ageOf_move hm (by simp [hq]), hold]
    · omega

/-- What a tick does to the work that is left. -/
inductive Served (s : Strategy) (c : Scenario) (x y : Job → Nat) : Prop
  | rest : (∀ k ∈ c.jobs, x k = 0) → (∀ k ∈ c.jobs, y k = 0) → Served s c x y
  | unit {i : Job} : i ∈ c.jobs → 0 < x i →
      (s = .shortestRemaining → ∀ k ∈ c.jobs, 0 < x k → x i ≤ x k) →
      (∀ k ∈ c.jobs, y k = Function.update x i (x i - 1) k) → Served s c x y

theorem left_congr (ht : n.tick = m.tick) (hage : n.ageOf = m.ageOf) : n.left = m.left := by
  funext k
  rw [Machine.left, Machine.left, ht, hage]

/-- A job that grows older by one has one unit less left to do. -/
theorem left_of_grown {i : Job} (hc : c.Sound) (ht : n.tick = m.tick)
    (hage : n.ageOf = Function.update m.ageOf i.pid (m.ageOf i.pid + 1)) (hi : i ∈ c.jobs)
    (hk : k ∈ c.jobs) : n.left k = Function.update m.left i (m.left i - 1) k := by
  rw [Machine.left, ht, hage, Function.update_apply, Function.update_apply]
  by_cases hik : k = i
  · subst hik
    rw [if_pos rfl, if_pos rfl, Machine.left]
    split
    · omega
    · rfl
  · rw [if_neg hik, if_neg fun hpid => hik (job_ext hc hk hi hpid)]
    rfl

/-- Within a tick one unit of work is done, if anything is left to do. -/
theorem served_tick (hc : c.Valid) (hbare : c.Bare) {ran : Bool} {before : Machine} {u : List Job}
    (hbefore : Path s (opening c).moment i g.moment)
    (hplay : Path s g.moment j ⟨.closing ran, m, before, u⟩) (ht : m.tick = g.machine.tick) :
    Served s c g.machine.left m.left := by
  have ho : c.Ordered := Scenario.Unnested.ordered hc.sound hbare.unnested
  have hpath := hbefore.trans hplay
  obtain ⟨hidle, hbusy⟩ := hplay.ages_tick id ht
  cases ran with
  | false =>
    -- who has work left is alive, and nobody is where the CPU stays idle
    have hnone : ∀ k ∈ c.jobs, m.left k = 0 := fun k hk => Nat.eq_zero_of_not_pos fun hpos =>
      hpath.none_alive hc ho rfl (hpath.alive_of_left hc (by simp) hk hpos)
    refine .rest ?_ hnone
    rwa [left_congr ht (hidle id)] at hnone
  | true =>
    obtain ⟨_, e, d, p, hrun, hphase, hte, hage, hnew⟩ := hbusy trivial
    have hpath := hbefore.trans hrun
    have hreg := hpath.regular hc
    obtain ⟨hscripted, hreq⟩ := hreg.requests hphase
    obtain ⟨x, hx⟩ := Machine.exists_record hreq.running
    obtain ⟨i, hi, rfl, hlife, -⟩ := (hscripted.plays p x hx).job
    have hleft : e.machine.left = g.machine.left := left_congr hte hage
    have hstart : i.start ≤ e.machine.tick := Nat.le_of_not_lt fun hlate => by
      have hpending := (hpath.pending_iff (by simp [hphase]) hi).2 hlate
      rw [(hreg.pending i hpending).2] at hx
      cases hx
    have hpos : 0 < e.machine.left i := by
      rw [Machine.left_pos, Machine.ageOf_of hx, hlife]
      exact ⟨hstart, hreq.age_lt hscripted hx⟩
    refine .unit hi (hleft ▸ hpos) ?_ fun k hk => left_of_grown hc.sound ht hnew hi hk
    rintro rfl k hk hposk
    rw [← hleft] at hposk ⊢
    exact hpath.left_le hc hbare hphase hi hk hposk

/-- Between two ticks the jobs of the next one come in. -/
theorem left_pass (hc : c.Valid) {ran : Bool} {before : Machine} {u : List Job}
    (hpath : Path s (opening c).moment j ⟨.closing ran, m, before, u⟩) (hk : k ∈ c.jobs) :
    m.pass.left k = m.left k + m.pass.incoming k ∧ (m.left k = 0 ∨ m.pass.incoming k = 0) := by
  have hfresh : m.tick < k.start → m.ageOf k.pid = 0 := fun hlate =>
    ageOf_pending (hpath.regular hc) ((hpath.pending_iff (by simp) hk).2 hlate)
  have hleft : m.pass.left k = if k.start ≤ m.tick + 1 then k.lifespan - m.ageOf k.pid else 0 := rfl
  have hincoming : m.pass.incoming k = if k.start = m.tick + 1 then k.lifespan else 0 := rfl
  rw [hleft, hincoming, Machine.left]
  rcases Nat.lt_trichotomy k.start (m.tick + 1) with hlt | heq | hgt
  · rw [if_pos (Nat.le_of_lt hlt), if_pos (Nat.le_of_lt_succ hlt), if_neg (Nat.ne_of_lt hlt)]
    exact ⟨rfl, .inr rfl⟩
  · rw [hfresh (by omega), if_pos (Nat.le_of_eq heq), if_neg (by omega), if_pos heq]
    exact ⟨by omega, .inl rfl⟩
  · rw [if_neg (by omega), if_neg (by omega), if_neg (by omega)]
    exact ⟨rfl, .inl rfl⟩

/-- Before a tick come the states at all the earlier ones. -/
theorem exists_start {k : Nat} (hkt : k ≤ t) (hg : startAt s c t = some g) :
    ∃ h, startAt s c k = some h := by
  rcases Nat.lt_or_eq_of_le hkt with hlt | rfl
  · obtain ⟨r, hr, -⟩ := startAt_before hg hlt
    exact (tickAt_eq_some.1 hr).imp fun _ => And.left
  · exact ⟨g, hg⟩

/-- From one tick to the next a unit of work is done and new work comes in. -/
theorem left_next (hc : c.Valid) (hbare : c.Bare) (hg : startAt s c t = some g)
    (hh : startAt s c (t + 1) = some h) :
    ∃ m : Machine, Served s c g.machine.left m.left ∧ m.tick = t ∧ ∀ k ∈ c.jobs,
      h.machine.left k = m.left k + m.pass.incoming k ∧
        (m.left k = 0 ∨ m.pass.incoming k = 0) := by
  obtain ⟨r, hr, he, rfl⟩ := startAt_succ.1 hh
  obtain ⟨g', ran, n, m, acts, hg', hm, hplay, -, -, hafter⟩ := tickAt_passed hc hr he
  obtain rfl := Option.some.inj (hg.symm.trans hg')
  obtain ⟨ht, hbefore⟩ := startAt_moment hc hg
  rw [hafter]
  exact ⟨m, served_tick hc hbare hbefore hplay (hm.trans ht.symm), hm,
    fun k hk => left_pass hc (hbefore.trans hplay) hk⟩

/-! ## Two strategies -/

/-- A unit of the least work on the one side, and of any on the other. -/
theorem Served.majorizes {x y x' y' : Job → Nat} (h : Majorizes c.jobs.toFinset x y)
    (hx : Served .shortestRemaining c x x') (hy : Served s c y y') :
    Majorizes c.jobs.toFinset x' y' := by
  have hzero : (∀ k ∈ c.jobs, x k = 0) ↔ ∀ k ∈ c.jobs, y k = 0 := by
    have htotal := h.total
    simp only [← List.mem_toFinset, ← Finset.sum_eq_zero_iff, htotal]
  rcases hx with ⟨hx, hx'⟩ | ⟨hp, hxp, hleast, hx'⟩
  · rcases hy with ⟨-, hy'⟩ | ⟨hq, hyq, -, -⟩
    · exact (Majorizes.refl _ fun _ => 0).congr (fun k hk => hx' k (List.mem_toFinset.1 hk))
        fun k hk => hy' k (List.mem_toFinset.1 hk)
    · rw [hzero.1 hx _ hq] at hyq
      cases hyq
  · rcases hy with ⟨hy, -⟩ | ⟨hq, hyq, -, hy'⟩
    · rw [hzero.2 hy _ hp] at hxp
      cases hxp
    · refine (h.take (List.mem_toFinset.2 hp) hxp ?_ (List.mem_toFinset.2 hq) hyq).congr ?_ ?_
      · exact fun k hk => hleast rfl k (List.mem_toFinset.1 hk)
      · exact fun k hk => hx' k (List.mem_toFinset.1 hk)
      · exact fun k hk => hy' k (List.mem_toFinset.1 hk)

/-- At every tick the work that shortest remaining time first has left majorizes that of any other
strategy. -/
theorem majorizes_start (hc : c.Valid) (hbare : c.Bare)
    (hg : startAt .shortestRemaining c t = some g) (hh : startAt s c t = some h) :
    Majorizes c.jobs.toFinset g.machine.left h.machine.left := by
  induction t generalizing g h with
  | zero =>
    cases hg
    cases hh
    exact .refl _ _
  | succ t ih =>
    obtain ⟨g', hg'⟩ := exists_start (Nat.le_succ t) hg
    obtain ⟨h', hh'⟩ := exists_start (Nat.le_succ t) hh
    obtain ⟨m, hm, hmt, hnext⟩ := left_next hc hbare hg' hg
    obtain ⟨n, hn, hnt, hnext'⟩ := left_next hc hbare hh' hh
    have hsame : n.pass.incoming = m.pass.incoming := by
      funext k
      show (if k.start = n.tick + 1 then _ else _) = if k.start = m.tick + 1 then _ else _
      rw [hmt, hnt]
    rw [hsame] at hnext'
    simp only [← List.mem_toFinset] at hnext hnext'
    refine ((hm.majorizes (ih hg' hh') hn).add (fun k hk => (hnext k hk).2)
      fun k hk => (hnext' k hk).2).congr (fun k hk => (hnext k hk).1) fun k hk => (hnext' k hk).1

end Simulation

end Uniprocessor
