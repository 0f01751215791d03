import Uniprocessor.Proofs.Keeping
import Uniprocessor.Proofs.Level
import Uniprocessor.Proofs.Workload
/-
  Where all processes arrive in one tick, preemption by remaining time never happens.

  Consider a run under shortest job first.  What is on the CPU was the first of least lifespan when
  it was picked, and nobody has arrived since, so that it still is (`View.Foremost`).  When the
  next decision is made it has run (`Path.begun`), while nobody who is ready has.  So its remaining
  time is less than any in the queue: put back at the tail, it would be picked again, and the
  machine would be the one that leaving it on the CPU has made (`Decides.remaining`).  Where
  nobody is on the CPU, the remaining times of who is ready are lifespans.

  Main statement: `shortest_policies_agree`.
-/

namespace Uniprocessor

variable {m n : Machine} {p q : Pid} {x : ProcessRecord}

/-! ## A process that is put back and picked again -/

namespace Machine

theorem adjust_adjust (f g : ProcessRecord → ProcessRecord) :
    (m.adjust p f).adjust p g = m.adjust p (g ∘ f) := by
  simp only [adjust, PidMap.adjust, List.map_map]
  refine congrArg (fun l => { m with processes := ⟨l⟩ }) (List.map_congr_left fun e _ => ?_)
  by_cases hp : e.1 = p <;> simp [hp]

/-- Who is put back at the tail and picked again is where it was. -/
theorem Filed.requeue_pick (hm : m.Filed) (hcur : m.current = some p)
    (hx : m.process? p = some x) (hrun : x.status = .running) :
    ((((((m.adjust p (.turn .ready)).enqueue p).put p x).dequeue p).seat (some p))) = m := by
  have hrecords : (m.adjust p (.turn .ready)).adjust p (fun _ => x) = m := by
    rw [adjust_adjust]
    refine hm.adjust_eq_self fun y hy => ?_
    exact Option.some.inj (hx.symm.trans hy)
  have hqueue : (m.ready.pids ++ [p]).erase p = m.ready.pids := by
    rw [List.erase_append_right _ (hm.not_mem_ready (by rw [status?_of hx, hrun]; simp))]
    simp
  have hprocesses : (m.processes.adjust p (.turn .ready)).adjust p (fun _ => x) = m.processes :=
    congrArg Machine.processes hrecords
  show Machine.mk ((m.processes.adjust p (.turn .ready)).adjust p fun _ => x)
    ⟨(m.ready.pids ++ [p]).erase p⟩ m.resources (some p) m.limits m.tick = m
  rw [hprocesses, hqueue, ← hcur]

end Machine

/-- Shortest job first decides as shortest remaining time first would, where nobody who is ready
has run, and what is on the CPU has, being of least lifespan. -/
theorem Policy.Decides.remaining {d : Decision} (hm : m.Filed)
    (hunf : ∀ p x, m.process? p = some x → x.status = .running → x.isDone = false)
    (hfresh : ∀ q y, q ∈ m.ready.pids → m.process? q = some y → y.age = 0)
    (hbegun : ∀ p x, m.Works p → m.process? p = some x → 0 < x.age)
    (hleast : ∀ p x q y, m.Works p → m.process? p = some x → q ∈ m.ready.pids →
      m.process? q = some y → x.lifespan ≤ y.lifespan)
    (hd : Policy.shortestJob.Decides m n d) :
    ∃ d', Policy.shortestRemaining.Decides m n d' ∧ d'.next = d.next := by
  have hripen (k : Machine) : Policy.shortestRemaining.ripen k = k := ripen_eq (by simp)
  rcases Simulation.decides_keeping rfl hm hunf hd with
    ⟨p, hw, rfl, rfl⟩ | ⟨hnone, hpick⟩
  · have ⟨hcur, x, hx, hrun, hdone⟩ := hw
    have hnot : p ∉ n.ready.pids := hm.not_mem_ready (by rw [Machine.status?_of hx, hrun]; simp)
    have hreset : Policy.shortestRemaining.reset = id := rfl
    have hret : Policy.shortestRemaining.Retires n ((n.adjust p (.turn .ready)).enqueue p) := by
      have := Retires.requeue (π := .shortestRemaining) hw (by simp [retirement]) hnot
      rwa [hreset, Machine.adjust_id] at this
    have hself : ((n.adjust p (.turn .ready)).enqueue p).process? p = some (x.turn .ready) := by
      simp [hx]
    -- it has run and the others have not, so that it beats all who are in front of it
    have hbest : FirstBest (((n.adjust p (.turn .ready)).enqueue p).Beats
        Policy.shortestRemaining.beats) p ((n.adjust p (.turn .ready)).enqueue p).ready.pids := by
      refine ⟨n.ready.pids, [], rfl, fun q hq => ?_, by simp⟩
      obtain ⟨y, hy⟩ := Machine.exists_record ((hm.mem_ready q).1 hq)
      have hpq : p ≠ q := fun h => hnot (h ▸ hq)
      refine ⟨x.turn .ready, y, hself, by simpa [hpq] using hy, ?_⟩
      have hage := hbegun p x hw hx
      have hzero := hfresh q y hq hy
      have hle := hleast p x q y hw hx hq hy
      have hlt : x.age < x.lifespan := by simpa [ProcessRecord.isDone] using hdone
      show x.lifespan - x.age < y.lifespan - y.age
      omega
    have := Decides.pick hret (by rwa [hripen]) (by rw [hripen]; exact hself) rfl
    rw [hripen, show (x.turn .ready).turn .running = x by rw [← hrun]; rfl,
      hm.requeue_pick hcur hx hrun] at this
    exact ⟨_, this, rfl⟩
  · have hret : Policy.shortestRemaining.Retires m m := .leave fun p ⟨_, x, hx, hrun, _⟩ =>
      hnone p (Machine.status?_eq_some.2 ⟨x, hx, hrun⟩)
    rcases hpick with ⟨hempty, rfl, rfl⟩ | ⟨p, x, hbest, hx, hst, rfl, rfl⟩
    · have := Decides.idle hret (by rwa [hripen])
      rw [hripen] at this
      exact ⟨_, this, rfl⟩
    · have hbest : FirstBest (m.Beats Policy.shortestRemaining.beats) p m.ready.pids := by
        refine hbest.congr fun a ha b hb => exists_congr fun y => exists_congr fun z =>
          and_congr_right fun hy => and_congr_right fun hz => ?_
        show y.lifespan - y.age < z.lifespan - z.age ↔ y.lifespan < z.lifespan
        rw [hfresh a y ha hy, hfresh b z hb hz, Nat.sub_zero, Nat.sub_zero]
      have := Decides.pick hret (by rwa [hripen]) (by rwa [hripen]) hst
      rw [hripen] at this
      exact ⟨_, this, rfl⟩

namespace Simulation

variable {s : Strategy} {c : Scenario} {a b : Moment} {j : Journal} {l : List Activity}

/-! ## What is on the CPU has run -/

theorem begun_move (hreg : a.Regular c)
    (h : a.phase.asking = none → ∀ p, a.machine.status? p = some .running →
      0 < a.machine.ageOf p) (hm : Move s a l b) (hb : b.phase.asking = none)
    (hp : b.machine.status? p = some .running) : 0 < b.machine.ageOf p := by
  have hage := fun hl => ageOf_move (p := p) hm hl
  have hran := fun n => ageOf_ran (p := p) (n := n) hm
  cases hm with
  | @arrive _ _ _ k _ _ hn =>
    obtain ⟨-, -, rfl⟩ := Machine.fork_eq_ok.1 hn
    change (Machine.enroll _ _).status? p = _ at hp
    rw [Machine.status?_enroll] at hp
    split at hp
    · cases hp
    · rw [hage (by simp)]
      exact h rfl p hp
  | begin | remain => exact h rfl p hp
  | idle hn hnone =>
    have hd := Policy.schedule_decides hn
    have hfiled := hreg.filed.decides hreg.scripted.unfinished_running hd
    exact absurd (.inr hp) (Machine.not_active_of_idle hfiled hd hnone)
  | dispatch | grant => cases hb
  | block hn =>
    have ha := hreg.phase.2.acquires hn
    have hrun := hreg.phase.2.running
    change Machine.status? _ p = _ at hp
    rw [Machine.status?_blocked ha] at hp
    split at hp
    · next hpq => rw [← hpq, hrun] at hp; cases hp
    · next hpq => exact absurd (hreg.filed.running_unique hrun hp) hpq
  | @run _ _ _ _ q k _ _ _ hn =>
    obtain ⟨_, -, -, -, rfl⟩ := Machine.grow_eq_ok.1 hn
    have hrun := hreg.phase.2.running
    change (Machine.adjust _ _ _).status? p = _ at hp
    rw [Machine.status?_adjust (f := .aged k) fun _ => rfl] at hp
    obtain rfl := hreg.filed.running_unique hrun hp
    obtain ⟨hk, hpk⟩ := hran k (List.mem_singleton_self _)
    rw [hpk, hk]
    exact Nat.succ_pos _
  | release hn =>
    have hr := Returns.releases hreg.phase hn
    change Machine.status? _ p = _ at hp
    rw [Machine.status?_releases hr] at hp
    split at hp
    · cases hp
    · rw [hage (by simp [releaseEntries])]
      exact h rfl p hp
  | exit =>
    change (Machine.adjust _ _ _).status? p = _ at hp
    rw [Machine.status?_turn] at hp
    split at hp
    · next hpq =>
      rw [← hpq, hreg.phase.running] at hp
      cases hp
    · rw [hage (by simp)]
      exact h rfl p hp
  | close _ hn =>
    obtain ⟨-, rfl⟩ := Machine.advance_eq_ok.1 hn
    exact h rfl p hp

/-- A process that is on the CPU without asking for anything has run. -/
theorem Path.begun (hc : c.Valid) (g : Path s (opening c).moment j a)
    (ha : a.phase.asking = none) (hp : a.machine.status? p = some .running) :
    0 < a.machine.ageOf p := by
  induction g generalizing p with
  | refl => cases hp
  | snoc g hm ih => exact begun_move (g.regular hc) (fun ha p hp => ih ha hp) hm ha hp

/-! ## Nobody arrives later -/

/-- A job is still to arrive or due. -/
theorem Path.pending_or_due {k : Job} (g : Path s (opening c).moment j a) (hk : k ∈ c.jobs) :
    k ∈ a.pending ∨ k.start ≤ a.machine.tick := by
  induction g with
  | refl => exact .inl ((arrivals_perm c.jobs).mem_iff.2 hk)
  | snoc g hm ih =>
    have htick := tick_le_move hm
    rcases ih with hpending | hdue
    · cases hm with
      | arrive hstart hn =>
        rcases List.mem_cons.1 hpending with rfl | hpending
        · exact .inr (Nat.le_trans hstart htick)
        · exact .inl hpending
      | begin | idle | dispatch | grant | block | run | release | remain | exit | close =>
        exact .inl hpending
    · exact .inr (Nat.le_trans hdue htick)

/-- Who is on the CPU is of least lifespan, and nobody is to arrive. -/
structure View.Foremost (c : Scenario) (v : View) : Prop where
  alone : ∀ p, v.status p = some .running → v.pending = []
  least : ∀ i ∈ c.jobs, ∀ k ∈ c.jobs, v.status i.pid = some .running →
    v.status k.pid = some .ready → i.lifespan ≤ k.lifespan

/-- Where nobody is on the CPU there is nothing to say. -/
theorem View.Foremost.of_idle {v : View} (h : ∀ p, v.status p ≠ some .running) :
    v.Foremost c :=
  ⟨fun p hp => absurd hp (h p), fun i _ _ _ hi => absurd hi (h i.pid)⟩

/-- Once somebody has arrived of those who all arrive in one tick, nobody is to arrive after the
arrivals of a tick. -/
theorem Path.none_pending {t : Nat} (hc : c.Valid) (hstart : ∀ k ∈ c.jobs, k.start = t)
    (g : Path s (opening c).moment j a) (ha : a.phase ≠ .arriving)
    (hp : a.machine.process? p ≠ none) : a.pending = [] := by
  have hreg := g.regular hc
  obtain ⟨x, hx⟩ := Option.ne_none_iff_exists'.1 hp
  obtain ⟨i, hi, rfl, -⟩ := (hreg.scripted.plays p x hx).job
  have hdue : i.start ≤ a.machine.tick := by
    refine (g.pending_or_due hi).resolve_left fun hpending => ?_
    exact hp (hreg.pending i hpending).2
  cases hpending : a.pending with
  | nil => rfl
  | cons k u =>
    have hlate := g.pending_later ha k (by rw [hpending]; rfl)
    have hk := (hreg.pending k (by rw [hpending]; exact List.mem_cons_self)).1
    rw [hstart k hk, ← hstart i hi] at hlate
    omega

theorem lifespan_le_of_firstBest {back : Option (Pid × List ResourceId)} {i k : Job}
    (hc : c.Sound) (hs : Scripted c back m) (hi : i ∈ c.jobs) (hk : k ∈ c.jobs)
    (hbest : FirstBest (m.Beats Policy.shortestJob.beats) i.pid m.ready.pids)
    (hready : k.pid ∈ m.ready.pids) (hx : m.process? i.pid ≠ none)
    (hy : m.process? k.pid ≠ none) : i.lifespan ≤ k.lifespan := by
  obtain ⟨x, hx⟩ := Option.ne_none_iff_exists'.1 hx
  obtain ⟨y, hy⟩ := Option.ne_none_iff_exists'.1 hy
  rw [← (record_of_job hc hs hi hx).2, ← (record_of_job hc hs hk hy).2]
  have hle := Machine.unbeaten_of_firstBest (fun _ _ => Nat.lt_asymm) hbest hx hready hy
  exact Nat.le_of_not_lt hle

theorem foremost_move {t : Nat} (hc : c.Valid) (hstart : ∀ k ∈ c.jobs, k.start = t)
    (g : Path .shortestJob (opening c).moment j a) (h : a.view.Foremost c)
    (hm : Move .shortestJob a l b) : b.view.Foremost c := by
  have hreg := g.regular hc
  cases serves_move rfl hreg (g.exclusive rfl hc) hm with
  | arrive _ _ _ hp _ _ hv =>
    rw [hv]
    refine .of_idle fun p hrun => ?_
    have hnone := h.alone p (status_of_update (by simp) hrun).2
    rw [show a.view.pending = a.pending from rfl, hp] at hnone
    cases hnone
  | begin _ _ _ _ hv | idle _ _ _ _ _ hv | stay _ _ _ _ _ hv =>
    rw [hv]
    exact h
  | @pick p _ _ _ _ _ ha _ hn hbest hv =>
    have hready := hbest.mem
    have hknown : a.machine.process? p ≠ none := by
      obtain ⟨x, hx⟩ := Machine.exists_record ((hreg.filed.mem_ready p).1 hready)
      rw [hx]
      exact Option.some_ne_none x
    rw [hv]
    refine ⟨fun _ _ => g.none_pending hc hstart (by rw [ha]; simp) hknown,
      fun i hi k hk hrun hkr => ?_⟩
    have hkready := (status_of_update (by simp) hkr).2
    have hip : i.pid = p := by
      by_contra hne
      exact hn i.pid ((Function.update_of_ne hne _ _).symm.trans hrun)
    subst hip
    obtain ⟨y, hy⟩ := Machine.exists_record hkready
    exact lifespan_le_of_firstBest hc.sound hreg.scripted hi hk hbest
      ((hreg.filed.mem_ready k.pid).2 hkready) hknown (by rw [hy]; exact Option.some_ne_none y)
  | run _ _ _ _ _ _ hv | close _ _ _ _ hv =>
    rw [hv]
    exact ⟨h.alone, h.least⟩
  | @exit p _ _ _ _ hrun _ hv =>
    rw [hv]
    refine .of_idle fun q hq => ?_
    obtain ⟨hqp, hq⟩ := status_of_update (by simp) hq
    exact hqp (hreg.filed.running_unique hq hrun)

theorem Path.foremost {t : Nat} (hc : c.Valid) (hstart : ∀ k ∈ c.jobs, k.start = t)
    (g : Path .shortestJob (opening c).moment j a) : a.view.Foremost c := by
  induction g with
  | refl => exact .of_idle fun p hp => by cases hp
  | snoc g hm ih => exact foremost_move hc hstart g ih hm

theorem agree_shortest {t : Nat} (hc : c.Valid) (hstart : ∀ k ∈ c.jobs, k.start = t) :
    Agree .shortestJob .shortestRemaining c := by
  intro j a g
  have hreg := g.regular hc
  have hfirst := g.foremost hc hstart
  have hfresh := (g.exclusive rfl hc).fresh
  refine ⟨fun n d ha hd => ?_, fun _ _ _ _ _ _ _ ha => ha, fun _ _ _ _ _ _ hr => hr⟩
  refine Policy.Decides.remaining hreg.filed ?_ (fun q y hq hy => ?_) (fun p x hw hx => ?_)
    (fun p x q y hw hx hq hy => ?_) hd
  · have hs := hreg.scripted
    rw [ha] at hs
    exact hs.unfinished_running
  · rw [← Machine.ageOf_of hy]
    exact hfresh q ((hreg.filed.mem_ready q).1 hq)
  · rw [← Machine.ageOf_of hx]
    obtain ⟨-, z, hz, hrun, -⟩ := hw
    exact g.begun hc (by rw [ha]; rfl) (Machine.status?_eq_some.2 ⟨z, hz, hrun⟩)
  · obtain ⟨-, z, hz, hrun, -⟩ := hw
    obtain ⟨i, hi, rfl, hil, -⟩ := (hreg.scripted.plays p x hx).job
    obtain ⟨k, hk, rfl, hkl, -⟩ := (hreg.scripted.plays q y hy).job
    rw [← hil, ← hkl]
    exact hfirst.least i hi k hk (Machine.status?_eq_some.2 ⟨z, hz, hrun⟩)
      ((hreg.filed.mem_ready k.pid).1 hq)

end Simulation

open Simulation

variable {c : Scenario}

/-- Where all processes arrive in one tick, shortest job first and shortest remaining time first
leave the same trace, whatever the processes hold. -/
theorem shortest_policies_agree (hc : c.Valid)
    (hstart : ∀ i ∈ c.jobs, ∀ k ∈ c.jobs, i.start = k.start) :
    ∃ t, Leaves .shortestJob c t ∧ Leaves .shortestRemaining c t := by
  obtain ⟨n, hjobs⟩ := exists_common hstart
  obtain ⟨t, ht⟩ := exists_leaves .shortestJob hc
  exact ⟨t, ht, leaves_of_agree hc (agree_shortest hc hjobs) ht⟩

/-- Three processes that arrive together, the two shorter ones needing resources the wrong way
round. -/
def Scenario.together : Scenario where
  jobs := [
    { pid := ⟨1⟩, name := "long", start := 1, lifespan := 4, priority := 0, holds := [] },
    { pid := ⟨2⟩, name := "first", start := 1, lifespan := 3, priority := 0,
      holds := [{ resource := ⟨0⟩, since := 0, duration := 3 },
        { resource := ⟨1⟩, since := 1, duration := 1 }] },
    { pid := ⟨3⟩, name := "second", start := 1, lifespan := 3, priority := 0,
      holds := [{ resource := ⟨1⟩, since := 0, duration := 3 },
        { resource := ⟨0⟩, since := 1, duration := 1 }] }]
  resourceCount := 2
  limits := .standard
  maxTicks := 20
  audit := true

/-- The first of the two gets what the other one will need, and the other one gets it then. -/
theorem shortest_policies_agree_together :
    ∃ t, Leaves .shortestJob .together t ∧ Leaves .shortestRemaining .together t ∧
      ⟨2, .acquired ⟨2⟩ ⟨1⟩⟩ ∈ t.events ∧ ⟨4, .acquired ⟨3⟩ ⟨1⟩⟩ ∈ t.events := by
  obtain ⟨t, ht, ht'⟩ := shortest_policies_agree (c := .together) (by decide) (by decide)
  have hfirst := ht.of_any (fun t => ⟨2, .acquired ⟨2⟩ ⟨1⟩⟩ ∈ t.events) (by decide)
  have hsecond := ht'.of_any (fun t => ⟨4, .acquired ⟨3⟩ ⟨1⟩⟩ ∈ t.events) (by decide)
  exact ⟨t, ht, ht', hfirst, hsecond⟩

end Uniprocessor
