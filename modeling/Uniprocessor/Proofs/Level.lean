import Uniprocessor.Proofs.Kept
import Uniprocessor.Proofs.Lockstep
/-
  Where all processes are alike, selection by a key is selection by the order of the queue.

  Scanning a queue of equal keys for the earliest best one ends at its head.  So two policies that
  treat the current process alike decide alike wherever neither key tells two records apart
  (`Decides.level`), and so do two wake orders (`Releases.level`).

  Lifespans never change, and are all equal in a scenario in which they are: first come, first
  served and shortest job first do the same.  Priorities never change in a run under round robin,
  where nothing is lent and nothing ages (`Path.level`).  Where they are all equal, priority
  scheduling would have made the same decisions, and a holder that took over the priority of who
  it blocks would have kept its own: round robin, priority scheduling and inheritance do the same.

  Main statement: `level_jobs_in_queue_order`.
-/

namespace Uniprocessor

variable {m n : Machine} {p : Pid} {r : ResourceId} {P : ProcessRecord → Prop}

/-- Keys that compare the records alike compare the processes alike. -/
theorem Machine.All.beats_congr {beats worse : ProcessRecord → ProcessRecord → Prop}
    (h : m.All P) (hb : ∀ x y, P x → P y → (worse x y ↔ beats x y)) (p q : Pid) :
    m.Beats worse p q ↔ m.Beats beats p q := by
  refine exists_congr fun x => exists_congr fun y => and_congr_right fun hx =>
    and_congr_right fun hy => ?_
  exact hb x y (h p x hx) (h q y hy)

/-- No record of the list beats that of its first best process. -/
theorem Machine.unbeaten_of_firstBest {beats : ProcessRecord → ProcessRecord → Prop} {l : List Pid}
    {q : Pid} {x y : ProcessRecord} (asymm : ∀ x y, beats x y → ¬ beats y x)
    (h : FirstBest (m.Beats beats) p l) (hx : m.process? p = some x) (hq : q ∈ l)
    (hy : m.process? q = some y) : ¬ beats y x := by
  refine fun hyx => h.unbeaten ?_ ?_ q hq ⟨y, x, hy, hx, hyx⟩
  · rintro a ⟨u, v, hu, hv, huv⟩
    obtain rfl := Option.some.inj (hu.symm.trans hv)
    exact asymm u u huv huv
  · rintro a b ⟨u, v, hu, hv, huv⟩ ⟨v', u', hv', hu', hvu⟩
    obtain rfl := Option.some.inj (hu.symm.trans hu')
    obtain rfl := Option.some.inj (hv.symm.trans hv')
    exact asymm u v huv hvu

/-! ## Decisions -/

namespace Policy

variable {π ρ : Policy} {d : Decision}

theorem Retires.congr (hret : ρ.retirement = π.retirement) (h : π.Retires m n) :
    ρ.Retires m n := by
  have hreset : π.reset = ρ.reset := by
    funext x
    unfold reset
    rw [hret]
  cases h with
  | leave hw => exact .leave hw
  | requeue hw hkeep hq =>
    rw [hreset]
    exact .requeue hw (hret ▸ hkeep) hq

/-- Policies that treat the current process alike, and whose keys compare the records alike,
decide alike. -/
theorem Decides.level (hret : ρ.retirement = π.retirement) (hπ : π ≠ .priorityAging)
    (hρ : ρ ≠ .priorityAging) (h : m.All P) (ht : ∀ s x, P x → P (x.turn s))
    (hr : ∀ x, P x → P (π.reset x)) (hb : ∀ x y, P x → P y → (ρ.beats x y ↔ π.beats x y))
    (hd : π.Decides m n d) : ρ.Decides m n d := by
  cases hd with
  | keep hw hkeep => exact .keep hw (hret.trans hkeep)
  | @idle k hk hempty =>
    rw [ripen_eq hπ] at hempty ⊢
    have := Decides.idle (hk.congr hret) ((ripen_eq (m := k) hρ).symm ▸ hempty)
    rwa [ripen_eq hρ] at this
  | @pick k q x hk hbest hx hs =>
    rw [ripen_eq hπ] at hbest hx ⊢
    have hbest : FirstBest (k.Beats ρ.beats) q k.ready.pids :=
      hbest.congr fun a _ b _ => (h.retires ht hr hk).beats_congr hb a b
    have := Decides.pick (π := ρ) (hk.congr hret) (by rwa [ripen_eq hρ])
      (by rwa [ripen_eq hρ]) hs
    rwa [ripen_eq hρ] at this

end Policy

/-! ## Requests and releases -/

namespace Protocol

variable {κ μ : Protocol}

/-- A protocol under which holding a resource changes no priority by itself. -/
def Plain (κ : Protocol) : Prop := ∀ limits x, κ.promote limits x = x

theorem plain_mutex (order : WakeOrder) : (mutex order).Plain := fun _ _ => rfl

theorem plain_inheritance : inheritance.Plain := fun _ _ => rfl

/-- The records have one priority, which is also the base priority of each. -/
def Level (m : Machine) (k : Nat) : Prop := m.All fun x => x.priority = k ∧ x.basePriority = k

theorem raise_level {x : ProcessRecord} {k : Nat} (hx : x.priority = k) : κ.raise k x = x := by
  cases κ with
  | mutex _ | ceiling _ => rfl
  | inheritance =>
    subst hx
    show { x with priority := max x.priority x.priority } = x
    rw [Nat.max_self]

theorem relax_level {x : ProcessRecord} (hx : x.priority = x.basePriority) : κ.relax x = x := by
  cases κ with
  | mutex _ => rfl
  | ceiling _ | inheritance =>
    obtain ⟨_, _, _, _, _, _⟩ := x
    cases hx
    rfl

/-- Where everybody has its base priority a release changes none. -/
theorem freed_base (hm : m.Filed) (h : m.All fun x => x.priority = x.basePriority)
    (hr : r.val < m.resources.size) : κ.freed m r p = m.own r none :=
  (hm.disown hr).adjust_eq_self fun x hx => relax_level (h p x hx)

/-- Protocols that leave the same machine behind and compare those that wait alike release alike. -/
theorem Releases.congr {o : Option Pid} (hfreed : μ.freed m r p = κ.freed m r p)
    (hbeats : ∀ v w, (κ.freed m r p).Beats μ.wakeOrder.beats v w ↔
      (κ.freed m r p).Beats κ.wakeOrder.beats v w)
    (h : κ.Releases m r p n o) : μ.Releases m r p n o := by
  cases h with
  | quiet ho hempty =>
    rw [← hfreed]
    exact .quiet ho hempty
  | wake ho hbest hy hs hready =>
    have hbest : FirstBest ((κ.freed m r p).Beats μ.wakeOrder.beats) _ (m.resources.waiters r) :=
      hbest.congr fun v _ w _ => hbeats v w
    rw [← hfreed] at hbest hy ⊢
    exact .wake ho hbest hy hs hready

theorem Acquires.level {k : Nat} (hκ : κ.Plain) (hμ : μ.Plain) (hm : m.Filed)
    (hlevel : Level m k) {reply : Reply} (h : κ.Acquires m r p n reply) :
    μ.Acquires m r p n reply := by
  cases h with
  | granted hr ho hx =>
    have := Acquires.granted (κ := μ) hr ho hx
    rwa [show μ.promote m.limits = κ.promote m.limits by
      funext x
      rw [hμ, hκ]] at this
  | @blocked o x ho hne hx _ hw =>
    have same : ∀ {ν : Protocol}, m.adjust o (ν.raise x.priority) = m := by
      intro ν
      refine hm.adjust_eq_self fun y hy => raise_level ?_
      rw [(hlevel o y hy).1, (hlevel p x hx).1]
    have := Acquires.blocked (κ := μ) ho hne hx
      (fun _ => Machine.status?_ne_none.1 (hm.owner_alive r o ho).1) hw
    rw [same] at this ⊢
    exact this

theorem Releases.level {k : Nat} (hm : m.Filed) (hlevel : Level m k) {o : Option Pid}
    (h : κ.Releases m r p n o) : μ.Releases m r p n o := by
  have hr := ResourceTable.owner?_lt h.owned
  have hbase : m.All fun x => x.priority = x.basePriority := by
    intro q x hx
    obtain ⟨hp, hb⟩ := hlevel q x hx
    rw [hp, hb]
  have hbeats : ∀ {ν : Protocol} {x y : ProcessRecord}, x.priority = k ∧ x.basePriority = k →
      y.priority = k ∧ y.basePriority = k → (ν.wakeOrder.beats x y ↔ False) := by
    intro ν x y hx hy
    cases ν.wakeOrder with
    | fifo => exact Iff.rfl
    | priority => exact iff_of_false (by simp [WakeOrder.beats, hx.1, hy.1]) id
  have hown : (m.own r none).All fun x => x.priority = k ∧ x.basePriority = k := hlevel
  refine h.congr (by rw [freed_base hm hbase hr, freed_base hm hbase hr]) ?_
  rw [freed_base hm hbase hr]
  exact hown.beats_congr fun x y hx hy => (hbeats hx hy).trans (hbeats hx hy).symm

end Protocol

namespace Simulation

variable {s : Strategy} {c : Scenario} {a : Moment} {j : Journal}

/-! ## Round robin moves no priority -/

theorem Path.level {k : Nat} (hc : c.Valid) (hjobs : ∀ job ∈ c.jobs, job.priority = k)
    (g : Path .roundRobin (opening c).moment j a) : Protocol.Level a.machine k := by
  have hkept : Kept .roundRobin c (Drawn {i | i = k}) :=
    kept_drawn (by decide) hjobs fun _ h => by cases h
  exact g.kept hc hkept

/-- Among equals strategies that requeue the current process do as round robin does. -/
theorem agree_roundRobin {k : Nat} (hc : c.Valid) (hjobs : ∀ job ∈ c.jobs, job.priority = k)
    (hs : s.policy = .priority) (hκ : s.protocol.Plain) : Agree .roundRobin s c := by
  intro j a g
  have hreg := g.regular hc
  have hlevel := g.level hc hjobs
  refine ⟨fun n d _ hd => ⟨d, ?_, rfl⟩, fun d p r due n reply _ ha => ?_,
    fun p r due n o _ hr => ?_⟩
  · rw [hs]
    refine Policy.Decides.level (π := .roundRobin) (by rfl) (by simp) (by simp) hlevel
      (fun _ _ hx => hx) (fun _ hx => hx) (fun x y hx hy => ?_) hd
    exact iff_of_false (by simp [Policy.beats, hx.1, hy.1]) (by simp [Policy.beats])
  · exact ha.level (Protocol.plain_mutex _) hκ hreg.filed hlevel
  · exact hr.level hreg.filed hlevel

/-! ## Lifespans do not change -/

/-- Among processes of one lifespan shortest job first does as first come, first served. -/
theorem agree_fifo {k : Nat} (hc : c.Valid) (hjobs : ∀ job ∈ c.jobs, job.lifespan = k) :
    Agree .fifo .shortestJob c := by
  intro j a g
  have hlifespan : a.machine.All fun x => x.lifespan = k := by
    intro p x hx
    obtain ⟨job, hjob, -, hl, -⟩ := ((g.regular hc).scripted.plays p x hx).job
    rw [← hl, hjobs job hjob]
  refine ⟨fun n d _ hd => ⟨d, ?_, rfl⟩, fun _ _ _ _ _ _ _ ha => ha, fun _ _ _ _ _ _ hr => hr⟩
  refine Policy.Decides.level (π := .fifo) (ρ := .shortestJob) (by rfl) (by simp) (by simp)
    hlifespan (fun _ _ hx => hx) (fun _ hx => hx) (fun x y hx hy => ?_) hd
  exact iff_of_false (by simp [Policy.beats, hx, hy]) (by simp [Policy.beats])

theorem exists_leaves (s : Strategy) (hc : c.Valid) : ∃ t, Leaves s c t := by
  obtain ⟨f, hf⟩ := exists_playAll (s := s) hc
  exact ⟨_, leaves_of_playAll hc hf⟩

/-- What all jobs have in common. -/
theorem exists_common {f : Job → Nat} (h : ∀ i ∈ c.jobs, ∀ k ∈ c.jobs, f i = f k) :
    ∃ n, ∀ job ∈ c.jobs, f job = n := by
  cases hjobs : c.jobs with
  | nil => exact ⟨0, fun job hjob => by cases hjob⟩
  | cons i jobs =>
    rw [hjobs] at h
    exact ⟨f i, fun job hjob => h job hjob i List.mem_cons_self⟩

end Simulation

open Simulation

variable {c : Scenario}

/-- Selection by priority and by lifespan falls back to the order of the queue.  Where all processes
have the same priority, round robin, priority scheduling and priority scheduling with inheritance
leave the same trace; where all have the same lifespan, first come, first served and shortest job
first do. -/
theorem level_jobs_in_queue_order (hc : c.Valid) :
    ((∀ i ∈ c.jobs, ∀ k ∈ c.jobs, i.priority = k.priority) →
      ∃ t, Leaves .roundRobin c t ∧ Leaves .priority c t ∧ Leaves .priorityInheritance c t) ∧
    ((∀ i ∈ c.jobs, ∀ k ∈ c.jobs, i.lifespan = k.lifespan) →
      ∃ t, Leaves .fifo c t ∧ Leaves .shortestJob c t) := by
  constructor
  · intro hprio
    obtain ⟨n, hjobs⟩ := exists_common hprio
    obtain ⟨t, ht⟩ := exists_leaves .roundRobin hc
    exact ⟨t, ht, leaves_of_agree hc
      (agree_roundRobin (s := .priority) hc hjobs rfl (Protocol.plain_mutex _)) ht,
      leaves_of_agree hc
      (agree_roundRobin (s := .priorityInheritance) hc hjobs rfl Protocol.plain_inheritance) ht⟩
  · intro hlife
    obtain ⟨n, hjobs⟩ := exists_common hlife
    obtain ⟨t, ht⟩ := exists_leaves .fifo hc
    exact ⟨t, ht, leaves_of_agree hc (agree_fifo hc hjobs) ht⟩

/-- Two processes that differ in nothing but their arrival need the same resource. -/
def Scenario.twins : Scenario where
  jobs := [
    { pid := ⟨1⟩, name := "first", start := 0, lifespan := 3, priority := 4,
      holds := [{ resource := ⟨0⟩, since := 0, duration := 2 }] },
    { pid := ⟨2⟩, name := "second", start := 1, lifespan := 3, priority := 4,
      holds := [{ resource := ⟨0⟩, since := 0, duration := 2 }] }]
  resourceCount := 1
  limits := .standard
  maxTicks := 20
  audit := true

theorem level_jobs_in_queue_order_twins :
    (∃ t, Leaves .roundRobin .twins t ∧ Leaves .priority .twins t ∧
      Leaves .priorityInheritance .twins t ∧ ⟨1, .blocked ⟨2⟩ ⟨0⟩⟩ ∈ t.events) ∧
    ∃ t, Leaves .fifo .twins t ∧ Leaves .shortestJob .twins t := by
  obtain ⟨hprio, hlife⟩ := level_jobs_in_queue_order (c := .twins) (by decide)
  obtain ⟨t, ht, ht', ht''⟩ := hprio (by decide)
  have hblocked := ht.of_any (fun t => ⟨1, .blocked ⟨2⟩ ⟨0⟩⟩ ∈ t.events) (by decide)
  exact ⟨⟨t, ht, ht', ht'', hblocked⟩, hlife (by decide)⟩

end Uniprocessor
