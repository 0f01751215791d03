import Uniprocessor.Proofs.Attendance
import Uniprocessor.Proofs.Level
import Uniprocessor.Proofs.Restriction
/-
  The processes on either side of a priority.

  `Scenario.atLeast θ` has the jobs of priority `θ` and more alone, which are those of the
  processes that `Scenario.urgent θ` names.  In a scenario that is `Split` at `θ` the two kinds of
  processes share no resource.  So no process waits for one of the other kind, nobody takes over a
  priority from the other side, and under priority scheduling, with or without inheritance, the
  urgent processes are at any moment those whose priority reaches `θ` (`Path.parted`).
-/

namespace Uniprocessor

namespace Scenario

/-- The scenario with the jobs of priority `θ` and more alone. -/
def atLeast (c : Scenario) (θ : Nat) : Scenario :=
  { c with jobs := c.jobs.filter fun k => θ ≤ k.priority }

/-- Whether a process has a job of priority `θ` or more. -/
def urgent (c : Scenario) (θ : Nat) (p : Pid) : Bool :=
  c.jobs.any fun k => k.pid = p ∧ θ ≤ k.priority

/-- No resource is used both by a process of priority `θ` or more and by one of less. -/
def Split (c : Scenario) (θ : Nat) : Prop :=
  ∀ i ∈ c.jobs, ∀ k ∈ c.jobs, θ ≤ i.priority → k.priority < θ →
    ∀ g ∈ i.holds, ∀ h ∈ k.holds, g.resource ≠ h.resource

instance (c : Scenario) (θ : Nat) : Decidable (c.Split θ) := by
  unfold Split
  infer_instance

/-- The job of `p` holds `r` at some age. -/
def Uses (c : Scenario) (p : Pid) (r : ResourceId) : Prop :=
  ∃ k ∈ c.jobs, k.pid = p ∧ ∃ h ∈ k.holds, h.resource = r

variable {c : Scenario} {θ : Nat} {p q : Pid} {r : ResourceId} {k : Job}

theorem urgent_iff : c.urgent θ p ↔ ∃ k ∈ c.jobs, k.pid = p ∧ θ ≤ k.priority := by
  simp [urgent]

theorem urgent_job (hc : c.Sound) (hk : k ∈ c.jobs) : c.urgent θ k.pid ↔ θ ≤ k.priority := by
  rw [urgent_iff]
  constructor
  · rintro ⟨i, hi, hik, hle⟩
    rwa [← Simulation.job_ext hc hi hk hik]
  · exact fun hle => ⟨k, hk, rfl, hle⟩

/-- In a split scenario the users of a resource are of one kind. -/
theorem Split.urgent_iff (hc : c.Sound) (hsplit : c.Split θ) (hp : c.Uses p r)
    (hq : c.Uses q r) : c.urgent θ p ↔ c.urgent θ q := by
  obtain ⟨i, hi, rfl, g, hg, rfl⟩ := hp
  obtain ⟨k, hk, rfl, h, hh, heq⟩ := hq
  rw [urgent_job hc hi, urgent_job hc hk]
  constructor
  · exact fun hle => Nat.le_of_not_lt fun hlt => hsplit i hi k hk hle hlt g hg h hh heq.symm
  · exact fun hle => Nat.le_of_not_lt fun hlt => hsplit k hk i hi hle hlt h hh g hg heq

theorem Valid.atLeast (hc : c.Valid) (θ : Nat) : (c.atLeast θ).Valid := by
  obtain ⟨hsound, hstop⟩ := flaw?_eq_none.1 hc.accepted
  have hmem : ∀ {k}, k ∈ (c.atLeast θ).jobs → k ∈ c.jobs := fun hk => (List.mem_filter.1 hk).1
  refine ⟨⟨fun k hk => hc.inRange.1 k (hmem hk), hc.inRange.2⟩,
    flaw?_eq_none.2 ⟨⟨hsound.caps, ?_, fun k hk => hsound.jobs k (hmem hk)⟩,
      fun k hk => hstop k (hmem hk)⟩⟩
  exact hsound.pids.sublist (List.filter_sublist.map _)

end Scenario

namespace Simulation

/-! ## Arrivals -/

theorem arrive_of_le {j : Job} {l : List Job} (h : ∀ k ∈ l, j.start ≤ k.start) :
    arrive j l = j :: l := by
  cases l with
  | nil => rfl
  | cons k l => exact if_pos (h k List.mem_cons_self)

theorem filter_arrive {Q : Job → Bool} {j : Job} (hj : Q j) {l : List Job}
    (hl : l.Pairwise (·.start ≤ ·.start)) :
    (arrive j l).filter Q = arrive j (l.filter Q) := by
  induction l with
  | nil => simp [arrive, hj]
  | cons k l ih =>
    obtain ⟨hk, hl⟩ := List.pairwise_cons.1 hl
    by_cases hjk : j.start ≤ k.start
    · have hall : ∀ i ∈ (k :: l).filter Q, j.start ≤ i.start := by
        intro i hi
        rcases List.mem_cons.1 (List.mem_filter.1 hi).1 with rfl | hi
        · exact hjk
        · exact Nat.le_trans hjk (hk i hi)
      rw [arrive_of_le hall, arrive, if_pos hjk, List.filter_cons_of_pos hj]
    · rw [arrive, if_neg hjk]
      by_cases hQ : Q k
      · rw [List.filter_cons_of_pos hQ, List.filter_cons_of_pos hQ, ih hl, arrive, if_neg hjk]
      · rw [List.filter_cons_of_neg hQ, List.filter_cons_of_neg hQ, ih hl]

theorem filter_arrive_of_not {Q : Job → Bool} {j : Job} (hj : ¬ Q j) (l : List Job) :
    (arrive j l).filter Q = l.filter Q := by
  induction l with
  | nil => simp [arrive, hj]
  | cons k l ih =>
    rw [arrive]
    split
    · exact List.filter_cons_of_neg hj
    · rw [List.filter_cons, List.filter_cons, ih]

/-- The jobs that are left arrive in the order in which they would have. -/
theorem filter_arrivals (Q : Job → Bool) (l : List Job) :
    (arrivals l).filter Q = arrivals (l.filter Q) := by
  induction l with
  | nil => rfl
  | cons j l ih =>
    change (arrive j (arrivals l)).filter Q = _
    by_cases hj : Q j
    · rw [filter_arrive hj (arrivals_sorted l), ih, List.filter_cons_of_pos hj]
      rfl
    · rw [filter_arrive_of_not hj, ih, List.filter_cons_of_neg hj]

theorem arrivals_of_same_start {u : List Job} {t : Nat} (h : ∀ k ∈ u, k.start = t) :
    arrivals u = u := by
  induction u with
  | nil => rfl
  | cons k u ih =>
    have hk := h k List.mem_cons_self
    have hu : ∀ i ∈ u, i.start = t := fun i hi => h i (List.mem_cons_of_mem _ hi)
    change arrive k (arrivals u) = _
    rw [ih hu]
    exact arrive_of_le fun i hi => Nat.le_of_eq (hk.trans (hu i hi).symm)

variable {s : Strategy} {c : Scenario} {a b : Moment} {l : List Activity} {j : Journal}
variable {p w : Pid} {r : ResourceId} {θ : Nat}

theorem Path.pending_sorted (g : Path s (opening c).moment j a) :
    a.pending.Pairwise (·.start ≤ ·.start) := by
  refine g.invariant (P := fun a => a.pending.Pairwise (·.start ≤ ·.start)) ?_
    (arrivals_sorted c.jobs)
  intro a l b ha hm
  cases hm with
  | arrive => exact (List.pairwise_cons.1 ha).2
  | begin | idle | dispatch | grant | block | run | release | remain | exit | close => exact ha

/-- Where the first of those that are to arrive is later, all are. -/
theorem later_of_head {u : List Job} {t : Nat} (hu : u.Pairwise (·.start ≤ ·.start))
    (h : ∀ k ∈ u.head?, t < k.start) : ∀ k ∈ u, t < k.start := by
  cases u with
  | nil => exact nofun
  | cons i u =>
    have hi : t < i.start := h i rfl
    intro k hk
    rcases List.mem_cons.1 hk with rfl | hk
    · exact hi
    · exact Nat.lt_of_lt_of_le hi ((List.pairwise_cons.1 hu).1 k hk)

/-! ## Users of a resource -/

theorem uses_of_record {back : Option (Pid × List ResourceId)} {m : Machine} {x : ProcessRecord}
    {h : Hold} (hs : Scripted c back m) (hx : m.process? p = some x) (hh : h ∈ x.holds) :
    c.Uses p h.resource := by
  obtain ⟨k, hk, hp, -, -, hholds⟩ := (hs.plays p x hx).job
  exact ⟨k, hk, hp, h, hholds ▸ hh, rfl⟩

theorem Moment.Regular.uses_of_owner (hreg : a.Regular c)
    (ho : a.machine.resources.owner? r = some p) : c.Uses p r := by
  obtain ⟨x, hx⟩ := Machine.status?_ne_none.1 (hreg.filed.owner_alive r p ho).1
  obtain ⟨φ, m, b, u⟩ := a
  rcases hreg.scripted.owner r p x ho hx with ⟨due, hback, hr⟩ | ⟨h, hh, rfl, -⟩
  · cases φ with
    | releasing q due' =>
      obtain ⟨rfl, rfl⟩ := Prod.mk.inj (Option.some.inj hback)
      obtain ⟨-, h, hh, rfl, -⟩ := hreg.phase.given x hx r hr
      exact uses_of_record hreg.scripted hx hh
    | arriving | deciding | requesting | closing => cases hback
  · exact uses_of_record hreg.scripted hx hh

theorem Moment.Regular.uses_of_request {d : Decision} {due : List ResourceId}
    (hreg : a.Regular c) (ha : a.phase = .requesting d p (r :: due)) : c.Uses p r := by
  obtain ⟨hs, hreq⟩ := hreg.requests ha
  obtain ⟨x, hx⟩ := Machine.exists_record hreq.running
  obtain ⟨-, h, hh, rfl, -⟩ := hreq.asked hx List.mem_cons_self
  exact uses_of_record hs hx hh

theorem Moment.Regular.uses_of_waiter (hreg : a.Regular c) (hwaits : Waits a.machine)
    (hw : w ∈ a.machine.resources.waiters r) : c.Uses w r := by
  obtain ⟨x, hx, hhead⟩ := hwaits r w hw
  obtain ⟨⟨h, hh, rfl, -⟩, -⟩ := mem_lacks.1 (List.mem_of_head? hhead)
  exact uses_of_record hreg.scripted hx hh

end Simulation

/-! ## Priorities keep to their side -/

namespace Machine

variable {P : Pid → Bool} {θ : Nat} {m n : Machine} {p : Pid}

theorem Parted.of (h : m.Parted P θ) (hn : ∀ p y, n.process? p = some y →
    ∃ x, m.process? p = some x ∧ (θ ≤ y.priority ↔ θ ≤ x.priority)) : n.Parted P θ := by
  intro p y hy
  obtain ⟨x, hx, hiff⟩ := hn p y hy
  rw [hiff]
  exact h p x hx

theorem Parted.adjust {f : ProcessRecord → ProcessRecord} (h : m.Parted P θ)
    (hf : ∀ x, m.process? p = some x → (θ ≤ (f x).priority ↔ θ ≤ x.priority)) :
    (m.adjust p f).Parted P θ := by
  refine h.of fun q y hy => ?_
  rw [process?_adjust] at hy
  split at hy
  · next hpq =>
    subst hpq
    obtain ⟨x, hx, rfl⟩ := Option.map_eq_some_iff.1 hy
    exact ⟨x, hx, hf x hx⟩
  · exact ⟨y, hy, Iff.rfl⟩

end Machine

namespace Simulation

variable {s : Strategy} {c : Scenario} {a b : Moment} {l : List Activity} {j : Journal}
variable {p w : Pid} {r : ResourceId} {θ : Nat}

theorem parted_move (hs : s.policy = .priority) (hκ : s.protocol.Plain) (hc : c.Sound)
    (hsplit : c.Split θ) (hreg : a.Regular c) (h : a.machine.Parted (c.urgent θ) θ)
    (hm : Move s a l b) : b.machine.Parted (c.urgent θ) θ := by
  have decides : ∀ {n d}, s.policy.Decides a.machine n d → n.Parted (c.urgent θ) θ := by
    intro n d hd
    rw [hs] at hd
    refine h.of fun p y hy => ?_
    obtain ⟨x, hx, -⟩ := (Machine.follows_decides hd).of hy
    exact ⟨x, hx, by rw [← priorityOf_of hx, ← priorityOf_of hy, priorityOf_decides hd]⟩
  cases hm with
  | @arrive _ _ _ k _ _ hn =>
    obtain ⟨-, -, rfl⟩ := Machine.fork_eq_ok.1 hn
    intro p x hx
    change (Machine.enroll _ _).process? p = some x at hx
    rw [Machine.process?_enroll] at hx
    split at hx
    · next hkp =>
      cases hx
      rw [← hkp]
      exact Scenario.urgent_job hc (hreg.pending k List.mem_cons_self).1
    · exact h p x hx
  | begin | remain => exact h
  | idle hn => exact decides (Policy.schedule_decides hn)
  | dispatch hn => exact decides (Policy.schedule_decides hn)
  | grant hn =>
    have ha := hreg.phase.2.acquires hn
    cases ha with
    | granted => exact h.adjust fun x _ => by rw [hκ]
  | @block _ _ _ _ p o r _ _ hn =>
    have ha := hreg.phase.2.acquires hn
    have hiff := hsplit.urgent_iff hc (hreg.uses_of_owner ha.blocker.1)
      (hreg.uses_of_request (r := r) rfl)
    cases ha with
    | @blocked _ x _ _ hx =>
      refine Machine.Parted.adjust (h.adjust fun y hy => ?_) fun _ _ => Iff.rfl
      -- the holder takes over a priority of its own side
      have hp := h p x hx
      have ho := h o y hy
      cases s.protocol with
      | mutex _ | ceiling _ => exact Iff.rfl
      | inheritance =>
        have hmax : θ ≤ max y.priority x.priority ↔ θ ≤ y.priority ∨ θ ≤ x.priority := by omega
        show θ ≤ max y.priority x.priority ↔ θ ≤ y.priority
        rw [hmax, ← hp, ← ho, hiff, or_self]
  | run hn =>
    obtain ⟨_, -, -, -, rfl⟩ := Machine.grow_eq_ok.1 hn
    exact h.adjust fun _ _ => Iff.rfl
  | @release m _ _ p r o _ _ hn =>
    have hr := Returns.releases hreg.phase hn
    have hfreed : (s.protocol.freed m r p).Parted (c.urgent θ) θ := by
      refine Machine.Parted.adjust (m := m.own r none) h fun x hx => ?_
      obtain ⟨k, hk, rfl, -, hbase, -⟩ := (hreg.scripted.plays p x hx).job
      have hrelaxed : (s.protocol.relax x).priority = x.priority ∨
          (s.protocol.relax x).priority = x.basePriority := by
        cases s.protocol with
        | mutex _ => exact .inl rfl
        | ceiling _ | inheritance => exact .inr rfl
      rcases hrelaxed with he | he
      · rw [he]
      · rw [he, ← hbase, ← Scenario.urgent_job hc hk]
        exact h _ x hx
    cases hr with
    | quiet => exact hfreed
    | wake => exact Machine.Parted.adjust hfreed fun _ _ => Iff.rfl
  | exit => exact h.adjust fun _ _ => Iff.rfl
  | close _ hn =>
    obtain ⟨-, rfl⟩ := Machine.advance_eq_ok.1 hn
    exact h

/-- The urgent processes are those whose priority reaches `θ`. -/
theorem Path.parted (hs : s.policy = .priority) (hκ : s.protocol.Plain) (hc : c.Valid)
    (hsplit : c.Split θ) (g : Path s (opening c).moment j a) :
    a.machine.Parted (c.urgent θ) θ := by
  induction g with
  | refl => exact fun p x hx => by cases hx
  | snoc g hm ih => exact parted_move hs hκ hc.sound hsplit (g.regular hc) ih hm

end Simulation

end Uniprocessor
