import Mathlib.Data.Set.Finite.Basic
import Mathlib.Dynamics.PeriodicPts.Defs
import Mathlib.Order.Preorder.Finite
import Uniprocessor.Proofs.Attendance
import Uniprocessor.Proofs.Lifespan
/-
  A stall is a deadlock.

  A tick stalls when nothing runs in it although some process has not ended.  Every process that is
  alive then waits (`Path.not_active`), what it waits for has an owner, since somebody answers for
  every wait-set, and the owner waits in its turn (`Path.held_up`).  Only finitely many processes
  wait, so that going from each to the owner that it waits for comes back to where it was
  (`exists_circularWait`).

  A circular wait lasts: to give back what another one of the ring waits for, a member would have
  to run (`CircularWait.move`, `CircularWait.path`).

  Main statement: `stall_is_deadlock`.
-/

namespace Uniprocessor

namespace Machine

/-- The process `p` waits for a resource that `q` owns. -/
def WaitsFor (m : Machine) (p q : Pid) : Prop :=
  ∃ r, p ∈ m.resources.waiters r ∧ m.resources.owner? r = some q

/-- The first `k` members of `ring` are different processes, each of which waits for a resource
that the next one owns, and the last one for a resource of the first. -/
structure CircularWait (m : Machine) (k : Nat) (ring : Nat → Pid) : Prop where
  two_le : 2 ≤ k
  distinct : ∀ i < k, ∀ j < k, ring i = ring j → i = j
  waits : ∀ i < k, m.WaitsFor (ring i) (ring ((i + 1) % k))

variable {m : Machine} {p q : Pid} {k i : Nat} {ring : Nat → Pid}

theorem WaitsFor.ne (hm : m.Filed) (h : m.WaitsFor p q) : q ≠ p := by
  obtain ⟨r, hw, ho⟩ := h
  rintro rfl
  exact hm.owner_apart r q ho hw

theorem WaitsFor.waiting (hm : m.Filed) (h : m.WaitsFor p q) : m.status? p = some .waiting := by
  obtain ⟨r, hw, -⟩ := h
  exact (hm.mem_waiters p).1 ⟨r, hw⟩

theorem CircularWait.waiting (hm : m.Filed) (h : m.CircularWait k ring) (hi : i < k) :
    m.status? (ring i) = some .waiting :=
  (h.waits i hi).waiting hm

/-- Where every waiter waits for another one, some of them wait in a ring. -/
theorem exists_circularWait (hm : m.Filed)
    (h : ∀ p, m.status? p = some .waiting →
      ∃ q, m.status? q = some .waiting ∧ m.WaitsFor p q)
    (hp : m.status? p = some .waiting) : ∃ k ring, m.CircularWait k ring := by
  choose! next hwaiting hnext using h
  have horbit : ∀ i, m.status? (next^[i] p) = some .waiting := by
    intro i
    induction i with
    | zero => exact hp
    | succ i ih =>
      rw [Function.iterate_succ_apply']
      exact hwaiting _ ih
  have hfinite : {q | m.status? q = some .waiting}.Finite := by
    refine (List.finite_toSet m.processes.pids).subset fun q hq => ?_
    obtain ⟨x, hx⟩ := exists_record hq
    exact mem_pids hx
  obtain ⟨a, -, b, -, hlt, heq⟩ :=
    Set.infinite_univ.exists_lt_map_eq_of_mapsTo (fun i _ => horbit i) hfinite
  -- from its `a`-th member on the orbit of `p` is a ring
  have hperiodic : Function.IsPeriodicPt next (b - a) (next^[a] p) := by
    change next^[b - a] (next^[a] p) = next^[a] p
    rw [← Function.iterate_add_apply, Nat.sub_add_cancel hlt.le]
    exact heq.symm
  have hwaits : ∀ i, m.WaitsFor (next^[i] (next^[a] p)) (next^[i + 1] (next^[a] p)) := by
    intro i
    rw [Function.iterate_succ_apply', ← Function.iterate_add_apply]
    exact hnext _ (horbit _)
  have hpos := hperiodic.minimalPeriod_pos (Nat.sub_pos_of_lt hlt)
  have hone : Function.minimalPeriod next (next^[a] p) ≠ 1 := by
    intro hone
    exact (hwaits 0).ne hm (Function.minimalPeriod_eq_one_iff_isFixedPt.1 hone)
  refine ⟨Function.minimalPeriod next (next^[a] p), fun i => next^[i] (next^[a] p), ?_, ?_, ?_⟩
  · omega
  · intro i hi j hj hij
    exact Function.iterate_injOn_Iio_minimalPeriod hi hj hij
  · intro i _
    rw [Function.iterate_mod_minimalPeriod_eq]
    exact hwaits i

end Machine

namespace Simulation

variable {s : Strategy} {c : Scenario} {a b : Moment} {l : List Activity} {j : Journal}
variable {p q : Pid} {r : ResourceId} {k i n : Nat} {ring : Nat → Pid}

/-! ## Who waits in an idle tick -/

/-- In a tick in which nothing runs nobody could use the CPU. -/
theorem Path.not_active (hc : c.Valid) (g : Path s (opening c).moment j b)
    (hb : b.phase = .closing false) : ¬ b.machine.Active p := by
  cases g with
  | refl => cases hb
  | snoc g hm =>
    have hfiled := ((g.regular hc).move hc hm).filed
    cases hm with
    | idle hn hnext =>
      exact Machine.not_active_of_idle hfiled (Policy.schedule_decides hn) hnext
    | arrive | begin | dispatch | grant | block | run | release | remain | exit | close => cases hb

/-- In such a tick every waiter is held up by a process that waits itself. -/
theorem Path.held_up (hc : c.Valid) (g : Path s (opening c).moment j b)
    (hb : b.phase = .closing false) (hw : p ∈ b.machine.resources.waiters r) :
    ∃ q, b.machine.resources.owner? r = some q ∧ b.machine.status? q = some .waiting := by
  obtain ⟨q, hq⟩ := g.attended hc r (List.ne_nil_of_mem hw)
  rw [hb] at hq
  rcases hq with ho | ⟨-, -, hready | hasking⟩
  · have halive := alive_of_owner (g.regular hc).filed ho
    exact ⟨q, ho, halive.active_or_waiting.resolve_left (g.not_active hc hb)⟩
  · exact absurd (.inl hready) (g.not_active hc hb)
  · cases hasking

/-- In such a tick whoever is alive makes a circular wait. -/
theorem Path.circularWait (hc : c.Valid) (g : Path s (opening c).moment j b)
    (hb : b.phase = .closing false) (hp : Alive b.machine p) :
    ∃ k ring, b.machine.CircularWait k ring := by
  have hfiled := (g.regular hc).filed
  refine Machine.exists_circularWait hfiled (fun q hq => ?_)
    (hp.active_or_waiting.resolve_left (g.not_active hc hb))
  obtain ⟨r, hw⟩ := (hfiled.mem_waiters q).2 hq
  obtain ⟨o, ho, hwaiting⟩ := g.held_up hc hb hw
  exact ⟨o, hwaiting, r, hw, ho⟩

/-! ## A circular wait lasts -/

/-- As long as the owner waits itself nobody gets out of the wait-set. -/
theorem waitsFor_move (hreg : a.Regular c) (hm : Move s a l b) (h : a.machine.WaitsFor p q)
    (hq : a.machine.status? q = some .waiting) : b.machine.WaitsFor p q := by
  obtain ⟨r, hw, ho⟩ := h
  cases hm with
  | arrive _ hn =>
    obtain ⟨-, -, rfl⟩ := Machine.fork_eq_ok.1 hn
    exact ⟨r, hw, ho⟩
  | begin | remain | exit => exact ⟨r, hw, ho⟩
  | idle hn =>
    refine ⟨r, ?_⟩
    dsimp only
    rw [(Policy.schedule_decides hn).resources]
    exact ⟨hw, ho⟩
  | dispatch hn =>
    refine ⟨r, ?_⟩
    dsimp only
    rw [(Policy.schedule_decides hn).resources]
    exact ⟨hw, ho⟩
  | @grant _ _ _ _ _ t _ _ hn =>
    have ha := hreg.phase.2.acquires hn
    refine ⟨r, ?_, ?_⟩
    · dsimp only
      rwa [ha.waiters_granted]
    · dsimp only at ho ⊢
      rw [ha.owner?_granted, if_neg, ho]
      rintro rfl
      rw [ha.free] at ho
      cases ho
  | @block _ _ _ _ _ _ t _ _ hn =>
    have ha := hreg.phase.2.acquires hn
    refine ⟨r, ?_, ?_⟩
    · dsimp only
      rw [ha.waiters_blocked]
      split
      · exact List.mem_append_left _ hw
      · exact hw
    · dsimp only
      rwa [ha.owner?_blocked]
  | run hn =>
    obtain ⟨_, -, -, -, rfl⟩ := Machine.grow_eq_ok.1 hn
    exact ⟨r, hw, ho⟩
  | @release _ _ _ v t o _ _ hn =>
    have hr := hreg.phase.releases hn
    -- what is released belongs to the process on the CPU, and `q` waits
    have hne : t ≠ r := by
      rintro rfl
      have hrun := hreg.phase.running
      rw [Option.some.inj (hr.owned.symm.trans ho)] at hrun
      rw [hrun] at hq
      cases hq
    refine ⟨r, ?_, ?_⟩
    · dsimp only
      cases o with
      | some w => rwa [hr.waiters_wake, if_neg hne]
      | none => rwa [hr.waiters_quiet]
    · dsimp only
      rwa [hr.owner?, if_neg hne]
  | close _ hn =>
    obtain ⟨-, rfl⟩ := Machine.advance_eq_ok.1 hn
    exact ⟨r, hw, ho⟩

theorem CircularWait.move (hreg : a.Regular c) (hm : Move s a l b)
    (h : a.machine.CircularWait k ring) : b.machine.CircularWait k ring := by
  refine ⟨h.two_le, h.distinct, fun i hi => waitsFor_move hreg hm (h.waits i hi) ?_⟩
  exact h.waiting hreg.filed (Nat.mod_lt _ (Nat.lt_of_lt_of_le Nat.two_pos h.two_le))

theorem CircularWait.path (hc : c.Valid) (ha : a.Regular c) (g : Path s a j b)
    (h : a.machine.CircularWait k ring) : b.machine.CircularWait k ring := by
  induction g with
  | refl => exact h
  | snoc g hm ih => exact CircularWait.move (ha.path hc g) hm ih

/-- No member of the ring runs while it is waited for. -/
theorem CircularWait.not_ran (hc : c.Valid) (ha : a.Regular c) (g : Path s a j b)
    (h : a.machine.CircularWait k ring) (hi : i < k) (v : Nat) :
    ⟨v, .ran (ring i) n⟩ ∉ j.events := by
  intro hmem
  obtain ⟨d, f, _, l, hd, hm, hran⟩ := g.exists_move hmem
  obtain ⟨-, _, hphase, -⟩ := hm.of_ran (ran_mem_eventsOf.1 hran)
  have hreg := ha.path hc hd
  have hring := CircularWait.path hc ha hd h
  have hrun := (hreg.requests hphase).2.running
  rw [hring.waiting hreg.filed hi] at hrun
  cases hrun

end Simulation

open Simulation

variable {c : Scenario}

/-- A stall is a deadlock: if a tick is idle although a process that has arrived by then has not
exited, then at the end of that tick some processes wait for one another in a ring, and from that
tick on none of them runs again. -/
theorem stall_is_deadlock {run : Run} (s : Strategy) (hc : c.Valid)
    (hrun : simulate s c = .ok run) {k u : Nat} {p : Pid}
    (hidle : ⟨k, .idle⟩ ∈ run.trace.events) (hu : u ≤ k)
    (hin : ⟨u, .forked p⟩ ∈ run.trace.events)
    (hlive : ∀ v ≤ k, ⟨v, .exited p⟩ ∉ run.trace.events) :
    ∃ t n ring, tickAt s c k = some t ∧ t.after.machine.CircularWait n ring ∧
      ∀ i < n, ∀ v age, ⟨v, .ran (ring i) age⟩ ∈ run.trace.events → v < k := by
  obtain ⟨hlt, t, hk, hidle⟩ := (mem_trace hc hrun).1 hidle
  obtain ⟨g, ran, b, m, acts, -, hm, hplay, hpath, hcloses⟩ := tickAt_closes hc hk
  obtain ⟨hbusy, hquiet⟩ := hcloses.busy_iff hm hplay
  obtain ⟨rfl, -⟩ := hquiet.1 hidle
  obtain ⟨-, tick, hafter⟩ := hcloses.after
  -- the process is alive at the end of the tick
  have halive : Alive t.after.machine p := (tickAt_alive hc hrun hlt hk).2 ⟨⟨u, hu, hin⟩, hlive⟩
  rw [hafter] at halive
  obtain ⟨n, ring, hring⟩ := hpath.circularWait hc rfl halive
  have hring : t.after.machine.CircularWait n ring := by
    rw [hafter]
    exact ⟨hring.two_le, hring.distinct, hring.waits⟩
  refine ⟨t, n, ring, hk, hring, fun i hi v age hran => ?_⟩
  obtain ⟨-, r, hr, hran⟩ := (mem_trace hc hrun).1 hran
  by_contra hv
  rcases Nat.lt_or_eq_of_le (Nat.le_of_not_lt hv) with hkv | rfl
  · obtain ⟨hreg, j, e, hlater⟩ := tickAt_later hc hkv hk hr
    refine CircularWait.not_ran (n := age) hc hreg hlater hring hi v ?_
    rw [events_append, events_stamp]
    exact List.mem_append_right _ (mem_within.2 ⟨rfl, hran⟩)
  · obtain rfl := Option.some.inj (hk.symm.trans hr)
    cases hbusy.1 ⟨_, _, hran⟩

/-- Two processes take the same two resources, each the other's first one second. -/
def Scenario.crossed : Scenario where
  jobs := [
    { pid := ⟨1⟩, name := "left", start := 0, lifespan := 4, priority := 1,
      holds := [{ resource := ⟨0⟩, since := 0, duration := 3 },
        { resource := ⟨1⟩, since := 1, duration := 2 }] },
    { pid := ⟨2⟩, name := "right", start := 0, lifespan := 4, priority := 1,
      holds := [{ resource := ⟨1⟩, since := 0, duration := 3 },
        { resource := ⟨0⟩, since := 1, duration := 2 }] }]
  resourceCount := 2
  limits := .standard
  maxTicks := 6
  audit := true

theorem stall_is_deadlock_crossed :
    ∃ run, simulate .roundRobin .crossed = .ok run ∧ ⟨2, .idle⟩ ∈ run.trace.events ∧
      ∃ t n ring, tickAt .roundRobin .crossed 2 = some t ∧
        t.after.machine.CircularWait n ring ∧
        ∀ i < n, ∀ v age, ⟨v, .ran (ring i) age⟩ ∈ run.trace.events → v < 2 := by
  have hsim : (simulate .roundRobin .crossed).toOption.any (fun run =>
      decide (⟨2, .idle⟩ ∈ run.trace.events ∧ ⟨0, .forked ⟨1⟩⟩ ∈ run.trace.events ∧
        ∀ e ∈ run.trace.events, e.event ≠ .exited ⟨1⟩)) = true := by
    decide
  obtain ⟨run, hrun, h⟩ := Option.any_eq_true _ _ |>.1 hsim
  have hrun := toOption_eq_some.1 hrun
  obtain ⟨hidle, hin, hlive⟩ := of_decide_eq_true h
  refine ⟨run, hrun, hidle, ?_⟩
  exact stall_is_deadlock .roundRobin (c := .crossed) (by decide) hrun hidle (Nat.zero_le 2) hin
    fun v _ hexit => hlive _ hexit rfl

end Uniprocessor
