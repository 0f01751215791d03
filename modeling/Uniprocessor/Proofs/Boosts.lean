import Uniprocessor.Proofs.Ages
import Uniprocessor.Proofs.Kept
import Uniprocessor.Proofs.Lockstep
/-
  Boosts do not outlive ownership.

  Under a mutex without aging nothing raises a priority: every record is at its base (`kept_base`),
  and as the base is that of the job, the two machines that the end of a tick compares agree
  (`Path.unchanged`).

  Under the ceiling protocol and under inheritance only an owner is raised, and what gives a
  resource back falls to its base.  So whoever owns nothing is at its base (`Machine.Grounded`):
  each edit that a move makes keeps this (`Grounded.move`, `Path.grounded`).  Inheritance never
  lowers a priority below the base and takes none but that of another process (`kept_drawn`,
  `kept_above`).

  Main statement: `boosts_end_with_ownership`.
-/

namespace Uniprocessor

/-- The priority is the one that the process falls back to. -/
def ProcessRecord.AtBase (x : ProcessRecord) : Prop := x.priority = x.basePriority

/-- Whoever owns nothing is at its base. -/
def Machine.Grounded (m : Machine) : Prop :=
  ∀ p x, m.process? p = some x → (∀ r, m.resources.owner? r ≠ some p) → x.AtBase

/-- A release takes the former holder back to its base. -/
def Protocol.Relaxing (κ : Protocol) : Prop := ∀ x, (κ.relax x).AtBase

theorem Protocol.relaxing_ceiling (order : WakeOrder) : (ceiling order).Relaxing := fun _ => rfl

theorem Protocol.relaxing_inheritance : inheritance.Relaxing := fun _ => rfl

/-! ## Edits of a grounded machine -/

namespace Machine.Grounded

variable {m n : Machine} {p : Pid} {r : ResourceId} {π : Policy} {κ : Protocol}
variable {f : ProcessRecord → ProcessRecord}

/-- Only a process that owns nothing has to stay at its base. -/
theorem adjust (h : m.Grounded)
    (hf : ∀ x, m.process? p = some x → (∀ r, m.resources.owner? r ≠ some p) → x.AtBase →
      (f x).AtBase) : (m.adjust p f).Grounded := by
  intro q y hy hfree
  rw [process?_adjust] at hy
  split at hy
  · next hpq =>
    subst hpq
    obtain ⟨x, hx, rfl⟩ := Option.map_eq_some_iff.1 hy
    exact hf x hx hfree (h p x hx hfree)
  · exact h q y hy hfree

theorem turn (h : m.Grounded) (t : Status) : (m.adjust p (.turn t)).Grounded :=
  h.adjust fun _ _ _ hx => hx

theorem put (h : m.Grounded) {x : ProcessRecord} (hx : m.process? p = some x) (t : Status) :
    (m.put p (x.turn t)).Grounded := by
  refine h.adjust fun y hy _ hbase => ?_
  rw [hx] at hy
  obtain rfl := Option.some.inj hy
  exact hbase

theorem retires (h : m.Grounded) (hr : π.Retires m n) : n.Grounded := by
  cases hr with
  | leave => exact h
  | @requeue p =>
    have hreset : (m.adjust p π.reset).Grounded := by
      refine h.adjust fun x _ _ hx => ?_
      unfold Policy.reset
      split
      · exact (rfl : x.restorePriority.AtBase)
      · exact hx
    exact hreset.turn .ready

theorem decides (hπ : π ≠ .priorityAging) (h : m.Grounded) {d : Decision}
    (hd : π.Decides m n d) : n.Grounded := by
  cases hd with
  | keep => exact h
  | idle hr _ =>
    rw [Policy.ripen_eq hπ]
    have hretired := h.retires hr
    exact hretired
  | pick hr _ hx _ =>
    rw [Policy.ripen_eq hπ] at hx ⊢
    exact (h.retires hr).put hx .running

/-- Whoever is promoted or raised owns something. -/
theorem acquires (h : m.Grounded) {reply : Reply} (ha : κ.Acquires m r p n reply) :
    n.Grounded := by
  have hacquires := ha
  cases ha with
  | granted =>
    intro q y hy hfree
    have hqp : q ≠ p := by
      rintro rfl
      exact hfree r (by rw [hacquires.owner?_granted, if_pos rfl])
    rw [process?_own, process?_adjust, if_neg (Ne.symm hqp)] at hy
    refine h q y hy fun t ho => hfree t ?_
    exact (hacquires.owner?_granted_iff hqp).2 ho
  | @blocked o x ho =>
    have hraised : (m.adjust o (κ.raise x.priority)).Grounded :=
      h.adjust fun _ _ hfree _ => absurd ho (hfree r)
    intro q y hy hfree
    refine (hraised.turn (p := p) .waiting) q y hy fun t hq => hfree t ?_
    rw [owner?_park]
    exact hq

theorem freed (hκ : κ.Relaxing) (h : m.Grounded) (ho : m.resources.owner? r = some p) :
    (κ.freed m r p).Grounded := by
  intro q y hy hfree
  rw [Protocol.process?_freed] at hy
  split at hy
  · obtain ⟨x, -, rfl⟩ := Option.map_eq_some_iff.1 hy
    exact hκ x
  · next hpq =>
    refine h q y hy fun t hq => hfree t ?_
    rw [Protocol.owner?_freed (ResourceTable.owner?_lt ho), if_neg, hq]
    rintro rfl
    exact hpq (Option.some.inj (ho.symm.trans hq))

theorem releases (hκ : κ.Relaxing) (h : m.Grounded) {o : Option Pid}
    (hr : κ.Releases m r p n o) : n.Grounded := by
  have hfreed := h.freed hκ hr.owned
  cases hr with
  | quiet => exact hfreed
  | @wake w _ _ _ _ _ _ =>
    have hunpark : ((κ.freed m r p).unpark r w).Grounded := by
      intro q y hy hfree
      refine hfreed q y hy fun t hq => hfree t ?_
      rw [owner?_unpark]
      exact hq
    exact hunpark.turn .ready

end Machine.Grounded

namespace Simulation

variable {s : Strategy} {c : Scenario} {a b : Moment} {j : Journal} {l : List Activity}

/-! ## Boosts of owners -/

theorem Grounded.move (hs : s.policy ≠ .priorityAging) (hκ : s.protocol.Relaxing)
    (hreg : a.Regular c) (h : a.machine.Grounded) (hm : Move s a l b) : b.machine.Grounded := by
  have hphase := hreg.phase
  cases hm with
  | @arrive m _ _ k _ _ hn =>
    obtain ⟨-, -, rfl⟩ := Machine.fork_eq_ok.1 hn
    intro p x hx hfree
    change (m.enroll k).process? p = some x at hx
    rw [Machine.process?_enroll] at hx
    split at hx
    · cases hx
      exact (rfl : (ProcessRecord.ofJob k).AtBase)
    · exact h p x hx hfree
  | begin | remain => exact h
  | idle hn => exact h.decides hs (Policy.schedule_decides hn)
  | dispatch hn => exact h.decides hs (Policy.schedule_decides hn)
  | grant hn => exact h.acquires (hphase.2.acquires hn)
  | block hn => exact h.acquires (hphase.2.acquires hn)
  | run hn =>
    obtain ⟨_, -, -, -, rfl⟩ := Machine.grow_eq_ok.1 hn
    exact h.adjust fun _ _ _ hx => hx
  | release hn => exact h.releases hκ (Returns.releases hphase hn)
  | exit => exact h.turn .terminated
  | close _ hn =>
    obtain ⟨-, rfl⟩ := Machine.advance_eq_ok.1 hn
    exact h

theorem Path.grounded (hc : c.Valid) (hs : s.policy ≠ .priorityAging) (hκ : s.protocol.Relaxing)
    (g : Path s (opening c).moment j a) : a.machine.Grounded := by
  induction g with
  | refl => exact fun p x hx => by cases hx
  | snoc g hm ih => exact Grounded.move hs hκ (g.regular hc) ih hm

theorem kept_above : Kept .priorityInheritance c fun x => x.basePriority ≤ x.priority where
  job _ _ := Nat.le_refl _
  turn _ _ hx := hx
  aged _ _ hx := hx
  restore _ _ := Nat.le_refl _
  bump haging := by cases haging
  promote _ hx := hx
  raise _ _ _ hy := Nat.le_trans hy (Nat.le_max_left _ _)

/-! ## No boosts -/

/-- A mutex raises nobody. -/
theorem kept_base {order : WakeOrder} (hs : s.policy ≠ .priorityAging)
    (hκ : s.protocol = .mutex order) : Kept s c ProcessRecord.AtBase where
  job _ _ := rfl
  turn _ _ hx := hx
  aged _ _ hx := hx
  restore _ _ := rfl
  bump haging := absurd haging hs
  promote _ hx := by
    rw [hκ]
    exact hx
  raise _ _ _ hy := by
    rw [hκ]
    exact hy

/-- What the end of a tick tells of a priority. -/
theorem Move.of_priorityChanged {p : Pid} {i k : Nat} (hreg : a.Regular c) (hm : Move s a l b)
    (hl : .priorityChanged p i k ∈ eventsOf l) :
    ∃ x y, a.before.process? p = some x ∧ a.machine.process? p = some y ∧
      x.priority ≠ y.priority := by
  obtain ⟨e, he, hevent⟩ := mem_eventsOf.1 hl
  cases hm with
  | @close m _ before ran =>
    rcases List.mem_append.1 he with he | he
    · cases ran with
      | true => cases he
      | false =>
        rw [List.mem_singleton.1 he] at hevent
        cases hevent
    · obtain ⟨⟨q, y⟩, hy, hchange⟩ := List.mem_filterMap.1 he
      have hentry := (PidMap.mem_entries hreg.filed.sorted).1 hy
      dsimp only at hchange
      cases hx : before.process? q with
      | none => simp [hx] at hchange
      | some x =>
        simp only [hx, Option.ite_none_left_eq_some, Option.some.injEq] at hchange
        obtain ⟨hne, rfl⟩ := hchange
        cases hevent
        exact ⟨x, y, hx, hentry, hne⟩
  | idle | dispatch =>
    rw [List.mem_singleton.1 he, Activity.event?] at hevent
    split at hevent <;> cases hevent
  | release =>
    have hl : .priorityChanged p i k ∈ eventsOf (releaseEntries _ _ _ _) := hl
    rw [events_released] at hl
    simp at hl
  | begin | remain => cases he
  | arrive | grant | block | run | exit =>
    rw [List.mem_singleton.1 he] at hevent
    cases hevent

/-- Where every record is at its base no priority ever changes. -/
theorem Path.unchanged (hc : c.Valid) (h : Kept s c ProcessRecord.AtBase)
    (g : Path s (opening c).moment j a) {e : TraceEvent} (he : e ∈ j.events) (p : Pid)
    (i k : Nat) : e.event ≠ .priorityChanged p i k := by
  intro hevent
  have original : ∀ {i d x}, Path s (opening c).moment i d → d.machine.process? p = some x →
      ∃ job ∈ c.jobs, job.pid = p ∧ job.priority = x.priority := by
    intro i d x hd hx
    obtain ⟨job, hjob, hp, -, hbase, -⟩ := ((hd.regular hc).scripted.plays p x hx).job
    have hx : x.priority = x.basePriority := hd.kept hc h p x hx
    exact ⟨job, hjob, hp, by rw [hbase, hx]⟩
  obtain ⟨d, f, i', l, hd, hm, hl⟩ := g.exists_move he
  rw [hevent] at hl
  obtain ⟨x, y, hx, hy, hne⟩ := hm.of_priorityChanged (hd.regular hc) hl
  obtain ⟨i₀, d₀, hd₀, hbefore⟩ := hd.exists_before rfl
  rw [← hbefore] at hx
  obtain ⟨job, hjob, hp, hjx⟩ := original hd₀ hx
  obtain ⟨job', hjob', hp', hjy⟩ := original hd hy
  rw [job_ext hc.sound hjob hjob' (hp.trans hp'.symm)] at hjx
  exact hne (hjx.symm.trans hjy)

theorem leaves_unchanged (hc : c.Valid) (h : Kept s c ProcessRecord.AtBase) :
    ∃ t, Leaves s c t ∧ ∀ e ∈ t.events, ∀ p i k, e.event ≠ .priorityChanged p i k := by
  obtain ⟨f, hf⟩ := exists_playAll (s := s) hc
  obtain ⟨⟨a, g, -⟩, -⟩ := ends_unbroken hc (regular_opening hc) (playAll_ends hf)
  exact ⟨_, leaves_of_playAll hc hf, fun e he => g.unchanged hc h he⟩

/-- What holds at every moment of a run holds at the end of every tick. -/
theorem tickAt_of_path {P : Machine → Prop} (hc : c.Valid)
    (h : ∀ {j a}, Path s (opening c).moment j a → P a.machine) {k : Nat} {t : TickResult}
    (hk : tickAt s c k = some t) : P t.after.machine := by
  obtain ⟨e, hpath, he, -⟩ := tickAt_moment hc hk
  rw [← he]
  exact h hpath

end Simulation

open Simulation

variable {c : Scenario}

/-- Base priorities are those of the jobs, and at the end of every tick: under a strategy without
aging, a ceiling or inheritance every process has its base priority, and no priority ever changes;
under the ceiling protocol and under inheritance every process that owns no resource has its base
priority; under inheritance every process has at least its base priority, and the priority of some
job. -/
theorem boosts_end_with_ownership (hc : c.Valid) :
    (∀ s k t, tickAt s c k = some t → ∀ p x, t.after.machine.process? p = some x →
      ∃ j ∈ c.jobs, j.pid = p ∧ x.basePriority = j.priority) ∧
    (∀ s ∈ [Strategy.fifo, .shortestJob, .shortestRemaining, .roundRobin, .priority],
      (∀ k t, tickAt s c k = some t →
        t.after.machine.All fun x => x.priority = x.basePriority) ∧
      ∃ t, Leaves s c t ∧ ∀ e ∈ t.events, ∀ p i k, e.event ≠ .priorityChanged p i k) ∧
    (∀ s ∈ [Strategy.priorityCeiling, .priorityInheritance], ∀ k t, tickAt s c k = some t →
      ∀ p x, t.after.machine.process? p = some x →
        (∀ r, t.after.machine.resources.owner? r ≠ some p) → x.priority = x.basePriority) ∧
    ∀ k t, tickAt .priorityInheritance c k = some t → t.after.machine.All fun x =>
      x.basePriority ≤ x.priority ∧ ∃ j ∈ c.jobs, x.priority = j.priority := by
  refine ⟨fun s k t hk => ?_, fun s hs => ?_, fun s hs k t hk => ?_, fun k t hk => ?_⟩
  · refine tickAt_of_path (P := fun m => ∀ p x, m.process? p = some x →
      ∃ j ∈ c.jobs, j.pid = p ∧ x.basePriority = j.priority) hc (fun g p x hx => ?_) hk
    obtain ⟨j, hj, hp, -, hbase, -⟩ := ((g.regular hc).scripted.plays p x hx).job
    exact ⟨j, hj, hp, hbase.symm⟩
  · have hkept : Kept s c ProcessRecord.AtBase := by
      simp only [List.mem_cons, List.not_mem_nil, or_false] at hs
      rcases hs with rfl | rfl | rfl | rfl | rfl <;> exact kept_base (by decide) rfl
    exact ⟨fun k t hk => tickAt_of_path hc (fun g => g.kept hc hkept) hk,
      leaves_unchanged hc hkept⟩
  · have hgrounded : ∀ {j a}, Path s (opening c).moment j a → a.machine.Grounded := by
      simp only [List.mem_cons, List.not_mem_nil, or_false] at hs
      rcases hs with rfl | rfl
      · exact fun g => g.grounded (s := .priorityCeiling) hc (by decide)
          (Protocol.relaxing_ceiling .priority)
      · exact fun g => g.grounded (s := .priorityInheritance) hc (by decide)
          Protocol.relaxing_inheritance
    exact tickAt_of_path (P := Machine.Grounded) hc hgrounded hk
  · have hdrawn := kept_drawn (s := .priorityInheritance) (c := c)
      (S := {i | ∃ j ∈ c.jobs, i = j.priority}) (by decide) (fun j hj => ⟨j, hj, rfl⟩)
      (fun _ h => by cases h)
    refine tickAt_of_path (P := Machine.All fun x =>
      x.basePriority ≤ x.priority ∧ ∃ j ∈ c.jobs, x.priority = j.priority) hc
      (fun g p x hx => ?_) hk
    exact ⟨g.kept hc kept_above p x hx, (g.kept hc hdrawn p x hx).1⟩

/-- The process that holds the resource is raised by the one that needs it, and is at its base again
in the tick in which it gives the resource back. -/
theorem boosts_end_with_ownership_contended :
    (∃ t x, tickAt .priorityInheritance .contended 1 = some t ∧
      t.after.machine.process? ⟨1⟩ = some x ∧ x.basePriority < x.priority ∧
      ∃ j ∈ Scenario.contended.jobs, x.priority = j.priority) ∧
    (∃ t x, tickAt .priorityInheritance .contended 2 = some t ∧
      t.after.machine.process? ⟨1⟩ = some x ∧ x.priority = x.basePriority) ∧
    ∃ t, Leaves .priority .contended t ∧ ∀ e ∈ t.events, ∀ p i k,
      e.event ≠ .priorityChanged p i k := by
  obtain ⟨-, hplain, hfree, hlent⟩ := boosts_end_with_ownership (c := .contended) (by decide)
  obtain ⟨t, hk, x, hx, hlt⟩ := exists_tickAt (s := .priorityInheritance) (c := .contended) (k := 1)
    (P := fun t => ∃ x ∈ t.after.machine.process? ⟨1⟩, x.basePriority < x.priority) (by decide)
  obtain ⟨u, hk', hknown, hsize, howner⟩ := exists_tickAt (s := .priorityInheritance)
    (c := .contended) (k := 2) (P := fun t => (t.after.machine.process? ⟨1⟩).isSome ∧
      t.after.machine.resources.size = 1 ∧ t.after.machine.resources.owner? ⟨0⟩ = none) (by decide)
  obtain ⟨y, hy⟩ := Option.isSome_iff_exists.1 hknown
  have hnone : ∀ r, u.after.machine.resources.owner? r ≠ some ⟨1⟩ := by
    intro r hr
    have hsmall := ResourceTable.owner?_lt hr
    rw [hsize, Nat.lt_one_iff] at hsmall
    rw [show r = ⟨0⟩ from ResourceId.ext hsmall, howner] at hr
    cases hr
  exact ⟨⟨t, x, hk, hx, hlt, (hlent 1 t hk ⟨1⟩ x hx).2⟩,
    ⟨u, y, hk', hy, hfree .priorityInheritance (by decide) 2 u hk' ⟨1⟩ y hy hnone⟩,
    (hplain .priority (by decide)).2⟩

end Uniprocessor
