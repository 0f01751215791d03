import Uniprocessor.Proofs.Timeline
import Uniprocessor.Proofs.Urgency
/-
  Aging bounds starvation.

  A ready process lags behind the CPU by what it lacks to the cap on aging and by the processes
  that stand before it (`Lags`).  A decision for another brings it closer
  (`lags_decides`): below the cap it gains a priority, and at the cap only one that stands before
  it can be preferred, which then leaves the queue.  All other moves add processes behind it and
  leave its priority alone, because a mutex changes no priority (`lags_move`).  So a process is
  chosen before as many decisions as it lags behind have gone to others (`Path.chosen_or_lags`).

  This needs that no priority is above the cap to begin with; then none ever is (`Path.capped`).

  Main statement: `aging_bounds_starvation`.
-/

namespace Uniprocessor

/-- Whom a decision puts on the CPU. -/
def Activity.choice? : Activity → Option (Option Pid)
  | .decided _ d => some d.next
  | .forked _ | .acquired _ _ _ | .blocked _ _ _ _ _ | .ran _ _ | .released _ _
  | .promoted _ _ | .woke _ _ | .exited _ | .idle | .priorityChanged _ _ _ => none

/-- Whom the decisions of a journal put on the CPU, one after the other. -/
def Journal.choices (j : Journal) : List (Option Pid) := j.filterMap (·.2.choice?)

namespace Simulation

variable {s : Strategy} {c : Scenario} {a b : Moment} {l : List Activity} {m n : Machine}
variable {p q w : Pid} {r : ResourceId} {k : Nat} {x : ProcessRecord}

theorem choices_stamp (t : Nat) (l : List Activity) :
    Journal.choices (stamp t l) = l.filterMap Activity.choice? := by
  rw [Journal.choices, stamp, List.filterMap_map]
  rfl

theorem choices_snoc (j : Journal) (t : Nat) (l : List Activity) :
    Journal.choices (j ++ stamp t l) = j.choices ++ l.filterMap Activity.choice? := by
  rw [← choices_stamp t, Journal.choices, List.filterMap_append]
  rfl

/-! ## Priorities under a mutex -/

theorem priorityOf_acquires {order : WakeOrder} {reply : Reply}
    (h : (Protocol.mutex order).Acquires m r p n reply) : priorityOf n q = priorityOf m q := by
  cases h with
  | granted => exact priorityOf_adjust (m := m) fun _ => rfl
  | @blocked o x =>
    refine Eq.trans ?_ (priorityOf_adjust (m := m) (p := o)
      (f := (Protocol.mutex order).raise x.priority) fun _ => rfl)
    exact priorityOf_adjust fun _ => rfl

theorem priorityOf_releases {order : WakeOrder} {o : Option Pid}
    (h : (Protocol.mutex order).Releases m r p n o) : priorityOf n q = priorityOf m q := by
  have hfreed : priorityOf ((Protocol.mutex order).freed m r p) q = priorityOf m q :=
    priorityOf_adjust (m := m.own r none) fun _ => rfl
  cases h with
  | quiet => exact hfreed
  | wake => exact Eq.trans (priorityOf_adjust fun _ => rfl) hfreed

/-! ## The cap -/

/-- No priority is above `cap`, nor can be once it has fallen back. -/
def Capped (cap : Nat) (m : Machine) : Prop :=
  m.All fun x => x.priority ≤ cap ∧ x.basePriority ≤ cap

theorem bump_capped {cap : Nat} (h : x.priority ≤ cap ∧ x.basePriority ≤ cap) :
    (Policy.bump cap x).priority ≤ cap ∧ (Policy.bump cap x).basePriority ≤ cap := by
  unfold Policy.bump
  split
  · next hlt => exact ⟨hlt, h.2⟩
  · exact h

theorem reset_capped {cap : Nat} (h : x.priority ≤ cap ∧ x.basePriority ≤ cap) :
    (Policy.priorityAging.reset x).priority ≤ cap ∧
      (Policy.priorityAging.reset x).basePriority ≤ cap :=
  ⟨h.2, h.2⟩

theorem capped_decides {d : Decision} (h : Capped m.limits.agingCap m)
    (hd : Policy.priorityAging.Decides m n d) : Capped m.limits.agingCap n :=
  Machine.All.decides h (fun _ _ hx => hx) (fun _ => reset_capped) (fun _ => bump_capped) hd

theorem capped_acquires {cap : Nat} {order : WakeOrder} {reply : Reply} (h : Capped cap m)
    (ha : (Protocol.mutex order).Acquires m r p n reply) : Capped cap n :=
  Machine.All.acquires (κ := .mutex order) h (fun _ _ hx => hx) (fun _ hx => hx)
    (fun _ _ _ hy => hy) ha

theorem capped_move (hcap : ∀ j ∈ c.jobs, j.priority ≤ c.limits.agingCap) (hreg : a.Regular c)
    (hm : Move .priorityAging a l b) (h : Capped c.limits.agingCap a.machine) :
    Capped c.limits.agingCap b.machine := by
  have hlimits := hreg.scripted.limits
  have hphase := hreg.phase
  cases hm with
  | @arrive m _ _ j _ _ hn =>
    obtain ⟨-, -, rfl⟩ := Machine.fork_eq_ok.1 hn
    intro q y hy
    change (m.enroll j).process? q = some y at hy
    rw [Machine.process?_enroll] at hy
    split at hy
    · cases hy
      have := hcap j (hreg.pending j List.mem_cons_self).1
      exact ⟨this, this⟩
    · exact h q y hy
  | begin | remain => exact h
  | idle hn =>
    rw [← hlimits] at h ⊢
    exact capped_decides h (Policy.schedule_decides hn)
  | dispatch hn =>
    rw [← hlimits] at h ⊢
    exact capped_decides h (Policy.schedule_decides hn)
  | grant hn | block hn => exact capped_acquires h (hphase.2.acquires hn)
  | @run _ _ _ _ p _ _ _ _ hn =>
    obtain ⟨y, -, -, -, rfl⟩ := Machine.grow_eq_ok.1 hn
    exact Machine.All.adjust h fun x hx => h p x hx
  | release hn =>
    exact Machine.All.releases (κ := .mutex .fifo) h (fun _ _ hx => hx) (fun _ hx => hx)
      (hphase.releases hn)
  | @exit m _ p => exact Machine.All.adjust h fun x hx => h p x hx
  | close _ hn =>
    obtain ⟨-, rfl⟩ := Machine.advance_eq_ok.1 hn
    exact h

theorem Path.capped {j : Journal} (hc : c.Valid)
    (hcap : ∀ j ∈ c.jobs, j.priority ≤ c.limits.agingCap) (ha : a.Regular c)
    (h : Capped c.limits.agingCap a.machine) (g : Path .priorityAging a j b) :
    b.Regular c ∧ Capped c.limits.agingCap b.machine :=
  g.invariant (P := fun b => b.Regular c ∧ Capped c.limits.agingCap b.machine)
    (fun _ _ _ hb hm => ⟨hb.1.move hc hm, capped_move hcap hb.1 hm hb.2⟩) ⟨ha, h⟩

/-! ## Aging a queue -/

/-- Whoever is ready and below the cap gains a priority. -/
theorem priorityOf_ageReady (hm : m.Filed) (hq : q ∈ m.ready.pids) :
    priorityOf m.ageReady q =
      if priorityOf m q < m.limits.agingCap then priorityOf m q + 1 else priorityOf m q := by
  obtain ⟨x, hx⟩ := Machine.exists_record ((hm.mem_ready q).1 hq)
  have haged := Machine.process?_ageReady (q := q) hm.ready_nodup
  rw [if_pos hq, hx] at haged
  rw [priorityOf_of haged, priorityOf_of hx, Policy.bump]
  split <;> rfl

/-! ## Getting closer -/

/-- In the ready queue `w` is at most `k` behind the CPU, counting what it lacks to the cap on
aging and the processes before it. -/
def Lags (m : Machine) (w : Pid) (k : Nat) : Prop :=
  ∃ ahead behind, m.ready.pids = ahead ++ w :: behind ∧
    m.limits.agingCap - priorityOf m w + ahead.length ≤ k

theorem Lags.ready (h : Lags m w k) : w ∈ m.ready.pids := by
  obtain ⟨ahead, behind, hq, -⟩ := h
  simp [hq]

/-- What comes in behind does not matter. -/
theorem Lags.append {tail : List Pid} (h : Lags m w k)
    (hready : n.ready.pids = m.ready.pids ++ tail) (hprio : priorityOf n w = priorityOf m w)
    (hlimits : n.limits = m.limits) : Lags n w k := by
  obtain ⟨ahead, behind, hq, hk⟩ := h
  refine ⟨ahead, behind ++ tail, ?_, by rw [hlimits, hprio]; exact hk⟩
  rw [hready, hq, List.append_assoc, List.cons_append]

/-- Retiring does not touch the records of the ready queue. -/
theorem process?_retires {π : Policy} (hr : π.Retires m n) (hw : w ∈ m.ready.pids) :
    n.process? w = m.process? w := by
  cases hr with
  | leave => rfl
  | @requeue p _ _ hp =>
    have hpw : p ≠ w := fun he => hp (he ▸ hw)
    rw [Machine.process?_enqueue, Machine.process?_adjust, if_neg hpw, Machine.process?_adjust,
      if_neg hpw]

theorem Lags.retires (h : Lags m w k) (hr : Policy.priorityAging.Retires m n) : Lags n w k := by
  obtain ⟨tail, htail⟩ := hr.ready
  exact h.append htail (priorityOf_congr (process?_retires hr h.ready)) hr.steady.limits

/-- In a list an element stands before another or behind it. -/
theorem mem_before_of_not_mem {α : Type} {ahead behind pre post : List α} {v w : α}
    (h : ahead ++ w :: behind = pre ++ v :: post) (hvw : v ≠ w) (hv : v ∉ ahead) : w ∈ pre := by
  rcases List.append_eq_append_iff.1 h with ⟨mid, rfl, hmid⟩ | ⟨mid, rfl, hmid⟩
  · cases mid with
    | nil => exact absurd (List.cons.inj hmid).1.symm hvw
    | cons u mid =>
      obtain ⟨rfl, -⟩ := List.cons.inj hmid
      simp
  · cases mid with
    | nil => exact absurd (List.cons.inj hmid).1 hvw
    | cons u mid =>
      obtain ⟨rfl, -⟩ := List.cons.inj hmid
      simp at hv

/-- Who is preferred to a process behind it in the queue stands before it or is more urgent. -/
theorem Lags.passed {v : Pid} (h : Lags m w k) (hm : m.Filed) (hcap : Capped m.limits.agingCap m)
    (hv : FirstBest (m.ageReady.Beats fun x y => y.priority < x.priority) v m.ready.pids)
    (hvw : v ≠ w) :
    ∃ i, k = i + 1 ∧ ∃ ahead behind, m.ready.pids.erase v = ahead ++ w :: behind ∧
      m.limits.agingCap - priorityOf m.ageReady w + ahead.length ≤ i := by
  have hw := h.ready
  obtain ⟨ahead, behind, hq, hk⟩ := h
  have hbumped := priorityOf_ageReady hm hw
  by_cases hva : v ∈ ahead
  · -- one that stood before `w` leaves the queue
    have hpos := List.length_pos_of_mem hva
    refine ⟨k - 1, by omega, ahead.erase v, behind, by rw [hq, List.erase_append_left _ hva], ?_⟩
    rw [List.length_erase_of_mem hva, hbumped]
    split <;> omega
  · -- one behind `w` is more urgent, so that `w` was below the cap
    obtain ⟨pre, post, hsplit, hpre, -⟩ := hv
    obtain ⟨y, x, hy, hx, hlt⟩ := hpre w (mem_before_of_not_mem (hq ▸ hsplit) hvw hva)
    have hle : y.priority ≤ m.limits.agingCap := by
      refine (Machine.All.ripen (π := .priorityAging) hcap (fun _ => bump_capped) v y ?_).1
      exact hy
    rw [priorityOf_of hx] at hbumped
    have hlacks : x.priority < m.limits.agingCap := Nat.lt_of_lt_of_le hlt hle
    refine ⟨k - 1, ?_, ahead, behind.erase v, ?_, ?_⟩
    · split at hbumped <;> omega
    · rw [hq, List.erase_append_right _ hva, List.erase_cons_tail (by simpa using hvw.symm)]
    · rw [priorityOf_of hx]
      split at hbumped <;> omega

/-- A decision for another brings a ready process closer. -/
theorem lags_decides {d : Decision} (hm : m.Filed)
    (hd : ∀ p x, m.process? p = some x → x.status = .running → x.isDone = false)
    (hcap : Capped m.limits.agingCap m) (h : Lags m w k)
    (hdec : Policy.priorityAging.Decides m n d) :
    d.next = some w ∨ ∃ i, k = i + 1 ∧ Lags n w i := by
  cases hdec with
  | keep _ hkeep => cases hkeep
  | idle hr hempty =>
    rw [Policy.ready_ripen] at hempty
    have := (h.retires hr).ready
    simp [hempty] at this
  | @pick t v x hr hbest hx _ =>
    by_cases hvw : v = w
    · exact .inl (congrArg some hvw)
    have hlimits : t.limits = m.limits := hr.steady.limits
    have hcapt : Capped t.limits.agingCap t := by
      rw [hlimits]
      exact Machine.All.retires hcap (fun _ _ hx => hx) (fun _ => reset_capped) hr
    rw [Policy.ready_ripen] at hbest
    obtain ⟨i, hi, ahead, behind, hq, hle⟩ :=
      (h.retires hr).passed (hm.retires hd hr).1 hcapt hbest hvw
    refine .inr ⟨i, hi, ahead, behind, ?_, ?_⟩
    · change (Policy.priorityAging.ripen t).ready.pids.erase v = _
      rw [Policy.ready_ripen, hq]
    · rw [priorityOf_congr (m := t.ageReady) ?_]
      · change (Policy.priorityAging.ripen t).limits.agingCap - _ + _ ≤ i
        rwa [Policy.steady_ripen.limits]
      · rw [Machine.process?_seat, Machine.process?_dequeue, Machine.process?_put, if_neg hvw]
        rfl

theorem choices_released {p : Pid} {r : ResourceId} {o v : Option Pid} :
    (releaseEntries p r o v).filterMap Activity.choice? = [] := by
  cases o <;> cases v <;> rfl

/-- Every move but a decision leaves a ready process where it is. -/
theorem undisturbed_or_decides (hreg : a.Regular c) (hm : Move .priorityAging a l b)
    (hw : w ∈ a.machine.ready.pids) :
    (l.filterMap Activity.choice? = [] ∧
      (∃ tail, b.machine.ready.pids = a.machine.ready.pids ++ tail) ∧
      priorityOf b.machine w = priorityOf a.machine w ∧ b.machine.limits = a.machine.limits) ∨
    ∃ d, l.filterMap Activity.choice? = [d.next] ∧ a.phase = .deciding ∧
      Policy.priorityAging.Decides a.machine b.machine d := by
  have hknown := Machine.exists_record ((hreg.filed.mem_ready w).1 hw)
  have hphase := hreg.phase
  cases hm with
  | @arrive m _ _ j _ _ hn =>
    obtain ⟨hnew, -, rfl⟩ := Machine.fork_eq_ok.1 hn
    have hjw : j.pid ≠ w := by
      rintro rfl
      obtain ⟨x, hx⟩ := hknown
      cases hnew.symm.trans hx
    refine .inl ⟨rfl, ⟨[j.pid], rfl⟩, priorityOf_congr ?_, rfl⟩
    rw [Machine.process?_enroll, if_neg hjw]
  | begin | remain => exact .inl ⟨rfl, ⟨[], (List.append_nil _).symm⟩, rfl, rfl⟩
  | idle hn | dispatch hn => exact .inr ⟨_, rfl, rfl, Policy.schedule_decides hn⟩
  | grant hn | block hn =>
    have ha := hphase.2.acquires hn
    have hready := (congrArg Queue.pids ha.ready).trans (List.append_nil _).symm
    exact .inl ⟨rfl, ⟨[], hready⟩, priorityOf_acquires ha, ha.steady.limits⟩
  | run hn =>
    obtain ⟨y, -, -, -, rfl⟩ := Machine.grow_eq_ok.1 hn
    exact .inl ⟨rfl, ⟨[], (List.append_nil _).symm⟩, priorityOf_adjust fun _ => rfl, rfl⟩
  | @release _ _ _ p r o _ _ hn =>
    have hr := hphase.releases hn
    exact .inl ⟨choices_released, ⟨_, hr.ready⟩, priorityOf_releases hr, hr.steady.limits⟩
  | exit =>
    exact .inl ⟨rfl, ⟨[], (List.append_nil _).symm⟩, priorityOf_adjust fun _ => rfl, rfl⟩
  | close _ hn =>
    obtain ⟨-, rfl⟩ := Machine.advance_eq_ok.1 hn
    refine .inl ⟨List.filterMap_eq_nil_iff.2 fun e he => ?_, ⟨[], (List.append_nil _).symm⟩, rfl,
      rfl⟩
    rcases mem_closingEntries he with rfl | ⟨_, _, _, rfl⟩ <;> rfl

/-- Where a decision is made, nothing that is running is done. -/
theorem unfinished_of_deciding (hreg : a.Regular c) (ha : a.phase = .deciding) (p : Pid)
    (x : ProcessRecord) (hx : a.machine.process? p = some x) (hs : x.status = .running) :
    x.isDone = false := by
  have hscripted := hreg.scripted
  rw [ha] at hscripted
  exact hscripted.unfinished_running p x hx hs

/-- A ready process falls no further behind, and a decision for another brings it closer. -/
theorem lags_move (hreg : a.Regular c) (hcap : Capped c.limits.agingCap a.machine)
    (hm : Move .priorityAging a l b) (h : Lags a.machine w k) :
    l.filterMap Activity.choice? = [] ∧ Lags b.machine w k ∨
      ∃ o, l.filterMap Activity.choice? = [o] ∧
        (o = some w ∨ ∃ i, k = i + 1 ∧ Lags b.machine w i) := by
  rcases undisturbed_or_decides hreg hm h.ready with
    ⟨hl, ⟨tail, hready⟩, hprio, hlimits⟩ | ⟨d, hl, hphase, hd⟩
  · exact .inl ⟨hl, h.append hready hprio hlimits⟩
  · exact .inr ⟨_, hl, lags_decides hreg.filed (unfinished_of_deciding hreg hphase)
      (hreg.scripted.limits ▸ hcap) h hd⟩

/-- A process that lags `k` behind is among the choices of the next `k + 1` decisions, or these
have not all been made and it lags the less. -/
theorem Path.chosen_or_lags {j : Journal} (hc : c.Valid)
    (hcap : ∀ j ∈ c.jobs, j.priority ≤ c.limits.agingCap) (ha : a.Regular c)
    (hacap : Capped c.limits.agingCap a.machine) (h : Lags a.machine w k)
    (g : Path .priorityAging a j b) :
    some w ∈ j.choices.take (k + 1) ∨
      ∃ i, k = j.choices.length + i ∧ Lags b.machine w i := by
  induction g with
  | refl => exact .inr ⟨k, (Nat.zero_add k).symm, h⟩
  | @snoc d e j l g hm ih =>
    obtain ⟨hreg, hdcap⟩ := g.capped hc hcap ha hacap
    rw [choices_snoc]
    rcases ih with hmem | ⟨i, rfl, hbefore⟩
    · rw [List.take_append]
      exact .inl (List.mem_append_left _ hmem)
    · rcases lags_move hreg hdcap hm hbefore with ⟨hl, hlag⟩ | ⟨o, hl, rfl | ⟨i, rfl, hlag⟩⟩
      · exact .inr ⟨i, by rw [hl, List.append_nil], hlag⟩
      · rw [hl, List.take_append, Nat.add_assoc, Nat.add_sub_cancel_left]
        exact .inl (List.mem_append_right _ List.mem_cons_self)
      · exact .inr ⟨i, by rw [hl, List.length_append, List.length_singleton]; omega, hlag⟩

/-- A decision is a move of its own. -/
theorem Move.of_decided {o : Option Pid} {d : Decision} (hm : Move s a l b)
    (hl : .decided o d ∈ l) : l = [.decided o d] ∧ a.phase = .deciding ∧ a.machine.current = o ∧
      ∃ n, s.schedule a.machine = .ok (n, d) := by
  cases hm with
  | idle hn | dispatch hn =>
    cases List.mem_singleton.1 hl
    exact ⟨rfl, rfl, rfl, _, hn⟩
  | release => simp [releaseEntries] at hl
  | close => rcases mem_closingEntries hl with he | ⟨_, _, _, he⟩ <;> cases he
  | arrive | begin | grant | block | run | remain | exit => simp [requestActivity] at hl

/-- Where a journal has a decision, the path goes through the moment at which it was made. -/
theorem Path.split_decided {j pre post : Journal} {t : Nat} {o : Option Pid} {d : Decision}
    (g : Path s a j b) (hj : j = pre ++ (t, .decided o d) :: post) :
    ∃ e, Path s a pre e ∧ e.phase = .deciding ∧ e.machine.tick = t ∧ e.machine.current = o ∧
      (∃ n, s.schedule e.machine = .ok (n, d)) ∧ Path s e ((t, .decided o d) :: post) b := by
  obtain ⟨e, f, i, l, k, rest, rfl, rfl, hi, ht, hm, hrest⟩ := g.split hj
  have hmem : Activity.decided o d ∈ l ++ .decided o d :: k :=
    List.mem_append_right _ List.mem_cons_self
  obtain ⟨hl, hphase, hcur, hn⟩ := hm.of_decided hmem
  obtain ⟨rfl, rfl⟩ := eq_nil_of_append_singleton hl
  refine ⟨e, by simpa [stamp] using hi, hphase, ht, hcur, hn, ?_⟩
  have := hm.path.trans hrest
  rw [ht] at this
  simpa [stamp] using this

end Simulation

open Simulation

variable {c : Scenario}

/-- Aging bounds starvation where no job is more urgent than the cap on aging: whoever is in the
ready queue, with `ahead` before it, is chosen by one of as many decisions as it lacks priorities
to the cap and has processes before it, and one more, if so many are made; and every decision in
the journal of a run is made at such a moment. -/
theorem aging_bounds_starvation (hc : c.Valid)
    (hcap : ∀ j ∈ c.jobs, j.priority ≤ c.limits.agingCap) :
    (∀ i a j b ahead w behind, Path .priorityAging (opening c).moment i a →
      a.machine.ready.pids = ahead ++ w :: behind → Path .priorityAging a j b →
      priorityOf a.machine w ≤ c.limits.agingCap ∧
        (c.limits.agingCap - priorityOf a.machine w + ahead.length + 1 ≤ j.choices.length →
          some w ∈ j.choices.take
            (c.limits.agingCap - priorityOf a.machine w + ahead.length + 1))) ∧
    ∀ f, playAll .priorityAging c = .ok f →
      ∀ pre post t o d, f.journal = pre ++ (t, .decided o d) :: post →
      ∃ a e, Path .priorityAging (opening c).moment pre a ∧ a.phase = .deciding ∧
        a.machine.tick = t ∧ a.machine.current = o ∧
        (∃ n, Strategy.priorityAging.schedule a.machine = .ok (n, d)) ∧
        Path .priorityAging a ((t, .decided o d) :: post) e ∧ e.machine = f.machine := by
  constructor
  · intro i a j b ahead w behind hi hready g
    obtain ⟨hreg, hacap⟩ := hi.capped hc hcap (regular_opening hc) fun _ _ hx => by cases hx
    have hw : w ∈ a.machine.ready.pids := by simp [hready]
    obtain ⟨x, hx⟩ := Machine.exists_record ((hreg.filed.mem_ready w).1 hw)
    refine ⟨by rw [priorityOf_of hx]; exact (hacap w x hx).1, fun hmany => ?_⟩
    have hlag : Lags a.machine w (c.limits.agingCap - priorityOf a.machine w + ahead.length) :=
      ⟨ahead, behind, hready, Nat.le_of_eq (by rw [hreg.scripted.limits])⟩
    refine (g.chosen_or_lags hc hcap hreg hacap hlag).resolve_right ?_
    rintro ⟨n, hn, -⟩
    omega
  · intro f hf pre post t o d hj
    obtain ⟨⟨e, hpath, he⟩, -⟩ := ends_unbroken hc (regular_opening hc) (playAll_ends hf)
    obtain ⟨a, hpre, hphase, ht, hcur, hn, hpost⟩ := hpath.split_decided hj
    exact ⟨a, e, hpre, hphase, ht, hcur, hn, hpost, he⟩

/-- Two processes at the cap on aging arrive while a third one holds what the first of them
needs. -/
def Scenario.levelled : Scenario where
  jobs := [
    { pid := ⟨1⟩, name := "holder", start := 0, lifespan := 3, priority := 0,
      holds := [{ resource := ⟨0⟩, since := 0, duration := 2 }] },
    { pid := ⟨2⟩, name := "needy", start := 1, lifespan := 1, priority := 1,
      holds := [{ resource := ⟨0⟩, since := 0, duration := 1 }] },
    { pid := ⟨3⟩, name := "free", start := 1, lifespan := 1, priority := 1, holds := [] }]
  resourceCount := 1
  limits := { maxPriority := 2, agingCap := 1 }
  maxTicks := 20
  audit := true

theorem aging_bounds_starvation_levelled :
    (∃ i a j b, Path .priorityAging (opening .levelled).moment i a ∧
      a.machine.ready.pids = [⟨2⟩, ⟨3⟩] ∧ priorityOf a.machine ⟨3⟩ = 1 ∧
      Path .priorityAging a j b ∧ j.choices.length = 2 ∧ some ⟨3⟩ ∈ j.choices.take 2) ∧
    ∃ f pre post d a e, playAll .priorityAging .levelled = .ok f ∧ d.next = some ⟨3⟩ ∧
      f.journal = pre ++ (1, .decided (some ⟨2⟩) d) :: post ∧
      Path .priorityAging (opening .levelled).moment pre a ∧ a.machine.current = some ⟨2⟩ ∧
      Path .priorityAging a ((1, .decided (some ⟨2⟩) d) :: post) e := by
  have hc : Scenario.levelled.Valid := by decide
  obtain ⟨hbound, hsplit⟩ := aging_bounds_starvation hc (by decide)
  constructor
  · obtain ⟨g, hg, m, hm, ⟨n, acts, ran⟩, hn, hready, hprio, hacts⟩ :
        ∃ g, startAt .priorityAging .levelled 1 = some g ∧
          ∃ m, (admitAll g.due g.machine).toOption = some m ∧
            ∃ r, (play .priorityAging m).toOption = some r ∧ m.ready.pids = [⟨2⟩, ⟨3⟩] ∧
              priorityOf m ⟨3⟩ = 1 ∧ (r.2.1.filterMap Activity.choice?).length = 2 := by
      simpa only [Option.any_eq_true, decide_eq_true_eq] using
        show (startAt .priorityAging .levelled 1).any (fun g =>
          (admitAll g.due g.machine).toOption.any fun m =>
            (play .priorityAging m).toOption.any fun r => decide (m.ready.pids = [⟨2⟩, ⟨3⟩] ∧
              priorityOf m ⟨3⟩ = 1 ∧ (r.2.1.filterMap Activity.choice?).length = 2)) = true by
          decide
    obtain ⟨-, hadmit⟩ := admitDue_path (s := .priorityAging) (toOption_eq_some.1 hm)
    obtain ⟨-, hplay⟩ := play_path (b := m) (u := g.later) (toOption_eq_some.1 hn)
    have hpath := (startAt_moment hc hg).2.trans hadmit
    rw [← choices_stamp m.tick] at hacts
    refine ⟨_, _, _, _, hpath, hready, hprio, hplay, hacts, ?_⟩
    have hmem := (hbound _ _ _ _ [⟨2⟩] ⟨3⟩ [] hpath hready hplay).2
    rw [hprio] at hmem
    exact hmem (Nat.le_of_eq hacts.symm)
  · let x : ProcessRecord := { ProcessRecord.ofJob (Scenario.levelled.jobs[2]) with
      status := .running }
    have hplay : (playAll .priorityAging .levelled).toOption.any (fun f =>
        decide ((1, .decided (some ⟨2⟩) (.pick ⟨3⟩ x)) ∈ f.journal)) = true := by decide
    obtain ⟨f, hf, hmem⟩ := Option.any_eq_true _ _ |>.1 hplay
    have hf := toOption_eq_some.1 hf
    obtain ⟨pre, post, hj⟩ := List.append_of_mem (of_decide_eq_true hmem)
    obtain ⟨a, e, hpre, -, -, hcur, -, hpost, -⟩ := hsplit f hf pre post 1 _ _ hj
    exact ⟨f, pre, post, _, a, e, hf, rfl, hj, hpre, hcur, hpost⟩

end Uniprocessor
