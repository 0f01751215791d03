import Uniprocessor.Proofs.Attendance
import Uniprocessor.Proofs.Urgency
/-
  What one move does to inherited priorities.

  Somebody answers for every wait-set (`Answers`).  A waiter is backed (`Backed`) if one who answers
  for its wait-set is at least as urgent as it is.

  `backed_move` is the step: a move begins a wait that is backed, or ends a resource's time with
  an owner and wakes one who backs the others, or leaves a waiter backed that was.  Only two moves
  can do otherwise: a release takes from the owner all that it inherited, also for what it owns
  still (`Activity.GivesUp`), and a waiter that is itself raised does not pass that on
  (`Activity.Raises`).
-/

namespace Uniprocessor

/-- The activity raises the priority of `w`. -/
def Activity.Raises (w : Pid) (e : Activity) : Prop :=
  ∃ p r old new, e = .blocked p r w old new ∧ old < new

namespace Simulation

/-! ## Priorities under inheritance -/

variable {m n : Machine} {p q o : Pid} {r : ResourceId}

theorem priorityOf_granted (hm : Protocol.inheritance.Acquires m r p n .granted) :
    priorityOf n q = priorityOf m q := by
  cases hm with
  | granted =>
    rw [show Protocol.inheritance.promote m.limits = id from rfl, Machine.adjust_id]
    exact priorityOf_congr (Machine.process?_own m q r _)

/-- The owner of a resource inherits the priority of the process that it blocks. -/
theorem priorityOf_blocked (hm : Protocol.inheritance.Acquires m r p n (.blocked o)) :
    priorityOf n q = if o = q then max (priorityOf m q) (priorityOf m p) else priorityOf m q := by
  cases hm with
  | blocked _ _ hp ho _ =>
    obtain ⟨y, hy⟩ := ho rfl
    have hturn : ∀ k : Machine, priorityOf (k.adjust p (.turn .waiting)) q = priorityOf k q :=
      fun k => priorityOf_adjust fun _ => rfl
    rw [priorityOf_congr (Machine.process?_park _ p q r), hturn, priorityOf_of hp]
    split
    · next hoq =>
      rw [hoq] at hy
      rw [priorityOf_of hy]
      refine priorityOf_of (x := Protocol.inheritance.raise _ y) ?_
      rw [Machine.process?_adjust, if_pos hoq, hy]
      rfl
    · next hoq => exact priorityOf_congr (by rw [Machine.process?_adjust, if_neg hoq])

variable {c : Scenario} {a b : Moment} {l : List Activity} {due : List ResourceId}

theorem Phase.Topmost.move (hreg : a.Regular c) (h : a.phase.Topmost a.machine)
    (hm : Move .priorityInheritance a l b) : b.phase.Topmost b.machine := by
  cases hm with
  | dispatch hn hp _ =>
    exact topmost_decides hreg.filed hreg.scripted.unfinished_running
      (Policy.schedule_decides hn) hp
  | grant hn =>
    obtain ⟨-, hreq⟩ := hreg.phase
    have ha := hreq.acquires hn
    have hkeep := fun q => priorityOf_granted (q := q) ha
    obtain ⟨x, hd, hx, htop⟩ := h
    refine ⟨x, hd, by rw [hx, hkeep], fun q hq => ?_⟩
    rw [hkeep, hkeep]
    exact htop q (Machine.active_granted ha hq)
  | arrive | begin | idle | block | run | release | remain | exit | close => trivial

/-! ## Backed waiters -/

/-- One who answers for `r` is at least as urgent as `w`. -/
def Backed (m : Machine) (asking : Option Pid) (r : ResourceId) (w : Pid) : Prop :=
  ∃ v, Answers m asking v r ∧ priorityOf m w ≤ priorityOf m v

variable {v w : Pid} {i k : Option Pid}

/-- The owner of a resource answers for it alone. -/
theorem Backed.owner (h : Backed m i r w) (ho : m.resources.owner? r = some o) :
    priorityOf m w ≤ priorityOf m o := by
  obtain ⟨v, hv | ⟨hfree, -⟩, hle⟩ := h
  · rw [ho] at hv
    rw [Option.some.inj hv]
    exact hle
  · rw [ho] at hfree
    cases hfree

theorem Backed.mono (h : Backed m i r w) (hw : priorityOf n w ≤ priorityOf m w)
    (hv : ∀ v, Answers m i v r → ∃ u, Answers n k u r ∧ priorityOf m v ≤ priorityOf n u) :
    Backed n k r w := by
  obtain ⟨v, ha, hle⟩ := h
  obtain ⟨u, hb, hle'⟩ := hv v ha
  exact ⟨u, hb, Nat.le_trans (Nat.le_trans hw hle) hle'⟩

/-- A waiter stays backed while priorities stay and whoever answers goes on to. -/
theorem Backed.stay (h : Backed m i r w) (hm : m.Filed) (hw : w ∈ m.resources.waiters r)
    (hp : ∀ q, (∃ x, m.process? q = some x) → priorityOf n q = priorityOf m q)
    (hv : ∀ v, Answers m i v r → Answers n k v r) : Backed n k r w :=
  h.mono (Nat.le_of_eq (hp w (Machine.exists_record ((hm.mem_waiters w).1 ⟨r, hw⟩))))
    fun v ha => ⟨v, hv v ha, Nat.le_of_eq (hp v (ha.known hm)).symm⟩

theorem Backed.enroll {j : Job} (h : Backed m none r w) (hm : m.Filed)
    (hw : w ∈ m.resources.waiters r) (hj : m.process? j.pid = none) :
    Backed (m.enroll j) none r w := by
  refine h.stay hm hw (fun q ⟨x, hx⟩ => priorityOf_congr ?_) fun v hv => hv.enroll hm hj
  rw [Machine.process?_enroll, if_neg]
  rintro rfl
  rw [hj] at hx
  cases hx

theorem backed_decides {d : Decision} (hm : m.Filed) (hd : Policy.priority.Decides m n d)
    (hw : w ∈ n.resources.waiters r) :
    w ∈ m.resources.waiters r ∧ (Backed m none r w → Backed n d.next r w) := by
  rw [hd.resources] at hw
  exact ⟨hw, fun h => h.stay hm hw (fun q _ => priorityOf_decides hd) fun v hv => hv.decides hd⟩

/-- A process that is granted a resource is at least as urgent as whoever was to request it. -/
theorem Backed.granted {s : ResourceId} (h : Backed m (some p) r w)
    (hreq : Requests m p (s :: due)) (htop : ∀ q, m.Active q → priorityOf m q ≤ priorityOf m p)
    (ha : Protocol.inheritance.Acquires m s p n .granted) : Backed n (some p) r w := by
  have hkeep := fun q => priorityOf_granted (q := q) ha
  refine h.mono (Nat.le_of_eq (hkeep w)) fun v hv => ?_
  by_cases hsr : s = r
  · -- nobody owned `s`, so whoever answered for it could use the CPU
    refine ⟨p, .inl (by rw [ha.owner?_granted, if_pos hsr]), ?_⟩
    rw [hkeep]
    rcases hv with ho | ⟨-, -, hs | hs⟩
    · rw [← hsr, ha.free] at ho
      cases ho
    · exact htop v (.inl hs)
    · obtain rfl := Option.some.inj hs
      exact Nat.le_refl _
  · exact ⟨v, hv.granted hreq ha hsr, Nat.le_of_eq (hkeep v).symm⟩

theorem priorityOf_le_blocked (ha : Protocol.inheritance.Acquires m r p n (.blocked o)) :
    priorityOf m q ≤ priorityOf n q := by
  rw [priorityOf_blocked ha]
  split
  · exact Nat.le_max_left _ _
  · exact Nat.le_refl _

/-- The owner of a resource is at least as urgent as the process that it blocks. -/
theorem backed_blocked (ha : Protocol.inheritance.Acquires m r p n (.blocked o)) :
    Backed n none r p := by
  obtain ⟨ho, hne⟩ := ha.blocker
  refine ⟨o, .inl ?_, ?_⟩
  · rw [ha.owner?_blocked, ho]
  · rw [priorityOf_blocked ha, priorityOf_blocked ha, if_neg hne, if_pos rfl]
    exact Nat.le_max_right _ _

/-- A process that blocks leaves a waiter backed that it does not raise. -/
theorem Backed.blocked {s : ResourceId} (h : Backed m (some p) r w)
    (hreq : Requests m p (s :: due))
    (ha : Protocol.inheritance.Acquires m s p n (.blocked o))
    (hw : priorityOf n w ≤ priorityOf m w) : Backed n none r w := by
  exact h.mono hw fun v hv => ⟨v, hv.blocked hreq ha, priorityOf_le_blocked ha⟩

theorem Backed.grows {age : Nat} (h : Backed m (some p) r w) (hreq : Requests m p []) :
    Backed (m.adjust p (.aged age)) none r w := by
  have hkeep : ∀ q, priorityOf (m.adjust p (.aged age)) q = priorityOf m q :=
    fun q => priorityOf_adjust fun _ => rfl
  exact h.mono (Nat.le_of_eq (hkeep w)) fun v hv =>
    ⟨v, hv.grows hreq, Nat.le_of_eq (hkeep v).symm⟩

/-- The waiter that a release wakes is at least as urgent as those that it leaves behind. -/
theorem backed_released {u : Option Pid} (hm : m.Filed) (hwaits : Waits m)
    (hp : m.status? p = some .running) (hr : Protocol.inheritance.Releases m r p n u)
    (hw : w ∈ n.resources.waiters r) : Backed n none r w := by
  have hwm := hr.mem_waiters hw
  have hold : ∀ q ∈ m.resources.waiters r, q ≠ p := fun q => hm.ne_of_waits hp
  have hown := hr.owned
  cases hr with
  | quiet _ hnil =>
    rw [hnil] at hwm
    cases hwm
  | @wake v y _ hbest hy hs hready =>
    have hwake := Protocol.Releases.wake hown hbest hy hs hready
    have hv := hold v hbest.mem
    refine ⟨v, .woken hm hwaits hp hwake, ?_⟩
    have hle := priorityOf_le_of_firstBest hbest hy hwm
    rw [priorityOf_freed (hold w hwm), priorityOf_freed hv] at hle
    rw [priorityOf_released hwake (hold w hwm), priorityOf_released hwake hv]
    exact hle

/-- A release leaves the waiters for what others own, and for what is free, as backed as before. -/
theorem Backed.released {s : ResourceId} {u : Option Pid} (h : Backed m none r w)
    (hp : m.status? p = some .running) (hr : Protocol.inheritance.Releases m s p n u)
    (hsr : s ≠ r) (ho : m.resources.owner? r ≠ some p) (hw : w ≠ p) : Backed n none r w := by
  refine h.mono (Nat.le_of_eq (priorityOf_released hr hw)) fun v hv => ?_
  have hne : v ≠ p := by
    rintro rfl
    rcases hv with ho' | ⟨-, -, hs | hs⟩
    · exact ho ho'
    · rw [hp] at hs
      cases hs
    · cases hs
  exact ⟨v, hv.released hp hr hsr, Nat.le_of_eq (priorityOf_released hr hne).symm⟩

theorem Backed.finish (h : Backed m none r w) (hp : m.status? p = some .running) :
    Backed (m.adjust p (.turn .terminated)) none r w := by
  have hkeep : ∀ q, priorityOf (m.adjust p (.turn .terminated)) q = priorityOf m q :=
    fun q => priorityOf_adjust fun _ => rfl
  exact h.mono (Nat.le_of_eq (hkeep w)) fun v hv =>
    ⟨v, hv.finish hp, Nat.le_of_eq (hkeep v).symm⟩

/-- What a move leaves of the wait of `w` for `r`: it backs it, or the wait goes on and the owner
stays, and it is backed as before unless the owner gives something up or `w` is raised. -/
theorem backed_move (hreg : a.Regular c) (hwaits : Waits a.machine)
    (htop : a.phase.Topmost a.machine) (hm : Move .priorityInheritance a l b)
    (hw : w ∈ b.machine.resources.waiters r) :
    Backed b.machine b.phase.asking r w ∨
      w ∈ a.machine.resources.waiters r ∧ (∀ p, .released p r ∉ l) ∧
        (Backed a.machine a.phase.asking r w → Backed b.machine b.phase.asking r w ∨
          (∃ o, a.machine.resources.owner? r = some o ∧ ∃ e ∈ l, e.GivesUp o) ∨
          ∃ e ∈ l, e.Raises w) := by
  have filed := hreg.filed
  cases hm with
  | arrive _ hn =>
    obtain ⟨hnew, -, rfl⟩ := Machine.fork_eq_ok.1 hn
    exact .inr ⟨hw, by simp, fun h => .inl (h.enroll filed hw hnew)⟩
  | begin => exact .inr ⟨hw, by simp, .inl⟩
  | idle hn hnext =>
    obtain ⟨hw, hb⟩ := backed_decides filed (Policy.schedule_decides hn) hw
    rw [hnext] at hb
    exact .inr ⟨hw, by simp, fun h => .inl (hb h)⟩
  | dispatch hn hnext =>
    obtain ⟨hw, hb⟩ := backed_decides filed (Policy.schedule_decides hn) hw
    rw [hnext] at hb
    exact .inr ⟨hw, by simp, fun h => .inl (hb h)⟩
  | grant hn =>
    obtain ⟨-, hreq⟩ := hreg.phase
    have ha := hreq.acquires hn
    obtain ⟨-, -, -, htop⟩ := htop
    dsimp only at hw
    rw [ha.waiters_granted] at hw
    exact .inr ⟨hw, by simp [requestActivity], fun h => .inl (h.granted hreq htop ha)⟩
  | @block m n _ d p o s due _ hn =>
    obtain ⟨-, hreq⟩ := hreg.phase
    have ha := hreq.acquires hn
    rcases ha.mem_waiters_blocked hw with hw | ⟨rfl, rfl⟩
    · refine .inr ⟨hw, by simp [requestActivity], fun h => ?_⟩
      rcases Nat.lt_or_ge (priorityOf m w) (priorityOf n w) with hlt | hle
      · have how : o = w := by
          rw [priorityOf_blocked ha] at hlt
          split at hlt
          · assumption
          · exact absurd hlt (Nat.lt_irrefl _)
        subst how
        exact .inr (.inr ⟨_, List.mem_singleton_self _, _, _, _, _, rfl, hlt⟩)
      · exact .inl (h.blocked hreq ha hle)
    · exact .inl (backed_blocked ha)
  | run hn =>
    obtain ⟨y, hy, -, rfl, rfl⟩ := Machine.grow_eq_ok.1 hn
    obtain ⟨-, hreq⟩ := hreg.phase
    exact .inr ⟨hw, by simp, fun h => .inl (h.grows hreq)⟩
  | @release m n _ p s u _ _ hn =>
    have hr := hreg.phase.releases hn
    have hrun := hreg.phase.running
    by_cases hsr : s = r
    · rw [hsr] at hr
      exact .inl (backed_released filed hwaits hrun hr hw)
    · have hwm := hr.mem_waiters hw
      refine .inr ⟨hwm, ?_, fun h => ?_⟩
      · simp [releaseEntries, Ne.symm hsr]
      · by_cases ho : m.resources.owner? r = some p
        · refine .inr (.inl ⟨p, ho, .released p s, ?_, s, rfl⟩)
          simp [releaseEntries]
        · exact .inl (h.released hrun hr hsr ho (filed.ne_of_waits hrun hwm))
  | remain => exact .inr ⟨hw, by simp, .inl⟩
  | exit => exact .inr ⟨hw, by simp, fun h => .inl (h.finish hreg.phase.running)⟩
  | close _ hn =>
    obtain ⟨-, rfl⟩ := Machine.advance_eq_ok.1 hn
    refine .inr ⟨hw, fun p he => ?_, .inl⟩
    rcases mem_closingEntries he with he | ⟨_, _, _, he⟩ <;> cases he

/-! ## Runs under inheritance -/

/-- What holds at every moment of a run under priority inheritance. -/
structure Moment.Orderly (c : Scenario) (a : Moment) : Prop where
  regular : a.Regular c
  waits : Waits a.machine
  topmost : a.phase.Topmost a.machine

theorem Moment.Orderly.move (hc : c.Valid) (h : a.Orderly c)
    (hm : Move .priorityInheritance a l b) : b.Orderly c where
  regular := h.regular.move hc hm
  waits := h.waits.move h.regular hm
  topmost := h.topmost.move h.regular hm

theorem orderly_opening (hc : c.Valid) : (opening c).moment.Orderly c where
  regular := regular_opening hc
  waits := waits_opening
  topmost := trivial

theorem Path.orderly {j : Journal} (hc : c.Valid)
    (h : Path .priorityInheritance (opening c).moment j a) : a.Orderly c :=
  h.invariant (fun _ _ _ ha hm => ha.move hc hm) (orderly_opening hc)

end Simulation

end Uniprocessor
