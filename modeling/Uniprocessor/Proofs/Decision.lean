import Uniprocessor.Policy
import Uniprocessor.Proofs.Edit
import Uniprocessor.Proofs.Selection
/-
  What a scheduling decision does, said by edits.

  `Policy.Retires` relates a machine to what it is once the current process has retired, and
  `Policy.Decides` to what it is after the whole decision.  `schedule_decides` says that every
  decision is one of these, and `exists_schedule` that there is one whenever the ready queue
  holds ready processes only and does not hold a current process that still has work.

  What is picked is the earliest ready process that none other beats (`Policy.beats`).
-/

namespace Uniprocessor

/-- `p` is on the CPU and still has work. -/
def Machine.Works (m : Machine) (p : Pid) : Prop :=
  m.current = some p ∧ ∃ x, m.process? p = some x ∧ x.status = .running ∧ x.isDone = false

/-- Ages every member of the ready queue. -/
def Machine.ageReady (m : Machine) : Machine :=
  m.ready.pids.foldl (fun n p => n.adjust p (Policy.bump m.limits.agingCap)) m

/-- Aging raises each member of the ready queue. -/
theorem Machine.process?_ageReady {m : Machine} {q : Pid} (hm : m.ready.pids.Nodup) :
    m.ageReady.process? q = if q ∈ m.ready.pids then
      (m.process? q).map (Policy.bump m.limits.agingCap) else m.process? q := by
  unfold ageReady
  generalize m.limits.agingCap = cap
  generalize m.ready.pids = l at hm ⊢
  induction l generalizing m with
  | nil => rfl
  | cons p l ih =>
    obtain ⟨hp, hl⟩ := List.nodup_cons.1 hm
    rw [List.foldl_cons, ih hl, process?_adjust]
    by_cases hpq : p = q
    · subst hpq
      simp [hp]
    · simp [hpq, Ne.symm hpq]

namespace Policy

/-- What a requeued process loses. -/
def reset (π : Policy) (x : ProcessRecord) : ProcessRecord :=
  if π.retirement = .restoreAndRequeue then x.restorePriority else x

/-- The aging that goes before a pick. -/
def ripen (π : Policy) (m : Machine) : Machine :=
  if π = .priorityAging then m.ageReady else m

/-- Whether a policy chooses `x` over `y` wherever they stand in the queue. -/
def beats : Policy → ProcessRecord → ProcessRecord → Prop
  | .fifo, _, _ | .roundRobin, _, _ => False
  | .shortestJob, x, y => x.lifespan < y.lifespan
  | .shortestRemaining, x, y => x.remaining < y.remaining
  | .priority, x, y | .priorityAging, x, y => y.priority < x.priority

/-- What a machine can be once the current process has retired without keeping the CPU. -/
inductive Retires (π : Policy) (m : Machine) : Machine → Prop
  | leave : (∀ p, ¬ m.Works p) → Retires π m m
  | requeue {p : Pid} : m.Works p → π.retirement ≠ .keep → p ∉ m.ready.pids →
      Retires π m (((m.adjust p π.reset).adjust p (.turn .ready)).enqueue p)

/-- What a machine can be after a decision. -/
inductive Decides (π : Policy) (m : Machine) : Machine → Decision → Prop
  | keep {p : Pid} : m.Works p → π.retirement = .keep → Decides π m m (.keep p)
  | idle {n : Machine} : Retires π m n → (π.ripen n).ready.pids = [] →
      Decides π m ((π.ripen n).seat none) .idle
  | pick {n : Machine} {p : Pid} {x : ProcessRecord} : Retires π m n →
      FirstBest ((π.ripen n).Beats π.beats) p (π.ripen n).ready.pids →
      (π.ripen n).process? p = some x → x.status = .ready →
      Decides π m ((((π.ripen n).put p (x.turn .running)).dequeue p).seat (some p))
        (.pick p (x.turn .running))

variable {π : Policy} {m n : Machine} {d : Decision}

theorem reset_status (x : ProcessRecord) : (π.reset x).status = x.status := by
  unfold reset
  split <;> rfl

/-! ## Aging -/

theorem ageAll_eq_ok {l : List Pid} :
    ageAll m l = .ok n ↔ (∀ p ∈ l, ∃ x, m.process? p = some x) ∧
      n = l.foldl (fun n p => n.adjust p (bump m.limits.agingCap)) m := by
  induction l generalizing m with
  | nil => simp [ageAll, eq_comm]
  | cons p l ih =>
    simp only [ageAll, bind_eq_ok, Machine.update_eq_adjust, List.forall_mem_cons, List.foldl_cons]
    constructor
    · rintro ⟨_, ⟨hp, rfl⟩, h⟩
      obtain ⟨hl, rfl⟩ := ih.1 h
      refine ⟨⟨hp, fun q hq => ?_⟩, rfl⟩
      obtain ⟨x, hx⟩ := hl q hq
      rw [Machine.process?_adjust] at hx
      split at hx
      · obtain ⟨y, hy, -⟩ := Option.map_eq_some_iff.1 hx
        exact ⟨y, hy⟩
      · exact ⟨x, hx⟩
    · rintro ⟨⟨hp, hl⟩, rfl⟩
      refine ⟨_, ⟨hp, rfl⟩, ih.2 ⟨fun q hq => ?_, rfl⟩⟩
      obtain ⟨x, hx⟩ := hl q hq
      rw [Machine.process?_adjust]
      split <;> simp [hx]

/-- What one bump keeps, the aging of a whole queue keeps. -/
theorem ageReady_induction {P : Machine → Prop} (h : P m)
    (hb : ∀ n p, P n → P (n.adjust p (bump m.limits.agingCap))) : P m.ageReady := by
  suffices ∀ (l : List Pid) n, P n →
      P (l.foldl (fun n p => n.adjust p (bump m.limits.agingCap)) n) from this _ m h
  intro l
  induction l with
  | nil => exact fun _ hn => hn
  | cons p l ih => exact fun n hn => ih _ (hb n p hn)

theorem ripen_eq (hπ : π ≠ .priorityAging) : π.ripen m = m := if_neg hπ

theorem ripen_induction {P : Machine → Prop} (h : P m)
    (hb : ∀ n p, P n → P (n.adjust p (bump m.limits.agingCap))) : P (π.ripen m) := by
  unfold ripen
  split
  · exact ageReady_induction h hb
  · exact h

theorem ready_ripen : (π.ripen m).ready = m.ready :=
  ripen_induction (P := fun n => n.ready = m.ready) rfl fun _ _ h => h

theorem bump_status (cap : Nat) (x : ProcessRecord) : (bump cap x).status = x.status := by
  unfold bump
  split <;> rfl

/-- Aging changes no status. -/
theorem process?_ripen {p : Pid} {x : ProcessRecord} (h : m.process? p = some x) :
    ∃ y, (π.ripen m).process? p = some y ∧ y.status = x.status := by
  refine ripen_induction (P := fun n => ∃ y, n.process? p = some y ∧ y.status = x.status)
    ⟨x, h, rfl⟩ fun n q hn => ?_
  obtain ⟨y, hy, hs⟩ := hn
  rw [Machine.process?_adjust]
  split
  · exact ⟨_, by rw [hy]; rfl, (bump_status _ y).trans hs⟩
  · exact ⟨y, hy, hs⟩

theorem steady_ripen : m.Steady (π.ripen m) :=
  ripen_induction (P := fun n => m.Steady n) (Machine.Steady.refl m) fun n p hn =>
    hn.trans (Machine.steady_adjust n p _)

theorem resources_ripen : (π.ripen m).resources = m.resources :=
  ripen_induction (P := fun n => n.resources = m.resources) rfl fun _ _ h => h

theorem ripen_of_empty (h : m.ready.pids = []) : π.ripen m = m := by
  unfold ripen Machine.ageReady
  rw [h, List.foldl_nil, ite_self]

/-! ## Retiring -/

theorem retire_cases {kept : Option Pid} (h : π.retire m = .ok (n, kept)) :
    (kept = none ∧ π.Retires m n) ∨
      ∃ p, kept = some p ∧ n = m ∧ m.Works p ∧ π.retirement = .keep := by
  unfold retire at h
  cases hc : m.current with
  | none =>
    simp only [hc, Except.ok.injEq, Prod.mk.injEq] at h
    obtain ⟨rfl, rfl⟩ := h
    refine .inl ⟨rfl, .leave fun p hp => ?_⟩
    have := hp.1
    simp [hc] at this
  | some p =>
    simp only [hc, bind_eq_ok, Machine.process_eq_ok] at h
    obtain ⟨x, hx, h⟩ := h
    split at h
    · next hw =>
      have works : m.Works p := ⟨hc, x, hx, hw.1, by simpa using hw.2⟩
      cases hr : π.retirement with
      | keep =>
        simp only [hr, pure_eq_ok, Prod.mk.injEq] at h
        obtain ⟨rfl, rfl⟩ := h
        exact .inr ⟨p, rfl, rfl, works, rfl⟩
      | requeue =>
        simp only [hr, bind_eq_ok, Machine.makeReady_eq_ok, pure_eq_ok, Prod.mk.injEq] at h
        obtain ⟨_, ⟨-, hq, rfl⟩, rfl, rfl⟩ := h
        have same : m.adjust p π.reset = m := by
          rw [show π.reset = id by funext y; simp [reset, hr]]
          exact Machine.adjust_id
        have := Retires.requeue (π := π) works (by simp [hr]) hq
        rw [same] at this
        exact .inl ⟨rfl, this⟩
      | restoreAndRequeue =>
        simp only [hr, bind_eq_ok, Machine.update_eq_adjust, Machine.makeReady_eq_ok, pure_eq_ok,
          Prod.mk.injEq] at h
        obtain ⟨_, ⟨-, rfl⟩, _, ⟨-, hq, rfl⟩, rfl, rfl⟩ := h
        have := Retires.requeue (π := π) works (by simp [hr]) hq
        rw [show π.reset = ProcessRecord.restorePriority by funext y; simp [reset, hr]] at this
        exact .inl ⟨rfl, this⟩
    · next hw =>
      simp only [pure_eq_ok, Prod.mk.injEq] at h
      obtain ⟨rfl, rfl⟩ := h
      refine .inl ⟨rfl, .leave fun q hq => hw ?_⟩
      obtain ⟨hcq, y, hy, hs, hd⟩ := hq
      obtain rfl : p = q := by simpa [hc] using hcq
      obtain rfl : x = y := by simpa [hx] using hy
      exact ⟨hs, by simp [hd]⟩

theorem exists_retire (hc : ∀ p, m.current = some p → ∃ x, m.process? p = some x)
    (hw : ∀ p, m.Works p → p ∉ m.ready.pids) : ∃ r, π.retire m = .ok r := by
  unfold retire
  cases h : m.current with
  | none => exact ⟨_, rfl⟩
  | some p =>
    obtain ⟨x, hx⟩ := hc p h
    simp only [Machine.process_eq_ok.2 hx, ok_bind]
    split
    · next hs =>
      have hq := hw p ⟨h, x, hx, hs.1, by simpa using hs.2⟩
      cases π.retirement with
      | keep => exact ⟨_, rfl⟩
      | requeue =>
        simp only [Machine.makeReady_eq_ok.2 ⟨⟨x, hx⟩, hq, rfl⟩, ok_bind]
        exact ⟨_, rfl⟩
      | restoreAndRequeue =>
        have hy : (m.adjust p ProcessRecord.restorePriority).process? p =
            some x.restorePriority := by simp [hx]
        simp only [Machine.update_eq_adjust.2 ⟨⟨x, hx⟩, rfl⟩, ok_bind]
        rw [Machine.makeReady_eq_ok.2 ⟨⟨_, hy⟩, hq, rfl⟩]
        exact ⟨_, rfl⟩
    · exact ⟨_, rfl⟩

/-! ## Picking -/

/-- What a policy prefers is the first best member of the ready queue, as it is after the
aging. -/
theorem prefer_eq_ok {o : Option Pid} (h : π.prefer m = .ok (n, o)) :
    n = π.ripen m ∧ (o = none → n.ready.pids = []) ∧
      ∀ p, o = some p → FirstBest (n.Beats π.beats) p n.ready.pids := by
  have scan : ∀ {k : Machine} {xs : List (Pid × ProcessRecord)}
      {e : Option (Pid × ProcessRecord)}, k.records k.ready.pids = .ok xs → (e = none → xs = []) →
      (∀ a, e = some a → FirstBest (fun b c => π.beats b.2 c.2) a xs) →
        (e.map (·.1) = none → k.ready.pids = []) ∧
          ∀ p, e.map (·.1) = some p → FirstBest (k.Beats π.beats) p k.ready.pids := by
    intro k xs e hxs hn hm
    constructor
    · intro he
      rw [← (Machine.records_eq_ok.1 hxs).1, hn (Option.map_eq_none_iff.1 he)]
      rfl
    · intro p hp
      obtain ⟨a, ha, rfl⟩ := Option.map_eq_some_iff.1 hp
      exact Machine.firstBest_records hxs (hm a ha)
  have head : ∀ p, m.ready.front? = some p → (∀ x y, ¬ π.beats x y) →
      FirstBest (m.Beats π.beats) p m.ready.pids := by
    intro p hp hb
    obtain ⟨l, hl⟩ := List.head?_eq_some_iff.1 hp
    exact ⟨[], l, hl, by simp, fun q _ ⟨x, y, _, _, hxy⟩ => hb x y hxy⟩
  cases π with
  | fifo =>
    simp only [prefer, pure_eq_ok, Prod.mk.injEq] at h
    obtain ⟨rfl, rfl⟩ := h
    exact ⟨rfl, by simp [Queue.front?], fun p hp => head p hp fun _ _ h => h⟩
  | roundRobin =>
    simp only [prefer, pure_eq_ok, Prod.mk.injEq] at h
    obtain ⟨rfl, rfl⟩ := h
    exact ⟨rfl, by simp [Queue.front?], fun p hp => head p hp fun _ _ h => h⟩
  | shortestJob =>
    simp only [prefer, bind_eq_ok, pure_eq_ok, Prod.mk.injEq] at h
    obtain ⟨xs, hxs, rfl, rfl⟩ := h
    exact ⟨rfl, scan hxs (fun h => firstMinBy_eq_none.1 h) fun a h => firstMinBy_split h⟩
  | shortestRemaining =>
    simp only [prefer, bind_eq_ok, pure_eq_ok, Prod.mk.injEq] at h
    obtain ⟨xs, hxs, rfl, rfl⟩ := h
    exact ⟨rfl, scan hxs (fun h => firstMinBy_eq_none.1 h) fun a h => firstMinBy_split h⟩
  | priority =>
    simp only [prefer, bind_eq_ok, pure_eq_ok, Prod.mk.injEq] at h
    obtain ⟨xs, hxs, rfl, rfl⟩ := h
    exact ⟨rfl, scan hxs (fun h => firstMaxBy_eq_none.1 h) fun a h => firstMaxBy_split h⟩
  | priorityAging =>
    simp only [prefer, bind_eq_ok, ageAll_eq_ok, pure_eq_ok, Prod.mk.injEq] at h
    obtain ⟨_, ⟨-, rfl⟩, xs, hxs, rfl, rfl⟩ := h
    exact ⟨rfl, scan hxs (fun h => firstMaxBy_eq_none.1 h) fun a h => firstMaxBy_split h⟩

theorem exists_prefer (h : ∀ p ∈ m.ready.pids, ∃ x, m.process? p = some x) :
    ∃ o, π.prefer m = .ok (π.ripen m, o) := by
  obtain ⟨xs, hxs⟩ := Machine.exists_records h
  cases π with
  | fifo => exact ⟨_, rfl⟩
  | roundRobin => exact ⟨_, rfl⟩
  | shortestJob =>
    simp only [prefer, hxs, ok_bind]
    exact ⟨_, rfl⟩
  | shortestRemaining =>
    simp only [prefer, hxs, ok_bind]
    exact ⟨_, rfl⟩
  | priority =>
    simp only [prefer, hxs, ok_bind]
    exact ⟨_, rfl⟩
  | priorityAging =>
    have hr : ∀ p ∈ m.ageReady.ready.pids, ∃ x, m.ageReady.process? p = some x := by
      intro p hp
      rw [show m.ageReady.ready = m.ready from ready_ripen (π := .priorityAging)] at hp
      obtain ⟨x, hx⟩ := h p hp
      obtain ⟨y, hy, -⟩ := process?_ripen (π := .priorityAging) hx
      exact ⟨y, hy⟩
    obtain ⟨ys, hys⟩ := Machine.exists_records hr
    have ha : ageAll m m.ready.pids = .ok m.ageReady := ageAll_eq_ok.2 ⟨h, rfl⟩
    simp only [prefer, ha, hys, ok_bind]
    exact ⟨_, rfl⟩

/-! ## Decisions -/

theorem Retires.steady (h : π.Retires m n) : m.Steady n := by
  cases h with
  | leave => exact .refl m
  | requeue =>
    exact ((Machine.steady_adjust m _ _).trans (Machine.steady_adjust _ _ _)).trans
      (Machine.steady_enqueue _ _)

theorem Retires.resources (h : π.Retires m n) : n.resources = m.resources := by
  cases h <;> rfl

/-- Who retires goes to the tail of the ready queue. -/
theorem Retires.ready (h : π.Retires m n) : ∃ tail, n.ready.pids = m.ready.pids ++ tail := by
  cases h with
  | leave => exact ⟨[], (List.append_nil _).symm⟩
  | @requeue p => exact ⟨[p], rfl⟩

theorem Decides.steady (h : π.Decides m n d) : m.Steady n := by
  cases h with
  | keep => exact .refl m
  | idle hr _ => exact (hr.steady.trans steady_ripen).trans (Machine.steady_seat _ none)
  | @pick k p x hr _ _ _ =>
    exact ((hr.steady.trans steady_ripen).trans (Machine.steady_put _ p _)).trans
      ((Machine.steady_dequeue _ p).trans (Machine.steady_seat _ (some p)))

/-- Owners and wait-sets are no matter of decisions. -/
theorem Decides.resources (h : π.Decides m n d) : n.resources = m.resources := by
  cases h with
  | keep => rfl
  | idle hr _ => exact resources_ripen.trans hr.resources
  | pick hr _ _ _ => exact resources_ripen.trans hr.resources

theorem schedule_decides (h : π.schedule m = .ok (n, d)) : π.Decides m n d := by
  unfold schedule at h
  simp only [bind_eq_ok] at h
  obtain ⟨⟨k, kept⟩, hk, h⟩ := h
  rcases retire_cases hk with ⟨rfl, hret⟩ | ⟨p, rfl, rfl, hw, hkeep⟩
  · simp only [pick, bind_eq_ok] at h
    obtain ⟨⟨l, o⟩, hl, h⟩ := h
    obtain ⟨rfl, hnone, hbest⟩ := prefer_eq_ok hl
    cases o with
    | none =>
      simp only [pure_eq_ok, Prod.mk.injEq] at h
      obtain ⟨rfl, rfl⟩ := h
      exact .idle hret (hnone rfl)
    | some p =>
      simp only [bind_eq_ok, Machine.process_eq_ok] at h
      obtain ⟨x, hx, h⟩ := h
      split at h
      · next hs =>
        simp only [pure_eq_ok, Prod.mk.injEq] at h
        obtain ⟨rfl, rfl⟩ := h
        exact .pick hret (hbest p rfl) hx hs
      · cases h
  · simp only [pure_eq_ok, Prod.mk.injEq] at h
    obtain ⟨rfl, rfl⟩ := h
    exact .keep hw hkeep

/-- A decision is made wherever the queue holds known ready processes, and holds the current
process only if that has no work left. -/
theorem exists_schedule (hc : ∀ p, m.current = some p → ∃ x, m.process? p = some x)
    (hw : ∀ p, m.Works p → p ∉ m.ready.pids)
    (hq : ∀ p ∈ m.ready.pids, ∃ x, m.process? p = some x ∧ x.status = .ready) :
    ∃ n d, π.schedule m = .ok (n, d) := by
  obtain ⟨⟨k, kept⟩, hk⟩ := exists_retire (π := π) hc hw
  unfold schedule
  rcases retire_cases hk with ⟨rfl, hret⟩ | ⟨p, rfl, rfl, -, -⟩
  · have hready : ∀ p ∈ k.ready.pids, ∃ x, k.process? p = some x ∧ x.status = .ready := by
      cases hret with
      | leave => exact hq
      | @requeue p hp _ _ =>
        intro q hmem
        obtain ⟨-, x, hx, -, -⟩ := hp
        by_cases hpq : p = q
        · subst hpq
          exact ⟨_, by simp [hx]; rfl, rfl⟩
        · have : q ∈ m.ready.pids := by
            simpa [Ne.symm hpq] using hmem
          simpa [hpq] using hq q this
    obtain ⟨o, ho⟩ := exists_prefer (π := π) fun p hp => (hready p hp).imp fun _ h => h.1
    obtain ⟨-, -, hbest⟩ := prefer_eq_ok ho
    simp only [hk, ok_bind, pick, ho]
    cases o with
    | none => exact ⟨_, _, rfl⟩
    | some p =>
      have hp := (hbest p rfl).mem
      rw [ready_ripen] at hp
      obtain ⟨x, hx, hs⟩ := hready p hp
      obtain ⟨y, hy, hys⟩ := process?_ripen (π := π) hx
      simp only [Machine.process_eq_ok.2 hy, ok_bind, if_pos (hys.trans hs)]
      exact ⟨_, _, rfl⟩
  · simp only [hk, ok_bind]
    exact ⟨_, _, rfl⟩

end Policy

end Uniprocessor
