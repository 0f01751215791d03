import Uniprocessor.Proofs.Regular
/-
  Every run of a valid scenario comes to its end.

  At a regular moment every function of a tick answers without a fault: `exists_request`,
  `exists_settle`, `exists_giveBack`, `exists_runOn`, `exists_step`.  The attempts of one tick end
  since none makes anybody ready, and each that blocks leaves one process fewer that could use the
  CPU (`attempt_active`, `attempt_regular`).
-/

namespace Uniprocessor

/-- Whether `p` could use the CPU. -/
def Machine.Active (m : Machine) (p : Pid) : Prop :=
  m.status? p = some .ready ∨ m.status? p = some .running

instance (m : Machine) (p : Pid) : Decidable (m.Active p) := by
  unfold Machine.Active
  infer_instance

/-- The number of processes that could use the CPU. -/
def Machine.activeCount (m : Machine) : Nat :=
  m.processes.pids.countP fun p => decide (m.Active p)

namespace Machine

variable {m n : Machine} {p q : Pid} {r : ResourceId}

theorem countP_lt {α : Type} {P Q : α → Bool} {l : List α} {a : α}
    (h : ∀ x ∈ l, P x = true → Q x = true) (ha : a ∈ l) (hp : P a = false) (hq : Q a = true) :
    l.countP P < l.countP Q := by
  obtain ⟨pre, post, rfl⟩ := List.append_of_mem ha
  have hpre := List.countP_mono_left (l := pre) fun x hx => h x (by simp [hx])
  have hpost := List.countP_mono_left (l := post) fun x hx => h x (by simp [hx])
  simp only [List.countP_append, List.countP_cons, hp, hq, Bool.false_eq_true, if_false, if_true]
  omega

theorem activeCount_le_size (m : Machine) : m.activeCount ≤ m.processes.size := by
  have : m.processes.pids.length = m.processes.size := by simp [PidMap.pids, PidMap.size]
  exact this ▸ List.countP_le_length

theorem activeCount_lt (hs : m.Steady n) (h : ∀ q, n.Active q → m.Active q)
    (hp : p ∈ m.processes.pids) (hm : m.Active p) (hn : ¬ n.Active p) :
    n.activeCount < m.activeCount := by
  unfold activeCount
  rw [hs.pids]
  exact countP_lt (fun q _ => by simpa using h q) hp (by simpa using hn) (by simpa using hm)

theorem mem_pids {x : ProcessRecord} (hx : m.process? p = some x) : p ∈ m.processes.pids := by
  simp only [process?, PidMap.get?] at hx
  simp only [PidMap.pids]
  generalize m.processes.entries = l at hx
  induction l with
  | nil => cases hx
  | cons e l ih =>
    simp only [PidMap.find] at hx
    split at hx
    · next he => simp [he]
    · exact List.mem_cons_of_mem _ (ih hx)

/-! ## Who could use the CPU -/

variable {π : Policy} {κ : Protocol} {d : Decision}

theorem active_decides (hm : π.Decides m n d) (hq : n.Active q) : m.Active q := by
  have retires : ∀ {k : Machine}, π.Retires m k → k.Active q → m.Active q := by
    intro k hr hk
    cases hr with
    | leave => exact hk
    | requeue hw =>
      obtain ⟨-, x, hx, hs, -⟩ := hw
      simp only [Active, status?_enqueue, status?_turn, status?_adjust Policy.reset_status] at hk
      split at hk
      · next hpq => exact hpq ▸ .inr (status?_eq_some.2 ⟨x, hx, hs⟩)
      · exact hk
  cases hm with
  | keep => exact hq
  | idle hr _ =>
    simp only [Active, status?_seat, status?_ripen] at hq
    exact retires hr hq
  | pick hr _ hx hs =>
    refine retires hr ?_
    simp only [Active, status?_seat, status?_dequeue, status?_put] at hq
    split at hq
    · next hpq =>
      subst hpq
      left
      rw [← status?_ripen (π := π), status?_of hx, hs]
    · simpa only [Active, status?_ripen] using hq

/-- A decision that puts nobody on the CPU leaves nobody who could use it. -/
theorem not_active_of_idle (hn : n.Filed) (hd : π.Decides m n d)
    (hnext : d.next = none) : ¬ n.Active q := by
  cases hd with
  | keep => cases hnext
  | pick => cases hnext
  | @idle k _ hempty =>
    rintro (hready | hrun)
    · have hmem := (hn.mem_ready q).2 hready
      rw [seat_ready, hempty] at hmem
      cases hmem
    · have hcur := hn.running q hrun
      cases hcur

theorem active_granted (hm : κ.Acquires m r p n .granted) (hq : n.Active q) : m.Active q := by
  simpa only [Active, status?_granted hm] using hq

theorem active_blocked {o : Pid} (hm : κ.Acquires m r p n (.blocked o)) :
    n.Active q ↔ p ≠ q ∧ m.Active q := by
  simp only [Active, status?_blocked hm]
  split
  · next hpq => cases m.status? q <;> simp [hpq]
  · next hpq => simp [hpq]

end Machine

namespace Simulation

variable {s : Strategy} {c : Scenario} {m n b : Machine} {u : List Job}

/-! ## Admissions and requests -/

theorem exists_admitAll (hc : c.Valid) {due : List Job}
    (h : Moment.Regular c ⟨.arriving, m, b, due ++ u⟩) (hd : ∀ j ∈ due, j.start ≤ m.tick) :
    ∃ n, admitAll due m = .ok n := by
  induction due generalizing m b with
  | nil => exact ⟨m, rfl⟩
  | cons j due ih =>
    obtain ⟨hj, hd⟩ := List.forall_mem_cons.1 hd
    have hnew := (h.pending j (by simp)).2
    have hready : j.pid ∉ m.ready.pids := by
      rw [h.filed.mem_ready]
      simp [Machine.status?, hnew]
    have hfork := Machine.fork_eq_ok.2 ⟨hnew, hready, rfl⟩
    obtain ⟨n, hn⟩ := ih (h.move hc (.arrive (s := .standard) hj hfork)) hd
    simp only [admitAll, hfork, ok_bind]
    exact ⟨n, hn⟩

theorem exists_request (hc : c.Valid) {d : Decision} {p : Pid} {due : List ResourceId}
    (h : Moment.Regular c ⟨.requesting d p due, m, b, u⟩) :
    ∃ n acts all, request s p due m = .ok (n, acts, all) := by
  induction due generalizing m with
  | nil => exact ⟨_, _, _, rfl⟩
  | cons r due ih =>
    obtain ⟨-, hreq⟩ := h.phase
    obtain ⟨x, hx⟩ := Machine.exists_record hreq.running
    obtain ⟨ho, g, hg, rfl, -⟩ := hreq.asked hx List.mem_cons_self
    have hfit := (h.scripted.plays p x hx).fits hc.sound hg
    obtain ⟨n, reply, hn⟩ := h.filed.exists_acquire (κ := s.protocol) hreq.running
      (h.scripted.size ▸ hfit.inTable) ho
    have hn := Strategy.acquire_eq_ok.2 ⟨p, hreq.current, hn⟩
    simp only [request, hn, ok_bind]
    cases reply with
    | granted =>
      obtain ⟨k, acts, all, hk⟩ := ih (h.move hc (.grant hn))
      simp only [Reply.isGranted, if_true, hk, ok_bind]
      exact ⟨_, _, _, rfl⟩
    | blocked o => exact ⟨_, _, _, rfl⟩

/-! ## Attempts -/

/-- The process that an attempt puts on the CPU. -/
def Turn.pid? : Turn → Option Pid
  | .idle => none
  | .blocked p | .served p => some p

/-- Requests make nobody ready, and who blocks waits. -/
theorem request_active (hc : c.Valid) {d : Decision} {p : Pid} {due : List ResourceId}
    {acts : List Activity} {all : Bool} (h : Moment.Regular c ⟨.requesting d p due, m, b, u⟩)
    (hn : request s p due m = .ok (n, acts, all)) :
    m.Steady n ∧ (∀ q, n.Active q → m.Active q) ∧
      (all = false → ¬ n.Active p ∧ ∃ r, p ∈ n.resources.waiters r) := by
  induction due generalizing m acts with
  | nil =>
    cases hn
    exact ⟨.refl _, fun _ hq => hq, nofun⟩
  | cons r due ih =>
    simp only [request, bind_eq_ok] at hn
    obtain ⟨⟨k, reply⟩, hk, hn⟩ := hn
    obtain ⟨-, hreq⟩ := h.phase
    have ha := hreq.acquires hk
    cases reply with
    | granted =>
      simp only [Reply.isGranted, if_true, bind_eq_ok, pure_eq_ok, Prod.mk.injEq] at hn
      obtain ⟨⟨_, rest, _⟩, hrest, rfl, -, rfl⟩ := hn
      obtain ⟨hsteady, hkept, hblocked⟩ := ih (h.move hc (.grant hk)) hrest
      exact ⟨ha.steady.trans hsteady, fun q hq => Machine.active_granted ha (hkept q hq), hblocked⟩
    | blocked o =>
      simp only [Reply.isGranted, Bool.false_eq_true, if_false, pure_eq_ok, Prod.mk.injEq] at hn
      obtain ⟨rfl, -, -⟩ := hn
      refine ⟨ha.steady, fun q hq => ((Machine.active_blocked ha).1 hq).2, fun _ => ⟨?_, r, ?_⟩⟩
      · intro hp
        exact ((Machine.active_blocked ha).1 hp).1 rfl
      · rw [ha.waiters_blocked, if_pos rfl]
        exact List.mem_append_right _ (List.mem_singleton.2 rfl)

/-- An attempt makes nobody ready, and picks one of those that could use the CPU; if that one
blocks it waits. -/
theorem attempt_active (hc : c.Valid) {acts : List Activity} {turn : Turn}
    (h : Moment.Regular c ⟨.deciding, m, b, u⟩) (hn : attempt s m = .ok (n, acts, turn)) :
    m.Steady n ∧ (∀ q, n.Active q → m.Active q) ∧ (∀ p, turn.pid? = some p → m.Active p) ∧
      ∀ p, turn = .blocked p → ¬ n.Active p ∧ ∃ r, p ∈ n.resources.waiters r := by
  simp only [attempt, bind_eq_ok] at hn
  obtain ⟨⟨k, d⟩, hk, hn⟩ := hn
  have hd := Policy.schedule_decides hk
  cases hnext : d.next with
  | none =>
    simp only [hnext, pure_eq_ok, Prod.mk.injEq] at hn
    obtain ⟨rfl, -, rfl⟩ := hn
    refine ⟨hd.steady, fun q hq => Machine.active_decides hd hq, ?_, ?_⟩
    · intro q hq
      cases hq
    · intro q hq
      cases hq
  | some p =>
    simp only [hnext, bind_eq_ok, pure_eq_ok, Prod.mk.injEq] at hn
    obtain ⟨due, hdue, ⟨_, rest, all⟩, hrest, rfl, -, rfl⟩ := hn
    have hreg := h.move hc (.dispatch hk hnext hdue)
    obtain ⟨hsteady, hkept, hblocked⟩ := request_active hc hreg hrest
    have hpicked : m.Active p :=
      Machine.active_decides hd (.inr (Machine.running_of_decides hd hnext).2)
    refine ⟨hd.steady.trans hsteady, fun q hq => Machine.active_decides hd (hkept q hq), ?_, ?_⟩
    · intro q hq
      cases all <;> cases hq <;> exact hpicked
    · intro q hq
      cases all with
      | true => cases hq
      | false =>
        cases hq
        exact hblocked rfl

/-- After a process has blocked the next attempt finds things as they should be. -/
theorem attempt_regular (hc : c.Valid) {acts : List Activity} {p : Pid}
    (h : Moment.Regular c ⟨.deciding, m, b, u⟩) (hn : attempt s m = .ok (n, acts, .blocked p)) :
    Moment.Regular c ⟨.deciding, n, b, u⟩ ∧ n.activeCount < m.activeCount := by
  obtain ⟨hsteady, hkept, hpicked, hblocked⟩ := attempt_active hc h hn
  have hactive := hpicked p rfl
  have hknown : ∃ x, m.process? p = some x :=
    hactive.elim Machine.exists_record Machine.exists_record
  obtain ⟨x, hx⟩ := hknown
  obtain ⟨-, φ, hφ, hpath⟩ := attempt_path (b := b) (u := u) hn
  cases hφ
  refine ⟨h.path hc hpath, ?_⟩
  exact Machine.activeCount_lt hsteady hkept (Machine.mem_pids hx) hactive (hblocked p rfl).1

theorem exists_attempt (hc : c.Valid) (h : Moment.Regular c ⟨.deciding, m, b, u⟩) :
    ∃ n acts turn, attempt s m = .ok (n, acts, turn) := by
  obtain ⟨k, d, hk⟩ := h.filed.exists_schedule (π := s.policy)
  have hk' : s.schedule m = .ok (k, d) := hk
  have hd := Policy.schedule_decides hk
  simp only [attempt, hk', ok_bind]
  cases hnext : d.next with
  | none => exact ⟨_, _, _, rfl⟩
  | some p =>
    obtain ⟨-, hrun⟩ := Machine.running_of_decides hd hnext
    obtain ⟨x, hx⟩ := Machine.exists_record hrun
    have hdue := Scripted.requestsOf_eq_ok.2 ⟨x, hx, rfl⟩
    obtain ⟨n, acts, all, hn⟩ := exists_request (s := s) hc (h.move hc (.dispatch hk' hnext hdue))
    simp only [hdue, hn, ok_bind]
    exact ⟨_, _, _, rfl⟩

/-- As many attempts suffice as there are processes that could use the CPU, and one more. -/
theorem exists_settle (hc : c.Valid) {limit : Nat}
    (h : Moment.Regular c ⟨.deciding, m, b, u⟩) (hl : m.activeCount < limit) :
    ∃ n acts runner, settle s limit m = .ok (n, acts, runner) := by
  induction limit generalizing m with
  | zero => cases hl
  | succ limit ih =>
    obtain ⟨n, acts, turn, hn⟩ := exists_attempt (s := s) hc h
    simp only [settle, hn, ok_bind]
    cases turn with
    | idle => exact ⟨_, _, _, rfl⟩
    | served p => exact ⟨_, _, _, rfl⟩
    | blocked p =>
      obtain ⟨hreg, hlt⟩ := attempt_regular hc h hn
      obtain ⟨k, rest, runner, hk⟩ := ih hreg (Nat.lt_of_lt_of_le hlt (Nat.le_of_lt_succ hl))
      simp only [hk, ok_bind]
      exact ⟨_, _, _, rfl⟩

/-! ## A tick of CPU time -/

theorem exists_giveBack (hc : c.Valid) {p : Pid} {due : List ResourceId}
    (h : Moment.Regular c ⟨.releasing p due, m, b, u⟩) :
    ∃ n acts, giveBack s p due m = .ok (n, acts) := by
  induction due generalizing m with
  | nil => exact ⟨_, _, rfl⟩
  | cons r due ih =>
    obtain ⟨x, hx⟩ := Machine.exists_record h.phase.running
    obtain ⟨n, o, hn⟩ := h.filed.exists_release (κ := s.protocol)
      (h.phase.given x hx r List.mem_cons_self).1
    have hn := Strategy.release_eq_ok.2 ⟨p, h.phase.current, hn⟩
    obtain ⟨k, acts, hk⟩ := ih (h.move hc (.release hn))
    simp only [giveBack, hn, ok_bind, hk]
    exact ⟨_, _, rfl⟩

theorem exists_runOn (hc : c.Valid) {d : Decision} {p : Pid}
    (h : Moment.Regular c ⟨.requesting d p [], m, b, u⟩) :
    ∃ n acts, runOn s p m = .ok (n, acts) := by
  obtain ⟨-, hreq⟩ := h.phase
  obtain ⟨x, hx⟩ := Machine.exists_record hreq.running
  have hplays := h.scripted.plays p x hx
  have hage := hreq.age_lt h.scripted hx
  have hbound : x.age + 1 < tickBound := by
    obtain ⟨j, hj, -, hl, -⟩ := hplays.job
    have := (hc.inRange.1 j hj).2.2.1
    omega
  have hgrow := Machine.grow_eq_ok.2 ⟨x, hx, hbound, rfl, rfl⟩
  have hy : (m.adjust p (.aged (x.age + 1))).process? p = some (x.aged (x.age + 1)) := by
    rw [Machine.process?_adjust, if_pos rfl, hx]
    rfl
  obtain ⟨due, hdue, -, -⟩ := (hplays.grow hage).releasesDue hc.sound hc.inRange
  have hreg := h.move hc (.run (s := s) hgrow hy hdue)
  obtain ⟨n, acts, hn⟩ := exists_giveBack (s := s) hc hreg
  have hreg := hreg.path hc (giveBack_path (s := s) hn).2
  obtain ⟨z, hz⟩ := Machine.exists_record hreg.phase.running
  simp only [runOn, hgrow, ok_bind, Machine.process_eq_ok.2 hy, hdue, hn,
    Machine.process_eq_ok.2 hz]
  split
  · simp only [Machine.update_eq_adjust.2 ⟨⟨z, hz⟩, rfl⟩, ok_bind]
    exact ⟨_, _, rfl⟩
  · exact ⟨_, _, rfl⟩

theorem exists_play (hc : c.Valid) (h : Moment.Regular c ⟨.deciding, m, b, u⟩) :
    ∃ n acts ran, play s m = .ok (n, acts, ran) := by
  obtain ⟨k, first, runner, hk⟩ := exists_settle (s := s) hc h
    (Nat.lt_succ_of_le m.activeCount_le_size)
  obtain ⟨-, φ, hφ, hpath⟩ := settle_path (b := b) (u := u) hk
  have hreg := h.path hc hpath
  simp only [play, attemptLimit, hk, ok_bind]
  cases hφ with
  | idle => exact ⟨_, _, _, rfl⟩
  | served =>
    obtain ⟨n, rest, hn⟩ := exists_runOn (s := s) hc hreg
    simp only [hn, ok_bind]
    exact ⟨_, _, _, rfl⟩

/-! ## Ticks and runs -/

theorem exists_step (hc : c.Valid) {audit : Bool} {g : Progress} (h : g.moment.Regular c)
    (ht : g.machine.tick + 1 < tickBound) : ∃ r, step s audit g = .ok r := by
  have hall : Moment.Regular c ⟨.arriving, g.machine, g.machine, g.due ++ g.later⟩ := by
    rw [g.due_append_later]
    exact h
  obtain ⟨m, hm⟩ := exists_admitAll hc hall fun _ => g.start_le
  obtain ⟨htm, hpath⟩ := admitDue_path (s := s) hm
  obtain ⟨n, acts, ran, hn⟩ := exists_play (s := s) hc (h.path hc hpath)
  have htn := (play_path (b := m) (u := []) hn).1
  change admitAll (g.pending.takeWhile _) _ = _ at hm
  simp only [step, hm, ok_bind, hn]
  split
  · exact ⟨_, rfl⟩
  · split
    · exact ⟨_, rfl⟩
    · rw [Machine.advance_eq_ok.2 ⟨by rw [htn, htm]; exact ht, rfl⟩]
      exact ⟨_, rfl⟩

theorem exists_advance (hc : c.Valid) {audit : Bool} {ticks : Nat} {g : Progress}
    {journal : Array (Nat × Activity)} (h : g.moment.Regular c)
    (ht : g.machine.tick + ticks < tickBound) :
    ∃ f, advance s audit ticks g journal = .ok f := by
  induction ticks generalizing g journal with
  | zero => exact ⟨_, rfl⟩
  | succ ticks ih =>
    obtain ⟨r, hr⟩ : ∃ r, step s audit g = .ok r := exists_step hc h (by omega)
    obtain ⟨ran, b, m, acts, htm, hpath, hcloses⟩ := step_path hr
    simp only [advance, hr, ok_bind]
    cases hcloses with
    | ended => exact ⟨_, rfl⟩
    | broken => exact ⟨_, rfl⟩
    | next hover _ hn =>
      obtain ⟨-, rfl⟩ := Machine.advance_eq_ok.1 hn
      refine ih ?_ ?_
      · exact h.path hc (hpath.snoc (.close hover hn))
      · change m.tick + 1 + ticks < tickBound
        omega

theorem exists_playAll (hc : c.Valid) : ∃ f, playAll s c = .ok f :=
  exists_advance hc (regular_opening hc) (by
    change 0 + c.maxTicks < tickBound
    have := hc.inRange.2.2.1
    omega)

end Simulation

open Simulation

variable {c : Scenario}

theorem simulate_of_playAll {s : Strategy} (hc : c.Valid)
    (ht : ResourceTable.CanAddress c.resourceCount) {f : Finished} (hf : playAll s c = .ok f) :
    simulate s c = .ok ⟨traceOf c f, logOf s c f⟩ := by
  have hlimits : s.checkLimits (.start c.resourceCount c.limits) = .ok () :=
    if_pos hc.sound.caps
  simp only [simulate, hc.accepted, ok_bind, Machine.allocate_eq_ok.2 ⟨ht, rfl⟩, hlimits, hf]
  rfl

/-- No run of a valid scenario meets a fault: each comes to its end, and at every moment of it
all priorities fit their words. -/
theorem simulate_completes (s : Strategy) (hc : c.Valid)
    (ht : ResourceTable.CanAddress c.resourceCount) :
    (∃ run, simulate s c = .ok run) ∧
      ∀ j a, Path s (opening c).moment j a → a.machine.All ProcessRecord.InRange := by
  obtain ⟨f, hf⟩ := exists_playAll (s := s) hc
  exact ⟨⟨_, simulate_of_playAll hc ht hf⟩, fun _ _ g => (g.regular hc).scripted.inRange⟩

/-- An urgent process needs what a less urgent one holds. -/
def Scenario.contended : Scenario where
  jobs := [
    { pid := ⟨1⟩, name := "low", start := 0, lifespan := 4, priority := 1,
      holds := [{ resource := ⟨0⟩, since := 0, duration := 3 }] },
    { pid := ⟨2⟩, name := "high", start := 1, lifespan := 2, priority := 9,
      holds := [{ resource := ⟨0⟩, since := 0, duration := 1 }] }]
  resourceCount := 1
  limits := .standard
  maxTicks := 20
  audit := true

theorem simulate_completes_contended :
    (∃ run, simulate .priorityAging .contended = .ok run) ∧
      ∀ j a, Path .priorityAging (opening .contended).moment j a →
        a.machine.All ProcessRecord.InRange :=
  simulate_completes .priorityAging (by decide) (by decide)

end Uniprocessor
