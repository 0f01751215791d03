import Uniprocessor.Protocol
import Uniprocessor.Proofs.Selection
/-
  What a request and a release do, said by edits.

  `Protocol.Acquires` relates a machine to what it is after a request, `Protocol.Releases` to
  what it is after a release.  `acquire_acquires` and `release_releases` say that the calls do
  just that, `acquire_of_acquires` and `exists_release` when they succeed.

  The three protocols share this shape and differ in what they do to priorities: to that of a
  new holder (`Protocol.promote`), of a holder that blocks another (`raise`) and of a former
  holder (`relax`); and in the waiter that they wake (`WakeOrder.beats`).
-/

namespace Uniprocessor

/-- Whether `x` is woken before `y` wherever they stand in the wait-set. -/
def WakeOrder.beats : WakeOrder → ProcessRecord → ProcessRecord → Prop
  | .fifo, _, _ => False
  | .priority, x, y => y.priority < x.priority

namespace Protocol

/-- What blocking a process of priority `k` does to the holder. -/
def raise (κ : Protocol) (k : Nat) (y : ProcessRecord) : ProcessRecord :=
  match κ with
  | .mutex _ | .ceiling _ => y
  | .inheritance => { y with priority := max y.priority k }

/-- What a release does to the former holder. -/
def relax (κ : Protocol) (x : ProcessRecord) : ProcessRecord :=
  match κ with
  | .mutex _ => x
  | .ceiling _ | .inheritance => x.restorePriority

/-- What a machine can be after a request of `p` for `r`. -/
inductive Acquires (κ : Protocol) (m : Machine) (r : ResourceId) (p : Pid) :
    Machine → Reply → Prop
  | granted {x : ProcessRecord} : r.val < m.resources.size → m.resources.owner? r = none →
      m.process? p = some x →
      Acquires κ m r p ((m.adjust p (κ.promote m.limits)).own r (some p)) .granted
  | blocked {o : Pid} {x : ProcessRecord} : m.resources.owner? r = some o → o ≠ p →
      m.process? p = some x → (κ = .inheritance → ∃ y, m.process? o = some y) →
      p ∉ m.resources.waiters r →
      Acquires κ m r p
        (((m.adjust o (κ.raise x.priority)).adjust p (.turn .waiting)).park r p) (.blocked o)

/-- The machine between a release of `r` by `p` and the wake-up that goes with it. -/
def freed (κ : Protocol) (m : Machine) (r : ResourceId) (p : Pid) : Machine :=
  (m.own r none).adjust p κ.relax

/-- What a machine can be after a release of `r` by `p`. -/
inductive Releases (κ : Protocol) (m : Machine) (r : ResourceId) (p : Pid) :
    Machine → Option Pid → Prop
  | quiet : m.resources.owner? r = some p → m.resources.waiters r = [] →
      Releases κ m r p (κ.freed m r p) none
  | wake {w : Pid} {y : ProcessRecord} : m.resources.owner? r = some p →
      FirstBest ((κ.freed m r p).Beats κ.wakeOrder.beats) w (m.resources.waiters r) →
      (κ.freed m r p).process? w = some y → y.status = .waiting → w ∉ m.ready.pids →
      Releases κ m r p ((((κ.freed m r p).unpark r w).adjust w (.turn .ready)).enqueue w)
        (some w)

variable {κ : Protocol} {m n : Machine} {r s : ResourceId} {p q : Pid}

theorem promote_status (limits : Limits) (x : ProcessRecord) :
    (κ.promote limits x).status = x.status := by cases κ <;> rfl

theorem raise_status (k : Nat) (x : ProcessRecord) : (κ.raise k x).status = x.status := by
  cases κ <;> rfl

theorem relax_status (x : ProcessRecord) : (κ.relax x).status = x.status := by cases κ <;> rfl

theorem waiters_freed : (κ.freed m r p).resources.waiters s = m.resources.waiters s :=
  Machine.waiters_own m r s none

theorem owner?_freed (hr : r.val < m.resources.size) :
    (κ.freed m r p).resources.owner? s = if r = s then none else m.resources.owner? s :=
  Machine.owner?_own m r s none hr

theorem process?_freed :
    (κ.freed m r p).process? q =
      if p = q then (m.process? q).map κ.relax else m.process? q :=
  Machine.process?_adjust (m.own r none) p q κ.relax

theorem steady_freed : m.Steady (κ.freed m r p) :=
  (Machine.steady_own m r none).trans (Machine.steady_adjust _ p κ.relax)

theorem Acquires.steady {reply : Reply} (h : κ.Acquires m r p n reply) : m.Steady n := by
  cases h with
  | granted => exact (Machine.steady_adjust m p _).trans (Machine.steady_own _ r _)
  | blocked =>
    exact ((Machine.steady_adjust m _ _).trans (Machine.steady_adjust _ p _)).trans
      (Machine.steady_park _ p r)

theorem Releases.steady {o : Option Pid} (h : κ.Releases m r p n o) : m.Steady n := by
  cases h with
  | quiet => exact steady_freed
  | @wake w y =>
    have hfree : m.Steady (κ.freed m r p) := steady_freed
    exact (hfree.trans (Machine.steady_unpark _ w r)).trans
      ((Machine.steady_adjust _ w _).trans (Machine.steady_enqueue _ w))

/-! ## Owners and wait-sets -/

theorem Acquires.free (h : κ.Acquires m r p n .granted) : m.resources.owner? r = none := by
  cases h
  assumption

theorem Acquires.blocker {o : Pid} (h : κ.Acquires m r p n (.blocked o)) :
    m.resources.owner? r = some o ∧ o ≠ p := by
  cases h
  exact ⟨by assumption, by assumption⟩

theorem Releases.owned {o : Option Pid} (h : κ.Releases m r p n o) :
    m.resources.owner? r = some p := by
  cases h <;> assumption

theorem Acquires.owner?_granted (h : κ.Acquires m r p n .granted) :
    n.resources.owner? s = if r = s then some p else m.resources.owner? s := by
  cases h with
  | granted hr => exact Machine.owner?_own (m.adjust p (κ.promote m.limits)) r s (some p) hr

/-- A grant to `p` does not change what others own. -/
theorem Acquires.owner?_granted_iff (h : κ.Acquires m r p n .granted) (hq : q ≠ p) :
    n.resources.owner? s = some q ↔ m.resources.owner? s = some q := by
  rw [h.owner?_granted]
  split
  · next hrs =>
    have ho : m.resources.owner? s = none := hrs ▸ h.free
    simp [ho, Ne.symm hq]
  · exact Iff.rfl

theorem Acquires.owner?_blocked {o : Pid} (h : κ.Acquires m r p n (.blocked o)) :
    n.resources.owner? s = m.resources.owner? s := by
  cases h with
  | blocked => exact Machine.owner?_park _ p r s

theorem Acquires.waiters_granted (h : κ.Acquires m r p n .granted) :
    n.resources.waiters s = m.resources.waiters s := by
  cases h with
  | granted => exact Machine.waiters_own _ r s (some p)

theorem Acquires.waiters_blocked {o : Pid} (h : κ.Acquires m r p n (.blocked o)) :
    n.resources.waiters s =
      if r = s then m.resources.waiters s ++ [p] else m.resources.waiters s := by
  cases h with
  | @blocked _ x ho =>
    exact Machine.waiters_park ((m.adjust o (κ.raise x.priority)).adjust p (.turn .waiting)) p r s
      (ResourceTable.owner?_lt ho)

theorem Acquires.mem_waiters_blocked {o : Pid} (h : κ.Acquires m r p n (.blocked o))
    (hq : q ∈ n.resources.waiters s) : q ∈ m.resources.waiters s ∨ r = s ∧ q = p := by
  rw [h.waiters_blocked] at hq
  split at hq
  · next hrs => exact (List.mem_append.1 hq).imp_right fun hqp => ⟨hrs, List.mem_singleton.1 hqp⟩
  · exact .inl hq

theorem Releases.owner? {o : Option Pid} (h : κ.Releases m r p n o) :
    n.resources.owner? s = if r = s then none else m.resources.owner? s := by
  cases h with
  | quiet ho => exact owner?_freed (ResourceTable.owner?_lt ho)
  | @wake w y ho =>
    exact (Machine.owner?_unpark (κ.freed m r p) w r s).trans
      (owner?_freed (ResourceTable.owner?_lt ho))

/-- A release by `p` does not change what others own. -/
theorem Releases.owner?_iff {o : Option Pid} (h : κ.Releases m r p n o) (hq : q ≠ p) :
    n.resources.owner? s = some q ↔ m.resources.owner? s = some q := by
  rw [h.owner?]
  split
  · next hrs =>
    have ho : m.resources.owner? s = some p := hrs ▸ h.owned
    simp [ho, Ne.symm hq]
  · exact Iff.rfl

theorem Releases.waiters_quiet (h : κ.Releases m r p n none) :
    n.resources.waiters s = m.resources.waiters s := by
  cases h with
  | quiet => exact waiters_freed

theorem Releases.waiters_wake {w : Pid} (h : κ.Releases m r p n (some w)) :
    n.resources.waiters s =
      if r = s then (m.resources.waiters s).erase w else m.resources.waiters s := by
  cases h with
  | wake =>
    exact (Machine.waiters_unpark (κ.freed m r p) w r s).trans (by rw [waiters_freed])

theorem Releases.mem_waiters {o : Option Pid} (h : κ.Releases m r p n o)
    (hq : q ∈ n.resources.waiters s) : q ∈ m.resources.waiters s := by
  cases o with
  | none => rwa [h.waiters_quiet] at hq
  | some w =>
    rw [h.waiters_wake] at hq
    split at hq
    · exact List.mem_of_mem_erase hq
    · exact hq

/-- What is woken has waited. -/
theorem Releases.mem_of_woken {w : Pid} (h : κ.Releases m r p n (some w)) :
    w ∈ m.resources.waiters r := by
  cases h with
  | wake _ hbest => exact hbest.mem

/-! ## The ready queue -/

theorem Acquires.ready {reply : Reply} (h : κ.Acquires m r p n reply) : n.ready = m.ready := by
  cases h <;> rfl

theorem Releases.ready {o : Option Pid} (h : κ.Releases m r p n o) :
    n.ready.pids = m.ready.pids ++ o.toList := by
  cases h with
  | quiet => exact (List.append_nil _).symm
  | wake => rfl

/-- Where nobody waits nobody is woken. -/
theorem Releases.eq_none {o : Option Pid} (h : κ.Releases m r p n o)
    (hw : m.resources.waiters r = []) : o = none := by
  cases h with
  | quiet => rfl
  | wake _ hbest =>
    have hmem := hbest.mem
    rw [hw] at hmem
    cases hmem

/-- Where nobody is woken nobody waits. -/
theorem Releases.waiters_eq_nil (h : κ.Releases m r p n none) : m.resources.waiters r = [] := by
  cases h
  assumption

/-! ## Requests -/

theorem lend_eq_ok {o : Pid} {x : ProcessRecord} (hx : m.process? p = some x) :
    κ.lend m o p = .ok n ↔
      (κ = .inheritance → ∃ y, m.process? o = some y) ∧ n = m.adjust o (κ.raise x.priority) := by
  cases κ with
  | mutex _ =>
    simp [lend, show (mutex _).raise x.priority = id from rfl, Machine.adjust_id, eq_comm]
  | ceiling _ =>
    simp [lend, show (ceiling _).raise x.priority = id from rfl, Machine.adjust_id, eq_comm]
  | inheritance =>
    rw [lend, Machine.process_eq_ok.2 hx, ok_bind, Machine.update_eq_adjust]
    exact ⟨fun h => ⟨fun _ => h.1, h.2⟩, fun h => ⟨h.1 rfl, h.2⟩⟩

theorem acquire_acquires {reply : Reply} (h : κ.acquire m r p = .ok (n, reply)) :
    κ.Acquires m r p n reply := by
  simp only [acquire, bind_eq_ok, ResourceTable.get_eq_ok] at h
  obtain ⟨x, hx, h⟩ := h
  have hsize := ResourceTable.lt_size hx
  have howner := ResourceTable.owner?_eq hx
  cases ho : x.owner with
  | none =>
    rw [ho] at howner
    simp only [ho, bind_eq_ok, Machine.update_eq_adjust, pure_eq_ok, Prod.mk.injEq] at h
    obtain ⟨_, ⟨⟨y, hy⟩, rfl⟩, rfl, rfl⟩ := h
    rw [Machine.set_own (m := m.adjust p (κ.promote m.limits)) hx]
    exact .granted hsize howner hy
  | some o =>
    rw [ho] at howner
    simp only [ho] at h
    split at h
    · cases h
    · next hne =>
      simp only [bind_eq_ok, Machine.blockOn_eq_ok, pure_eq_ok, Prod.mk.injEq] at h
      obtain ⟨l, hl, _, ⟨⟨y, hy⟩, -, hw, rfl⟩, rfl, rfl⟩ := h
      obtain ⟨z, hz⟩ : ∃ z, m.process? p = some z := by
        cases κ with
        | mutex _ => cases hl; exact ⟨y, hy⟩
        | ceiling _ => cases hl; exact ⟨y, hy⟩
        | inheritance =>
          simp only [lend, bind_eq_ok, Machine.process_eq_ok] at hl
          obtain ⟨z, hz, -⟩ := hl
          exact ⟨z, hz⟩
      obtain ⟨hk, rfl⟩ := (lend_eq_ok hz).1 hl
      exact .blocked howner hne hz hk hw

theorem acquire_of_acquires {reply : Reply} (h : κ.Acquires m r p n reply) :
    κ.acquire m r p = .ok (n, reply) := by
  cases h with
  | granted hr ho hx =>
    obtain ⟨y, hy⟩ := ResourceTable.get?_eq_some hr
    rw [ResourceTable.owner?_eq hy] at ho
    simp only [acquire, ResourceTable.get_eq_ok.2 hy, ok_bind, ho,
      Machine.update_eq_adjust.2 ⟨⟨_, hx⟩, rfl⟩]
    rw [Machine.set_own (m := m.adjust p (κ.promote m.limits)) hy]
    rfl
  | blocked ho hne hx hk hw =>
    have hr := ResourceTable.owner?_lt ho
    obtain ⟨y, hy⟩ := ResourceTable.get?_eq_some hr
    rw [ResourceTable.owner?_eq hy] at ho
    obtain ⟨x', hx'⟩ : ∃ x', (m.adjust _ (κ.raise _)).process? p = some x' :=
      ⟨_, by rw [Machine.process?_adjust, if_neg hne]; exact hx⟩
    simp only [acquire, ResourceTable.get_eq_ok.2 hy, ok_bind, ho, if_neg hne,
      (lend_eq_ok hx).2 ⟨hk, rfl⟩]
    rw [Machine.blockOn_eq_ok.2 ⟨⟨x', hx'⟩, hr, hw, rfl⟩]
    rfl

/-! ## Releases -/

theorem demote_eq_ok :
    κ.demote m p = .ok n ↔
      ((∀ order, κ ≠ .mutex order) → ∃ x, m.process? p = some x) ∧ n = m.adjust p κ.relax := by
  cases κ with
  | mutex _ => simp [demote, show (mutex _).relax = id from rfl, Machine.adjust_id, eq_comm]
  | ceiling _ =>
    rw [demote, Machine.update_eq_adjust]
    exact ⟨fun h => ⟨fun _ => h.1, h.2⟩, fun h => ⟨h.1 fun _ => Protocol.noConfusion, h.2⟩⟩
  | inheritance =>
    rw [demote, Machine.update_eq_adjust]
    exact ⟨fun h => ⟨fun _ => h.1, h.2⟩, fun h => ⟨h.1 fun _ => Protocol.noConfusion, h.2⟩⟩

theorem nextWaiter_eq_ok {q : Queue} {o : Option Pid} (h : κ.nextWaiter m q = .ok o) :
    (o = none → q.pids = []) ∧
      ∀ w, o = some w → FirstBest (m.Beats κ.wakeOrder.beats) w q.pids := by
  unfold nextWaiter at h
  cases hκ : κ.wakeOrder with
  | fifo =>
    simp only [hκ, Except.ok.injEq] at h
    subst h
    refine ⟨by simp [Queue.front?], fun w hw => ?_⟩
    obtain ⟨l, hl⟩ := List.head?_eq_some_iff.1 hw
    exact ⟨[], l, hl, by simp, fun _ _ ⟨_, _, _, _, h⟩ => h⟩
  | priority =>
    simp only [hκ, bind_eq_ok, pure_eq_ok] at h
    obtain ⟨xs, hxs, rfl⟩ := h
    constructor
    · intro hn
      rw [← (Machine.records_eq_ok.1 hxs).1, firstMaxBy_eq_none.1 (Option.map_eq_none_iff.1 hn)]
      rfl
    · intro w hw
      obtain ⟨a, ha, rfl⟩ := Option.map_eq_some_iff.1 hw
      exact Machine.firstBest_records hxs (firstMaxBy_split ha)

theorem exists_nextWaiter {q : Queue} (h : ∀ w ∈ q.pids, ∃ x, m.process? w = some x) :
    ∃ o, κ.nextWaiter m q = .ok o := by
  unfold nextWaiter
  split
  · exact ⟨_, rfl⟩
  · obtain ⟨xs, hxs⟩ := Machine.exists_records h
    simp only [hxs, ok_bind]
    exact ⟨_, rfl⟩

theorem release_releases {o : Option Pid} (h : κ.release m r p = .ok (n, o)) :
    κ.Releases m r p n o := by
  simp only [release, bind_eq_ok, ResourceTable.get_eq_ok] at h
  obtain ⟨y, hy, h⟩ := h
  split at h
  · next ho =>
    simp only [Machine.set_own hy, bind_eq_ok, demote_eq_ok] at h
    obtain ⟨_, ⟨-, rfl⟩, h⟩ := h
    change κ.wake (κ.freed m r p) r = _ at h
    simp only [wake, bind_eq_ok, ResourceTable.get_eq_ok] at h
    obtain ⟨z, hz, o', ho', h⟩ := h
    have hwait : z.waiters.pids = m.resources.waiters r := by
      rw [← ResourceTable.waiters_eq hz, waiters_freed]
    rw [← ResourceTable.owner?_eq hy] at ho
    obtain ⟨hnone, hbest⟩ := nextWaiter_eq_ok ho'
    rw [hwait] at hnone hbest
    cases o' with
    | none =>
      simp only [pure_eq_ok, Prod.mk.injEq] at h
      obtain ⟨rfl, rfl⟩ := h
      exact .quiet ho (hnone rfl)
    | some w =>
      simp only [bind_eq_ok, Machine.process_eq_ok] at h
      obtain ⟨v, hv, h⟩ := h
      split at h
      · next hs =>
        simp only [bind_eq_ok, Machine.set_unpark hz, Machine.makeReady_eq_ok, pure_eq_ok,
          Prod.mk.injEq] at h
        obtain ⟨_, ⟨-, hready, rfl⟩, rfl, rfl⟩ := h
        exact .wake ho (hbest w rfl) hv hs hready
      · cases h
  · cases h

/-- A release succeeds if the caller owns the resource and its wait-set holds known waiting
processes only, none of them in the ready queue. -/
theorem exists_release {x : ProcessRecord} (hx : m.process? p = some x)
    (ho : m.resources.owner? r = some p)
    (hw : ∀ w ∈ m.resources.waiters r,
      w ∉ m.ready.pids ∧ ∃ y, m.process? w = some y ∧ y.status = .waiting) :
    ∃ n o, κ.release m r p = .ok (n, o) := by
  obtain ⟨y, hy⟩ := ResourceTable.get?_eq_some (ResourceTable.owner?_lt ho)
  obtain ⟨z, hz⟩ := ResourceTable.get?_eq_some
    (t := (κ.freed m r p).resources) (r := r)
    (by simpa [freed] using ResourceTable.owner?_lt ho)
  have hwait : z.waiters.pids = m.resources.waiters r := by
    rw [← ResourceTable.waiters_eq hz, waiters_freed]
  have hknown : ∀ w ∈ m.resources.waiters r,
      ∃ v, (κ.freed m r p).process? w = some v ∧ v.status = .waiting := by
    intro w hmem
    obtain ⟨-, v, hv, hs⟩ := hw w hmem
    rw [process?_freed, hv]
    split
    · exact ⟨_, rfl, by cases κ <;> exact hs⟩
    · exact ⟨v, rfl, hs⟩
  obtain ⟨o, ho'⟩ := exists_nextWaiter (κ := κ) (m := κ.freed m r p) (q := z.waiters)
    fun w hmem => (hknown w (hwait ▸ hmem)).imp fun _ h => h.1
  have hp : (m.own r none).process? p = some x := hx
  rw [ResourceTable.owner?_eq hy] at ho
  simp only [release, ResourceTable.get_eq_ok.2 hy, ok_bind, if_pos ho, Machine.set_own hy,
    demote_eq_ok.2 ⟨fun _ => ⟨x, hp⟩, rfl⟩]
  change ∃ n o, κ.wake (κ.freed m r p) r = .ok (n, o)
  simp only [wake, ResourceTable.get_eq_ok.2 hz, ok_bind, ho']
  cases o with
  | none => exact ⟨_, _, rfl⟩
  | some w =>
    have hmem : w ∈ m.resources.waiters r := hwait ▸ ((nextWaiter_eq_ok ho').2 w rfl).mem
    obtain ⟨v, hv, hs⟩ := hknown w hmem
    have hready := (hw w hmem).1
    simp only [Machine.process_eq_ok.2 hv, ok_bind, if_pos hs, Machine.set_unpark hz]
    rw [(Machine.makeReady_eq_ok (m := (κ.freed m r p).unpark r w)).2 ⟨⟨v, hv⟩, hready, rfl⟩]
    exact ⟨_, _, rfl⟩

end Protocol

end Uniprocessor
