import Uniprocessor.Proofs.Decision
import Uniprocessor.Proofs.Handover
/-
  Every process is filed where its status says.

  `Machine.Filed` is what the queues, the statuses and the owners of a machine have in common at
  any moment of a run.  It is kept when one process moves to where its new status belongs
  (`Filed.moved`), and every move of a run is of that kind (`requeue`, `dispatch`, `block`, `wake`,
  `finish`, `enroll`).  So decisions keep it (`Filed.decides`), requests (`Filed.acquires`) and
  releases (`Filed.releases`).  In a filed machine these operations succeed: `exists_schedule`,
  `exists_acquire`, `exists_release`.
-/

namespace Uniprocessor

namespace Machine

/-- The status of the process named `p`, if it was admitted. -/
def status? (m : Machine) (p : Pid) : Option Status := (m.process? p).map (·.status)

/-- Every process is in the queues that its status requires and in no others; what is running is
on the CPU; an owner is alive and does not wait for what it owns. -/
structure Filed (m : Machine) : Prop where
  sorted : m.processes.Sorted
  ready_nodup : m.ready.pids.Nodup
  mem_ready : ∀ p, p ∈ m.ready.pids ↔ m.status? p = some .ready
  waiters_nodup : ∀ r, (m.resources.waiters r).Nodup
  mem_waiters : ∀ p, (∃ r, p ∈ m.resources.waiters r) ↔ m.status? p = some .waiting
  waits_once : ∀ p r s, p ∈ m.resources.waiters r → p ∈ m.resources.waiters s → r = s
  running : ∀ p, m.status? p = some .running → m.current = some p
  current : ∀ p, m.current = some p → m.status? p ≠ none
  owner_alive : ∀ r p, m.resources.owner? r = some p →
    m.status? p ≠ none ∧ m.status? p ≠ some .terminated
  owner_apart : ∀ r p, m.resources.owner? r = some p → p ∉ m.resources.waiters r

variable {m n : Machine} {p q : Pid} {r : ResourceId} {f : ProcessRecord → ProcessRecord}

/-! ## Statuses of edited machines -/

theorem status?_eq_some {s : Status} :
    m.status? p = some s ↔ ∃ x, m.process? p = some x ∧ x.status = s := by
  simp [status?]

theorem status?_of {x : ProcessRecord} (hx : m.process? p = some x) :
    m.status? p = some x.status := by simp [status?, hx]

theorem status?_ne_none : m.status? p ≠ none ↔ ∃ x, m.process? p = some x := by
  simp [status?, Option.ne_none_iff_exists']

theorem exists_record {s : Status} (h : m.status? p = some s) : ∃ x, m.process? p = some x :=
  (status?_eq_some.1 h).imp fun _ hx => hx.1

/-- Changing other parts of a record changes no status. -/
theorem status?_adjust (hf : ∀ x, (f x).status = x.status) :
    (m.adjust p f).status? q = m.status? q := by
  simp only [status?, process?_adjust]
  split
  · cases m.process? q <;> simp [hf]
  · rfl

theorem status?_turn (s : Status) :
    (m.adjust p (.turn s)).status? q =
      if p = q then (m.status? q).map fun _ => s else m.status? q := by
  simp only [status?, process?_adjust]
  split
  · cases m.process? q <;> simp [ProcessRecord.turn]
  · rfl

theorem status?_put (x : ProcessRecord) :
    (m.put p x).status? q =
      if p = q then (m.status? q).map fun _ => x.status else m.status? q := by
  simp only [status?, process?_put]
  split
  · cases m.process? q <;> simp
  · rfl

@[simp] theorem status?_enqueue : (m.enqueue p).status? q = m.status? q := rfl

@[simp] theorem status?_dequeue : (m.dequeue p).status? q = m.status? q := rfl

@[simp] theorem status?_seat (o : Option Pid) : (m.seat o).status? q = m.status? q := rfl

@[simp] theorem status?_own (o : Option Pid) : (m.own r o).status? q = m.status? q := rfl

@[simp] theorem status?_park : (m.park r p).status? q = m.status? q := rfl

@[simp] theorem status?_unpark : (m.unpark r p).status? q = m.status? q := rfl

theorem status?_enroll {j : Job} :
    (m.enroll j).status? q = if j.pid = q then some .ready else m.status? q := by
  simp only [status?, process?_enroll]
  split <;> rfl

/-- Aging changes no status. -/
theorem status?_ripen {π : Policy} : (π.ripen m).status? q = m.status? q :=
  Policy.ripen_induction (P := fun n => n.status? q = m.status? q) rfl fun _ _ hn => by
    rw [status?_adjust (Policy.bump_status _), hn]

/-- What a decision puts on the CPU is running. -/
theorem running_of_decides {π : Policy} {d : Decision} (hm : π.Decides m n d)
    (hp : d.next = some p) : n.current = some p ∧ n.status? p = some .running := by
  cases hm with
  | keep hw _ =>
    obtain rfl := Option.some.inj hp
    obtain ⟨hc, x, hx, hs, -⟩ := hw
    exact ⟨hc, status?_eq_some.2 ⟨x, hx, hs⟩⟩
  | idle => cases hp
  | pick hr _ hx hs =>
    obtain rfl := Option.some.inj hp
    exact ⟨rfl, by simp [status?_put, status?_of hx, ProcessRecord.turn]⟩

namespace Filed

theorem start (count : Nat) (limits : Limits) : (Machine.start count limits).Filed where
  sorted := PidMap.sorted_empty
  ready_nodup := List.nodup_nil
  mem_ready p := by simp [Machine.start, Queue.empty, status?, process?]
  waiters_nodup r := by simp [Machine.start]
  mem_waiters p := by simp [Machine.start, status?, process?]
  waits_once p r s h := by simp [Machine.start] at h
  running p h := by simp [Machine.start, status?, process?] at h
  current p h := by simp [Machine.start] at h
  owner_alive r p h := by simp [Machine.start] at h
  owner_apart r p h := by simp [Machine.start] at h

/-- Only one process is running. -/
theorem running_unique (h : m.Filed) (hp : m.status? p = some .running)
    (hq : m.status? q = some .running) : p = q :=
  Option.some.inj ((h.running p hp).symm.trans (h.running q hq))

/-- A waiter is not running. -/
theorem ne_of_waits (h : m.Filed) (hp : m.status? p = some .running)
    (hq : q ∈ m.resources.waiters r) : q ≠ p := by
  intro he
  rw [← he, (h.mem_waiters q).1 ⟨r, hq⟩] at hp
  cases hp

theorem adjust (h : m.Filed) (hf : ∀ x, (f x).status = x.status) : (m.adjust p f).Filed where
  sorted := h.sorted.adjust p f
  ready_nodup := h.ready_nodup
  mem_ready q := by rw [status?_adjust hf]; exact h.mem_ready q
  waiters_nodup := h.waiters_nodup
  mem_waiters q := by rw [status?_adjust hf]; exact h.mem_waiters q
  waits_once := h.waits_once
  running q := by rw [status?_adjust hf]; exact h.running q
  current q := by rw [status?_adjust hf]; exact h.current q
  owner_alive r q := by rw [status?_adjust hf]; exact h.owner_alive r q
  owner_apart := h.owner_apart

theorem pass (h : m.Filed) : m.pass.Filed :=
  ⟨h.sorted, h.ready_nodup, h.mem_ready, h.waiters_nodup, h.mem_waiters, h.waits_once, h.running,
    h.current, h.owner_alive, h.owner_apart⟩

end Filed

/-! ## Moves from place to place -/

/-- The ready queue of `n` is that of `m` but for `p`, which is in it if its status `t` is ready. -/
structure ReadyMoved (m n : Machine) (p : Pid) (t : Status) : Prop where
  nodup : n.ready.pids.Nodup
  self : p ∈ n.ready.pids ↔ t = .ready
  others : ∀ q, q ≠ p → (q ∈ n.ready.pids ↔ q ∈ m.ready.pids)

/-- The wait-sets of `n` are those of `m` but for `p`, which is in one if its status `t` is
waiting. -/
structure WaitsMoved (m n : Machine) (p : Pid) (t : Status) : Prop where
  nodup : ∀ r, (n.resources.waiters r).Nodup
  self : (∃ r, p ∈ n.resources.waiters r) ↔ t = .waiting
  once : ∀ r s, p ∈ n.resources.waiters r → p ∈ n.resources.waiters s → r = s
  others : ∀ q r, q ≠ p → (q ∈ n.resources.waiters r ↔ q ∈ m.resources.waiters r)

/-- `n` is `m` with `p` moved to where a process of the status `t` belongs. -/
structure Moved (m n : Machine) (p : Pid) (t : Status) : Prop where
  sorted : n.processes.Sorted
  self : n.status? p = some t
  others : ∀ q, q ≠ p → n.status? q = m.status? q
  ready : ReadyMoved m n p t
  waits : WaitsMoved m n p t
  current : n.current = m.current ∧ t ≠ .running ∨
    n.current = some p ∧ ∀ q, m.status? q ≠ some .running
  owner : ∀ r, n.resources.owner? r = m.resources.owner? r
  apart : ∀ r, m.resources.owner? r = some p → t ≠ .terminated ∧ p ∉ n.resources.waiters r

namespace Filed

variable {s t : Status}

/-- What is filed stays so when one process moves to where it belongs. -/
theorem moved (h : m.Filed) (hm : Moved m n p t) : n.Filed where
  sorted := hm.sorted
  ready_nodup := hm.ready.nodup
  mem_ready q := by
    by_cases hq : q = p
    · rw [hq, hm.self, hm.ready.self, Option.some.injEq]
    · rw [hm.ready.others q hq, hm.others q hq, h.mem_ready]
  waiters_nodup := hm.waits.nodup
  mem_waiters q := by
    by_cases hq : q = p
    · rw [hq, hm.self, hm.waits.self, Option.some.injEq]
    · rw [hm.others q hq, ← h.mem_waiters q]
      exact exists_congr fun r => hm.waits.others q r hq
  waits_once q r s hr hs := by
    by_cases hq : q = p
    · subst hq
      exact hm.waits.once r s hr hs
    · rw [hm.waits.others q _ hq] at hr hs
      exact h.waits_once q r s hr hs
  running q hrun := by
    by_cases hq : q = p
    · rw [hq, hm.self, Option.some.injEq] at hrun
      rw [(hm.current.resolve_left fun ⟨_, ht⟩ => ht hrun).1, hq]
    · rw [hm.others q hq] at hrun
      rw [(hm.current.resolve_right fun ⟨_, hidle⟩ => hidle q hrun).1, h.running q hrun]
  current q hcur := by
    by_cases hq : q = p
    · rw [hq, hm.self]
      exact Option.some_ne_none t
    · rw [hm.others q hq]
      rcases hm.current with ⟨hc, -⟩ | ⟨hc, -⟩
      · exact h.current q (hc ▸ hcur)
      · exact absurd (Option.some.inj (hcur.symm.trans hc)) hq
  owner_alive r q ho := by
    rw [hm.owner] at ho
    by_cases hq : q = p
    · subst hq
      rw [hm.self]
      exact ⟨Option.some_ne_none t, fun he => (hm.apart r ho).1 (Option.some.inj he)⟩
    · rw [hm.others q hq]
      exact h.owner_alive r q ho
  owner_apart r q ho := by
    rw [hm.owner] at ho
    by_cases hq : q = p
    · subst hq
      exact (hm.apart r ho).2
    · rw [hm.waits.others q r hq]
      exact h.owner_apart r q ho

theorem not_mem_ready (h : m.Filed) (hp : m.status? p ≠ some .ready) : p ∉ m.ready.pids :=
  fun hmem => hp ((h.mem_ready p).1 hmem)

theorem not_mem_waiters (h : m.Filed) (hp : m.status? p ≠ some .waiting) :
    p ∉ m.resources.waiters r :=
  fun hmem => hp ((h.mem_waiters p).1 ⟨r, hmem⟩)

theorem ready_keep (h : m.Filed) (hp : m.status? p ≠ some .ready) (ht : t ≠ .ready)
    (he : n.ready = m.ready) : ReadyMoved m n p t where
  nodup := he ▸ h.ready_nodup
  self := iff_of_false (he ▸ h.not_mem_ready hp) ht
  others q _ := by rw [he]

theorem ready_append (h : m.Filed) (hp : m.status? p ≠ some .ready)
    (he : n.ready.pids = m.ready.pids ++ [p]) : ReadyMoved m n p .ready where
  nodup := by
    rw [he]
    exact List.nodup_append.2 ⟨h.ready_nodup, by simp, fun q hq k hk => by
      rw [List.mem_singleton.1 hk]
      exact fun hqp => h.not_mem_ready hp (hqp ▸ hq)⟩
  self := by simp [he]
  others q hq := by simp [he, hq]

theorem ready_erase (h : m.Filed) (ht : t ≠ .ready) (he : n.ready.pids = m.ready.pids.erase p) :
    ReadyMoved m n p t where
  nodup := he ▸ h.ready_nodup.erase p
  self := iff_of_false (he ▸ h.ready_nodup.not_mem_erase) ht
  others q hq := by rw [he, List.mem_erase_of_ne hq]

theorem waits_keep (h : m.Filed) (hp : m.status? p ≠ some .waiting) (ht : t ≠ .waiting)
    (he : ∀ r, n.resources.waiters r = m.resources.waiters r) : WaitsMoved m n p t where
  nodup r := he r ▸ h.waiters_nodup r
  self := iff_of_false (fun ⟨r, hr⟩ => h.not_mem_waiters hp (he r ▸ hr)) ht
  once r _ hr := absurd (he r ▸ hr) (h.not_mem_waiters hp)
  others q r _ := by rw [he]

theorem waits_append (h : m.Filed) (hp : m.status? p ≠ some .waiting)
    (he : ∀ s, n.resources.waiters s =
      if r = s then m.resources.waiters s ++ [p] else m.resources.waiters s) :
    WaitsMoved m n p .waiting where
  nodup s := by
    rw [he]
    split
    · exact List.nodup_append.2 ⟨h.waiters_nodup s, by simp, fun q hq k hk => by
        rw [List.mem_singleton.1 hk]
        exact fun hqp => h.not_mem_waiters hp (hqp ▸ hq)⟩
    · exact h.waiters_nodup s
  self := iff_of_true ⟨r, by simp [he]⟩ rfl
  once s t hs ht := by
    have only : ∀ u, p ∈ n.resources.waiters u → r = u := fun u hu => by
      rw [he] at hu
      split at hu
      · assumption
      · exact absurd hu (h.not_mem_waiters hp)
    exact (only s hs).symm.trans (only t ht)
  others q s hq := by
    rw [he]
    split
    · simp [hq]
    · exact Iff.rfl

section Unpark

variable (h : m.Filed) (hw : p ∈ m.resources.waiters r)
variable (he : ∀ s, n.resources.waiters s =
  if r = s then (m.resources.waiters s).erase p else m.resources.waiters s)

include h hw he

theorem not_mem_waiters_erased (s : ResourceId) : p ∉ n.resources.waiters s := fun hs => by
  rw [he] at hs
  split at hs
  · exact (h.waiters_nodup s).not_mem_erase hs
  · next hrs => exact hrs (h.waits_once p r s hw hs)

theorem waits_erase (ht : t ≠ .waiting) : WaitsMoved m n p t where
  nodup s := by
    rw [he]
    split
    · exact (h.waiters_nodup s).erase p
    · exact h.waiters_nodup s
  self := iff_of_false (fun ⟨s, hs⟩ => h.not_mem_waiters_erased hw he s hs) ht
  once s _ hs := absurd hs (h.not_mem_waiters_erased hw he s)
  others q s hq := by
    rw [he]
    split
    · exact List.mem_erase_of_ne hq
    · exact Iff.rfl

end Unpark

/-- A process that stops running with work left goes to the ready queue. -/
theorem requeue (h : m.Filed) (hp : m.status? p = some .running) :
    ((m.adjust p (.turn .ready)).enqueue p).Filed :=
  h.moved (t := .ready)
    { sorted := h.sorted.adjust p _
      self := by rw [status?_enqueue, status?_turn, if_pos rfl, hp]; rfl
      others := fun q hq => by rw [status?_enqueue, status?_turn, if_neg hq.symm]
      ready := h.ready_append (by simp [hp]) rfl
      waits := h.waits_keep (by simp [hp]) (by simp) fun _ => rfl
      current := .inl ⟨rfl, by simp⟩
      owner := fun _ => rfl
      apart := fun r ho => ⟨by simp, h.owner_apart r p ho⟩ }

/-- The CPU is left idle while nothing is running. -/
theorem rest (h : m.Filed) (hn : ∀ q, m.status? q ≠ some .running) : (m.seat none).Filed where
  sorted := h.sorted
  ready_nodup := h.ready_nodup
  mem_ready := h.mem_ready
  waiters_nodup := h.waiters_nodup
  mem_waiters := h.mem_waiters
  waits_once := h.waits_once
  running q hq := absurd hq (hn q)
  current q hq := by cases hq
  owner_alive := h.owner_alive
  owner_apart := h.owner_apart

/-- A ready process gets the CPU while nothing is running. -/
theorem dispatch (h : m.Filed) (hn : ∀ q, m.status? q ≠ some .running)
    (hp : m.status? p = some .ready) (x : ProcessRecord) :
    (((m.put p (x.turn .running)).dequeue p).seat (some p)).Filed :=
  h.moved (t := .running)
    { sorted := h.sorted.adjust p _
      self := by rw [status?_seat, status?_dequeue, status?_put, if_pos rfl, hp]; rfl
      others := fun q hq => by rw [status?_seat, status?_dequeue, status?_put, if_neg hq.symm]
      ready := h.ready_erase (by simp) rfl
      waits := h.waits_keep (by simp [hp]) (by simp) fun _ => rfl
      current := .inr ⟨rfl, hn⟩
      owner := fun _ => rfl
      apart := fun r ho => ⟨by simp, h.owner_apart r p ho⟩ }

/-- A running process blocks on a resource that it does not own. -/
theorem block (h : m.Filed) (hp : m.status? p = some .running) (hr : r.val < m.resources.size)
    (ho : m.resources.owner? r ≠ some p) : ((m.adjust p (.turn .waiting)).park r p).Filed :=
  have hpark := fun s => waiters_park (m.adjust p (.turn .waiting)) p r s hr
  h.moved (t := .waiting)
    { sorted := h.sorted.adjust p _
      self := by rw [status?_park, status?_turn, if_pos rfl, hp]; rfl
      others := fun q hq => by rw [status?_park, status?_turn, if_neg hq.symm]
      ready := h.ready_keep (by simp [hp]) (by simp) rfl
      waits := h.waits_append (by simp [hp]) hpark
      current := .inl ⟨rfl, by simp⟩
      owner := fun s => owner?_park _ p r s
      apart := fun s hs => ⟨by simp, fun hw => by
        rw [hpark] at hw
        split at hw
        · next hrs => exact ho (hrs ▸ hs)
        · exact h.owner_apart s p hs hw⟩ }

/-- A waiter becomes ready. -/
theorem wake (h : m.Filed) (hw : p ∈ m.resources.waiters r) :
    (((m.unpark r p).adjust p (.turn .ready)).enqueue p).Filed :=
  have hp : m.status? p = some .waiting := (h.mem_waiters p).1 ⟨r, hw⟩
  have hunpark := fun s => waiters_unpark m p r s
  h.moved (t := .ready)
    { sorted := h.sorted.adjust p _
      self := by rw [status?_enqueue, status?_turn, if_pos rfl, status?_unpark, hp]; rfl
      others := fun q hq => by rw [status?_enqueue, status?_turn, if_neg hq.symm, status?_unpark]
      ready := h.ready_append (by simp [hp]) rfl
      waits := h.waits_erase hw hunpark (by simp)
      current := .inl ⟨rfl, by simp⟩
      owner := fun s => owner?_unpark m p r s
      apart := fun s _ => ⟨by simp, h.not_mem_waiters_erased hw hunpark s⟩ }

/-- A running process terminates once it owns nothing. -/
theorem finish (h : m.Filed) (hp : m.status? p = some .running)
    (ho : ∀ r, m.resources.owner? r ≠ some p) : (m.adjust p (.turn .terminated)).Filed :=
  h.moved (t := .terminated)
    { sorted := h.sorted.adjust p _
      self := by rw [status?_turn, if_pos rfl, hp]; rfl
      others := fun q hq => by rw [status?_turn, if_neg hq.symm]
      ready := h.ready_keep (by simp [hp]) (by simp) rfl
      waits := h.waits_keep (by simp [hp]) (by simp) fun _ => rfl
      current := .inl ⟨rfl, by simp⟩
      owner := fun _ => rfl
      apart := fun r hr => absurd hr (ho r) }

/-- A job that is not known yet arrives. -/
theorem enroll (h : m.Filed) {j : Job} (hj : m.process? j.pid = none) : (m.enroll j).Filed :=
  have hn : m.status? j.pid = none := by rw [status?, hj]; rfl
  h.moved (p := j.pid) (t := .ready)
    { sorted := h.sorted.insert j.pid _
      self := by rw [status?_enroll, if_pos rfl]
      others := fun q hq => by rw [status?_enroll, if_neg hq.symm]
      ready := h.ready_append (by simp [hn]) rfl
      waits := h.waits_keep (by simp [hn]) (by simp) fun _ => rfl
      current := .inl ⟨rfl, by simp⟩
      owner := fun _ => rfl
      apart := fun r ho => absurd hn (h.owner_alive r j.pid ho).1 }

/-! ## Owners -/

/-- A running process becomes the owner of a resource. -/
theorem own (h : m.Filed) (hp : m.status? p = some .running) (hr : r.val < m.resources.size) :
    (m.own r (some p)).Filed where
  sorted := h.sorted
  ready_nodup := h.ready_nodup
  mem_ready := h.mem_ready
  waiters_nodup s := by rw [waiters_own]; exact h.waiters_nodup s
  mem_waiters q := by simp only [waiters_own]; exact h.mem_waiters q
  waits_once q s t := by simp only [waiters_own]; exact h.waits_once q s t
  running := h.running
  current := h.current
  owner_alive s q hq := by
    rw [owner?_own m r s _ hr] at hq
    split at hq
    · rw [← Option.some.inj hq, status?_own, hp]
      simp
    · exact h.owner_alive s q hq
  owner_apart s q hq := by
    rw [owner?_own m r s _ hr] at hq
    rw [waiters_own]
    split at hq
    · rw [← Option.some.inj hq]
      exact h.not_mem_waiters (by simp [hp])
    · exact h.owner_apart s q hq

/-- An owner gives a resource up. -/
theorem disown (h : m.Filed) (hr : r.val < m.resources.size) : (m.own r none).Filed where
  sorted := h.sorted
  ready_nodup := h.ready_nodup
  mem_ready := h.mem_ready
  waiters_nodup s := by rw [waiters_own]; exact h.waiters_nodup s
  mem_waiters q := by simp only [waiters_own]; exact h.mem_waiters q
  waits_once q s t := by simp only [waiters_own]; exact h.waits_once q s t
  running := h.running
  current := h.current
  owner_alive s q hq := by
    rw [owner?_own m r s _ hr] at hq
    split at hq
    · cases hq
    · exact h.owner_alive s q hq
  owner_apart s q hq := by
    rw [owner?_own m r s _ hr] at hq
    rw [waiters_own]
    split at hq
    · cases hq
    · exact h.owner_apart s q hq

/-! ## Decisions -/

variable {π : Policy} {κ : Protocol} {d : Decision}

theorem retires (h : m.Filed)
    (hd : ∀ p x, m.process? p = some x → x.status = .running → x.isDone = false)
    (hr : π.Retires m n) : n.Filed ∧ ∀ q, n.status? q ≠ some .running := by
  cases hr with
  | leave hw =>
    refine ⟨h, fun q hq => ?_⟩
    obtain ⟨x, hx, hs⟩ := status?_eq_some.1 hq
    exact hw q ⟨h.running q hq, x, hx, hs, hd q x hx hs⟩
  | @requeue p hw _ _ =>
    obtain ⟨-, x, hx, hs, -⟩ := hw
    have hp : m.status? p = some .running := status?_eq_some.2 ⟨x, hx, hs⟩
    refine ⟨(h.adjust Policy.reset_status).requeue (by rw [status?_adjust Policy.reset_status, hp]),
      fun q hq => ?_⟩
    rw [status?_enqueue, status?_turn, status?_adjust Policy.reset_status] at hq
    split at hq
    · next hpq => simp [← hpq, hp] at hq
    · next hpq => exact hpq (h.running_unique hp hq)

theorem ripen (h : m.Filed) : (π.ripen m).Filed :=
  Policy.ripen_induction h fun _ _ hn => hn.adjust (Policy.bump_status _)

theorem decides (h : m.Filed)
    (hd : ∀ p x, m.process? p = some x → x.status = .running → x.isDone = false)
    (hm : π.Decides m n d) : n.Filed := by
  cases hm with
  | keep => exact h
  | idle hr _ =>
    obtain ⟨hk, hn⟩ := h.retires hd hr
    exact hk.ripen.rest fun q => by rw [status?_ripen]; exact hn q
  | pick hr _ hx hs =>
    obtain ⟨hk, hn⟩ := h.retires hd hr
    exact hk.ripen.dispatch (fun q => by rw [status?_ripen]; exact hn q)
      (status?_eq_some.2 ⟨_, hx, hs⟩) _

theorem exists_schedule (h : m.Filed) : ∃ n d, π.schedule m = .ok (n, d) := by
  refine Policy.exists_schedule (fun p hp => ?_) (fun p hw => ?_) fun p hp => ?_
  · exact status?_ne_none.1 (h.current p hp)
  · obtain ⟨-, x, hx, hs, -⟩ := hw
    rw [h.mem_ready, status?_of hx, hs]
    simp
  · exact status?_eq_some.1 ((h.mem_ready p).1 hp)

/-! ## Requests -/

theorem acquires {reply : Reply} (h : m.Filed) (hp : m.status? p = some .running)
    (ha : κ.Acquires m r p n reply) : n.Filed := by
  cases ha with
  | granted hr ho hx =>
    have hstatus := fun x => Protocol.promote_status (κ := κ) m.limits x
    exact (h.adjust hstatus).own (by rw [status?_adjust hstatus, hp]) hr
  | @blocked _ x ho hne hx _ hw =>
    have hstatus := fun y => Protocol.raise_status (κ := κ) x.priority y
    refine (h.adjust hstatus).block (by rw [status?_adjust hstatus, hp])
      (ResourceTable.owner?_lt ho) fun hop => hne ?_
    exact Option.some.inj (ho.symm.trans hop)

theorem exists_acquire (h : m.Filed) (hp : m.status? p = some .running)
    (hr : r.val < m.resources.size) (ho : m.resources.owner? r ≠ some p) :
    ∃ n reply, κ.acquire m r p = .ok (n, reply) := by
  obtain ⟨x, hx⟩ := exists_record hp
  cases how : m.resources.owner? r with
  | none => exact ⟨_, _, Protocol.acquire_of_acquires (.granted hr how hx)⟩
  | some o =>
    refine ⟨_, _, Protocol.acquire_of_acquires (.blocked how (fun h => ho ?_) hx (fun _ => ?_) ?_)⟩
    · rw [how, h]
    · exact status?_ne_none.1 (h.owner_alive r o how).1
    · exact fun hw => by simp [(h.mem_waiters p).1 ⟨r, hw⟩] at hp

/-! ## Releases -/

theorem freed (h : m.Filed) (hr : r.val < m.resources.size) : (κ.freed m r p).Filed :=
  (h.disown hr).adjust Protocol.relax_status

theorem releases {o : Option Pid} (h : m.Filed) (hm : κ.Releases m r p n o) : n.Filed := by
  cases hm with
  | quiet ho _ => exact h.freed (ResourceTable.owner?_lt ho)
  | wake ho hw _ _ _ =>
    have hmem := hw.mem
    rw [← Protocol.waiters_freed (κ := κ) (p := p)] at hmem
    exact (h.freed (ResourceTable.owner?_lt ho)).wake hmem

theorem exists_release (h : m.Filed) (ho : m.resources.owner? r = some p) :
    ∃ n o, κ.release m r p = .ok (n, o) := by
  obtain ⟨x, hx⟩ := status?_ne_none.1 (h.owner_alive r p ho).1
  refine Protocol.exists_release hx ho fun w hw => ?_
  have hs := (h.mem_waiters w).1 ⟨r, hw⟩
  exact ⟨by simp [h.mem_ready, hs], status?_eq_some.1 hs⟩

end Filed

end Machine

end Uniprocessor
