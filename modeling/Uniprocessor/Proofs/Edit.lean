import Mathlib.Tactic.Simps.Basic
import Uniprocessor.Machine
/-
  What the operations on a machine do, said by edits.

  An edit is a total update of one part of a machine: of one process (`adjust`, `put`), of the ready
  queue (`enqueue`, `dequeue`), of the process on the CPU (`seat`), of an owner (`own`) or of a
  wait-set (`park`, `unpark`).  The views of a machine are its records (`process?`), its ready
  queue, and the owner and the wait-set of each resource; every edit comes with its effect on
  each of them.

  `fork_eq_ok`, `makeReady_eq_ok`, `blockOn_eq_ok`, `grow_eq_ok` and `advance_eq_ok` say when an
  operation succeeds and which edits it then is.  Proofs about runs use these and do not open
  the operations.
-/

namespace Uniprocessor

variable {ε α β : Type}

theorem bind_eq_ok {x : Except ε α} {f : α → Except ε β} {b : β} :
    (x >>= f) = .ok b ↔ ∃ a, x = .ok a ∧ f a = .ok b := by
  cases x <;> simp [bind, Except.bind]

theorem bind_eq_error {x : Except ε α} {f : α → Except ε β} {e : ε} :
    (x >>= f) = .error e ↔ x = .error e ∨ ∃ a, x = .ok a ∧ f a = .error e := by
  cases x <;> simp [bind, Except.bind]

theorem ok_bind {a : α} {f : α → Except ε β} : ((.ok a : Except ε α) >>= f) = f a := rfl

theorem pure_eq_ok {a b : α} : (pure a : Except ε α) = .ok b ↔ a = b := by
  simp [pure, Except.pure]

namespace ResourceTable

/-- Changes the resource at a position, if the position is in the table. -/
def adjust (t : ResourceTable) (r : ResourceId) (f : Resource → Resource) : ResourceTable :=
  ⟨t.slots.modify r.val f⟩

@[simp] theorem size_adjust (t : ResourceTable) (r : ResourceId) (f : Resource → Resource) :
    (t.adjust r f).size = t.size := by simp [adjust, size]

@[simp] theorem get?_adjust (t : ResourceTable) (r s : ResourceId) (f : Resource → Resource) :
    (t.adjust r f).get? s = if r = s then (t.get? s).map f else t.get? s := by
  obtain ⟨i⟩ := r
  obtain ⟨j⟩ := s
  simp only [adjust, get?, List.getElem?_modify, ResourceId.mk.injEq]
  split <;> simp

theorem set_eq_adjust {t : ResourceTable} {r : ResourceId} {x : Resource} (h : t.get? r = some x)
    (f : Resource → Resource) : t.set r (f x) = t.adjust r f := by
  simp only [set, adjust, ResourceTable.mk.injEq]
  refine List.ext_getElem? fun i => ?_
  rw [List.getElem?_set, List.getElem?_modify]
  by_cases hi : r.val = i
  · subst hi
    obtain ⟨hl, hx⟩ := List.getElem?_eq_some_iff.1 h
    simp [hl, ← hx]
  · simp [hi]

theorem get?_eq_some {t : ResourceTable} {r : ResourceId} (h : r.val < t.size) :
    ∃ x, t.get? r = some x :=
  ⟨t.slots[r.val], List.getElem?_eq_getElem h⟩

theorem lt_size {t : ResourceTable} {r : ResourceId} {x : Resource} (h : t.get? r = some x) :
    r.val < t.size :=
  (List.getElem?_eq_some_iff.1 h).1

theorem owner?_eq {t : ResourceTable} {r : ResourceId} {x : Resource} (h : t.get? r = some x) :
    t.owner? r = x.owner := by simp [owner?, h]

theorem waiters_eq {t : ResourceTable} {r : ResourceId} {x : Resource} (h : t.get? r = some x) :
    t.waiters r = x.waiters.pids := by simp [waiters, h]

theorem owner?_lt {t : ResourceTable} {r : ResourceId} {p : Pid} (h : t.owner? r = some p) :
    r.val < t.size := by
  obtain ⟨x, hx, -⟩ := Option.bind_eq_some_iff.1 h
  exact lt_size hx

theorem mem_waiters_lt {t : ResourceTable} {r : ResourceId} {p : Pid} (h : p ∈ t.waiters r) :
    r.val < t.size := by
  unfold waiters at h
  split at h
  · exact lt_size ‹_›
  · cases h

@[simp] theorem owner?_ofSize (n : Nat) (r : ResourceId) : (ofSize n).owner? r = none := by
  simp only [owner?, ofSize, get?, List.getElem?_replicate]
  split <;> rfl

@[simp] theorem waiters_ofSize (n : Nat) (r : ResourceId) : (ofSize n).waiters r = [] := by
  simp only [waiters, ofSize, get?, List.getElem?_replicate]
  split
  · next h =>
    split at h
    · cases h; rfl
    · cases h
  · rfl

end ResourceTable

/-- The record with another status. -/
def ProcessRecord.turn (s : Status) (x : ProcessRecord) : ProcessRecord := { x with status := s }

/-- The record at another age. -/
def ProcessRecord.aged (a : Nat) (x : ProcessRecord) : ProcessRecord := { x with age := a }

namespace Machine

/-! ## Edits -/

/-- Changes the process named `p`, if there is one. -/
@[simps] def adjust (m : Machine) (p : Pid) (f : ProcessRecord → ProcessRecord) : Machine :=
  { m with processes := m.processes.adjust p f }

/-- Replaces the record of `p`, if there is one. -/
@[simps!] def put (m : Machine) (p : Pid) (x : ProcessRecord) : Machine := m.adjust p fun _ => x

/-- Appends `p` to the ready queue. -/
@[simps] def enqueue (m : Machine) (p : Pid) : Machine :=
  { m with ready := ⟨m.ready.pids ++ [p]⟩ }

/-- Takes `p` out of the ready queue. -/
@[simps] def dequeue (m : Machine) (p : Pid) : Machine := { m with ready := m.ready.erase p }

/-- Puts `o` on the CPU. -/
@[simps] def seat (m : Machine) (o : Option Pid) : Machine := { m with current := o }

/-- Makes `o` the owner of `r`. -/
@[simps] def own (m : Machine) (r : ResourceId) (o : Option Pid) : Machine :=
  { m with resources := m.resources.adjust r fun x => { x with owner := o } }

/-- Appends `p` to the wait-set of `r`. -/
@[simps] def park (m : Machine) (r : ResourceId) (p : Pid) : Machine :=
  { m with resources := m.resources.adjust r fun x =>
      { x with waiters := ⟨x.waiters.pids ++ [p]⟩ } }

/-- Takes `p` out of the wait-set of `r`. -/
@[simps] def unpark (m : Machine) (r : ResourceId) (p : Pid) : Machine :=
  { m with resources := m.resources.adjust r fun x => { x with waiters := x.waiters.erase p } }

/-- Adds the process of a job at the tail of the ready queue. -/
@[simps] def enroll (m : Machine) (j : Job) : Machine :=
  { m with
    processes := m.processes.insert j.pid (.ofJob j)
    ready := ⟨m.ready.pids ++ [j.pid]⟩ }

/-- Lets one tick pass. -/
@[simps] def pass (m : Machine) : Machine := { m with tick := m.tick + 1 }

/-! ## Views of edited machines -/

variable (m : Machine) (p q : Pid) (r s : ResourceId) (f : ProcessRecord → ProcessRecord)

@[simp] theorem process?_adjust :
    (m.adjust p f).process? q = if p = q then (m.process? q).map f else m.process? q :=
  PidMap.get?_adjust m.processes p q f

@[simp] theorem process?_put (x : ProcessRecord) :
    (m.put p x).process? q = if p = q then (m.process? q).map fun _ => x else m.process? q :=
  process?_adjust m p q _

@[simp] theorem process?_enqueue : (m.enqueue p).process? q = m.process? q := rfl

@[simp] theorem process?_dequeue : (m.dequeue p).process? q = m.process? q := rfl

@[simp] theorem process?_seat (o : Option Pid) : (m.seat o).process? q = m.process? q := rfl

@[simp] theorem process?_own (o : Option Pid) : (m.own r o).process? q = m.process? q := rfl

@[simp] theorem process?_park : (m.park r p).process? q = m.process? q := rfl

@[simp] theorem process?_unpark : (m.unpark r p).process? q = m.process? q := rfl

@[simp] theorem process?_enroll (j : Job) :
    (m.enroll j).process? q = if j.pid = q then some (.ofJob j) else m.process? q :=
  PidMap.get?_insert m.processes j.pid q _

theorem owner?_own (o : Option Pid) (hr : r.val < m.resources.size) :
    (m.own r o).resources.owner? s = if r = s then o else m.resources.owner? s := by
  simp only [own, ResourceTable.owner?, ResourceTable.get?_adjust]
  by_cases h : r = s
  · subst h
    obtain ⟨x, hx⟩ := ResourceTable.get?_eq_some hr
    simp [hx]
  · simp [h]

@[simp] theorem waiters_own (o : Option Pid) :
    (m.own r o).resources.waiters s = m.resources.waiters s := by
  simp only [own, ResourceTable.waiters, ResourceTable.get?_adjust]
  by_cases h : r = s
  · subst h
    cases m.resources.get? r <;> simp
  · simp [h]

@[simp] theorem owner?_park : (m.park r p).resources.owner? s = m.resources.owner? s := by
  simp only [park, ResourceTable.owner?, ResourceTable.get?_adjust]
  by_cases h : r = s
  · subst h
    cases m.resources.get? r <;> simp
  · simp [h]

theorem waiters_park (hr : r.val < m.resources.size) :
    (m.park r p).resources.waiters s =
      if r = s then m.resources.waiters s ++ [p] else m.resources.waiters s := by
  simp only [park, ResourceTable.waiters, ResourceTable.get?_adjust]
  by_cases h : r = s
  · subst h
    obtain ⟨x, hx⟩ := ResourceTable.get?_eq_some hr
    simp [hx]
  · simp [h]

@[simp] theorem owner?_unpark : (m.unpark r p).resources.owner? s = m.resources.owner? s := by
  simp only [unpark, ResourceTable.owner?, ResourceTable.get?_adjust]
  by_cases h : r = s
  · subst h
    cases m.resources.get? r <;> simp
  · simp [h]

@[simp] theorem waiters_unpark :
    (m.unpark r p).resources.waiters s =
      if r = s then (m.resources.waiters s).erase p else m.resources.waiters s := by
  simp only [unpark, ResourceTable.waiters, ResourceTable.get?_adjust]
  by_cases h : r = s
  · subst h
    cases m.resources.get? r <;> simp
  · simp [h]

/-! ## What processes do not change -/

/-- The time, the priority bounds, the number of resources and the names of the processes are
those of `m`. -/
structure Steady (m n : Machine) : Prop where
  tick : n.tick = m.tick
  limits : n.limits = m.limits
  size : n.resources.size = m.resources.size
  pids : n.processes.pids = m.processes.pids

theorem Steady.refl : m.Steady m := ⟨rfl, rfl, rfl, rfl⟩

theorem Steady.trans {m n k : Machine} (h : m.Steady n) (g : n.Steady k) : m.Steady k :=
  ⟨g.tick.trans h.tick, g.limits.trans h.limits, g.size.trans h.size, g.pids.trans h.pids⟩

theorem steady_adjust : m.Steady (m.adjust p f) := ⟨rfl, rfl, rfl, m.processes.pids_adjust p f⟩

theorem steady_put (x : ProcessRecord) : m.Steady (m.put p x) := steady_adjust m p _

theorem steady_enqueue : m.Steady (m.enqueue p) := ⟨rfl, rfl, rfl, rfl⟩

theorem steady_dequeue : m.Steady (m.dequeue p) := ⟨rfl, rfl, rfl, rfl⟩

theorem steady_seat (o : Option Pid) : m.Steady (m.seat o) := ⟨rfl, rfl, rfl, rfl⟩

theorem steady_own (o : Option Pid) : m.Steady (m.own r o) := ⟨rfl, rfl, by simp, rfl⟩

theorem steady_park : m.Steady (m.park r p) := ⟨rfl, rfl, by simp, rfl⟩

theorem steady_unpark : m.Steady (m.unpark r p) := ⟨rfl, rfl, by simp, rfl⟩

/-! ## Operations as edits -/

variable {m : Machine} {p q : Pid} {r s : ResourceId} {f : ProcessRecord → ProcessRecord}

theorem set_own {y : Resource} (hy : m.resources.get? r = some y) (o : Option Pid) :
    { m with resources := m.resources.set r { y with owner := o } } = m.own r o := by
  rw [own, ← ResourceTable.set_eq_adjust hy]

theorem set_park {y : Resource} (hy : m.resources.get? r = some y) :
    { m with resources := m.resources.set r { y with waiters := ⟨y.waiters.pids ++ [p]⟩ } } =
      m.park r p := by
  rw [park, ← ResourceTable.set_eq_adjust hy]

theorem set_unpark {y : Resource} (hy : m.resources.get? r = some y) :
    { m with resources := m.resources.set r { y with waiters := y.waiters.erase p } } =
      m.unpark r p := by
  rw [unpark, ← ResourceTable.set_eq_adjust hy]

theorem adjust_id : m.adjust p id = m := by
  simp [adjust, PidMap.adjust]

theorem contains_eq : m.processes.contains p = (m.process? p).isSome := rfl

theorem update_eq_adjust {n : Machine} :
    m.update p f = .ok n ↔ (∃ x, m.process? p = some x) ∧ n = m.adjust p f := by
  rw [update_eq_ok, Option.isSome_iff_exists]
  rfl

theorem push_ready_eq_ok {q : Queue} {l : Queue} {p : Pid} :
    l.push p = .ok q ↔ p ∉ l.pids ∧ q = ⟨l.pids ++ [p]⟩ := by
  rw [Queue.push_eq_ok]
  constructor
  · rintro ⟨h, hq⟩
    exact ⟨h, by cases q; exact congrArg Queue.mk hq⟩
  · rintro ⟨h, rfl⟩
    exact ⟨h, rfl⟩

theorem fork_eq_ok {n : Machine} {j : Job} :
    m.fork j = .ok n ↔ m.process? j.pid = none ∧ j.pid ∉ m.ready.pids ∧ n = m.enroll j := by
  unfold fork
  rw [contains_eq]
  split
  · next h => simp [Option.isSome_iff_ne_none.1 h]
  · next h =>
    simp only [Option.not_isSome_iff_eq_none] at h
    simp only [bind_eq_ok, push_ready_eq_ok, pure_eq_ok, h, true_and]
    constructor
    · rintro ⟨_, ⟨hp, rfl⟩, rfl⟩
      exact ⟨hp, rfl⟩
    · rintro ⟨hp, rfl⟩
      exact ⟨_, ⟨hp, rfl⟩, rfl⟩

theorem makeReady_eq_ok {n : Machine} :
    m.makeReady p = .ok n ↔ (∃ x, m.process? p = some x) ∧ p ∉ m.ready.pids ∧
      n = (m.adjust p (.turn .ready)).enqueue p := by
  unfold makeReady
  simp only [bind_eq_ok, update_eq_adjust, push_ready_eq_ok, pure_eq_ok]
  constructor
  · rintro ⟨_, ⟨hx, rfl⟩, _, ⟨hp, rfl⟩, rfl⟩
    exact ⟨hx, hp, rfl⟩
  · rintro ⟨hx, hp, rfl⟩
    exact ⟨_, ⟨hx, rfl⟩, _, ⟨hp, rfl⟩, rfl⟩

theorem blockOn_eq_ok {n : Machine} :
    m.blockOn p r = .ok n ↔ (∃ x, m.process? p = some x) ∧ r.val < m.resources.size ∧
      p ∉ m.resources.waiters r ∧ n = (m.adjust p (.turn .waiting)).park r p := by
  unfold blockOn ResourceTable.update
  simp only [bind_eq_ok, update_eq_adjust, push_ready_eq_ok, pure_eq_ok, ResourceTable.get_eq_ok]
  constructor
  · rintro ⟨_, ⟨hx, rfl⟩, _, ⟨y, hy, _, ⟨_, ⟨hp, rfl⟩, rfl⟩, rfl⟩, rfl⟩
    have hy' : m.resources.get? r = some y := hy
    refine ⟨hx, ResourceTable.lt_size hy', ?_, set_park (m := m.adjust p (.turn .waiting)) hy⟩
    rw [ResourceTable.waiters_eq hy']
    exact hp
  · rintro ⟨hx, hr, hp, rfl⟩
    obtain ⟨y, hy⟩ := ResourceTable.get?_eq_some hr
    rw [ResourceTable.waiters_eq hy] at hp
    exact ⟨_, ⟨hx, rfl⟩, _, ⟨y, hy, _, ⟨_, ⟨hp, rfl⟩, rfl⟩, rfl⟩,
      set_park (m := m.adjust p (.turn .waiting)) hy⟩

theorem grow_eq_ok {n : Machine} {a : Nat} :
    m.grow p = .ok (n, a) ↔ ∃ x, m.process? p = some x ∧ x.age + 1 < tickBound ∧ a = x.age + 1 ∧
      n = m.adjust p (.aged a) := by
  unfold grow
  simp only [bind_eq_ok, process_eq_ok, addTicks_eq_ok, pure_eq_ok, Prod.mk.injEq]
  constructor
  · rintro ⟨x, hx, _, ⟨hb, rfl⟩, rfl, rfl⟩
    exact ⟨x, hx, hb, rfl, rfl⟩
  · rintro ⟨x, hx, hb, rfl, rfl⟩
    exact ⟨x, hx, _, ⟨hb, rfl⟩, rfl, rfl⟩

theorem advance_eq_ok {n : Machine} :
    m.advance = .ok n ↔ m.tick + 1 < tickBound ∧ n = m.pass := by
  unfold advance
  simp only [bind_eq_ok, addTicks_eq_ok, pure_eq_ok]
  constructor
  · rintro ⟨_, ⟨hb, rfl⟩, rfl⟩
    exact ⟨hb, rfl⟩
  · rintro ⟨hb, rfl⟩
    exact ⟨_, ⟨hb, rfl⟩, rfl⟩

/-- The records of known processes can be read, one for each. -/
theorem records_eq_ok {l : List Pid} {xs : List (Pid × ProcessRecord)} :
    m.records l = .ok xs ↔ xs.map (·.1) = l ∧ ∀ e ∈ xs, m.process? e.1 = some e.2 := by
  induction l generalizing xs with
  | nil => cases xs <;> simp [records]
  | cons p l ih =>
    simp only [records, bind_eq_ok, process_eq_ok, pure_eq_ok, ih]
    constructor
    · rintro ⟨x, hx, ys, ⟨hl, hy⟩, rfl⟩
      refine ⟨by simp [hl], fun e he => ?_⟩
      rcases List.mem_cons.1 he with rfl | he
      · exact hx
      · exact hy e he
    · rintro ⟨hl, hy⟩
      obtain ⟨⟨q, x⟩, ys, rfl, rfl, rfl⟩ := List.map_eq_cons_iff.1 hl
      obtain ⟨hx, hy⟩ := List.forall_mem_cons.1 hy
      exact ⟨x, hx, ys, ⟨rfl, hy⟩, rfl⟩

theorem exists_records {l : List Pid} (h : ∀ p ∈ l, ∃ x, m.process? p = some x) :
    ∃ xs, m.records l = .ok xs := by
  induction l with
  | nil => exact ⟨[], rfl⟩
  | cons p l ih =>
    obtain ⟨x, hx⟩ := h p List.mem_cons_self
    obtain ⟨xs, hxs⟩ := ih fun q hq => h q (List.mem_cons_of_mem _ hq)
    simp only [records, bind_eq_ok, process_eq_ok, pure_eq_ok]
    exact ⟨_, x, hx, xs, hxs, rfl⟩

end Machine

end Uniprocessor
