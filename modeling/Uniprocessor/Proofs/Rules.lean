import Mathlib.Data.List.Pairwise
import Uniprocessor.Machine.Audit
import Uniprocessor.Proofs.Filing
/-
  The audit is exact.

  Each part of the audit is opened once: `checkReady_eq_ok`, `checkWaiters_eq_ok`,
  `checkOwner_eq_ok`, `checkResources_eq_ok`, `checkPlaced_eq_ok`.  The first two passes answer
  with the record of who was found where, which for a machine that passes is `Machine.record`;
  the third reads nothing else.  Together they say what the lists of a machine are like that
  passes (`audit_eq_ok`).  `Machine.Ruled` are the rules themselves, about members of queues,
  statuses and owners; that the record agrees with the queues is `placed_iff`.  A machine passes
  if and only if it keeps them and no queue names a process twice, whether a run can reach it or
  not.

  The rules do not say that the process on the CPU is known.  With this, they are what a filed
  machine is: `Filed.ruled`, `Ruled.filed`.

  Main statement: `audit_iff_ruled`.
-/

namespace Uniprocessor

namespace PidMap

variable {α : Type} {m : PidMap α} {p : Pid} {a : α}

theorem find_eq_some {l : List (Pid × α)} (h : l.Pairwise fun e f => e.1.val < f.1.val) :
    find p l = some a ↔ (p, a) ∈ l := by
  induction l with
  | nil => simp [find]
  | cons e l ih =>
    obtain ⟨q, b⟩ := e
    obtain ⟨hq, hl⟩ := List.pairwise_cons.1 h
    simp only [find, List.mem_cons, Prod.mk.injEq]
    split
    · next hqp =>
      subst hqp
      simp only [Option.some.injEq, true_and]
      refine ⟨fun hb => .inl hb.symm, fun hb => hb.elim Eq.symm fun hmem => ?_⟩
      exact absurd (hq _ hmem) (Nat.lt_irrefl _)
    · next hqp =>
      rw [ih hl]
      exact ⟨.inr, fun hmem => hmem.resolve_left fun hpq => hqp hpq.1.symm⟩

theorem mem_entries (h : m.Sorted) : (p, a) ∈ m.entries ↔ m.get? p = some a :=
  (find_eq_some h).symm

theorem contains_iff : m.contains p = true ↔ m.get? p ≠ none := by
  rw [contains, Option.isSome_iff_ne_none]

theorem get?_of_not_contains (h : ¬ m.contains p = true) : m.get? p = none :=
  Classical.not_not.1 fun hne => h (contains_iff.2 hne)

/-- The map with the value `a` for each of these. -/
def insertAll (m : PidMap α) (ps : List Pid) (a : α) : PidMap α :=
  ps.foldl (fun m p => m.insert p a) m

@[simp] theorem insertAll_nil : m.insertAll [] a = m := rfl

@[simp] theorem insertAll_cons {ps : List Pid} :
    m.insertAll (p :: ps) a = (m.insert p a).insertAll ps a := rfl

@[simp] theorem get?_insertAll {ps : List Pid} :
    (m.insertAll ps a).get? p = if p ∈ ps then some a else m.get? p := by
  induction ps generalizing m with
  | nil => simp
  | cons q ps ih =>
    rw [insertAll_cons, ih, get?_insert]
    grind

theorem Sorted.nodup_pids (hm : m.Sorted) : m.pids.Nodup := by
  refine List.pairwise_map.2 (hm.imp fun hlt heq => ?_)
  rw [heq] at hlt
  exact Nat.lt_irrefl _ hlt

theorem Sorted.nodup_entries (hm : m.Sorted) : m.entries.Nodup :=
  List.Pairwise.of_map (·.1) (fun _ _ hne heq => hne (congrArg _ heq)) hm.nodup_pids

/-- What is sorted by pid is settled by its members. -/
theorem eq_of_perm {l k : List (Pid × α)}
    (hl : l.Pairwise fun e f => e.1.val < f.1.val) (hk : k.Pairwise fun e f => e.1.val < f.1.val)
    (h : l.Perm k) : l = k :=
  h.eq_of_pairwise (fun _ _ _ _ hab hba => absurd hab (Nat.lt_asymm hba)) hl hk

/-- Sorted maps are equal if they hold the same values. -/
theorem ext_of_get? {n : PidMap α} (hm : m.Sorted) (hn : n.Sorted)
    (h : ∀ p, m.get? p = n.get? p) : m = n := by
  have hperm : m.entries.Perm n.entries := by
    refine (List.perm_ext_iff_of_nodup hm.nodup_entries hn.nodup_entries).2 fun e => ?_
    obtain ⟨p, a⟩ := e
    rw [mem_entries hm, mem_entries hn, h p]
  have hentries := eq_of_perm hm hn hperm
  cases m
  cases n
  exact congrArg PidMap.mk hentries

end PidMap

namespace ResourceTable

variable {t : ResourceTable} {p : Pid} {r : ResourceId} {x : Resource}

theorem mem_indexed : (r, x) ∈ t.indexed ↔ t.get? r = some x := by
  obtain ⟨i⟩ := r
  simp only [indexed, get?, List.mem_map, Prod.mk.injEq, ResourceId.mk.injEq, Prod.exists]
  constructor
  · rintro ⟨y, j, hmem, rfl, rfl⟩
    exact List.mem_zipIdx_iff_getElem?.1 hmem
  · intro h
    exact ⟨x, i, List.mem_zipIdx_iff_getElem?.2 h, rfl, rfl⟩

theorem pairwise_indexed (t : ResourceTable) :
    t.indexed.Pairwise fun e f => e.1 ≠ f.1 := by
  rw [indexed, List.pairwise_map]
  have h : (t.slots.zipIdx.map (·.2)).Pairwise (· ≠ ·) := by
    rw [List.zipIdx_map_snd]
    exact List.nodup_range'
  exact (List.pairwise_map.1 h).imp fun hab he => hab (ResourceId.mk.inj he)

theorem exists_mem_indexed : (∃ e ∈ t.indexed, p ∈ e.2.waiters.pids) ↔ ∃ r, p ∈ t.waiters r := by
  constructor
  · rintro ⟨⟨r, x⟩, hmem, hp⟩
    exact ⟨r, waiters_eq (mem_indexed.1 hmem) ▸ hp⟩
  · rintro ⟨r, hp⟩
    obtain ⟨x, hx⟩ := get?_eq_some (mem_waiters_lt hp)
    exact ⟨(r, x), mem_indexed.2 hx, waiters_eq hx ▸ hp⟩

theorem waitingOn?_isSome : (t.waitingOn? p).isSome ↔ ∃ r, p ∈ t.waiters r := by
  rw [← exists_mem_indexed]
  simp only [waitingOn?, Option.isSome_map, List.find?_isSome, Queue.contains_iff]

/-- Two wait-sets never share a member, said of the list of resources and of the table. -/
theorem pairwise_disjoint :
    (t.indexed.Pairwise fun e f => ∀ p ∈ e.2.waiters.pids, p ∉ f.2.waiters.pids) ↔
      ∀ p r s, p ∈ t.waiters r → p ∈ t.waiters s → r = s := by
  constructor
  · intro h p r s hr hs
    have : Std.Symm fun e f : ResourceId × Resource =>
        ∀ p ∈ e.2.waiters.pids, p ∉ f.2.waiters.pids := ⟨fun e f hef p hf he => hef p he hf⟩
    obtain ⟨x, hx⟩ := get?_eq_some (mem_waiters_lt hr)
    obtain ⟨y, hy⟩ := get?_eq_some (mem_waiters_lt hs)
    refine Classical.byContradiction fun hrs => ?_
    have hdisjoint := h.forall (mem_indexed.2 hx) (mem_indexed.2 hy)
      fun he => hrs (congrArg Prod.fst he)
    exact hdisjoint p (waiters_eq hx ▸ hr) (waiters_eq hy ▸ hs)
  · intro h
    refine t.pairwise_indexed.imp_of_mem fun {e f} he hf hne p hpe hpf => hne ?_
    have hwe := waiters_eq (mem_indexed.1 he)
    have hwf := waiters_eq (mem_indexed.1 hf)
    exact h p e.1 f.1 (hwe ▸ hpe) (hwf ▸ hpf)

end ResourceTable

namespace Machine

variable {m : Machine} {p : Pid} {r : ResourceId}

/-! ## The parts of the audit -/

theorem checkMember_eq_ok {s : Status} {place : Place} {u : Unit} :
    m.checkMember p s place = .ok u ↔ m.status? p = some s := by
  unfold checkMember status?
  cases m.process? p with
  | none => simp
  | some x =>
    simp only [Option.map_some, Option.some.injEq]
    split <;> simp [*]

theorem checkReady_eq_ok {l : List Pid} {seen t : PidMap Place} :
    m.checkReady seen l = .ok t ↔
      l.Nodup ∧ (∀ p ∈ l, seen.get? p = none ∧ m.status? p = some .ready) ∧
        t = seen.insertAll l .readyQueue := by
  induction l generalizing seen with
  | nil => simp [checkReady, eq_comm]
  | cons p l ih =>
    simp only [checkReady]
    split
    · next hp => simp [PidMap.contains_iff.1 hp]
    · next hp =>
      simp only [bind_eq_ok, checkMember_eq_ok, ih, PidMap.get?_insert, PidMap.insertAll_cons,
        List.nodup_cons, List.forall_mem_cons, PidMap.get?_of_not_contains hp]
      grind

theorem checkWaiters_eq_ok {o : Option Pid} {l : List Pid} {seen t : PidMap Place} :
    m.checkWaiters r o seen l = .ok t ↔
      l.Nodup ∧ (∀ p ∈ l, seen.get? p = none ∧ m.status? p = some .waiting ∧ o ≠ some p) ∧
        t = seen.insertAll l (.waitSet r) := by
  induction l generalizing seen with
  | nil => simp [checkWaiters, eq_comm]
  | cons p l ih =>
    simp only [checkWaiters]
    split
    · next hp => simp [PidMap.contains_iff.1 hp]
    · next hp =>
      simp only [bind_eq_ok, checkMember_eq_ok]
      split
      · next ho => simp [ho]
      · next ho =>
        simp only [ih, PidMap.get?_insert, PidMap.insertAll_cons, List.nodup_cons,
          List.forall_mem_cons, PidMap.get?_of_not_contains hp]
        grind

theorem checkOwner_eq_ok {o : Option Pid} {u : Unit} :
    m.checkOwner r o = .ok u ↔
      ∀ p, o = some p → m.status? p ≠ none ∧ m.status? p ≠ some .terminated := by
  cases o with
  | none => simp [checkOwner]
  | some p =>
    simp only [checkOwner, Option.some.injEq, forall_eq', status?]
    cases m.process? p with
    | none => simp
    | some x => by_cases hx : x.status = .terminated <;> simp [hx]

theorem checkPlaced_eq_ok {seen : PidMap Place} {l : List (Pid × ProcessRecord)} :
    m.checkPlaced seen l = .ok () ↔
      ∀ e ∈ l, m.placed e.1 e.2.status (seen.get? e.1) = true := by
  induction l with
  | nil => simp [checkPlaced]
  | cons e l ih =>
    simp only [checkPlaced, List.forall_mem_cons]
    split
    · next h => simp [h, ih]
    · next h => simp [h]

/-- The part of the audit that is about one resource. -/
def Orderly (m : Machine) (x : Resource) : Prop :=
  x.waiters.pids.Nodup ∧ (∀ p ∈ x.waiters.pids, m.status? p = some .waiting ∧ x.owner ≠ some p) ∧
    ∀ p, x.owner = some p → m.status? p ≠ none ∧ m.status? p ≠ some .terminated

/-- What is known of places once the waiters of these resources are recorded too. -/
def recordWaiters (seen : PidMap Place) (l : List (ResourceId × Resource)) : PidMap Place :=
  l.foldl (fun seen e => seen.insertAll e.2.waiters.pids (.waitSet e.1)) seen

theorem checkResources_eq_ok {l : List (ResourceId × Resource)} {seen t : PidMap Place} :
    m.checkResources seen l = .ok t ↔
      (∀ e ∈ l, m.Orderly e.2 ∧ ∀ p ∈ e.2.waiters.pids, seen.get? p = none) ∧
        (l.Pairwise fun e f => ∀ p ∈ e.2.waiters.pids, p ∉ f.2.waiters.pids) ∧
          t = recordWaiters seen l := by
  induction l generalizing seen with
  | nil => simp [checkResources, recordWaiters, eq_comm]
  | cons e l ih =>
    simp only [checkResources, bind_eq_ok, checkWaiters_eq_ok, checkOwner_eq_ok,
      List.forall_mem_cons, List.pairwise_cons, Orderly, recordWaiters, List.foldl_cons]
    -- A waiter of a later resource is new to the record if it was and does not wait for `e`.
    have hnew (p : Pid) : (seen.insertAll e.2.waiters.pids (.waitSet e.1)).get? p = none ↔
        p ∉ e.2.waiters.pids ∧ seen.get? p = none := by
      rw [PidMap.get?_insertAll]
      split <;> simp [*]
    constructor
    · rintro ⟨_, ⟨hn, hw, rfl⟩, _, ho, h⟩
      obtain ⟨hl, hp, rfl⟩ := ih.1 h
      refine ⟨⟨⟨⟨hn, fun p h => (hw p h).2, ho⟩, fun p h => (hw p h).1⟩, fun f hf => ?_⟩,
        ⟨fun f hf p h h' => ?_, hp⟩, rfl⟩
      · exact ⟨(hl f hf).1, fun p h => ((hnew p).1 ((hl f hf).2 p h)).2⟩
      · exact ((hnew p).1 ((hl f hf).2 p h')).1 h
    · rintro ⟨⟨⟨⟨hn, hw, ho⟩, hs⟩, hl⟩, ⟨hd, hp⟩, rfl⟩
      refine ⟨_, ⟨hn, fun p h => ⟨hs p h, hw p h⟩, rfl⟩, (), ho, ih.2 ⟨fun f hf => ?_, hp, rfl⟩⟩
      exact ⟨(hl f hf).1, fun p h => (hnew p).2 ⟨fun h' => hd f hf p h' h, (hl f hf).2 p h⟩⟩

/-- Whom an audit that gets so far has found where. -/
def record (m : Machine) : PidMap Place :=
  recordWaiters (PidMap.empty.insertAll m.ready.pids .readyQueue) m.resources.indexed

theorem audit_eq_ok :
    m.audit = .ok () ↔ m.ready.pids.Nodup ∧ (∀ p ∈ m.ready.pids, m.status? p = some .ready) ∧
      (∀ e ∈ m.resources.indexed, m.Orderly e.2 ∧ ∀ p ∈ e.2.waiters.pids, p ∉ m.ready.pids) ∧
      (m.resources.indexed.Pairwise fun e f =>
        ∀ p ∈ e.2.waiters.pids, p ∉ f.2.waiters.pids) ∧
      ∀ e ∈ m.processes.entries, m.placed e.1 e.2.status (m.record.get? e.1) = true := by
  have hnew (p : Pid) : (PidMap.empty.insertAll m.ready.pids Place.readyQueue).get? p = none ↔
      p ∉ m.ready.pids := by
    simp
  simp only [audit, bind_eq_ok, checkReady_eq_ok, checkResources_eq_ok, checkPlaced_eq_ok,
    PidMap.get?_empty, true_and]
  constructor
  · rintro ⟨_, ⟨hnodup, hready, rfl⟩, _, ⟨horderly, hpairwise, rfl⟩, hplaced⟩
    simp only [hnew] at horderly
    exact ⟨hnodup, hready, horderly, hpairwise, hplaced⟩
  · rintro ⟨hnodup, hready, horderly, hpairwise, hplaced⟩
    simp only [← hnew] at horderly
    exact ⟨_, ⟨hnodup, hready, rfl⟩, _, ⟨horderly, hpairwise, rfl⟩, hplaced⟩

/-! ## The record -/

theorem recordWaiters_waitSet {l : List (ResourceId × Resource)} {seen : PidMap Place} :
    (∃ r, (recordWaiters seen l).get? p = some (.waitSet r)) ↔
      (∃ e ∈ l, p ∈ e.2.waiters.pids) ∨ ∃ r, seen.get? p = some (.waitSet r) := by
  induction l generalizing seen with
  | nil => simp [recordWaiters]
  | cons e l ih =>
    rw [recordWaiters, List.foldl_cons, ← recordWaiters, ih, PidMap.get?_insertAll]
    by_cases hp : p ∈ e.2.waiters.pids <;> simp [hp]

theorem recordWaiters_readyQueue {l : List (ResourceId × Resource)} {seen : PidMap Place} :
    (recordWaiters seen l).get? p = some .readyQueue ↔
      (∀ e ∈ l, p ∉ e.2.waiters.pids) ∧ seen.get? p = some .readyQueue := by
  induction l generalizing seen with
  | nil => simp [recordWaiters]
  | cons e l ih =>
    rw [recordWaiters, List.foldl_cons, ← recordWaiters, ih, PidMap.get?_insertAll]
    by_cases hp : p ∈ e.2.waiters.pids <;> simp [hp]

theorem record_waitSet :
    (∃ r, m.record.get? p = some (.waitSet r)) ↔ ∃ r, p ∈ m.resources.waiters r := by
  have hready : ¬ ∃ r, (PidMap.empty.insertAll m.ready.pids Place.readyQueue).get? p =
      some (.waitSet r) := by
    simp
  rw [record, recordWaiters_waitSet, or_iff_left hready, ResourceTable.exists_mem_indexed]

theorem record_readyQueue :
    m.record.get? p = some .readyQueue ↔
      p ∈ m.ready.pids ∧ ∀ r, p ∉ m.resources.waiters r := by
  have hwaits : (∀ e ∈ m.resources.indexed, p ∉ e.2.waiters.pids) ↔
      ∀ r, p ∉ m.resources.waiters r := by
    rw [← not_exists, ← ResourceTable.exists_mem_indexed]
    simp
  rw [record, recordWaiters_readyQueue, hwaits]
  simp [and_comm]

/-! ## The rules -/

/-- The queues have `p` where a process of this status belongs, and a running one is on the
CPU. -/
def Housed (m : Machine) (p : Pid) : Status → Prop
  | .ready => p ∈ m.ready.pids
  | .waiting => ∃ r, p ∈ m.resources.waiters r
  | .running => m.current = some p ∧ p ∉ m.ready.pids ∧ ∀ r, p ∉ m.resources.waiters r
  | .terminated => p ∉ m.ready.pids ∧ ∀ r, p ∉ m.resources.waiters r

/-- The rules that queues, statuses and ownership obey. -/
structure Ruled (m : Machine) : Prop where
  ready : ∀ p ∈ m.ready.pids, m.status? p = some .ready
  waiting : ∀ r, ∀ p ∈ m.resources.waiters r,
    m.status? p = some .waiting ∧ m.resources.owner? r ≠ some p
  apart : ∀ r, ∀ p ∈ m.resources.waiters r, p ∉ m.ready.pids
  waits_once : ∀ p r s, p ∈ m.resources.waiters r → p ∈ m.resources.waiters s → r = s
  housed : ∀ p s, m.status? p = some s → m.Housed p s
  owner_alive : ∀ r p, m.resources.owner? r = some p →
    m.status? p ≠ none ∧ m.status? p ≠ some .terminated

/-- No queue names a process twice. -/
def Unrepeated (m : Machine) : Prop :=
  m.ready.pids.Nodup ∧ ∀ r, (m.resources.waiters r).Nodup

/-- The record tells whether a process is where its status requires. -/
theorem placed_iff {s : Status} (h : ∀ r, p ∈ m.resources.waiters r → p ∉ m.ready.pids) :
    m.placed p s (m.record.get? p) = true ↔ m.Housed p s := by
  have hready : m.record.get? p = some .readyQueue ↔ p ∈ m.ready.pids :=
    record_readyQueue.trans ⟨And.left, fun hp => ⟨hp, fun r hr => h r hr hp⟩⟩
  have hwaiting := record_waitSet (m := m) (p := p)
  cases hplace : m.record.get? p with
  | none => cases s <;> simp_all [placed, Housed]
  | some place => cases place <;> cases s <;> simp_all [placed, Housed]

/-- What the audit finds of one resource, read off the table. -/
theorem orderly_iff {x : Resource} (hx : m.resources.get? r = some x) :
    m.Orderly x ↔ (m.resources.waiters r).Nodup ∧
      (∀ p ∈ m.resources.waiters r,
        m.status? p = some .waiting ∧ m.resources.owner? r ≠ some p) ∧
      ∀ p, m.resources.owner? r = some p → m.status? p ≠ none ∧ m.status? p ≠ some .terminated := by
  rw [ResourceTable.waiters_eq hx, ResourceTable.owner?_eq hx]
  rfl

/-- A machine that keeps the rules passes. -/
theorem Ruled.audit_eq_ok (hsorted : m.processes.Sorted) (hu : m.Unrepeated) (h : m.Ruled) :
    m.audit = .ok () := by
  refine Machine.audit_eq_ok.2 ⟨hu.1, h.ready, fun ⟨r, x⟩ he => ?_, ?_, fun ⟨p, x⟩ he => ?_⟩
  · have hx := ResourceTable.mem_indexed.1 he
    refine ⟨(orderly_iff hx).2 ⟨hu.2 r, h.waiting r, h.owner_alive r⟩, fun p hp => ?_⟩
    exact h.apart r p (ResourceTable.waiters_eq hx ▸ hp)
  · exact ResourceTable.pairwise_disjoint.2 h.waits_once
  · have hx := (PidMap.mem_entries hsorted).1 he
    exact (placed_iff fun r => h.apart r p).2 (h.housed p x.status (status?_of hx))

/-- What passes keeps the rules. -/
theorem ruled_of_audit (hsorted : m.processes.Sorted) (h : m.audit = .ok ()) :
    m.Unrepeated ∧ m.Ruled := by
  obtain ⟨hnodup, hready, hresources, hpairwise, hplaced⟩ := Machine.audit_eq_ok.1 h
  have horderly {r : ResourceId} {x : Resource} (hx : m.resources.get? r = some x) :=
    (orderly_iff hx).1 (hresources _ (ResourceTable.mem_indexed.2 hx)).1
  have hslot {r : ResourceId} {p : Pid} (hp : p ∈ m.resources.waiters r) :=
    ResourceTable.get?_eq_some (ResourceTable.mem_waiters_lt hp)
  have hapart (r : ResourceId) (p : Pid) (hp : p ∈ m.resources.waiters r) :
      p ∉ m.ready.pids := by
    obtain ⟨x, hx⟩ := hslot hp
    exact (hresources _ (ResourceTable.mem_indexed.2 hx)).2 p (ResourceTable.waiters_eq hx ▸ hp)
  refine ⟨⟨hnodup, fun r => ?_⟩, hready, fun r p hp => ?_, hapart, fun p r s hr hs => ?_,
    fun p s hp => ?_, fun r p hp => ?_⟩
  · cases hx : m.resources.get? r with
    | none => simp [ResourceTable.waiters, hx]
    | some x => exact (horderly hx).1
  · obtain ⟨x, hx⟩ := hslot hp
    exact (horderly hx).2.1 p hp
  · exact ResourceTable.pairwise_disjoint.1 hpairwise p r s hr hs
  · obtain ⟨x, hx, rfl⟩ := status?_eq_some.1 hp
    exact (placed_iff fun r => hapart r p).1 (hplaced _ ((PidMap.mem_entries hsorted).2 hx))
  · obtain ⟨x, hx⟩ := ResourceTable.get?_eq_some (ResourceTable.owner?_lt hp)
    exact (horderly hx).2.2 p hp

/-- The audit passes exactly the machines that keep the rules, be they reachable or not.  This is
said of queues that name no process twice, as the operations of a queue see to; the audit fails
where one does. -/
theorem audit_iff_ruled (hsorted : m.processes.Sorted) :
    (m.Unrepeated → (m.audit = .ok () ↔ m.Ruled)) ∧ (¬ m.Unrepeated → m.audit ≠ .ok ()) :=
  ⟨fun hu => ⟨fun h => (ruled_of_audit hsorted h).2, fun h => h.audit_eq_ok hsorted hu⟩,
    fun hu h => hu (ruled_of_audit hsorted h).1⟩

/-- A process of each status: the first waits for what the second owns, the third is on the CPU,
the fourth is done. -/
def assorted : Machine where
  processes := ⟨[
    (⟨1⟩, (ProcessRecord.ofJob ⟨⟨1⟩, "waiting", 0, 2, 1, []⟩).turn .waiting),
    (⟨2⟩, .ofJob ⟨⟨2⟩, "ready", 0, 2, 1, []⟩),
    (⟨3⟩, (ProcessRecord.ofJob ⟨⟨3⟩, "running", 0, 2, 1, []⟩).turn .running),
    (⟨4⟩, (ProcessRecord.ofJob ⟨⟨4⟩, "done", 0, 2, 1, []⟩).turn .terminated)]⟩
  ready := ⟨[⟨2⟩]⟩
  resources := ⟨[⟨some ⟨2⟩, ⟨[⟨1⟩]⟩⟩]⟩
  current := some ⟨3⟩
  limits := .standard
  tick := 5

/-- The rules are broken once the ready process has left the ready queue, and the audit fails where
it is there twice. -/
theorem audit_iff_ruled_assorted :
    assorted.Ruled ∧ ¬ (assorted.dequeue ⟨2⟩).Ruled ∧
      (assorted.enqueue ⟨2⟩).audit ≠ .ok () := by
  have hsorted : assorted.processes.Sorted := by
    unfold PidMap.Sorted
    decide
  have hunrepeated : assorted.Unrepeated := (ruled_of_audit hsorted rfl).1
  refine ⟨((audit_iff_ruled hsorted).1 hunrepeated).1 rfl, fun h => ?_, ?_⟩
  · have hleft : (assorted.dequeue ⟨2⟩).Unrepeated := ⟨by decide, hunrepeated.2⟩
    have haudit : (assorted.dequeue ⟨2⟩).audit = .error (.misplaced ⟨2⟩ .ready) := rfl
    rw [((audit_iff_ruled (m := assorted.dequeue ⟨2⟩) hsorted).1 hleft).2 h] at haudit
    cases haudit
  · refine (audit_iff_ruled (m := assorted.enqueue ⟨2⟩) hsorted).2 fun h => ?_
    exact absurd h.1 (by decide)

/-! ## Filed machines -/

theorem Filed.unrepeated (h : m.Filed) : m.Unrepeated := ⟨h.ready_nodup, h.waiters_nodup⟩

theorem Filed.ruled (h : m.Filed) : m.Ruled where
  ready p := (h.mem_ready p).1
  waiting r p hp := ⟨(h.mem_waiters p).1 ⟨r, hp⟩, fun ho => h.owner_apart r p ho hp⟩
  apart r p hp := h.not_mem_ready (by simp [(h.mem_waiters p).1 ⟨r, hp⟩])
  waits_once := h.waits_once
  housed p s hp := by
    cases s with
    | ready => exact (h.mem_ready p).2 hp
    | waiting => exact (h.mem_waiters p).2 hp
    | running =>
      exact ⟨h.running p hp, h.not_mem_ready (by simp [hp]),
        fun _ => h.not_mem_waiters (by simp [hp])⟩
    | terminated =>
      exact ⟨h.not_mem_ready (by simp [hp]), fun _ => h.not_mem_waiters (by simp [hp])⟩
  owner_alive := h.owner_alive

/-- The rules file every process, given that the one on the CPU is known. -/
theorem Ruled.filed (hsorted : m.processes.Sorted) (hu : m.Unrepeated) (h : m.Ruled)
    (hcurrent : ∀ p, m.current = some p → m.status? p ≠ none) : m.Filed where
  sorted := hsorted
  ready_nodup := hu.1
  mem_ready p := ⟨h.ready p, h.housed p .ready⟩
  waiters_nodup := hu.2
  mem_waiters p := ⟨fun ⟨r, hp⟩ => (h.waiting r p hp).1, h.housed p .waiting⟩
  waits_once := h.waits_once
  running p hp := (h.housed p .running hp).1
  current := hcurrent
  owner_alive := h.owner_alive
  owner_apart r p ho hp := (h.waiting r p hp).2 ho

/-- The audit of a filed machine finds nothing. -/
theorem Filed.audit_eq_ok (h : m.Filed) : m.audit = .ok () :=
  h.ruled.audit_eq_ok h.sorted h.unrepeated

end Machine

end Uniprocessor
