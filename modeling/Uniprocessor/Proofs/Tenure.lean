import Uniprocessor.Proofs.Choice
import Uniprocessor.Proofs.Urgency
/-
  Every call of a protocol is its reference definition.

  `Protocol.afterGrant`, `afterRefusal` and `afterRelease` say what a call leaves behind without
  going through queues and edits: which records, which owner and which wait-set differ, and how.
  `Protocol.successor?` is the waiter that a release wakes.  Whatever is not named there is as it
  was, in every field of the machine.

  The calls make their changes one after the other, and a release looks for its waiter when the
  priority of the releaser has been restored already.  The releaser is not among the waiters, so
  that the waiter is the one that the priorities before the call single out.

  Main statement: `protocols_eq_reference`, on every machine that passes the audit.
-/

namespace Uniprocessor

open Simulation (priorityOf priorityOf_of priorityOf_freed)

/-! ## Maps and tables changed at one place -/

namespace PidMap

variable {α : Type}

theorem adjust_eq_map (m : PidMap α) (p : Pid) (f : α → α) :
    m.adjust p f = m.map fun q x => if q = p then f x else x := by
  unfold adjust map
  congr 1
  refine List.map_congr_left fun e _ => ?_
  dsimp only
  split <;> rfl

theorem map_map (f g : Pid → α → α) (m : PidMap α) :
    (m.map f).map g = m.map fun p x => g p (f p x) := by
  unfold map
  rw [List.map_map]
  rfl

end PidMap

namespace ResourceTable

/-- Replaces every resource by what `f` makes of it. -/
def map (f : ResourceId → Resource → Resource) (t : ResourceTable) : ResourceTable :=
  ⟨t.slots.mapIdx fun i y => f ⟨i⟩ y⟩

variable {f g : ResourceId → Resource → Resource} {t : ResourceTable}

theorem adjust_eq_map (t : ResourceTable) (r : ResourceId) (f : Resource → Resource) :
    t.adjust r f = t.map fun s y => if s = r then f y else y := by
  unfold adjust map
  congr 1
  refine List.ext_getElem? fun i => ?_
  rw [List.getElem?_modify, List.getElem?_mapIdx]
  by_cases hi : r.val = i
  · subst hi
    simp
  · have hne : (⟨i⟩ : ResourceId) ≠ r := fun h => hi (h ▸ rfl)
    simp [hi, hne]

theorem map_map : (t.map f).map g = t.map fun r y => g r (f r y) := by
  unfold map
  rw [List.mapIdx_mapIdx]
  rfl

theorem map_congr (h : ∀ r y, t.get? r = some y → f r y = g r y) : t.map f = t.map g := by
  unfold map
  congr 1
  refine List.ext_getElem? fun i => ?_
  rw [List.getElem?_mapIdx, List.getElem?_mapIdx]
  cases hy : t.slots[i]? with
  | none => rfl
  | some y => exact congrArg some (h ⟨i⟩ y hy)

end ResourceTable

namespace Protocol

/-! ## The reference -/

/-- Whether a holder runs at the maximum priority. -/
def lifts : Protocol → Bool
  | .ceiling _ => true
  | .mutex _ | .inheritance => false

/-- Whether a holder takes over the priority of those that it blocks. -/
def inherits : Protocol → Bool
  | .inheritance => true
  | .mutex _ | .ceiling _ => false

/-- The machine after `r`, which was free, was granted to `p`. -/
def afterGrant (κ : Protocol) (m : Machine) (r : ResourceId) (p : Pid) : Machine :=
  { m with
    processes := m.processes.map fun q x =>
      if q = p ∧ κ.lifts then { x with priority := m.limits.maxPriority } else x
    resources := m.resources.map fun s y => if s = r then { y with owner := some p } else y }

/-- The machine after `p` asked for `r`, which `o` owns. -/
def afterRefusal (κ : Protocol) (m : Machine) (r : ResourceId) (p o : Pid) : Machine :=
  { m with
    processes := m.processes.map fun q x =>
      if q = p then { x with status := .waiting }
      else if q = o ∧ κ.inherits then { x with priority := max x.priority (priorityOf m p) }
      else x
    resources := m.resources.map fun s y =>
      if s = r then { y with waiters := ⟨y.waiters.pids ++ [p]⟩ } else y }

/-- The waiter that a release of `r` wakes: the first, or the first of greatest priority. -/
def successor? (κ : Protocol) (m : Machine) (r : ResourceId) : Option Pid :=
  match κ.wakeOrder with
  | .fifo => (m.resources.waiters r).head?
  | .priority => (m.resources.waiters r).find? fun w =>
      decide (∀ v ∈ m.resources.waiters r, priorityOf m v ≤ priorityOf m w)

/-- The machine after `p` gave `r` back. -/
def afterRelease (κ : Protocol) (m : Machine) (r : ResourceId) (p : Pid) : Machine :=
  { m with
    processes := m.processes.map fun q x =>
      if κ.successor? m r = some q then { x with status := .ready }
      else if q = p ∧ (κ.lifts ∨ κ.inherits) then { x with priority := x.basePriority }
      else x
    ready := ⟨m.ready.pids ++ (κ.successor? m r).toList⟩
    resources := m.resources.map fun s y =>
      if s = r then ⟨none, ⟨y.waiters.pids.filter fun v => κ.successor? m r ≠ some v⟩⟩ else y }

variable {κ : Protocol} {m n : Machine} {r : ResourceId} {p o w : Pid} {x : ProcessRecord}

/-! ## Requests -/

theorem promote_eq (limits : Limits) (x : ProcessRecord) :
    κ.promote limits x = if κ.lifts then { x with priority := limits.maxPriority } else x := by
  cases κ <;> rfl

theorem raise_eq (k : Nat) (x : ProcessRecord) :
    κ.raise k x = if κ.inherits then { x with priority := max x.priority k } else x := by
  cases κ <;> rfl

theorem relax_eq (x : ProcessRecord) :
    κ.relax x = if κ.lifts ∨ κ.inherits then { x with priority := x.basePriority } else x := by
  cases κ <;> rfl

theorem afterGrant_eq :
    (m.adjust p (κ.promote m.limits)).own r (some p) = κ.afterGrant m r p := by
  have hrecords : m.processes.adjust p (κ.promote m.limits) = (κ.afterGrant m r p).processes := by
    rw [PidMap.adjust_eq_map]
    unfold afterGrant
    dsimp only
    congr 1
    funext q x
    rw [promote_eq]
    split <;> simp_all
  unfold Machine.own Machine.adjust
  rw [hrecords, ResourceTable.adjust_eq_map]
  rfl

theorem afterRefusal_eq (hne : o ≠ p) (hx : m.process? p = some x) :
    ((m.adjust o (κ.raise x.priority)).adjust p (.turn .waiting)).park r p =
      κ.afterRefusal m r p o := by
  have hrecords : (m.processes.adjust o (κ.raise x.priority)).adjust p (.turn .waiting) =
      (κ.afterRefusal m r p o).processes := by
    rw [PidMap.adjust_eq_map, PidMap.adjust_eq_map, PidMap.map_map]
    unfold afterRefusal
    dsimp only
    congr 1
    funext q y
    rw [raise_eq, priorityOf_of hx]
    by_cases hq : q = p
    · subst hq
      simp [Ne.symm hne, ProcessRecord.turn]
    · simp only [hq, if_false]
      split <;> simp_all
  unfold Machine.park Machine.adjust
  dsimp only
  rw [hrecords, ResourceTable.adjust_eq_map]
  rfl

/-! ## Releases -/

/-- The waiter that is woken is singled out by the priorities before the release. -/
theorem successor?_eq (hp : p ∉ m.resources.waiters r)
    (hknown : ∀ v ∈ m.resources.waiters r, ∃ y, m.process? v = some y)
    (hw : FirstBest ((κ.freed m r p).Beats κ.wakeOrder.beats) w (m.resources.waiters r)) :
    κ.successor? m r = some w := by
  unfold successor?
  cases horder : κ.wakeOrder with
  | fifo =>
    rw [horder] at hw
    obtain ⟨post, hl⟩ := hw.head fun v hv => by
      obtain ⟨_, _, _, _, hbeats⟩ := hv
      exact hbeats
    simp only
    rw [hl, List.head?_cons]
  | priority =>
    rw [horder] at hw
    have hbefore : FirstBest (fun u v => priorityOf m v < priorityOf m u) w
        (m.resources.waiters r) := by
      refine hw.congr fun u hu v hv => ?_
      obtain ⟨y, hy⟩ := hknown u hu
      obtain ⟨z, hz⟩ := hknown v hv
      have hup : p ≠ u := fun h => hp (h ▸ hu)
      have hvp : p ≠ v := fun h => hp (h ▸ hv)
      have hyf : (κ.freed m r p).process? u = some y := by rw [process?_freed, if_neg hup, hy]
      have hzf : (κ.freed m r p).process? v = some z := by rw [process?_freed, if_neg hvp, hz]
      rw [Machine.beats_iff hyf hzf, priorityOf_of hy, priorityOf_of hz]
      exact Iff.rfl
    have hfind := hbefore.find?_eq_some (fun v => Nat.lt_irrefl _) fun u v => Nat.lt_asymm
    simpa only [Nat.not_lt] using hfind

theorem afterRelease_quiet (hw : κ.successor? m r = none) :
    κ.freed m r p = κ.afterRelease m r p := by
  have hrecords : m.processes.adjust p κ.relax = (κ.afterRelease m r p).processes := by
    rw [PidMap.adjust_eq_map]
    unfold afterRelease
    dsimp only
    congr 1
    funext q x
    rw [relax_eq, hw]
    split <;> simp_all
  have hready : m.ready = (κ.afterRelease m r p).ready := by
    unfold afterRelease
    simp [hw]
  have hresources : m.resources.adjust r (fun y => { y with owner := none }) =
      (κ.afterRelease m r p).resources := by
    have hall (l : List Pid) : l.filter (fun v => κ.successor? m r ≠ some v) = l := by
      rw [hw]
      exact List.filter_eq_self.2 fun v _ => by simp
    rw [ResourceTable.adjust_eq_map]
    unfold afterRelease
    simp only [hall]
  unfold freed Machine.own Machine.adjust
  dsimp only
  rw [hrecords, hready, hresources]
  rfl

theorem afterRelease_wake (hp : p ∉ m.resources.waiters r) (hw : κ.successor? m r = some w)
    (hmem : w ∈ m.resources.waiters r) (hnodup : (m.resources.waiters r).Nodup) :
    (((κ.freed m r p).unpark r w).adjust w (.turn .ready)).enqueue w = κ.afterRelease m r p := by
  have hne : w ≠ p := by
    intro heq
    exact hp (heq ▸ hmem)
  have hrecords : (m.processes.adjust p κ.relax).adjust w (.turn .ready) =
      (κ.afterRelease m r p).processes := by
    rw [PidMap.adjust_eq_map, PidMap.adjust_eq_map, PidMap.map_map]
    unfold afterRelease
    dsimp only
    congr 1
    funext q x
    rw [relax_eq, hw]
    by_cases hq : q = w
    · subst hq
      simp [hne, ProcessRecord.turn]
    · simp only [hq, Option.some.injEq, Ne.symm hq, if_false]
      split <;> simp_all
  have hresources :
      (m.resources.adjust r fun y => { y with owner := none }).adjust r
          (fun y => { y with waiters := y.waiters.erase w }) =
        (κ.afterRelease m r p).resources := by
    rw [ResourceTable.adjust_eq_map, ResourceTable.adjust_eq_map, ResourceTable.map_map]
    unfold afterRelease
    dsimp only
    refine ResourceTable.map_congr fun s y hy => ?_
    by_cases hs : s = r
    · subst hs
      rw [ResourceTable.waiters_eq hy] at hnodup
      have hrest : y.waiters.pids.erase w = y.waiters.pids.filter fun v => some w ≠ some v := by
        rw [hnodup.erase_eq_filter]
        refine List.filter_congr fun v _ => ?_
        simp [eq_comm, bne, Bool.beq_eq_decide_eq]
      simp [hw, Queue.erase, hrest]
    · simp [hs]
  unfold freed Machine.enqueue Machine.unpark Machine.own Machine.adjust
  dsimp only
  rw [hrecords, hresources]
  unfold afterRelease
  rw [hw]
  rfl

/-! ## The calls -/

theorem acquire_eq_afterGrant (hr : r.val < m.resources.size) (hfree : m.resources.owner? r = none)
    (hx : m.process? p = some x) : κ.acquire m r p = .ok (κ.afterGrant m r p, .granted) := by
  rw [← afterGrant_eq]
  exact acquire_of_acquires (.granted hr hfree hx)

theorem acquire_eq_afterRefusal (hm : m.Ruled) (ho : m.resources.owner? r = some o) (hne : o ≠ p)
    (hx : m.process? p = some x) (hrunning : x.status = .running) :
    κ.acquire m r p = .ok (κ.afterRefusal m r p o, .blocked o) := by
  have howner : ∃ y, m.process? o = some y := Machine.status?_ne_none.1 (hm.owner_alive r o ho).1
  have hapart : p ∉ m.resources.waiters r := by
    intro hmem
    have hwaiting := (hm.waiting r p hmem).1
    rw [Machine.status?_of hx, hrunning] at hwaiting
    cases hwaiting
  rw [← afterRefusal_eq hne hx]
  exact acquire_of_acquires (.blocked ho hne hx (fun _ => howner) hapart)

theorem release_eq_afterRelease (hu : m.Unrepeated) (hm : m.Ruled)
    (ho : m.resources.owner? r = some p) (hx : m.process? p = some x) :
    κ.release m r p = .ok (κ.afterRelease m r p, κ.successor? m r) ∧
      (κ.successor? m r = none ↔ m.resources.waiters r = []) := by
  have hwaiting : ∀ w ∈ m.resources.waiters r,
      w ∉ m.ready.pids ∧ ∃ y, m.process? w = some y ∧ y.status = .waiting := by
    intro w hw
    exact ⟨hm.apart r w hw, Machine.status?_eq_some.1 (hm.waiting r w hw).1⟩
  have hapart : p ∉ m.resources.waiters r := by
    intro hmem
    exact (hm.waiting r p hmem).2 ho
  obtain ⟨n, a, hrelease⟩ := exists_release (κ := κ) hx ho hwaiting
  rw [hrelease]
  cases release_releases hrelease with
  | quiet _ hempty =>
    have hnone : κ.successor? m r = none := by
      unfold successor?
      rw [hempty]
      cases κ.wakeOrder <;> rfl
    rw [hnone, ← afterRelease_quiet hnone]
    exact ⟨rfl, by simp [hempty]⟩
  | @wake w y _ hbest _ _ _ =>
    have hknown : ∀ v ∈ m.resources.waiters r, ∃ z, m.process? v = some z := by
      intro v hv
      obtain ⟨-, z, hz, -⟩ := hwaiting v hv
      exact ⟨z, hz⟩
    have hnext := successor?_eq hapart hknown hbest
    rw [hnext, ← afterRelease_wake hapart hnext hbest.mem (hu.2 r)]
    refine ⟨rfl, iff_of_false (by simp) ?_⟩
    exact List.ne_nil_of_mem hbest.mem

/-- On a machine that passes the audit a request for a free resource is granted, a running process
that asks for what another owns is put behind its waiters, and an owner gives back; the machine is
then what the reference says, in all its parts.  A release wakes somebody unless nobody waits. -/
theorem protocols_eq_reference (κ : Protocol) (hsorted : m.processes.Sorted)
    (haudit : m.audit = .ok ()) (hr : r.val < m.resources.size) (hx : m.process? p = some x) :
    (m.resources.owner? r = none → κ.acquire m r p = .ok (κ.afterGrant m r p, .granted)) ∧
    (∀ o, m.resources.owner? r = some o → o ≠ p → x.status = .running →
      κ.acquire m r p = .ok (κ.afterRefusal m r p o, .blocked o)) ∧
    (m.resources.owner? r = some p →
      κ.release m r p = .ok (κ.afterRelease m r p, κ.successor? m r) ∧
        (κ.successor? m r = none ↔ m.resources.waiters r = [])) := by
  obtain ⟨hunrepeated, hruled⟩ := Machine.ruled_of_audit hsorted haudit
  refine ⟨?_, ?_, ?_⟩
  · intro hfree
    exact acquire_eq_afterGrant hr hfree hx
  · intro o ho hne hrunning
    exact acquire_eq_afterRefusal hruled ho hne hx hrunning
  · intro ho
    exact release_eq_afterRelease hunrepeated hruled ho hx

/-- Of three that wait for the first resource the last two are the most urgent.  Its owner, which
owns the second as well and has taken over their priority, is ready; the sixth process is running
and the third resource is free. -/
def besieged : Machine where
  processes := ⟨[
    (⟨1⟩, ⟨.ready, 2, 6, 7, 1, []⟩), (⟨2⟩, ⟨.waiting, 0, 2, 4, 4, []⟩),
    (⟨3⟩, ⟨.waiting, 0, 2, 7, 7, []⟩), (⟨4⟩, ⟨.waiting, 0, 2, 7, 7, []⟩),
    (⟨5⟩, ⟨.waiting, 0, 2, 3, 3, []⟩), (⟨6⟩, ⟨.running, 1, 5, 8, 8, []⟩)]⟩
  ready := ⟨[⟨1⟩]⟩
  resources := ⟨[
    ⟨some ⟨1⟩, ⟨[⟨2⟩, ⟨3⟩, ⟨4⟩]⟩⟩, ⟨some ⟨1⟩, ⟨[⟨5⟩]⟩⟩, .idle]⟩
  current := some ⟨6⟩
  limits := .standard
  tick := 5

/-- The running process is granted what is free; it waits last for what the first owns and raises
that; and the first wakes the third and falls back, although it keeps the second resource. -/
theorem protocols_eq_reference_besieged :
    inheritance.acquire besieged ⟨2⟩ ⟨6⟩ =
        .ok ({ besieged with resources := besieged.resources.set ⟨2⟩ ⟨some ⟨6⟩, ⟨[]⟩⟩ }, .granted) ∧
      inheritance.acquire besieged ⟨0⟩ ⟨6⟩ = .ok ({ besieged with
        processes := ⟨[
          (⟨1⟩, ⟨.ready, 2, 6, 8, 1, []⟩), (⟨2⟩, ⟨.waiting, 0, 2, 4, 4, []⟩),
          (⟨3⟩, ⟨.waiting, 0, 2, 7, 7, []⟩), (⟨4⟩, ⟨.waiting, 0, 2, 7, 7, []⟩),
          (⟨5⟩, ⟨.waiting, 0, 2, 3, 3, []⟩), (⟨6⟩, ⟨.waiting, 1, 5, 8, 8, []⟩)]⟩
        resources := besieged.resources.set ⟨0⟩ ⟨some ⟨1⟩, ⟨[⟨2⟩, ⟨3⟩, ⟨4⟩, ⟨6⟩]⟩⟩ },
        .blocked ⟨1⟩) ∧
      inheritance.release besieged ⟨0⟩ ⟨1⟩ = .ok ({ besieged with
        processes := ⟨[
          (⟨1⟩, ⟨.ready, 2, 6, 1, 1, []⟩), (⟨2⟩, ⟨.waiting, 0, 2, 4, 4, []⟩),
          (⟨3⟩, ⟨.ready, 0, 2, 7, 7, []⟩), (⟨4⟩, ⟨.waiting, 0, 2, 7, 7, []⟩),
          (⟨5⟩, ⟨.waiting, 0, 2, 3, 3, []⟩), (⟨6⟩, ⟨.running, 1, 5, 8, 8, []⟩)]⟩
        ready := ⟨[⟨1⟩, ⟨3⟩]⟩
        resources := besieged.resources.set ⟨0⟩ ⟨none, ⟨[⟨2⟩, ⟨4⟩]⟩⟩ }, some ⟨3⟩) := by
  have hsorted : besieged.processes.Sorted := by
    unfold PidMap.Sorted
    decide
  have hfree := (protocols_eq_reference (r := ⟨2⟩) (p := ⟨6⟩) inheritance hsorted rfl (by decide)
    rfl).1
  have howned := (protocols_eq_reference (r := ⟨0⟩) (p := ⟨6⟩) inheritance hsorted rfl (by decide)
    rfl).2.1
  have hback := (protocols_eq_reference (r := ⟨0⟩) (p := ⟨1⟩) inheritance hsorted rfl (by decide)
    rfl).2.2
  exact ⟨hfree rfl, howned ⟨1⟩ rfl (by decide) rfl, (hback rfl).1⟩

end Protocol

end Uniprocessor
