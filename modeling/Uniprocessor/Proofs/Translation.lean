import Mathlib.Data.List.Basic
import Mathlib.Order.Monotone.Basic
import Mathlib.Order.MinMax
import Uniprocessor.Proofs.Audit
import Uniprocessor.Proofs.Kept
/-
  A machine under other names and other numbers.

  A translation gives every process another pid, every job another name and every priority another
  grade (`Translation`).  The table of the processes is sorted by pid, so that its entries may come
  in another order afterwards; what a pid is looked up for is the translated record
  (`process?_machine`), and everything else stands where it stood.

  Each edit of a machine is an edit of the translated one (`machine_adjust`, `machine_enroll`, ...).
  A pid is compared with nothing but another pid, for equality, and a priority is only compared,
  copied and maximised.  So a decision, a request and a release are carried over as well, if the
  translation respects the order of the priorities that occur and, where priorities are counted
  up by aging, their values (`Translation.Faithful`).
-/

namespace Uniprocessor

/-- Other pids, names and grades of priority. -/
structure Translation where
  pid : Pid → Pid
  pid_injective : Function.Injective pid
  name : Job → String
  grade : Nat → Nat
  agingCap : Nat

namespace Translation

open Simulation

variable (τ : Translation)

/-! ## Data -/

def job (j : Job) : Job :=
  { j with pid := τ.pid j.pid, name := τ.name j, priority := τ.grade j.priority }

def record (x : ProcessRecord) : ProcessRecord :=
  { x with priority := τ.grade x.priority, basePriority := τ.grade x.basePriority }

def limits (l : Limits) : Limits where
  maxPriority := τ.grade l.maxPriority
  agingCap := τ.agingCap

def queue (q : Queue) : Queue := ⟨q.pids.map τ.pid⟩

def resource (x : Resource) : Resource := ⟨x.owner.map τ.pid, τ.queue x.waiters⟩

def resources (t : ResourceTable) : ResourceTable := ⟨t.slots.map τ.resource⟩

/-- The entries are put in place one by one, for their order may be another. -/
def processes (m : PidMap ProcessRecord) : PidMap ProcessRecord :=
  m.entries.foldr (fun e n => n.insert (τ.pid e.1) (τ.record e.2)) .empty

def machine (m : Machine) : Machine where
  processes := τ.processes m.processes
  ready := τ.queue m.ready
  resources := τ.resources m.resources
  current := m.current.map τ.pid
  limits := τ.limits m.limits
  tick := m.tick

def decision : Decision → Decision
  | .idle => .idle
  | .keep p => .keep (τ.pid p)
  | .pick p x => .pick (τ.pid p) (τ.record x)

def reply : Reply → Reply
  | .granted => .granted
  | .blocked o => .blocked (τ.pid o)

variable {τ} {m n : Machine} {p q : Pid} {r : ResourceId} {x y : ProcessRecord}
variable {f g : ProcessRecord → ProcessRecord} {o : Option Pid}

theorem next_decision (d : Decision) : (τ.decision d).next = d.next.map τ.pid := by
  cases d <;> rfl

theorem map_pid_eq_some : o.map τ.pid = some (τ.pid p) ↔ o = some p := by
  constructor
  · intro h
    obtain ⟨q, rfl, hq⟩ := Option.map_eq_some_iff.1 h
    rw [τ.pid_injective hq]
  · rintro rfl
    rfl

theorem mem_map_pid {l : List Pid} : τ.pid p ∈ l.map τ.pid ↔ p ∈ l :=
  List.mem_map_of_injective τ.pid_injective

/-! ## Tables -/

theorem sorted_processes (ps : PidMap ProcessRecord) : (τ.processes ps).Sorted := by
  unfold processes
  induction ps.entries with
  | nil => exact PidMap.sorted_empty
  | cons e l ih => exact ih.insert _ _

theorem get?_processes (ps : PidMap ProcessRecord) :
    (τ.processes ps).get? (τ.pid p) = (ps.get? p).map τ.record := by
  unfold processes PidMap.get?
  induction ps.entries with
  | nil => rfl
  | cons e l ih =>
    rw [List.foldr_cons]
    change (PidMap.insert _ _ _).get? _ = _
    rw [PidMap.get?_insert, PidMap.find]
    by_cases hp : e.1 = p
    · rw [if_pos (congrArg τ.pid hp), if_pos hp]
      rfl
    · rw [if_neg fun h => hp (τ.pid_injective h), if_neg hp]
      exact ih

theorem get?_processes_of_not {ps : PidMap ProcessRecord} (hq : ∀ p, τ.pid p ≠ q) :
    (τ.processes ps).get? q = none := by
  unfold processes
  induction ps.entries with
  | nil => rfl
  | cons e l ih =>
    rw [List.foldr_cons, PidMap.get?_insert, if_neg (hq e.1)]
    exact ih

/-- A sorted map of the translated records is the translated map. -/
theorem processes_eq {ps qs : PidMap ProcessRecord} (hqs : qs.Sorted)
    (h : ∀ p, qs.get? (τ.pid p) = (ps.get? p).map τ.record)
    (hnot : ∀ q, (∀ p, τ.pid p ≠ q) → qs.get? q = none) : τ.processes ps = qs := by
  refine PidMap.ext_of_get? (sorted_processes ps) hqs fun q => ?_
  by_cases hq : ∃ p, τ.pid p = q
  · obtain ⟨p, rfl⟩ := hq
    rw [get?_processes, h]
  · have hq := not_exists.1 hq
    rw [get?_processes_of_not hq, hnot q hq]

theorem processes_adjust {ps : PidMap ProcessRecord}
    (h : ∀ x, ps.get? p = some x → τ.record (f x) = g (τ.record x)) :
    τ.processes (ps.adjust p f) = (τ.processes ps).adjust (τ.pid p) g := by
  refine processes_eq ((sorted_processes ps).adjust _ _) (fun q => ?_) fun q hq => ?_
  · rw [PidMap.get?_adjust, PidMap.get?_adjust, get?_processes]
    by_cases hpq : p = q
    · subst hpq
      rw [if_pos rfl, if_pos rfl]
      cases hx : ps.get? p with
      | none => rfl
      | some x => exact congrArg some (h x hx).symm
    · rw [if_neg fun h => hpq (τ.pid_injective h), if_neg hpq]
  · rw [PidMap.get?_adjust, if_neg (hq p), get?_processes_of_not hq]

theorem processes_insert (ps : PidMap ProcessRecord) (p : Pid) (x : ProcessRecord) :
    τ.processes (ps.insert p x) = (τ.processes ps).insert (τ.pid p) (τ.record x) := by
  refine processes_eq ((sorted_processes ps).insert _ _) (fun q => ?_) fun q hq => ?_
  · rw [PidMap.get?_insert, PidMap.get?_insert, get?_processes]
    by_cases hpq : p = q
    · rw [if_pos (congrArg τ.pid hpq), if_pos hpq]
      rfl
    · rw [if_neg fun h => hpq (τ.pid_injective h), if_neg hpq]
  · rw [PidMap.get?_insert, if_neg (hq p), get?_processes_of_not hq]

/-- The entries are those of the map, in the order of the new pids. -/
theorem processes_perm {ps : PidMap ProcessRecord} (hps : ps.Sorted) :
    (τ.processes ps).entries.Perm (ps.entries.map fun e => (τ.pid e.1, τ.record e.2)) := by
  have hnodup : (ps.entries.map fun e => (τ.pid e.1, τ.record e.2)).Nodup := by
    refine List.pairwise_map.2 (List.Pairwise.imp ?_ hps)
    intro e f hlt heq
    rw [τ.pid_injective (Prod.mk.inj heq).1] at hlt
    exact Nat.lt_irrefl _ hlt
  refine (List.perm_ext_iff_of_nodup (sorted_processes ps).nodup_entries hnodup).2 fun e => ?_
  obtain ⟨q, y⟩ := e
  rw [PidMap.mem_entries (sorted_processes ps), List.mem_map]
  constructor
  · intro hy
    by_cases hq : ∃ p, τ.pid p = q
    · obtain ⟨p, rfl⟩ := hq
      rw [get?_processes] at hy
      obtain ⟨x, hx, rfl⟩ := Option.map_eq_some_iff.1 hy
      exact ⟨(p, x), (PidMap.mem_entries hps).2 hx, rfl⟩
    · rw [get?_processes_of_not (not_exists.1 hq)] at hy
      cases hy
  · rintro ⟨⟨p, x⟩, hx, heq⟩
    obtain ⟨rfl, rfl⟩ := Prod.mk.inj heq
    rw [get?_processes, (PidMap.mem_entries hps).1 hx]
    rfl

/-- Where the pids stay, so does the order. -/
theorem entries_processes {ps : PidMap ProcessRecord} (hps : ps.Sorted)
    (hid : ∀ p, τ.pid p = p) :
    (τ.processes ps).entries = ps.entries.map fun e => (τ.pid e.1, τ.record e.2) := by
  refine PidMap.eq_of_perm (sorted_processes ps) ?_ (processes_perm hps)
  refine List.pairwise_map.2 (List.Pairwise.imp ?_ hps)
  intro e f hlt
  rw [hid, hid]
  exact hlt

/-- What an edit does to each resource it does to the table. -/
theorem resources_adjust {t : ResourceTable} (e e' : Resource → Resource)
    (h : ∀ x, τ.resource (e x) = e' (τ.resource x)) :
    τ.resources (t.adjust r e) = (τ.resources t).adjust r e' := by
  refine congrArg ResourceTable.mk (List.ext_getElem? fun i => ?_)
  show ((t.slots.modify r.val e).map τ.resource)[i]? = ((t.slots.map τ.resource).modify r.val e')[i]?
  rw [List.getElem?_map, List.getElem?_modify, List.getElem?_modify, List.getElem?_map]
  cases t.slots[i]? with
  | none => rfl
  | some x =>
    split
    · exact congrArg some (h x)
    · rfl

theorem queue_append (l : List Pid) (p : Pid) :
    τ.queue ⟨l ++ [p]⟩ = ⟨(τ.queue ⟨l⟩).pids ++ [τ.pid p]⟩ :=
  congrArg Queue.mk List.map_append

theorem queue_erase (l : Queue) (p : Pid) : τ.queue (l.erase p) = (τ.queue l).erase (τ.pid p) :=
  congrArg Queue.mk (List.map_erase τ.pid_injective _)

/-! ## Views of the translated machine -/

theorem process?_machine : (τ.machine m).process? (τ.pid p) = (m.process? p).map τ.record :=
  get?_processes m.processes

theorem process?_of (hx : m.process? p = some x) :
    (τ.machine m).process? (τ.pid p) = some (τ.record x) := by
  rw [process?_machine, hx]
  rfl

/-- The translated machine knows translated processes only. -/
theorem exists_process? (hy : (τ.machine m).process? q = some y) :
    ∃ p x, τ.pid p = q ∧ m.process? p = some x ∧ τ.record x = y := by
  by_cases hq : ∃ p, τ.pid p = q
  · obtain ⟨p, rfl⟩ := hq
    rw [process?_machine] at hy
    obtain ⟨x, hx, rfl⟩ := Option.map_eq_some_iff.1 hy
    exact ⟨p, x, rfl, hx, rfl⟩
  · have hnone : (τ.machine m).process? q = none := get?_processes_of_not (not_exists.1 hq)
    rw [hy] at hnone
    cases hnone

theorem get?_resources (t : ResourceTable) : (τ.resources t).get? r = (t.get? r).map τ.resource :=
  List.getElem?_map

theorem owner?_machine :
    (τ.machine m).resources.owner? r = (m.resources.owner? r).map τ.pid := by
  change (τ.resources m.resources).owner? r = _
  unfold ResourceTable.owner?
  rw [get?_resources]
  cases m.resources.get? r <;> rfl

theorem owner?_machine_iff :
    (τ.machine m).resources.owner? r = some (τ.pid p) ↔ m.resources.owner? r = some p := by
  rw [owner?_machine, map_pid_eq_some]

theorem waiters_machine :
    (τ.machine m).resources.waiters r = (m.resources.waiters r).map τ.pid := by
  change (τ.resources m.resources).waiters r = _
  unfold ResourceTable.waiters
  rw [get?_resources]
  cases m.resources.get? r <;> rfl

theorem size_machine : (τ.machine m).resources.size = m.resources.size := List.length_map _

theorem mem_ready_machine : τ.pid p ∈ (τ.machine m).ready.pids ↔ p ∈ m.ready.pids := mem_map_pid

/-! ## Edits of the translated machine -/

theorem machine_adjust (h : ∀ x, m.process? p = some x → τ.record (f x) = g (τ.record x)) :
    τ.machine (m.adjust p f) = (τ.machine m).adjust (τ.pid p) g :=
  congrArg (fun ps => { τ.machine m with processes := ps }) (processes_adjust h)

theorem machine_put : τ.machine (m.put p x) = (τ.machine m).put (τ.pid p) (τ.record x) :=
  machine_adjust fun _ _ => rfl

theorem machine_turn (t : Status) :
    τ.machine (m.adjust p (.turn t)) = (τ.machine m).adjust (τ.pid p) (.turn t) :=
  machine_adjust fun _ _ => rfl

theorem machine_enqueue : τ.machine (m.enqueue p) = (τ.machine m).enqueue (τ.pid p) :=
  congrArg (fun q => { τ.machine m with ready := q }) (queue_append _ p)

theorem machine_dequeue : τ.machine (m.dequeue p) = (τ.machine m).dequeue (τ.pid p) :=
  congrArg (fun q => { τ.machine m with ready := q }) (queue_erase _ p)

theorem machine_seat : τ.machine (m.seat o) = (τ.machine m).seat (o.map τ.pid) := rfl

theorem machine_own : τ.machine (m.own r o) = (τ.machine m).own r (o.map τ.pid) :=
  congrArg (fun t => { τ.machine m with resources := t })
    (resources_adjust (fun x => { x with owner := o })
      (fun x => { x with owner := o.map τ.pid }) fun _ => rfl)

theorem machine_park : τ.machine (m.park r p) = (τ.machine m).park r (τ.pid p) :=
  congrArg (fun t => { τ.machine m with resources := t })
    (resources_adjust _ _ fun x => congrArg (Resource.mk _) (queue_append x.waiters.pids p))

theorem machine_unpark : τ.machine (m.unpark r p) = (τ.machine m).unpark r (τ.pid p) :=
  congrArg (fun t => { τ.machine m with resources := t })
    (resources_adjust _ _ fun x => congrArg (Resource.mk _) (queue_erase x.waiters p))

theorem machine_enroll (j : Job) : τ.machine (m.enroll j) = (τ.machine m).enroll (τ.job j) := by
  show Machine.mk (τ.processes (m.processes.insert j.pid (.ofJob j)))
    (τ.queue ⟨m.ready.pids ++ [j.pid]⟩) _ _ _ _ = _
  rw [processes_insert, queue_append]
  rfl

/-! ## Records -/

theorem record_reset (π : Policy) : τ.record (π.reset x) = π.reset (τ.record x) := by
  unfold Policy.reset
  split <;> rfl

theorem record_relax (κ : Protocol) : τ.record (κ.relax x) = κ.relax (τ.record x) := by
  cases κ <;> rfl

theorem record_promote (κ : Protocol) (l : Limits) :
    τ.record (κ.promote l x) = κ.promote (τ.limits l) (τ.record x) := by
  cases κ <;> rfl

theorem record_raise {S : Set Nat} (hS : StrictMonoOn τ.grade S) (κ : Protocol)
    (hx : x.priority ∈ S) (hy : y.priority ∈ S) :
    τ.record (κ.raise x.priority y) = κ.raise (τ.grade x.priority) (τ.record y) := by
  cases κ with
  | mutex _ | ceiling _ => rfl
  | inheritance =>
    show { τ.record y with priority := τ.grade (max y.priority x.priority) } =
      { τ.record y with priority := max (τ.grade y.priority) (τ.grade x.priority) }
    rw [hS.monotoneOn.map_max hy hx]

/-- Where the values of priorities stay, aging goes on as before. -/
theorem record_bump (hgrade : ∀ k, τ.grade k = k) (cap : Nat) :
    τ.record (Policy.bump cap x) = Policy.bump cap (τ.record x) := by
  have hrecord : ∀ y, τ.record y = y := by
    intro y
    show { y with priority := τ.grade y.priority, basePriority := τ.grade y.basePriority } = y
    rw [hgrade, hgrade]
  rw [hrecord, hrecord]

theorem beats_record {S : Set Nat} (hS : StrictMonoOn τ.grade S) (π : Policy)
    (hx : x.priority ∈ S) (hy : y.priority ∈ S) :
    π.beats (τ.record x) (τ.record y) ↔ π.beats x y := by
  cases π with
  | fifo | roundRobin | shortestJob | shortestRemaining => exact Iff.rfl
  | priority | priorityAging => exact hS.lt_iff_lt hy hx

theorem woken_record {S : Set Nat} (hS : StrictMonoOn τ.grade S) (order : WakeOrder)
    (hx : x.priority ∈ S) (hy : y.priority ∈ S) :
    order.beats (τ.record x) (τ.record y) ↔ order.beats x y := by
  cases order with
  | fifo => exact Iff.rfl
  | priority => exact hS.lt_iff_lt hy hx

/-- What is first best in a queue stays so where the records are compared alike. -/
theorem firstBest_machine {P : ProcessRecord → Prop}
    {beats : ProcessRecord → ProcessRecord → Prop} {l : List Pid} (hm : m.All P)
    (hb : ∀ x y, P x → P y → (beats (τ.record x) (τ.record y) ↔ beats x y))
    (h : FirstBest (m.Beats beats) p l) :
    FirstBest ((τ.machine m).Beats beats) (τ.pid p) (l.map τ.pid) := by
  refine h.map fun a _ b _ => ⟨?_, ?_⟩
  · rintro ⟨x', y', hx', hy', hxy⟩
    rw [process?_machine] at hx' hy'
    obtain ⟨x, hx, rfl⟩ := Option.map_eq_some_iff.1 hx'
    obtain ⟨y, hy, rfl⟩ := Option.map_eq_some_iff.1 hy'
    exact ⟨x, y, hx, hy, (hb x y (hm a x hx) (hm b y hy)).1 hxy⟩
  · rintro ⟨x, y, hx, hy, hxy⟩
    exact ⟨_, _, process?_of hx, process?_of hy, (hb x y (hm a x hx) (hm b y hy)).2 hxy⟩

/-! ## Decisions, requests and releases -/

/-- The translation respects the order of the priorities that occur in a run, which are in `S`, and
their values where they are counted up. -/
structure Faithful (τ : Translation) (s : Strategy) (c : Scenario) (S : Set Nat) : Prop where
  ordered : StrictMonoOn τ.grade S
  drawn : Kept s c (Drawn S)
  aging : s.policy = .priorityAging → (∀ k, τ.grade k = k) ∧ τ.agingCap = c.limits.agingCap

theorem works_machine : (τ.machine m).Works (τ.pid p) ↔ m.Works p := by
  unfold Machine.Works
  rw [show (τ.machine m).current = some (τ.pid p) ↔ m.current = some p from map_pid_eq_some,
    process?_machine]
  refine and_congr_right fun _ => ⟨?_, ?_⟩
  · rintro ⟨y, hy, hs, hd⟩
    obtain ⟨x, hx, rfl⟩ := Option.map_eq_some_iff.1 hy
    exact ⟨x, hx, hs, hd⟩
  · rintro ⟨x, hx, hs, hd⟩
    exact ⟨τ.record x, by rw [hx]; rfl, hs, hd⟩

theorem exists_works (h : (τ.machine m).Works q) : ∃ p, m.Works p := by
  obtain ⟨p, -, rfl, -⟩ := exists_process? h.2.choose_spec.1
  exact ⟨p, works_machine.1 h⟩

end Translation

/-! ## Decisions -/

namespace Policy

open Simulation Translation

variable {τ : Translation} {π : Policy} {m n : Machine}

theorem Retires.translate (h : π.Retires m n) : π.Retires (τ.machine m) (τ.machine n) := by
  cases h with
  | leave hw =>
    refine .leave fun q hq => ?_
    obtain ⟨p, hp⟩ := exists_works hq
    exact hw p hp
  | requeue hw hkeep hq =>
    rw [machine_enqueue, machine_turn, machine_adjust fun x _ => record_reset π]
    exact .requeue (works_machine.2 hw) hkeep fun hmem => hq (mem_ready_machine.1 hmem)

/-- Aging goes on as before. -/
theorem ripen_translate (h : π = .priorityAging → (∀ k, τ.grade k = k) ∧
    τ.agingCap = m.limits.agingCap) : π.ripen (τ.machine m) = τ.machine (π.ripen m) := by
  by_cases hπ : π = .priorityAging
  · obtain ⟨hgrade, hcap⟩ := h hπ
    have hfold : ∀ (l : List Pid) (k : Machine),
        (l.map τ.pid).foldl (fun n p => n.adjust p (bump τ.agingCap)) (τ.machine k) =
          τ.machine (l.foldl (fun n p => n.adjust p (bump m.limits.agingCap)) k) := by
      intro l
      induction l with
      | nil => exact fun _ => rfl
      | cons p l ih =>
        intro k
        rw [List.map_cons, List.foldl_cons, List.foldl_cons, ← ih, hcap,
          machine_adjust fun x _ => record_bump hgrade _]
    rw [ripen, if_pos hπ, ripen, if_pos hπ]
    exact hfold m.ready.pids m
  · rw [ripen_eq hπ, ripen_eq hπ]

theorem Decides.translate {s : Strategy} {c : Scenario} {S : Set Nat} {d : Decision}
    (hτ : τ.Faithful s c S) (hlimits : m.limits = c.limits) (hm : m.All (Drawn S))
    (h : s.policy.Decides m n d) :
    s.policy.Decides (τ.machine m) (τ.machine n) (τ.decision d) := by
  have hripen : ∀ {k}, s.policy.Retires m k →
      s.policy.ripen (τ.machine k) = τ.machine (s.policy.ripen k) := by
    intro k hr
    refine ripen_translate ?_
    rw [hr.steady.limits, hlimits]
    exact hτ.aging
  cases h with
  | keep hw hkeep => exact .keep (works_machine.2 hw) hkeep
  | @idle k hr hempty =>
    rw [machine_seat, ← hripen hr]
    refine .idle hr.translate ?_
    rw [hripen hr]
    show (s.policy.ripen k).ready.pids.map τ.pid = []
    rw [hempty]
    rfl
  | @pick k p x hr hbest hx hs =>
    have hripe : (s.policy.ripen k).All (Drawn S) :=
      hτ.drawn.ripen (hr.steady.limits.trans hlimits) (hτ.drawn.retires hm hr)
    have hbest := firstBest_machine (τ := τ) hripe
      (fun x y hx hy => beats_record hτ.ordered s.policy hx.1 hy.1) hbest
    have hx := process?_of (τ := τ) hx
    rw [machine_seat, machine_dequeue, machine_put, ← hripen hr]
    rw [← hripen hr] at hx
    refine .pick hr.translate ?_ hx hs
    rw [hripen hr]
    exact hbest

end Policy

/-! ## Requests and releases -/

namespace Protocol

open Simulation Translation

variable {τ : Translation} {κ : Protocol} {m n : Machine} {r : ResourceId} {p : Pid} {S : Set Nat}

theorem Acquires.translate {reply : Reply} (hS : StrictMonoOn τ.grade S) (hm : m.All (Drawn S))
    (h : κ.Acquires m r p n reply) :
    κ.Acquires (τ.machine m) r (τ.pid p) (τ.machine n) (τ.reply reply) := by
  cases h with
  | granted hr hfree hx =>
    rw [machine_own, machine_adjust fun x _ => record_promote κ m.limits]
    refine .granted ?_ ?_ (process?_of hx)
    · rwa [size_machine]
    · rw [owner?_machine, hfree]
      rfl
  | @blocked o x ho hne hx hknown hw =>
    have hraise : ∀ y, m.process? o = some y →
        τ.record (κ.raise x.priority y) = κ.raise (τ.record x).priority (τ.record y) :=
      fun y hy => record_raise hS κ (hm p x hx).1 (hm o y hy).1
    rw [machine_park, machine_turn, machine_adjust hraise]
    refine .blocked (owner?_machine_iff.2 ho) (fun h => hne (τ.pid_injective h))
      (process?_of hx) (fun hκ => ?_) ?_
    · obtain ⟨y, hy⟩ := hknown hκ
      exact ⟨_, process?_of hy⟩
    · rw [waiters_machine]
      exact fun hmem => hw (mem_map_pid.1 hmem)

theorem freed_translate : κ.freed (τ.machine m) r (τ.pid p) = τ.machine (κ.freed m r p) := by
  rw [freed, freed, machine_adjust fun x _ => record_relax κ, machine_own]
  rfl

theorem Releases.translate {o : Option Pid} (hS : StrictMonoOn τ.grade S) (hm : m.All (Drawn S))
    (h : κ.Releases m r p n o) :
    κ.Releases (τ.machine m) r (τ.pid p) (τ.machine n) (o.map τ.pid) := by
  have hfreed : (κ.freed m r p).All (Drawn S) := by
    refine Machine.All.adjust (m := m.own r none) hm fun x hx => ?_
    have hx : Drawn S x := hm p x hx
    cases κ with
    | mutex _ => exact hx
    | ceiling _ | inheritance => exact ⟨hx.2, hx.2⟩
  cases h with
  | quiet ho hempty =>
    rw [← freed_translate]
    refine .quiet (owner?_machine_iff.2 ho) ?_
    rw [waiters_machine, hempty]
    rfl
  | wake ho hbest hy hs hready =>
    have hbest := firstBest_machine (τ := τ) hfreed
      (fun x y hx hy => woken_record hS κ.wakeOrder hx.1 hy.1) hbest
    have hy := process?_of (τ := τ) hy
    rw [← freed_translate] at hbest hy
    rw [← waiters_machine] at hbest
    rw [machine_enqueue, machine_turn, machine_unpark, ← freed_translate]
    exact .wake (owner?_machine_iff.2 ho) hbest hy hs fun hmem => hready (mem_ready_machine.1 hmem)

end Protocol

end Uniprocessor
