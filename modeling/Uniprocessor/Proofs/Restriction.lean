import Uniprocessor.Proofs.Determinacy
import Uniprocessor.Proofs.Urgency
/-
  A machine without some of its processes.

  `Machine.restrict P` keeps the processes that `P` names, in every place where a process can be.
  The edits come in two kinds.  What is done to a named process is done to the restricted machine
  as well (`restrict_enqueue`, `restrict_park`, ...), and what is done to another does not show in
  it (`restrict_enqueue_of_not`, `restrict_park_of_not`, ...).

  From this follows what a decision, a request and a release do to the restricted machine.  Where
  the named processes are the more urgent ones, a decision by priority for one of them is a
  decision of the restricted machine, and one for another leaves that idle (`Decides.restrict`).
  Where they share no resource with the others, the requests and releases of a named process are
  those of the restricted machine (`Acquires.restrict`, `Releases.restrict`), and those of another
  change nothing there.
-/

namespace Uniprocessor

/-! ## The parts of a machine -/

theorem filter_append_singleton {α : Type} {P : α → Bool} {l : List α} {a : α} :
    (l ++ [a]).filter P = l.filter P ++ if P a then [a] else [] := by
  rw [List.filter_append]
  by_cases ha : P a <;> simp [ha]

/-- The entries of the processes that `P` names. -/
def PidMap.restrict {α : Type} (P : Pid → Bool) (m : PidMap α) : PidMap α :=
  ⟨m.entries.filter fun e => P e.1⟩

/-- The members of a queue that `P` names. -/
def Queue.restrict (P : Pid → Bool) (q : Queue) : Queue := ⟨q.pids.filter P⟩

/-- A resource as it is among the processes that `P` names. -/
def Resource.restrict (P : Pid → Bool) (x : Resource) : Resource :=
  ⟨x.owner.filter P, x.waiters.restrict P⟩

/-- The resources as they are among the processes that `P` names. -/
def ResourceTable.restrict (P : Pid → Bool) (t : ResourceTable) : ResourceTable :=
  ⟨t.slots.map (Resource.restrict P)⟩

/-- The machine of the processes that `P` names. -/
def Machine.restrict (P : Pid → Bool) (m : Machine) : Machine where
  processes := m.processes.restrict P
  ready := m.ready.restrict P
  resources := m.resources.restrict P
  current := m.current.filter P
  limits := m.limits
  tick := m.tick

variable {P : Pid → Bool} {p q : Pid} {r : ResourceId}

namespace PidMap

variable {α : Type} {m : PidMap α} {f : α → α} {a : α}

theorem find_filter (l : List (Pid × α)) :
    find p (l.filter fun e => P e.1) = if P p then find p l else none := by
  induction l with
  | nil => simp [find]
  | cons e l ih =>
    by_cases he : P e.1
    · rw [List.filter_cons_of_pos (by exact he), find, find, ih]
      by_cases hp : e.1 = p
      · rw [if_pos hp, if_pos hp, if_pos (hp ▸ he)]
      · rw [if_neg hp, if_neg hp]
    · rw [List.filter_cons_of_neg (by exact he), ih, find]
      by_cases hp : e.1 = p
      · rw [if_neg (hp ▸ he), if_neg (hp ▸ he)]
      · rw [if_neg hp]

theorem get?_restrict : (m.restrict P).get? p = if P p then m.get? p else none :=
  find_filter m.entries

theorem restrict_adjust : (m.adjust p f).restrict P = (m.restrict P).adjust p f := by
  simp only [restrict, adjust, List.filter_map, PidMap.mk.injEq]
  refine congrArg _ (List.filter_congr fun e _ => ?_)
  simp only [Function.comp]
  split <;> rfl

theorem adjust_restrict (hp : ¬ P p) : (m.restrict P).adjust p f = m.restrict P := by
  simp only [restrict, adjust, PidMap.mk.injEq]
  refine (List.map_congr_left fun e he => if_neg ?_).trans (List.map_id _)
  rintro rfl
  exact hp (List.mem_filter.1 he).2

theorem place_of_lt {l : List (Pid × α)} (h : ∀ e ∈ l, p.val < e.1.val) :
    place p a l = (p, a) :: l := by
  cases l with
  | nil => rfl
  | cons e l => exact if_pos (h e List.mem_cons_self)

theorem filter_place (hp : P p) {l : List (Pid × α)}
    (h : l.Pairwise fun e f => e.1.val < f.1.val) :
    (place p a l).filter (fun e => P e.1) = place p a (l.filter fun e => P e.1) := by
  induction l with
  | nil => simp [place, hp]
  | cons e l ih =>
    obtain ⟨hhead, htail⟩ := List.pairwise_cons.1 h
    by_cases hlt : p.val < e.1.val
    · have hall : ∀ f ∈ (e :: l).filter fun e => P e.1, p.val < f.1.val := by
        intro f hf
        rcases List.mem_cons.1 (List.mem_filter.1 hf).1 with rfl | hf
        · exact hlt
        · exact Nat.lt_trans hlt (hhead f hf)
      rw [place_of_lt hall, place, if_pos hlt, List.filter_cons_of_pos (by exact hp)]
    · by_cases heq : e.1 = p
      · have he : P e.1 := heq ▸ hp
        rw [place, if_neg hlt, if_pos heq, List.filter_cons_of_pos (by exact hp),
          List.filter_cons_of_pos (by exact he), place, if_neg hlt, if_pos heq]
      · rw [place, if_neg hlt, if_neg heq]
        by_cases he : P e.1
        · rw [List.filter_cons_of_pos (by exact he), List.filter_cons_of_pos (by exact he),
            ih htail, place, if_neg hlt, if_neg heq]
        · rw [List.filter_cons_of_neg (by exact he), List.filter_cons_of_neg (by exact he),
            ih htail]

theorem filter_place_of_not (hp : ¬ P p) (l : List (Pid × α)) :
    (place p a l).filter (fun e => P e.1) = l.filter fun e => P e.1 := by
  induction l with
  | nil => simp [place, hp]
  | cons e l ih =>
    rw [place]
    split
    · exact List.filter_cons_of_neg (by exact hp)
    · split
      · next heq =>
        rw [List.filter_cons_of_neg (by exact hp), List.filter_cons_of_neg (by rw [heq]; exact hp)]
      · rw [List.filter_cons, List.filter_cons, ih]

end PidMap

theorem Queue.restrict_erase (l : Queue) : (l.erase p).restrict P = (l.restrict P).erase p :=
  congrArg Queue.mk List.erase_filter.symm

namespace ResourceTable

variable {t : ResourceTable} {f g : Resource → Resource}

theorem get?_restrict : (t.restrict P).get? r = (t.get? r).map (Resource.restrict P) :=
  List.getElem?_map

theorem owner?_restrict : (t.restrict P).owner? r = (t.owner? r).filter P := by
  rw [owner?, owner?, get?_restrict]
  cases t.get? r <;> rfl

theorem waiters_restrict : (t.restrict P).waiters r = (t.waiters r).filter P := by
  rw [waiters, waiters, get?_restrict]
  cases t.get? r <;> rfl

theorem size_restrict : (t.restrict P).size = t.size := List.length_map _

/-- What an edit does to each resource it does to the table. -/
theorem restrict_adjust (h : ∀ x, (f x).restrict P = g (x.restrict P)) :
    (t.adjust r f).restrict P = (t.restrict P).adjust r g := by
  simp only [restrict, adjust, ResourceTable.mk.injEq]
  refine List.ext_getElem? fun i => ?_
  rw [List.getElem?_map, List.getElem?_modify, List.getElem?_modify, List.getElem?_map]
  cases t.slots[i]? with
  | none => rfl
  | some x =>
    split
    · exact congrArg some (h x)
    · rfl

/-- What leaves a resource as it is leaves the table as it is. -/
theorem adjust_eq_self (h : ∀ x, t.get? r = some x → f x = x) : t.adjust r f = t := by
  refine congrArg ResourceTable.mk (List.ext_getElem? fun i => ?_)
  rw [List.getElem?_modify]
  split
  · next hi =>
    subst hi
    cases hx : t.slots[r.val]? with
    | none => rfl
    | some x => exact congrArg some (h x hx)
  · cases t.slots[i]? <;> rfl

end ResourceTable

namespace Machine

variable {m n : Machine} {f : ProcessRecord → ProcessRecord} {o : Option Pid}

/-! ## Views of the restricted machine -/

@[simp] theorem process?_restrict :
    (m.restrict P).process? p = if P p then m.process? p else none :=
  PidMap.get?_restrict

theorem status?_restrict :
    (m.restrict P).status? p = if P p then m.status? p else none := by
  rw [status?, process?_restrict]
  split <;> rfl

theorem owner?_restrict : (m.restrict P).resources.owner? r = (m.resources.owner? r).filter P :=
  ResourceTable.owner?_restrict

theorem waiters_restrict :
    (m.restrict P).resources.waiters r = (m.resources.waiters r).filter P :=
  ResourceTable.waiters_restrict

theorem active_restrict : (m.restrict P).Active p ↔ P p ∧ m.Active p := by
  by_cases hp : P p <;> simp [Active, status?_restrict, hp]

theorem works_restrict : (m.restrict P).Works p ↔ P p ∧ m.Works p := by
  have hcur : (m.restrict P).current = some p ↔ m.current = some p ∧ P p :=
    Option.filter_eq_some_iff
  rw [Works, hcur, process?_restrict]
  by_cases hp : P p <;> simp [Works, hp]

/-- Among the named processes the records are compared as before. -/
theorem beats_restrict {beats : ProcessRecord → ProcessRecord → Prop} (hp : P p) (hq : P q) :
    (m.restrict P).Beats beats p q ↔ m.Beats beats p q := by
  rw [Beats, process?_restrict, process?_restrict, if_pos hp, if_pos hq]
  rfl

/-- To leave processes out does not put the others anywhere else. -/
theorem Filed.restrict (h : m.Filed) : (m.restrict P).Filed where
  sorted := h.sorted.filter _
  ready_nodup := h.ready_nodup.filter _
  mem_ready p := by
    rw [status?_restrict]
    refine List.mem_filter.trans ?_
    by_cases hp : P p <;> simp [hp, h.mem_ready p]
  waiters_nodup r := by
    rw [waiters_restrict]
    exact (h.waiters_nodup r).filter _
  mem_waiters p := by
    simp only [waiters_restrict, List.mem_filter, status?_restrict, exists_and_right,
      h.mem_waiters p]
    by_cases hp : P p <;> simp [hp]
  waits_once p r s hr hs := by
    rw [waiters_restrict] at hr hs
    exact h.waits_once p r s (List.mem_filter.1 hr).1 (List.mem_filter.1 hs).1
  running p hp := by
    rw [status?_restrict] at hp
    split at hp
    · next hPp => exact Option.filter_eq_some_iff.2 ⟨h.running p hp, hPp⟩
    · cases hp
  current p hp := by
    obtain ⟨hcur, hPp⟩ := Option.filter_eq_some_iff.1 hp
    rw [status?_restrict, if_pos hPp]
    exact h.current p hcur
  owner_alive r p hr := by
    rw [owner?_restrict] at hr
    obtain ⟨ho, hPp⟩ := Option.filter_eq_some_iff.1 hr
    rw [status?_restrict, if_pos hPp]
    exact h.owner_alive r p ho
  owner_apart r p hr hw := by
    rw [owner?_restrict] at hr
    rw [waiters_restrict] at hw
    exact h.owner_apart r p (Option.filter_eq_some_iff.1 hr).1 (List.mem_filter.1 hw).1

theorem restrict_restrict : (m.restrict P).restrict P = m.restrict P := by
  have hresource (x : Resource) : (x.restrict P).restrict P = x.restrict P := by
    simp [Resource.restrict, Queue.restrict, Option.filter_filter]
  simp [restrict, PidMap.restrict, Queue.restrict, ResourceTable.restrict, hresource,
    Option.filter_filter]

/-! ## Edits of the restricted machine -/

variable (m p r f o)

theorem restrict_adjust : (m.adjust p f).restrict P = (m.restrict P).adjust p f := by
  show { m.restrict P with processes := (m.processes.adjust p f).restrict P } = _
  rw [PidMap.restrict_adjust]
  rfl

theorem restrict_put (x : ProcessRecord) : (m.put p x).restrict P = (m.restrict P).put p x :=
  restrict_adjust p m _

theorem restrict_dequeue : (m.dequeue p).restrict P = (m.restrict P).dequeue p := by
  show { m.restrict P with ready := (m.ready.erase p).restrict P } = _
  rw [Queue.restrict_erase]
  rfl

theorem restrict_seat : (m.seat o).restrict P = (m.restrict P).seat (o.filter P) := rfl

theorem restrict_own : (m.own r o).restrict P = (m.restrict P).own r (o.filter P) := by
  show { m.restrict P with
    resources := (m.resources.adjust r fun x => { x with owner := o }).restrict P } = _
  rw [ResourceTable.restrict_adjust (g := fun x => { x with owner := o.filter P }) fun _ => rfl]
  rfl

theorem restrict_unpark : (m.unpark r p).restrict P = (m.restrict P).unpark r p := by
  show { m.restrict P with
    resources := (m.resources.adjust r fun x => ⟨x.owner, x.waiters.erase p⟩).restrict P } = _
  rw [ResourceTable.restrict_adjust (f := fun x => ⟨x.owner, x.waiters.erase p⟩)
    (g := fun x => ⟨x.owner, x.waiters.erase p⟩) fun x =>
      congrArg (Resource.mk _) x.waiters.restrict_erase]
  rfl

section Named

variable {p} (hp : P p)
include hp

theorem restrict_enqueue : (m.enqueue p).restrict P = (m.restrict P).enqueue p := by
  show { m.restrict P with ready := ⟨(m.ready.pids ++ [p]).filter P⟩ } = _
  rw [filter_append_singleton, if_pos hp]
  rfl

theorem restrict_park : (m.park r p).restrict P = (m.restrict P).park r p := by
  refine congrArg (fun t => { m.restrict P with resources := t })
    (ResourceTable.restrict_adjust fun x => ?_)
  show Resource.mk (x.owner.filter P) ⟨(x.waiters.pids ++ [p]).filter P⟩ = _
  rw [filter_append_singleton, if_pos hp]
  rfl

end Named

theorem restrict_enroll {j : Job} (hm : m.processes.Sorted) (hj : P j.pid) :
    (m.enroll j).restrict P = (m.restrict P).enroll j := by
  show { m.restrict P with
    processes :=
      ⟨(PidMap.place j.pid (ProcessRecord.ofJob j) m.processes.entries).filter fun e => P e.1⟩
    ready := ⟨(m.ready.pids ++ [j.pid]).filter P⟩ } = _
  rw [PidMap.filter_place hj hm, filter_append_singleton, if_pos hj]
  rfl

section Other

variable {p} (hp : ¬ P p)
include hp

theorem restrict_adjust_of_not : (m.adjust p f).restrict P = m.restrict P := by
  rw [restrict_adjust]
  show { m.restrict P with processes := (m.processes.restrict P).adjust p f } = _
  rw [PidMap.adjust_restrict hp]
  rfl

theorem restrict_put_of_not (x : ProcessRecord) : (m.put p x).restrict P = m.restrict P :=
  restrict_adjust_of_not m _ hp

theorem restrict_enqueue_of_not : (m.enqueue p).restrict P = m.restrict P := by
  show { m.restrict P with ready := ⟨(m.ready.pids ++ [p]).filter P⟩ } = _
  rw [filter_append_singleton, if_neg hp, List.append_nil]
  rfl

theorem restrict_dequeue_of_not : (m.dequeue p).restrict P = m.restrict P := by
  show { m.restrict P with ready := ⟨(m.ready.pids.erase p).filter P⟩ } = _
  rw [← List.erase_filter, List.erase_of_not_mem fun h => hp (List.mem_filter.1 h).2]
  rfl

theorem restrict_park_of_not : (m.park r p).restrict P = m.restrict P := by
  refine congrArg (fun t => { m.restrict P with resources := t }) ?_
  refine (ResourceTable.restrict_adjust (g := id) fun x => ?_).trans
    (ResourceTable.adjust_eq_self fun _ _ => rfl)
  show Resource.mk (x.owner.filter P) ⟨(x.waiters.pids ++ [p]).filter P⟩ = _
  rw [filter_append_singleton, if_neg hp, List.append_nil]
  rfl

theorem restrict_unpark_of_not : (m.unpark r p).restrict P = m.restrict P := by
  refine congrArg (fun t => { m.restrict P with resources := t }) ?_
  refine (ResourceTable.restrict_adjust (g := id) fun x => ?_).trans
    (ResourceTable.adjust_eq_self fun _ _ => rfl)
  show Resource.mk (x.owner.filter P) ⟨(x.waiters.pids.erase p).filter P⟩ = _
  rw [← List.erase_filter, List.erase_of_not_mem fun h => hp (List.mem_filter.1 h).2]
  rfl

end Other

theorem restrict_enroll_of_not {j : Job} (hj : ¬ P j.pid) :
    (m.enroll j).restrict P = m.restrict P := by
  show { m.restrict P with
    processes :=
      ⟨(PidMap.place j.pid (ProcessRecord.ofJob j) m.processes.entries).filter fun e => P e.1⟩
    ready := ⟨(m.ready.pids ++ [j.pid]).filter P⟩ } = _
  rw [PidMap.filter_place_of_not hj, filter_append_singleton, if_neg hj, List.append_nil]
  rfl

variable {m r}

/-- To free what nobody owns changes nothing. -/
theorem own_none_eq_self (hr : m.resources.owner? r = none) : m.own r none = m := by
  refine congrArg (fun t => { m with resources := t })
    (ResourceTable.adjust_eq_self fun x hx => ?_)
  rw [ResourceTable.owner?_eq hx] at hr
  rw [← hr]

end Machine

/-! ## Decisions -/

theorem FirstBest.filter {α : Type} {beats : α → α → Prop} {Q : α → Bool} {x : α} {l : List α}
    (h : FirstBest beats x l) (hx : Q x) : FirstBest beats x (l.filter Q) := by
  obtain ⟨pre, post, rfl, hpre, hpost⟩ := h
  refine ⟨pre.filter Q, post.filter Q, ?_, fun y hy => hpre y (List.mem_filter.1 hy).1,
    fun y hy => hpost y (List.mem_filter.1 hy).1⟩
  rw [List.filter_append, List.filter_cons_of_pos hx]

/-- What is first best in a queue of a machine is so in the restricted machine. -/
theorem Machine.firstBest_restrict {m : Machine} {beats : ProcessRecord → ProcessRecord → Prop}
    {l : List Pid} (h : FirstBest (m.Beats beats) p l) (hp : P p) :
    FirstBest ((m.restrict P).Beats beats) p (l.filter P) :=
  (h.filter hp).congr fun _ ha _ hb =>
    beats_restrict (List.mem_filter.1 ha).2 (List.mem_filter.1 hb).2

/-- A decision as it is among the processes that `P` names. -/
def Decision.restrict (P : Pid → Bool) : Decision → Decision
  | .idle => .idle
  | .keep p => if P p then .keep p else .idle
  | .pick p x => if P p then .pick p x else .idle

theorem Decision.next_restrict (d : Decision) : (d.restrict P).next = d.next.filter P := by
  cases d with
  | idle => rfl
  | keep p | pick p x => by_cases hp : P p <;> simp [restrict, next, Option.filter, hp]

/-- The processes that `P` names are those whose priority reaches `θ`. -/
def Machine.Parted (P : Pid → Bool) (θ : Nat) (m : Machine) : Prop :=
  ∀ p x, m.process? p = some x → (P p ↔ θ ≤ x.priority)

/-- A decision for a named process is one among the named processes. -/
theorem Decision.restrict_of_next {d : Decision} (h : d.next = some p) (hp : P p) :
    d.restrict P = d := by
  cases d with
  | idle => rfl
  | keep q | pick q x =>
    obtain rfl := Option.some.inj h
    exact if_pos hp

namespace Policy

variable {π : Policy} {m n : Machine} {d : Decision} {θ : Nat}

theorem Retires.restrict (h : π.Retires m n) : π.Retires (m.restrict P) (n.restrict P) := by
  cases h with
  | leave hw => exact .leave fun p hp => hw p (Machine.works_restrict.1 hp).2
  | @requeue p hw hkeep hq =>
    by_cases hp : P p
    · rw [Machine.restrict_enqueue _ hp, Machine.restrict_adjust, Machine.restrict_adjust]
      exact .requeue (Machine.works_restrict.2 ⟨hp, hw⟩) hkeep
        fun hmem => hq (List.mem_filter.1 hmem).1
    · rw [Machine.restrict_enqueue_of_not _ hp, Machine.restrict_adjust_of_not _ _ hp,
        Machine.restrict_adjust_of_not _ _ hp]
      refine .leave fun q hq => hp ?_
      obtain ⟨hPq, hq⟩ := Machine.works_restrict.1 hq
      rwa [works_unique hw hq]

theorem parted_retires (h : m.Parted P θ) (hr : Policy.priority.Retires m n) : n.Parted P θ := by
  intro p y hy
  obtain ⟨x, hx, -⟩ := (Machine.follows_retires hr).of hy
  rw [h p x hx, ← Simulation.priorityOf_of hx, ← Simulation.priorityOf_of hy,
    Simulation.priorityOf_retires hr]

/-- Where the named processes are the more urgent ones, a decision for one of them is made among
them alone, and one for another leaves the CPU idle among them. -/
theorem Decides.restrict (hm : m.Filed)
    (hunf : ∀ p x, m.process? p = some x → x.status = .running → x.isDone = false)
    (h : m.Parted P θ) (hd : Policy.priority.Decides m n d) :
    Policy.priority.Decides (m.restrict P) (n.restrict P) (d.restrict P) := by
  cases hd with
  | keep _ hkeep => cases hkeep
  | idle hr hempty =>
    refine .idle hr.restrict ?_
    exact List.filter_eq_nil_iff.2 fun q hq => absurd (hempty ▸ hq) List.not_mem_nil
  | @pick k p x hr hbest hx hs =>
    have hr' := hr.restrict (P := P)
    have hk := (hm.retires hunf hr).1
    have hparted := parted_retires h hr
    change k.process? p = some x at hx
    by_cases hp : P p
    · have hbest' := Machine.firstBest_restrict (P := P) (m := k) hbest hp
      have hx' : (k.restrict P).process? p = some x := by
        rw [Machine.process?_restrict, if_pos hp, hx]
      rw [Machine.restrict_seat, Machine.restrict_dequeue, Machine.restrict_put,
        show (some p).filter P = some p from Option.filter_some_pos hp,
        show (Decision.pick p (x.turn .running)).restrict P = .pick p (x.turn .running) from
          if_pos hp]
      exact .pick hr' hbest' hx' hs
    · have hempty : k.ready.pids.filter P = [] := by
        refine List.filter_eq_nil_iff.2 fun q hq hPq => ?_
        obtain ⟨y, hy⟩ := Machine.exists_record ((hk.mem_ready q).1 hq)
        have hle := Machine.le_of_firstBest hbest hx q hq y hy
        have hq := (hparted q y hy).1 hPq
        exact hp ((hparted p x hx).2 (Nat.le_trans hq hle))
      rw [Machine.restrict_seat, Machine.restrict_dequeue_of_not _ hp,
        Machine.restrict_put_of_not _ hp,
        show (some p).filter P = none from Option.filter_some_neg (by simpa using hp),
        show (Decision.pick p (x.turn .running)).restrict P = .idle from if_neg hp]
      exact .idle hr' hempty

end Policy

/-! ## Requests and releases -/

namespace Protocol

variable {κ : Protocol} {m n : Machine} {o : Option Pid} {reply : Reply}

/-- The request of a named process for what none of the others owns is one of the restricted
machine. -/
theorem Acquires.restrict (hp : P p) (ho : ∀ o, m.resources.owner? r = some o → P o)
    (h : κ.Acquires m r p n reply) :
    κ.Acquires (m.restrict P) r p (n.restrict P) reply := by
  have known : ∀ {q x}, P q → m.process? q = some x → (m.restrict P).process? q = some x := by
    intro q x hq hx
    rw [Machine.process?_restrict, if_pos hq, hx]
  cases h with
  | granted hr hfree hx =>
    rw [Machine.restrict_own, Machine.restrict_adjust,
      show (some p).filter P = some p from Option.filter_some_pos hp]
    refine .granted ?_ ?_ (known hp hx)
    · rwa [show (m.restrict P).resources.size = _ from ResourceTable.size_restrict]
    · rw [Machine.owner?_restrict, hfree]
      rfl
  | @blocked o x howned hne hx hknown hw =>
    have hPo := ho o howned
    rw [Machine.restrict_park _ _ hp, Machine.restrict_adjust, Machine.restrict_adjust]
    refine .blocked ?_ hne (known hp hx) (fun hκ => ?_) fun hmem => hw ?_
    · rw [Machine.owner?_restrict, howned, Option.filter_some_pos hPo]
    · obtain ⟨y, hy⟩ := hknown hκ
      exact ⟨y, known hPo hy⟩
    · rw [Machine.waiters_restrict] at hmem
      exact (List.mem_filter.1 hmem).1

/-- The request of another process for what no named process owns does not show. -/
theorem Acquires.restrict_of_not (hp : ¬ P p) (ho : ∀ o, m.resources.owner? r = some o → ¬ P o)
    (h : κ.Acquires m r p n reply) : n.restrict P = m.restrict P := by
  cases h with
  | granted _ hfree _ =>
    rw [Machine.restrict_own, Machine.restrict_adjust_of_not _ _ hp,
      show (some p).filter P = none from Option.filter_some_neg (by simpa using hp)]
    refine Machine.own_none_eq_self ?_
    rw [Machine.owner?_restrict, hfree]
    rfl
  | @blocked o _ howned =>
    rw [Machine.restrict_park_of_not _ _ hp, Machine.restrict_adjust_of_not _ _ hp,
      Machine.restrict_adjust_of_not _ _ (ho o howned)]

theorem restrict_freed : (κ.freed m r p).restrict P = κ.freed (m.restrict P) r p := by
  rw [freed, Machine.restrict_adjust, Machine.restrict_own]
  rfl

/-- The release of what only named processes wait for is one of the restricted machine. -/
theorem Releases.restrict (hp : P p) (hw : ∀ w ∈ m.resources.waiters r, P w)
    (h : κ.Releases m r p n o) : κ.Releases (m.restrict P) r p (n.restrict P) o := by
  have howned : m.resources.owner? r = some p → (m.restrict P).resources.owner? r = some p := by
    intro ho
    rw [Machine.owner?_restrict, ho, Option.filter_some_pos hp]
  cases h with
  | quiet ho hempty =>
    rw [restrict_freed]
    refine .quiet (howned ho) ?_
    rw [Machine.waiters_restrict, hempty]
    rfl
  | @wake w y ho hbest hy hs hready =>
    have hPw := hw w hbest.mem
    have hbest := Machine.firstBest_restrict hbest hPw
    rw [restrict_freed, ← Machine.waiters_restrict] at hbest
    have hy : (κ.freed (m.restrict P) r p).process? w = some y := by
      rw [← restrict_freed, Machine.process?_restrict, if_pos hPw, hy]
    rw [Machine.restrict_enqueue _ hPw, Machine.restrict_adjust, Machine.restrict_unpark,
      restrict_freed]
    exact .wake (howned ho) hbest hy hs fun hmem => hready (List.mem_filter.1 hmem).1

/-- The release by another process of what no named process waits for does not show. -/
theorem Releases.restrict_of_not (hp : ¬ P p) (hw : ∀ w ∈ m.resources.waiters r, ¬ P w)
    (h : κ.Releases m r p n o) : n.restrict P = m.restrict P := by
  have hfreed : (κ.freed m r p).restrict P = m.restrict P := by
    rw [freed, Machine.restrict_adjust_of_not _ _ hp, Machine.restrict_own]
    refine Machine.own_none_eq_self ?_
    rw [Machine.owner?_restrict, h.owned, Option.filter_some_neg (by simpa using hp)]
  cases h with
  | quiet => exact hfreed
  | @wake w _ _ hbest =>
    have hPw := hw w hbest.mem
    rw [Machine.restrict_enqueue_of_not _ hPw, Machine.restrict_adjust_of_not _ _ hPw,
      Machine.restrict_unpark_of_not _ _ hPw, hfreed]

end Protocol

end Uniprocessor
