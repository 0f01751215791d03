import Uniprocessor.Proofs.Audit
/-
  The machine under any sequence of calls.

  A run asks one strategy in a fixed order.  Here the calls come in any order, and each is made
  under a strategy of its own, so that decisions also meet a process on the CPU that has blocked or
  has terminated.  `Call.Allowed` is what a caller has to see to before a call, and `Permitted`
  says that a sequence of calls is made by such a caller.

  `Machine.Proper` is the invariant.  It is stronger than what the audit looks at: a process that
  has not terminated has work left (`ProcessRecord.Proper`), so that nothing finished is found
  running or queued.  `Proper.run` is the step and `Proper.runAll` the sequence.

  Proved: `calls_pass_audit`.
-/

namespace Uniprocessor

/-- Lets the process on the CPU use one tick of it; the process terminates when its lifespan is used
up. -/
def Machine.drive (m : Machine) : Except Fault Machine :=
  match m.current with
  | none => .ok m
  | some p => do
    let (m, _) ← m.grow p
    if (← m.process p).isDone then m.update p (.turn .terminated) else return m

/-- A call that changes a machine. -/
inductive Call where
  | arrive (job : Job)
  | schedule (strategy : Strategy)
  /-- The process on the CPU requests a resource. -/
  | acquire (strategy : Strategy) (resource : ResourceId)
  /-- The process on the CPU gives a resource back. -/
  | release (strategy : Strategy) (resource : ResourceId)
  | drive
  deriving DecidableEq

namespace Call

/-- What becomes of a machine by a call. -/
def run (m : Machine) : Call → Except Fault Machine
  | .arrive j => m.fork j
  | .schedule s => do return (← s.schedule m).1
  | .acquire s r => do return (← s.acquire m r).1
  | .release s r => do return (← s.release m r).1
  | .drive => m.drive

/-- What becomes of a machine by calls in order. -/
def runAll : List Call → Machine → Except Fault Machine
  | [], m => .ok m
  | c :: calls, m => do runAll calls (← c.run m)

/-- What the caller has to see to: a job that arrives is new and has work, a request and a release
are those of a running process and make sense for it, and a process does not use up its lifespan
while it owns something. -/
def Allowed (m : Machine) : Call → Prop
  | .arrive j => m.process? j.pid = none ∧ 0 < j.lifespan ∧ j.InRange
  | .schedule _ => True
  | .acquire _ r => ∃ p ∈ m.current, m.status? p = some .running ∧ r.val < m.resources.size ∧
      m.resources.owner? r ≠ some p
  | .release _ r => ∃ p ∈ m.current, m.status? p = some .running ∧ m.resources.owner? r = some p
  | .drive => ∃ p ∈ m.current, ∃ x ∈ m.process? p, x.status = .running ∧
      (x.lifespan ≤ x.age + 1 → m.resources.ownedBy p = [])

/-- Every call of the sequence is allowed on the machine on which it is made. -/
def Permitted : Machine → List Call → Prop
  | _, [] => True
  | m, c :: calls => c.Allowed m ∧ ∀ n, c.run m = .ok n → Permitted n calls

instance (m : Machine) (c : Call) : Decidable (c.Allowed m) := by
  cases c <;> unfold Allowed <;> infer_instance

instance decidablePermitted : (m : Machine) → (calls : List Call) → Decidable (Permitted m calls)
  | _, [] => .isTrue trivial
  | m, c :: calls =>
    if h : c.Allowed m then
      match hn : c.run m with
      | .error _ => .isTrue ⟨h, fun n hn' => by rw [hn] at hn'; cases hn'⟩
      | .ok n => match decidablePermitted n calls with
        | .isTrue hp => .isTrue ⟨h, fun k hk => by rw [hn] at hk; cases hk; exact hp⟩
        | .isFalse hp => .isFalse fun hall => hp (hall.2 n hn)
    else .isFalse fun hall => h hall.1

end Call

/-- The priority bounds fit their words. -/
def Limits.InRange (limits : Limits) : Prop :=
  limits.maxPriority < priorityBound ∧ limits.agingCap < priorityBound

instance (limits : Limits) : Decidable limits.InRange := by unfold Limits.InRange; infer_instance

/-- What calls keep of a record. -/
structure ProcessRecord.Proper (x : ProcessRecord) : Prop where
  unfinished : x.status ≠ .terminated → x.age < x.lifespan
  lifespan : x.lifespan < tickBound
  inRange : x.InRange

namespace Machine

/-- What calls keep of a machine. -/
structure Proper (m : Machine) : Prop where
  filed : m.Filed
  records : m.All ProcessRecord.Proper
  limits : m.limits.InRange

variable {m n : Machine} {p : Pid} {r : ResourceId} {x : ProcessRecord}

theorem ownedBy_eq_nil : m.resources.ownedBy p = [] ↔ ∀ r, m.resources.owner? r ≠ some p := by
  simp only [ResourceTable.ownedBy, List.map_eq_nil_iff, List.filter_eq_nil_iff,
    decide_eq_true_eq, Prod.forall, ResourceTable.mem_indexed]
  constructor
  · intro h r ho
    obtain ⟨x, hx⟩ := ResourceTable.get?_eq_some (ResourceTable.owner?_lt ho)
    exact h r x hx (ResourceTable.owner?_eq hx ▸ ho)
  · intro h r x hx ho
    exact h r (ResourceTable.owner?_eq hx ▸ ho)

/-- A process uses one tick of the CPU, and terminates if that was its last. -/
theorem drive_eq_ok (hcur : m.current = some p) (hx : m.process? p = some x) :
    m.drive = .ok n ↔ x.age + 1 < tickBound ∧
      n = if x.lifespan ≤ x.age + 1
        then (m.adjust p (.aged (x.age + 1))).adjust p (.turn .terminated)
        else m.adjust p (.aged (x.age + 1)) := by
  have hgrown : (m.adjust p (.aged (x.age + 1))).process? p = some (x.aged (x.age + 1)) := by
    rw [process?_adjust, if_pos rfl, hx]
    rfl
  have hturn : (m.adjust p (.aged (x.age + 1))).update p (.turn .terminated) =
      .ok ((m.adjust p (.aged (x.age + 1))).adjust p (.turn .terminated)) :=
    (update_eq_adjust ..).2 ⟨⟨_, hgrown⟩, rfl⟩
  have hdone : (x.aged (x.age + 1)).isDone = true ↔ x.lifespan ≤ x.age + 1 :=
    ProcessRecord.isDone_iff
  unfold drive
  simp only [hcur, bind_eq_ok, Prod.exists, grow_eq_ok, hx, Option.some.injEq]
  constructor
  · rintro ⟨_, _, ⟨_, rfl, hb, rfl, rfl⟩, y, hy, hn⟩
    rw [process_eq_ok, hgrown, Option.some.injEq] at hy
    subst hy
    refine ⟨hb, ?_⟩
    simp only [hdone] at hn
    split at hn
    · next hlast =>
      rw [hturn, Except.ok.injEq] at hn
      rw [if_pos hlast, hn]
    · next hlast => rw [if_neg hlast, pure_eq_ok.1 hn]
  · rintro ⟨hb, rfl⟩
    refine ⟨_, _, ⟨x, rfl, hb, rfl, rfl⟩, _, process_eq_ok.2 hgrown, ?_⟩
    simp only [hdone]
    split
    · exact hturn
    · rfl

namespace Proper

theorem start (count : Nat) {limits : Limits} (hl : limits.InRange) :
    (Machine.start count limits).Proper where
  filed := .start count limits
  records p x hx := by cases hx
  limits := hl

theorem unfinished_running (h : m.Proper) :
    ∀ p x, m.process? p = some x → x.status = .running → x.isDone = false := by
  intro p x hx hs
  simpa [ProcessRecord.isDone] using (h.records p x hx).unfinished (by simp [hs])

/-- A change of statuses and priorities alone, in which nobody comes back to life. -/
theorem follows (h : m.Proper) (hn : n.Filed) (hf : m.Follows n) (hs : m.Steady n)
    (ht : ∀ p, m.status? p = some .terminated → n.status? p = some .terminated)
    (hr : n.All ProcessRecord.InRange) : n.Proper where
  filed := hn
  records p y hy := by
    obtain ⟨x, hx, s, k, rfl⟩ := hf.of hy
    refine ⟨fun hne => (h.records p x hx).unfinished fun hxt => hne ?_, (h.records p x hx).lifespan,
      hr p _ hy⟩
    have := ht p (status?_eq_some.2 ⟨x, hx, hxt⟩)
    rwa [status?_of hy, Option.some.injEq] at this
  limits := hs.limits ▸ h.limits

theorem inRange (h : m.Proper) : m.All ProcessRecord.InRange :=
  fun p x hx => (h.records p x hx).inRange

theorem enroll (h : m.Proper) {j : Job} (hnew : m.process? j.pid = none) (hj : 0 < j.lifespan)
    (hr : j.InRange) : (m.enroll j).Proper where
  filed := h.filed.enroll hnew
  records q y hy := by
    rw [process?_enroll] at hy
    split at hy
    · cases hy
      exact ⟨fun _ => hj, hr.2.2.1, hr.2.2.2.1, hr.2.2.2.1⟩
    · exact h.records q y hy
  limits := h.limits

theorem decides {π : Policy} {d : Decision} (h : m.Proper) (hd : π.Decides m n d) : n.Proper :=
  h.follows (h.filed.decides h.unfinished_running hd) (follows_decides hd) hd.steady
    (fun _ => terminated_decides hd)
    (h.inRange.decides (fun _ _ hx => hx) (fun _ hx => hx.reset)
      (fun _ hx => hx.bump h.limits.2) hd)

theorem acquires {κ : Protocol} {reply : Reply} (h : m.Proper) (hp : m.status? p = some .running)
    (ha : κ.Acquires m r p n reply) : n.Proper :=
  h.follows (h.filed.acquires hp ha) (follows_acquires ha) ha.steady
    (fun _ => terminated_acquires ha hp)
    (h.inRange.acquires (fun _ _ hx => hx) (fun _ hx => hx.promote h.limits.1)
      (fun _ _ hx hy => hy.raise hx.1) ha)

theorem releases {κ : Protocol} {o : Option Pid} (h : m.Proper) (hr : κ.Releases m r p n o) :
    n.Proper :=
  h.follows (h.filed.releases hr) (follows_releases hr) hr.steady
    (fun _ hq => status?_released hr hq (by simp))
    (h.inRange.releases (fun _ _ hx => hx) (fun _ hx => hx.relax) hr)

/-- A process with more than one tick of work left uses one. -/
theorem grow (h : m.Proper) (hx : m.process? p = some x) (hlt : x.age + 1 < x.lifespan) :
    (m.adjust p (.aged (x.age + 1))).Proper where
  filed := h.filed.adjust fun _ => rfl
  records := h.records.adjust fun y hy => by
    rw [hx] at hy
    cases hy
    exact ⟨fun _ => hlt, (h.records p x hx).lifespan, (h.records p x hx).inRange⟩
  limits := h.limits

/-- A process uses its last tick and terminates; it owns nothing. -/
theorem exhaust (h : m.Proper) (hp : m.status? p = some .running)
    (ho : m.resources.ownedBy p = []) (a : Nat) :
    ((m.adjust p (.aged a)).adjust p (.turn .terminated)).Proper where
  filed := by
    have hage : ∀ x : ProcessRecord, (x.aged a).status = x.status := fun _ => rfl
    exact (h.filed.adjust hage).finish (by rw [status?_adjust hage, hp]) (ownedBy_eq_nil.1 ho)
  records q y hy := by
    rw [process?_adjust, process?_adjust] at hy
    split at hy
    · obtain ⟨_, hz, rfl⟩ := Option.map_eq_some_iff.1 hy
      obtain ⟨x, hx, rfl⟩ := Option.map_eq_some_iff.1 hz
      exact ⟨fun hne => absurd rfl hne, (h.records q x hx).lifespan, (h.records q x hx).inRange⟩
    · exact h.records q y hy
  limits := h.limits

theorem drive (h : m.Proper) (hcur : m.current = some p) (hx : m.process? p = some x)
    (hs : x.status = .running) (ho : x.lifespan ≤ x.age + 1 → m.resources.ownedBy p = []) :
    ∃ n, m.drive = .ok n ∧ n.Proper := by
  have hage := (h.records p x hx).unfinished (by simp [hs])
  have hlifespan := (h.records p x hx).lifespan
  refine ⟨_, (drive_eq_ok hcur hx).2 ⟨by omega, rfl⟩, ?_⟩
  split
  · next hdone => exact h.exhaust (status?_eq_some.2 ⟨x, hx, hs⟩) (ho hdone) _
  · next hdone => exact h.grow hx (by omega)

/-! ## Calls -/

/-- An allowed call does not fail. -/
theorem run (h : m.Proper) {c : Call} (hc : c.Allowed m) : ∃ n, c.run m = .ok n ∧ n.Proper := by
  cases c with
  | arrive j =>
    obtain ⟨hnew, hj, hr⟩ := hc
    refine ⟨_, (fork_eq_ok ..).2 ⟨hnew, fun hmem => ?_, rfl⟩, h.enroll hnew hj hr⟩
    obtain ⟨x, hx⟩ := exists_record ((h.filed.mem_ready _).1 hmem)
    rw [hnew] at hx
    cases hx
  | schedule s =>
    obtain ⟨n, d, hn⟩ := h.filed.exists_schedule (π := s.policy)
    exact ⟨n, bind_eq_ok.2 ⟨(n, d), hn, rfl⟩, h.decides (Policy.schedule_decides hn)⟩
  | acquire s r =>
    obtain ⟨p, hcur, hp, hr, ho⟩ := hc
    obtain ⟨n, reply, hn⟩ := h.filed.exists_acquire (κ := s.protocol) hp hr ho
    exact ⟨n, bind_eq_ok.2 ⟨(n, reply), Strategy.acquire_eq_ok.2 ⟨p, hcur, hn⟩, rfl⟩,
      h.acquires hp (Protocol.acquire_acquires hn)⟩
  | release s r =>
    obtain ⟨p, hcur, -, ho⟩ := hc
    obtain ⟨n, o, hn⟩ := h.filed.exists_release (κ := s.protocol) ho
    exact ⟨n, bind_eq_ok.2 ⟨(n, o), Strategy.release_eq_ok.2 ⟨p, hcur, hn⟩, rfl⟩,
      h.releases (Protocol.release_releases hn)⟩
  | drive =>
    obtain ⟨p, hcur, x, hx, hs, ho⟩ := hc
    exact h.drive hcur hx hs ho

/-- The machine after the first calls of a permitted sequence. -/
theorem runAll {calls done : List Call} (h : m.Proper) (hc : Call.Permitted m calls)
    (hd : done <+: calls) : ∃ n, Call.runAll done m = .ok n ∧ n.Proper := by
  induction done generalizing m calls with
  | nil => exact ⟨m, rfl, h⟩
  | cons c done ih =>
    obtain ⟨rest, rfl, hrest⟩ := List.cons_prefix_iff.1 hd
    obtain ⟨n, hn, hproper⟩ := h.run hc.1
    obtain ⟨k, hk, hk'⟩ := ih hproper (hc.2 n hn) hrest
    exact ⟨k, bind_eq_ok.2 ⟨n, hn, hk⟩, hk'⟩

end Proper

end Machine

/-- Whatever is called in whatever order and under whichever strategies, no call fails as long as
the caller keeps to what is allowed, the audit passes after every call, and every priority fits its
word. -/
theorem calls_pass_audit (count : Nat) {limits : Limits} (hl : limits.InRange) {calls : List Call}
    (h : Call.Permitted (.start count limits) calls) :
    ∀ done, done <+: calls → ∃ m, Call.runAll done (.start count limits) = .ok m ∧
      m.audit = .ok () ∧ m.All ProcessRecord.InRange := by
  intro done hdone
  obtain ⟨m, hm, hproper⟩ := (Machine.Proper.start count hl).runAll h hdone
  exact ⟨m, hm, hproper.filed.audit_eq_ok, hproper.inRange⟩

/-- Calls in which decisions meet an empty CPU and one whose process has blocked or terminated, and
a hold that changes its protocol. -/
def Call.mixed : List Call :=
  [.schedule .fifo,
    .arrive ⟨⟨1⟩, "low", 0, 2, 1, []⟩, .arrive ⟨⟨2⟩, "high", 0, 1, 9, []⟩,
    .schedule .fifo, .acquire .priorityCeiling ⟨0⟩, .schedule .roundRobin,
    .acquire .priorityInheritance ⟨0⟩, .schedule .priority, .release .priorityCeiling ⟨0⟩, .drive,
    .schedule .priorityAging, .acquire .fifo ⟨0⟩, .release .shortestJob ⟨0⟩, .drive,
    .schedule .shortestRemaining, .drive, .schedule .fifo]

theorem calls_pass_audit_mixed :
    (⟨100, 99⟩ : Limits).InRange ∧ Call.Permitted (.start 1 ⟨100, 99⟩) Call.mixed ∧
      ∀ done, done <+: Call.mixed → ∃ m, Call.runAll done (.start 1 ⟨100, 99⟩) = .ok m ∧
        m.audit = .ok () ∧ m.All ProcessRecord.InRange :=
  ⟨by decide, by decide, calls_pass_audit 1 (by decide) (by decide)⟩

end Uniprocessor
