import Mathlib.Logic.Function.Basic
import Uniprocessor.Proofs.CriticalSection
import Uniprocessor.Proofs.Turns
/-
  Policies that leave the CPU to a process until it is done.

  Under such a policy a process that has begun to work is the one on the CPU, and so is a process
  that owns something: nobody else has ever run (`Moment.Exclusive`).  So no request fails, nobody
  waits, and what is left of a move is what it does to the queue, to the process on the CPU and to
  the time (`Serves`, `serves_move`).  All that follows is read off this relation.

  * `Path.exclusive`: at every moment of a run.
  * `Path.spell`: the runs of a process follow one another tick by tick.
  * `Path.seated_once`: a process is put on the CPU at most once.

  Main statement: `keepers_never_contend`.
-/

namespace Uniprocessor

/-- Some of the work of `p` has been done, and some is left. -/
def Machine.Begun (m : Machine) (p : Pid) : Prop :=
  ∃ x, m.process? p = some x ∧ 0 < x.age ∧ x.age < x.lifespan

namespace Machine

variable {m : Machine} {p : Pid} {x : ProcessRecord}

/-! ## Statuses as functions -/

theorem status?_enroll_update (k : Job) :
    (m.enroll k).status? = Function.update m.status? k.pid (some .ready) := by
  funext q
  rw [status?_enroll, Function.update_apply]
  exact if_congr eq_comm rfl rfl

theorem status?_put_update (hx : m.process? p ≠ none) :
    (m.put p x).status? = Function.update m.status? p (some x.status) := by
  funext q
  rw [status?_put, Function.update_apply]
  by_cases hpq : p = q
  · obtain ⟨y, hy⟩ := Option.ne_none_iff_exists'.1 hx
    rw [if_pos hpq, if_pos hpq.symm, ← hpq, status?_of hy]
    rfl
  · rw [if_neg hpq, if_neg (Ne.symm hpq)]

theorem status?_turn_update {st : Status} (hp : m.status? p ≠ none) :
    (m.adjust p (.turn st)).status? = Function.update m.status? p (some st) := by
  funext q
  rw [status?_turn, Function.update_apply]
  by_cases hpq : p = q
  · obtain ⟨st, hst⟩ := Option.ne_none_iff_exists'.1 hp
    rw [if_pos hpq, if_pos hpq.symm, ← hpq, hst]
    rfl
  · rw [if_neg hpq, if_neg (Ne.symm hpq)]

end Machine

namespace Simulation

variable {s : Strategy} {c : Scenario} {a b : Moment} {l : List Activity} {m n : Machine}
variable {p q : Pid} {r : ResourceId} {d : Decision} {π : Policy} {j : Journal}

/-! ## Moves -/

/-- What is to be seen of a moment by one who does not look at resources. -/
structure View where
  tick : Nat
  queue : List Pid
  status : Pid → Option Status
  age : Pid → Nat
  pending : List Job

def Moment.view (a : Moment) : View where
  tick := a.machine.tick
  queue := a.machine.ready.pids
  status := a.machine.status?
  age := a.machine.ageOf
  pending := a.pending

/-- No process runs in these activities, and none is put on the CPU. -/
def Quiet (l : List Activity) : Prop :=
  ∀ e ∈ eventsOf l, ¬ e.Runs ∧ ∀ o q, e ≠ .switched o (some q)

/-- What a move does under a policy that leaves the CPU to a process until it is done. -/
inductive Serves (π : Policy) (a : Moment) (l : List Activity) (b : Moment) : Prop
  | arrive {k : Job} : Quiet l → a.phase = .arriving → b.phase = .arriving →
      a.pending = k :: b.pending → k.start ≤ a.machine.tick → a.machine.status? k.pid = none →
      b.view = { a.view with
        queue := a.view.queue ++ [k.pid]
        status := Function.update a.view.status k.pid (some .ready)
        pending := b.pending } → Serves π a l b
  | begin : Quiet l → a.phase = .arriving → b.phase = .deciding →
      (∀ k ∈ a.pending.head?, a.machine.tick < k.start) → b.view = a.view → Serves π a l b
  | idle : Quiet l → a.phase = .deciding → b.phase = .closing false →
      (∀ q, a.machine.status? q ≠ some .running) → a.machine.ready.pids = [] →
      b.view = a.view → Serves π a l b
  | pick {p : Pid} {o : Option Pid} {d : Decision} {due : List ResourceId} :
      l = [.decided o d] → d.next = some p → a.phase = .deciding →
      b.phase = .requesting d p due → (∀ q, a.machine.status? q ≠ some .running) →
      FirstBest (a.machine.Beats π.beats) p a.machine.ready.pids →
      b.view = { a.view with
        queue := a.view.queue.erase p
        status := Function.update a.view.status p (some .running) } → Serves π a l b
  /-- The process on the CPU stays there, and maybe obtains or gives back a resource. -/
  | stay : Quiet l → a.phase ≠ .arriving → b.phase ≠ .arriving → b.phase ≠ .closing false →
      b.phase.turns = a.phase.turns → b.view = a.view → Serves π a l b
  | run {p : Pid} {k : Nat} : l = [.ran p k] → a.phase ≠ .arriving → a.phase.turns = 0 →
      b.phase.turns = 1 → a.machine.status? p = some .running → k = a.machine.ageOf p + 1 →
      b.view = { a.view with age := Function.update a.view.age p k } → Serves π a l b
  | exit {p : Pid} : Quiet l → a.phase ≠ .arriving → a.phase.turns = 1 →
      b.phase = .closing true → a.machine.status? p = some .running →
      (∃ x, a.machine.process? p = some x ∧ x.isDone = true) →
      b.view = { a.view with status := Function.update a.view.status p (some .terminated) } →
      Serves π a l b
  | close {ran : Bool} : Quiet l → a.phase = .closing ran → b.phase = .arriving →
      ¬ Over ran a.pending a.machine → b.view = { a.view with tick := a.view.tick + 1 } →
      Serves π a l b

/-- Nobody waits, and only the process on the CPU has begun to work or owns anything. -/
structure Moment.Exclusive (a : Moment) : Prop where
  quiet : ∀ r, a.machine.resources.waiters r = []
  fresh : ∀ p, a.view.status p = some .ready → a.view.age p = 0
  owner : ∀ r p, a.machine.resources.owner? r = some p → a.machine.status? p = some .running

/-- What a decision is under a policy that keeps processes on the CPU. -/
theorem decides_keeping (hπ : π.retirement = .keep) (hm : m.Filed)
    (hunf : ∀ p x, m.process? p = some x → x.status = .running → x.isDone = false)
    (hd : π.Decides m n d) :
    (∃ p, m.Works p ∧ d = .keep p ∧ n = m) ∨ (∀ q, m.status? q ≠ some .running) ∧
      (m.ready.pids = [] ∧ d = .idle ∧ n = m.seat none ∨
        ∃ p x, FirstBest (m.Beats π.beats) p m.ready.pids ∧ m.process? p = some x ∧
          x.status = .ready ∧ d = .pick p (x.turn .running) ∧
          n = (((m.put p (x.turn .running)).dequeue p).seat (some p))) := by
  have hripen (k : Machine) : π.ripen k = k := by
    refine if_neg ?_
    rintro rfl
    cases hπ
  have retired : ∀ {k : Machine}, π.Retires m k → k = m ∧ ∀ q, m.status? q ≠ some .running := by
    intro k hr
    have hn := (hm.retires hunf hr).2
    cases hr with
    | leave => exact ⟨rfl, hn⟩
    | requeue _ hne => exact absurd hπ hne
  cases hd with
  | keep hw => exact .inl ⟨_, hw, rfl, rfl⟩
  | idle hr hempty =>
    obtain ⟨rfl, hn⟩ := retired hr
    rw [hripen] at hempty ⊢
    exact .inr ⟨hn, .inl ⟨hempty, rfl, rfl⟩⟩
  | pick hr hbest hx hst =>
    obtain ⟨rfl, hn⟩ := retired hr
    rw [hripen] at hbest hx ⊢
    exact .inr ⟨hn, .inr ⟨_, _, hbest, hx, hst, rfl, rfl⟩⟩

theorem View.ext {v w : View} (htick : v.tick = w.tick) (hqueue : v.queue = w.queue)
    (hstatus : v.status = w.status) (hage : v.age = w.age) (hpending : v.pending = w.pending) :
    v = w := by
  cases v
  cases w
  simp only [View.mk.injEq]
  exact ⟨htick, hqueue, hstatus, hage, hpending⟩

/-- Who has another status than the one just given had it before. -/
theorem status_of_update {f : Pid → Option Status} {st st' : Status} (hne : st ≠ st')
    (h : Function.update f q (some st) p = some st') : p ≠ q ∧ f p = some st' := by
  have hpq : p ≠ q := by
    rintro rfl
    rw [Function.update_self] at h
    exact hne (Option.some.inj h)
  rw [Function.update_of_ne hpq] at h
  exact ⟨hpq, h⟩

theorem Moment.turns_view (a : Moment) : a.turns = a.view.tick + a.phase.turns := rfl

/-- Where nobody waits for a resource that another owns, no request fails. -/
theorem Moment.Exclusive.not_blocked (h : a.Exclusive) (hreg : a.Regular c) (hm : Move s a l b)
    {o : Pid} {i k : Nat} : .blocked q r o i k ∉ l := by
  intro hl
  obtain ⟨-, d, due, hphase, hn⟩ := hm.of_blocked hl
  obtain ⟨-, hreq⟩ := hreg.requests hphase
  obtain ⟨ho, hne⟩ := (hreq.acquires hn).blocker
  exact hne (hreg.filed.running_unique (h.owner r o ho) hreq.running)

theorem quiet_of_events {e : Event} (hl : eventsOf l = [e]) (he : ¬ e.Runs)
    (hs : ∀ o q, e ≠ .switched o (some q)) : Quiet l := by
  intro f hf
  rw [hl] at hf
  rw [List.mem_singleton.1 hf]
  exact ⟨he, hs⟩

/-- A decision does what it can do under such a policy. -/
theorem serves_decided {o : Option Pid} {φ : Phase} {u : List Job} {before : Machine}
    (hs : s.policy.retirement = .keep) (hreg : Moment.Regular c ⟨.deciding, m, before, u⟩)
    (hn : s.schedule m = .ok (n, d)) (ho : o = m.current) (hage : n.ageOf = m.ageOf)
    (hφ : d.next = none ∧ φ = .closing false ∨ ∃ p due, d.next = some p ∧ φ = .requesting d p due) :
    Serves s.policy ⟨.deciding, m, before, u⟩ [.decided o d] ⟨φ, n, before, u⟩ := by
  rcases decides_keeping hs hreg.filed hreg.scripted.unfinished_running
    (Policy.schedule_decides hn) with
    ⟨p, hw, rfl, rfl⟩ | ⟨hrun, ⟨hempty, rfl, rfl⟩ | ⟨p, x, hbest, hx, hst, rfl, rfl⟩⟩
  · rcases hφ with ⟨hnext, -⟩ | ⟨q, due, -, rfl⟩
    · cases hnext
    · refine .stay ?_ (by simp) (by simp) (by simp) rfl rfl
      have hcur : (Decision.keep p).next = o := hw.1.symm.trans ho.symm
      rw [Quiet, eventsOf_decided, if_pos hcur]
      simp
  · rcases hφ with ⟨-, rfl⟩ | ⟨q, due, hnext, -⟩
    · refine .idle (fun e he => ?_) rfl rfl hrun hempty rfl
      rw [mem_events_decided he]
      exact ⟨by simp [Event.Runs], by simp [Decision.next]⟩
    · cases hnext
  · rcases hφ with ⟨hnext, -⟩ | ⟨q, due, hnext, rfl⟩
    · cases hnext
    · obtain rfl : p = q := Option.some.inj hnext
      refine .pick rfl rfl rfl rfl hrun hbest (View.ext rfl rfl ?_ hage rfl)
      exact Machine.status?_put_update (by simp [hx])

theorem serves_move (hs : s.policy.retirement = .keep) (hreg : a.Regular c) (h : a.Exclusive)
    (hm : Move s a l b) : Serves s.policy a l b := by
  have hphase := hreg.phase
  have hgrown := fun q k => ageOf_ran (p := q) (n := k) hm
  have hothers := fun q => ageOf_move (p := q) hm
  have hage : (∀ q k, .ran q k ∉ l) → b.machine.ageOf = a.machine.ageOf :=
    fun hl => funext fun q => ageOf_move hm (hl q)
  cases hm with
  | @arrive m _ _ k u hk hn =>
    obtain ⟨hnew, -, rfl⟩ := Machine.fork_eq_ok.1 hn
    refine .arrive (quiet_of_events rfl (by simp [Event.Runs]) (by simp)) rfl rfl rfl hk ?_
      (View.ext rfl rfl (Machine.status?_enroll_update k) (hage (by simp)) rfl)
    simp [Machine.status?, hnew]
  | begin hu => exact .begin (by simp [Quiet, eventsOf]) rfl rfl hu rfl
  | idle hn hnone => exact serves_decided hs hreg hn rfl (hage (by simp)) (.inl ⟨hnone, rfl⟩)
  | dispatch hn hp =>
    exact serves_decided hs hreg hn rfl (hage (by simp)) (.inr ⟨_, _, hp, rfl⟩)
  | grant hn =>
    have ha := hphase.2.acquires hn
    refine .stay (quiet_of_events rfl (by simp [Event.Runs]) (by simp)) (by simp) (by simp)
      (by simp) rfl (View.ext ha.steady.tick (congrArg Queue.pids ha.ready) ?_ ?_ rfl)
    · exact funext fun q => Machine.status?_granted ha
    · exact hage (by simp [requestActivity])
  | block hn =>
    obtain ⟨ho, hne⟩ := (hphase.2.acquires hn).blocker
    exact absurd (hreg.filed.running_unique (h.owner _ _ ho) hphase.2.running) hne
  | @run m _ _ _ p k _ _ _ hn _ _ =>
    obtain ⟨hk, hpk⟩ := hgrown p k (List.mem_singleton_self _)
    obtain ⟨y, hy, -, -, rfl⟩ := Machine.grow_eq_ok.1 hn
    refine .run rfl (by simp) rfl rfl hphase.2.running hk (View.ext rfl rfl ?_ ?_ rfl)
    · exact funext fun q => Machine.status?_adjust fun _ => rfl
    · funext q
      change (m.adjust p (.aged k)).ageOf q = Function.update m.ageOf p k q
      rw [Function.update_apply]
      split
      · next hq => exact hq ▸ hpk
      · next hq => exact hothers q (by simp [hq])
  | @release _ _ _ p _ _ _ _ hn =>
    have hr := hphase.releases hn
    obtain rfl := hr.eq_none (h.quiet _)
    have hevents := events_release (p := p) hreg.filed hn
    refine .stay (quiet_of_events hevents (by simp [Event.Runs]) (by simp)) (by simp)
      (by simp) (by simp) rfl (View.ext hr.steady.tick ?_ ?_ ?_ rfl)
    · exact hr.ready.trans (List.append_nil _)
    · exact funext fun q => (Machine.status?_releases hr).trans (if_neg (by simp))
    · exact hage (by simp [releaseEntries])
  | remain =>
    exact .stay (by simp [Quiet, eventsOf]) (by simp) (by simp) (by simp) rfl rfl
  | @exit m _ p _ _ hx hd =>
    have hrun := hphase.running
    refine .exit (quiet_of_events rfl (by simp [Event.Runs]) (by simp)) (by simp) rfl rfl hrun
      ⟨_, hx, hd⟩ (View.ext rfl rfl ?_ (hage (by simp)) rfl)
    exact Machine.status?_turn_update (by simp [hrun])
  | close hover hn =>
    obtain ⟨-, rfl⟩ := Machine.advance_eq_ok.1 hn
    refine .close (fun e he => ?_) rfl rfl hover rfl
    rcases mem_events_closing he with rfl | ⟨_, _, _, rfl⟩ <;> simp [Event.Runs]

/-- What is on the CPU stays there until it is done. -/
theorem Serves.running (h : Serves π a l b) (hp : a.view.status p = some .running) :
    b.view.status p = some .running ∨ b.view.status p = some .terminated := by
  cases h with
  | arrive _ _ _ _ _ hnew hv =>
    rw [hv]
    refine .inl ((Function.update_of_ne ?_ _ _).trans hp)
    rintro rfl
    cases hnew.symm.trans hp
  | begin _ _ _ _ hv | stay _ _ _ _ _ hv => exact .inl (hv ▸ hp)
  | run _ _ _ _ _ _ hv | close _ _ _ _ hv =>
    rw [hv]
    exact .inl hp
  | idle _ _ _ hn | pick _ _ _ _ hn => exact absurd hp (hn p)
  | @exit q _ _ _ _ _ _ hv =>
    rw [hv]
    by_cases hpq : p = q
    · exact .inr (hpq ▸ Function.update_self _ _ _)
    · exact .inl ((Function.update_of_ne hpq _ _).trans hp)

/-- What is ready was so before, and as old, or has just arrived. -/
theorem Serves.ready (h : Serves π a l b) (hp : b.view.status p = some .ready) :
    a.view.status p = some .ready ∧ b.view.age p = a.view.age p ∨
      a.view.status p = none ∧ b.view.age p = a.view.age p := by
  cases h with
  | @arrive k _ _ _ _ _ hnew hv =>
    rw [hv] at hp ⊢
    by_cases hpk : p = k.pid
    · exact .inr ⟨hpk ▸ hnew, rfl⟩
    · exact .inl ⟨(Function.update_of_ne hpk _ _).symm.trans hp, rfl⟩
  | begin _ _ _ _ hv | idle _ _ _ _ _ hv | stay _ _ _ _ _ hv | close _ _ _ _ hv =>
    rw [hv] at hp ⊢
    exact .inl ⟨hp, rfl⟩
  | pick _ _ _ _ _ _ hv | exit _ _ _ _ _ _ hv =>
    rw [hv] at hp ⊢
    exact .inl ⟨(status_of_update (by simp) hp).2, rfl⟩
  | @run q k _ _ _ _ hrun _ hv =>
    rw [hv] at hp ⊢
    have hpq : p ≠ q := by
      rintro rfl
      cases hrun.symm.trans hp
    exact .inl ⟨hp, Function.update_of_ne hpq _ _⟩

theorem Moment.Exclusive.move (hs : s.policy.retirement = .keep) (hc : c.Valid)
    (hreg : a.Regular c) (h : a.Exclusive) (hm : Move s a l b) : b.Exclusive := by
  have hserves := serves_move hs hreg h hm
  refine ⟨fun r => ?_, fun p hp => ?_, fun r p ho => ?_⟩
  · refine List.eq_nil_iff_forall_not_mem.2 fun q hq => ?_
    have hold := waiters_move hreg hm (fun _ _ _ => h.not_blocked hreg hm) hq
    rw [h.quiet] at hold
    cases hold
  · rcases hserves.ready hp with ⟨hready, hage⟩ | ⟨hnew, hage⟩
    · exact hage.trans (h.fresh p hready)
    · refine hage.trans ?_
      change a.machine.ageOf p = 0
      rw [Machine.ageOf, Machine.age?_eq_none.2 (Option.map_eq_none_iff.1 hnew), Option.getD_none]
  · rcases owner_old_or_gained hreg hm ho with hold | ⟨k, hl⟩
    · refine (hserves.running (h.owner r p hold)).resolve_right ?_
      exact ((hreg.move hc hm).filed.owner_alive r p ho).2
    · obtain ⟨-, d, due, hphase, -, hn⟩ := hm.of_acquired hl
      obtain ⟨-, hreq⟩ := hreg.requests hphase
      rw [Machine.status?_granted (hreq.acquires hn)]
      exact hreq.running

theorem exclusive_opening (hc : c.Valid) : (opening c).moment.Exclusive where
  quiet _ := waiters_opening
  fresh _ _ := rfl
  owner r p ho := by
    obtain ⟨x, hx⟩ := Machine.status?_ne_none.1 ((regular_opening hc).filed.owner_alive r p ho).1
    cases hx

theorem Path.exclusive (hs : s.policy.retirement = .keep) (hc : c.Valid)
    (g : Path s (opening c).moment j a) : a.Exclusive :=
  (g.invariant (P := fun a => a.Regular c ∧ a.Exclusive)
    (fun _ _ _ ha hm => ⟨ha.1.move hc hm, ha.2.move hs hc ha.1 hm⟩)
    ⟨regular_opening hc, exclusive_opening hc⟩).2

/-- Who has begun and is not done is on the CPU. -/
theorem Path.running_of_begun (hs : s.policy.retirement = .keep) (hc : c.Valid)
    (g : Path s (opening c).moment j a) (hp : a.machine.Begun p) :
    a.machine.status? p = some .running := by
  have hreg := g.regular hc
  have hex := g.exclusive hs hc
  obtain ⟨x, hx, hpos, hlt⟩ := hp
  have hst := Machine.status?_of hx
  have hage := Machine.ageOf_of hx
  cases hx' : x.status with
  | running => rw [hst, hx']
  | ready =>
    rw [hx'] at hst
    have hzero : a.machine.ageOf p = 0 := hex.fresh p hst
    omega
  | waiting =>
    rw [hx'] at hst
    obtain ⟨r, hr⟩ := (hreg.filed.mem_waiters p).2 hst
    rw [hex.quiet] at hr
    cases hr
  | terminated =>
    rw [hx'] at hst
    obtain ⟨k, hk, rfl, hspan, -⟩ := (hreg.scripted.plays p x hx).job
    have hdone := g.age_terminated hc hk hst
    omega

/-! ## Spells -/

/-- The runs of `p` in these events follow one another tick by tick; and while `p` is on the CPU,
it has run in all its turns there. -/
def Spell (p : Pid) (es : List TraceEvent) (a : Moment) : Prop :=
  ∃ first, (∀ t k, ⟨t, .ran p k⟩ ∈ es → t + 1 = first + k) ∧
    (a.view.status p = some .running → first + a.view.age p = a.turns)

/-- Where `p` does not run, what is on the CPU afterwards must have been there for as many turns. -/
theorem Spell.still {es fs : List TraceEvent} (h : Spell p es a) (hfs : ∀ t k, ⟨t, .ran p k⟩ ∉ fs)
    (hsame : b.view.status p = some .running → a.view.status p = some .running ∧
      b.view.age p = a.view.age p ∧ b.turns = a.turns) : Spell p (es ++ fs) b := by
  obtain ⟨first, hpast, hnow⟩ := h
  refine ⟨first, fun t k hmem => ?_, fun hrun => ?_⟩
  · exact hpast t k ((List.mem_append.1 hmem).resolve_right (hfs t k))
  · obtain ⟨hbefore, hage, hturns⟩ := hsame hrun
    rw [hage, hturns]
    exact hnow hbefore

theorem Quiet.ran_not_mem (h : Quiet l) {t u k : Nat} :
    ⟨t, .ran p k⟩ ∉ within u (eventsOf l) := fun hmem =>
  (h _ (mem_within.1 hmem).2).1 ⟨p, k, rfl⟩

/-- What has not run is not in the trace. -/
theorem Path.not_ran (g : Path s (opening c).moment j a) (hp : a.machine.ageOf p = 0) {t k : Nat} :
    ⟨t, .ran p k⟩ ∉ j.events := by
  intro hmem
  have hages := mem_agesOf.2 ⟨t, hmem⟩
  rw [g.agesOf_run p, hp] at hages
  cases hages

/-- What is picked has not run, and so begins its spell. -/
theorem Path.spell_picked (hs : s.policy.retirement = .keep) (hc : c.Valid)
    (g : Path s (opening c).moment j a) (hready : a.view.status p = some .ready)
    {fs : List TraceEvent} (hfs : ∀ t k, ⟨t, .ran p k⟩ ∉ fs) (hage : b.view.age p = a.view.age p) :
    Spell p (j.events ++ fs) b := by
  have hfresh : a.view.age p = 0 := (g.exclusive hs hc).fresh p hready
  refine ⟨b.turns, fun t k hmem => ?_, fun _ => ?_⟩
  · rcases List.mem_append.1 hmem with hmem | hmem
    · exact absurd hmem (g.not_ran hfresh)
    · exact absurd hmem (hfs t k)
  · rw [hage, hfresh, Nat.add_zero]

/-- A turn on the CPU goes on with the spell. -/
theorem Spell.run {es : List TraceEvent} {k : Nat} (h : Spell p es a)
    (hrun : a.view.status p = some .running) (hk : k = a.view.age p + 1)
    (ha : a.turns = a.view.tick) (hb : b.turns = a.turns + 1) (hage : b.view.age p = k) :
    Spell p (es ++ [⟨a.view.tick, .ran p k⟩]) b := by
  obtain ⟨first, hpast, hnow⟩ := h
  have hfirst := hnow hrun
  refine ⟨first, fun t i hmem => ?_, fun _ => by omega⟩
  rcases List.mem_append.1 hmem with hmem | hmem
  · exact hpast t i hmem
  · cases List.mem_singleton.1 hmem
    omega

theorem Spell.move (hs : s.policy.retirement = .keep) (hc : c.Valid)
    (g : Path s (opening c).moment j a) (h : Spell p j.events a) (hm : Move s a l b) :
    Spell p (j ++ stamp a.machine.tick l).events b := by
  have hreg := g.regular hc
  rw [events_snoc]
  cases serves_move hs hreg (g.exclusive hs hc) hm with
  | arrive hq ha hb _ _ _ hv =>
    refine h.still (fun _ _ => hq.ran_not_mem) fun hrun => ?_
    rw [Moment.turns_view, Moment.turns_view, ha, hb]
    rw [hv] at hrun ⊢
    exact ⟨(status_of_update (by simp) hrun).2, rfl, rfl⟩
  | begin hq ha hb _ hv =>
    refine h.still (fun _ _ => hq.ran_not_mem) fun hrun => ?_
    rw [Moment.turns_view, Moment.turns_view, ha, hb]
    rw [hv] at hrun ⊢
    exact ⟨hrun, rfl, rfl⟩
  | idle hq _ _ hn _ hv =>
    refine h.still (fun _ _ => hq.ran_not_mem) fun hrun => ?_
    rw [hv] at hrun
    exact absurd hrun (hn p)
  | stay hq _ _ _ ht hv =>
    refine h.still (fun _ _ => hq.ran_not_mem) fun hrun => ?_
    rw [Moment.turns_view, Moment.turns_view, ht]
    rw [hv] at hrun ⊢
    exact ⟨hrun, rfl, rfl⟩
  | @pick q _ _ _ hl _ _ _ hn hbest hv =>
    have hnone : ∀ t k, ⟨t, .ran p k⟩ ∉ within a.machine.tick (eventsOf l) := by
      intro t k hmem
      rw [hl] at hmem
      cases mem_events_decided (mem_within.1 hmem).2
    by_cases hpq : p = q
    · subst hpq
      exact g.spell_picked hs hc ((hreg.filed.mem_ready p).1 hbest.mem) hnone (by rw [hv])
    · refine h.still hnone fun hrun => ?_
      rw [hv] at hrun
      exact absurd ((Function.update_of_ne hpq _ _).symm.trans hrun) (hn p)
  | @run q k hl _ ha hb hrun hk hv =>
    have hturns : a.turns = a.view.tick := by rw [Moment.turns_view, ha, Nat.add_zero]
    by_cases hpq : p = q
    · subst hpq
      rw [hl]
      refine h.run hrun hk hturns ?_ ?_
      · rw [hturns, Moment.turns_view, hb, hv]
      · rw [hv]
        exact Function.update_self _ _ _
    · refine h.still (fun t i hmem => ?_) fun hother => ?_
      · rw [hl] at hmem
        cases List.mem_singleton.1 (mem_within.1 hmem).2
        exact hpq rfl
      · rw [hv] at hother
        exact absurd (hreg.filed.running_unique hother hrun) hpq
  | exit hq _ ha hb _ _ hv =>
    refine h.still (fun _ _ => hq.ran_not_mem) fun hother => ?_
    rw [Moment.turns_view, Moment.turns_view, ha, hb]
    rw [hv] at hother ⊢
    exact ⟨(status_of_update (by simp) hother).2, rfl, rfl⟩
  | @close ran hq ha hb _ hv =>
    refine h.still (fun _ _ => hq.ran_not_mem) fun hrun => ?_
    rw [Moment.turns_view, Moment.turns_view, ha, hb]
    rw [hv] at hrun ⊢
    refine ⟨hrun, rfl, ?_⟩
    cases ran with
    | true => rfl
    | false =>
      have hcur := hreg.filed.running p hrun
      rw [g.unseated ha] at hcur
      cases hcur

/-- The runs of a process follow one another tick by tick. -/
theorem Path.spell (hs : s.policy.retirement = .keep) (hc : c.Valid)
    (g : Path s (opening c).moment j a) (p : Pid) : Spell p j.events a := by
  induction g with
  | refl => exact ⟨0, nofun, nofun⟩
  | snoc g hm ih => exact ih.move hs hc g hm

/-! ## Switches -/

/-- The number of times that these events put `p` on the CPU. -/
def seatings (p : Pid) (es : List TraceEvent) : Nat :=
  es.countP fun e => Trace.isSwitchTo p e.event

theorem seatings_of_no_switch {es : List TraceEvent}
    (h : ∀ e ∈ es, ∀ o, e.event ≠ .switched o (some p)) : seatings p es = 0 := by
  refine List.countP_eq_zero.2 fun e he => ?_
  have hne := h e he
  cases hev : e.event with
  | switched o k =>
    cases k with
    | none => simp [Trace.isSwitchTo]
    | some k =>
      have hkp : k ≠ p := fun hkp => hne o (hkp ▸ hev)
      simpa [Trace.isSwitchTo] using hkp
  | _ => simp [Trace.isSwitchTo]

theorem seatings_decided (t : Nat) (o : Option Pid) (d : Decision) :
    seatings p (within t (eventsOf [.decided o d])) ≤ 1 ∧
      (d.next ≠ some p → seatings p (within t (eventsOf [.decided o d])) = 0) := by
  constructor
  · refine Nat.le_trans List.countP_le_length ?_
    rw [eventsOf_decided]
    split <;> simp [within]
  · intro hp
    refine seatings_of_no_switch fun e he i hi => hp ?_
    rw [mem_events_decided (mem_within.1 he).2] at hi
    exact (Event.switched.inj hi).2

/-- A process is put on the CPU at most once, and not while it has yet to arrive or is ready. -/
theorem Path.seated_once (hs : s.policy.retirement = .keep) (hc : c.Valid)
    (g : Path s (opening c).moment j a) (p : Pid) :
    seatings p j.events ≤ 1 ∧ (a.view.status p = none ∨ a.view.status p = some .ready →
      seatings p j.events = 0) := by
  induction g with
  | refl => exact ⟨Nat.zero_le 1, fun _ => rfl⟩
  | @snoc d e j l g hm ih =>
    have hserves := serves_move hs (g.regular hc) (g.exclusive hs hc) hm
    obtain ⟨hle, hzero⟩ := ih
    have hback : e.view.status p = none ∨ e.view.status p = some .ready →
        d.view.status p = none ∨ d.view.status p = some .ready := by
      rintro (hp | hp)
      · refine .inl (Decidable.byContradiction fun hne => ?_)
        have hknown := known_move (p := p) hm fun hnone => hne (Option.map_eq_none_iff.2 hnone)
        exact hknown (Option.map_eq_none_iff.1 hp)
      · exact (hserves.ready hp).symm.imp And.left And.left
    have hsum : seatings p (j ++ stamp d.machine.tick l).events =
        seatings p j.events + seatings p (within d.machine.tick (eventsOf l)) := by
      rw [events_snoc, seatings, List.countP_append]
      rfl
    have still : seatings p (within d.machine.tick (eventsOf l)) = 0 →
        seatings p (j ++ stamp d.machine.tick l).events ≤ 1 ∧
          (e.view.status p = none ∨ e.view.status p = some .ready →
            seatings p (j ++ stamp d.machine.tick l).events = 0) := by
      intro hnew
      rw [hsum, hnew, Nat.add_zero]
      exact ⟨hle, fun hp => hzero (hback hp)⟩
    cases hserves with
    | arrive hq | begin hq | idle hq | stay hq | exit hq | close hq =>
      exact still (seatings_of_no_switch fun e he o => (hq _ (mem_within.1 he).2).2 o p)
    | run hl =>
      refine still (seatings_of_no_switch fun e he o => ?_)
      rw [hl] at he
      rw [List.mem_singleton.1 (mem_within.1 he).2]
      simp
    | @pick q o d' _ hl hnext _ _ _ hbest hv =>
      obtain ⟨hone, hother⟩ := seatings_decided (p := p) d.machine.tick o d'
      rw [← hl] at hone hother
      by_cases hpq : p = q
      · subst hpq
        have hready := ((g.regular hc).filed.mem_ready p).1 hbest.mem
        rw [hsum, hzero (.inr hready), Nat.zero_add, hv]
        refine ⟨hone, fun hp => ?_⟩
        change Function.update d.view.status p (some .running) p = none ∨
          Function.update d.view.status p (some .running) p = some .ready at hp
        rw [Function.update_self] at hp
        simp at hp
      · refine still (hother fun hp => hpq ?_)
        exact Option.some.inj (hp.symm.trans hnext)

/-! ## Runs -/

/-- Nobody blocks, and so nobody is woken. -/
theorem Path.uncontended (hs : s.policy.retirement = .keep) (hc : c.Valid)
    (g : Path s (opening c).moment j a) {t : Nat} :
    ⟨t, .blocked p r⟩ ∉ j.events ∧ ⟨t, .woke p r⟩ ∉ j.events := by
  constructor
  · intro hmem
    obtain ⟨d, f, i, l, hd, hm, he⟩ := g.exists_move hmem
    obtain ⟨x, hl, hx⟩ := mem_eventsOf.1 he
    obtain ⟨o, i, k, rfl⟩ := Activity.event?_eq_blocked.1 hx
    exact (hd.exclusive hs hc).not_blocked (hd.regular hc) hm hl
  · intro hmem
    obtain ⟨d, f, i, l, hd, hm, he⟩ := g.exists_move hmem
    have hreg := hd.regular hc
    rcases status_move hreg hm p with ⟨hkeep, -⟩ | ⟨hes, -⟩ | ⟨-, hwaiting, -⟩ | ⟨hes, -⟩
    · exact ((hkeep _ he).2 r).2 rfl
    · simp [hes] at he
    · obtain ⟨w, hw⟩ := (hreg.filed.mem_waiters p).2 hwaiting
      rw [(hd.exclusive hs hc).quiet] at hw
      cases hw
    · simp [hes] at he

/-- Where the ages count from 1 and go with the ticks, the process runs in as many ticks as it has
ages, one behind the other. -/
theorem mem_ran_of_consecutive {es : List TraceEvent} {first n t k : Nat}
    (hages : agesOf p es = List.range' 1 n)
    (hticks : ∀ t k, ⟨t, .ran p k⟩ ∈ es → t + 1 = first + k) :
    ⟨t, .ran p k⟩ ∈ es ↔ first ≤ t ∧ t < first + n ∧ t + 1 = first + k := by
  have hrange : k ∈ agesOf p es ↔ 1 ≤ k ∧ k < 1 + n := by rw [hages, List.mem_range'_1]
  constructor
  · intro hmem
    obtain ⟨hpos, hle⟩ := hrange.1 (mem_agesOf.2 ⟨t, hmem⟩)
    have ht := hticks t k hmem
    omega
  · rintro ⟨hle, hlt, ht⟩
    obtain ⟨u, hu⟩ := mem_agesOf.1 (hrange.2 ⟨by omega, by omega⟩)
    have hut := hticks u k hu
    obtain rfl : u = t := by omega
    exact hu

/-- Two processes have never begun at once. -/
theorem begun_unique (hs : s.policy.retirement = .keep) (hc : c.Valid) {k : Nat} {u : TickResult}
    (hk : tickAt s c k = some u) (hp : u.after.machine.Begun p) (hq : u.after.machine.Begun q) :
    p = q := by
  obtain ⟨e, g, he, -⟩ := tickAt_moment hc hk
  rw [← he] at hp hq
  exact (g.regular hc).filed.running_unique (g.running_of_begun hs hc hp)
    (g.running_of_begun hs hc hq)

end Simulation

open Simulation

variable {c : Scenario} {s : Strategy}

/-- A run under a policy that leaves the CPU to a process until it is done has no contention: no
request fails and nobody is woken.  Each process is put on the CPU at most once and runs there
tick by tick, and between two ticks one process at the most has begun and is not done. -/
theorem keepers_never_contend (hs : s = .fifo ∨ s = .shortestJob) (hc : c.Valid) :
    ∃ f, playAll s c = .ok f ∧
      (ResourceTable.CanAddress c.resourceCount →
        simulate s c = .ok ⟨traceOf c f, logOf s c f⟩) ∧
      (∀ t p r, ⟨t, .blocked p r⟩ ∉ (traceOf c f).events ∧
        ⟨t, .woke p r⟩ ∉ (traceOf c f).events) ∧
      (∀ p, (traceOf c f).scheduleCount p ≤ 1) ∧
      (∀ p, ∃ first, ∀ t k, ⟨t, .ran p k⟩ ∈ (traceOf c f).events ↔
        first ≤ t ∧ t < first + (traceOf c f).ranTicks p ∧ t + 1 = first + k) ∧
      ∀ k u, tickAt s c k = some u →
        ∀ p q, u.after.machine.Begun p → u.after.machine.Begun q → p = q := by
  have hs : s.policy.retirement = .keep := by
    rcases hs with rfl | rfl
    · rfl
    · rfl
  obtain ⟨f, hf⟩ := exists_playAll (s := s) hc
  obtain ⟨⟨b, g, -⟩, -⟩ := ends_unbroken hc (regular_opening hc) (playAll_ends hf)
  refine ⟨f, hf, fun ht => simulate_of_playAll hc ht hf, fun t p r => g.uncontended hs hc,
    fun p => (g.seated_once hs hc p).1, fun p => ?_, fun k u hk p q => begun_unique hs hc hk⟩
  obtain ⟨first, hticks, -⟩ := g.spell hs hc p
  have hcount : (traceOf c f).ranTicks p = b.machine.ageOf p := by
    change f.journal.events.countP _ = _
    rw [← length_agesOf, g.agesOf_run p, List.length_range']
  refine ⟨first, fun t k => ?_⟩
  rw [hcount]
  exact mem_ran_of_consecutive (g.agesOf_run p) hticks

/-- The urgent process needs what the other one holds, and gets it once that one is done. -/
theorem keepers_never_contend_contended :
    Scenario.contended.Valid ∧
      ∃ f, simulate .shortestJob .contended =
          .ok ⟨traceOf .contended f, logOf .shortestJob .contended f⟩ ∧
        ⟨3, .exited ⟨1⟩⟩ ∈ (traceOf .contended f).events ∧
        ⟨4, .acquired ⟨2⟩ ⟨0⟩⟩ ∈ (traceOf .contended f).events ∧
        (∀ t p r, ⟨t, .blocked p r⟩ ∉ (traceOf .contended f).events ∧
          ⟨t, .woke p r⟩ ∉ (traceOf .contended f).events) ∧
        ∀ p, (traceOf .contended f).scheduleCount p ≤ 1 := by
  have hvalid : Scenario.contended.Valid := by decide
  obtain ⟨f, hf, hsim, hquiet, hseated, -⟩ := keepers_never_contend (.inr rfl) hvalid
  have hplay : (playAll .shortestJob .contended).toOption.any (fun f =>
      decide (⟨3, .exited ⟨1⟩⟩ ∈ (traceOf .contended f).events ∧
        ⟨4, .acquired ⟨2⟩ ⟨0⟩⟩ ∈ (traceOf .contended f).events)) = true := by decide
  obtain ⟨hexited, hacquired⟩ := of_toOption_any hf hplay
  exact ⟨hvalid, f, hsim (by decide), hexited, hacquired, hquiet, hseated⟩

end Uniprocessor
