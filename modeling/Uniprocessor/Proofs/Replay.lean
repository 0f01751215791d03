import Uniprocessor.Proofs.Annals
/-
  A trace is a complete record of the state.

  An account is what can be told from events alone: the process on the CPU, the resources with their
  owners and wait-sets, and the age, the priority and the end of every process.  `Account.replay`
  starts from nothing and takes in one event after the other; it fails where an event does not fit
  the account, above all where a change of a priority does not start from the priority known so far.

  Each of the three parts follows the machine from move to move: the CPU (`seat_move`), the
  resources (`handle_move`) and the processes (`Profiled.move`).  Priorities are the exception:
  within a tick an account has them as they were when the last job of the tick had arrived, and it
  catches up when the tick closes (`Profiled.close`).  So an account shows the machine at
  the end of every tick (`Tracks.shows`).

  Main statement: `replay_shows_state`.
-/

namespace Uniprocessor

/-! ## Accounts -/

/-- What is told of a process. -/
structure Profile where
  age : Nat
  priority : Nat
  exited : Bool
  deriving DecidableEq

/-- What is told of a machine. -/
structure Account where
  current : Option Pid
  resources : ResourceTable
  processes : PidMap Profile
  deriving DecidableEq

/-- Changes what is told of a process; of a process that has not arrived nothing can be told. -/
def PidMap.revise (ps : PidMap Profile) (p : Pid) (f : Profile → Option Profile) :
    Option (PidMap Profile) :=
  ((ps.get? p).bind f).map fun x => ps.insert p x

namespace Event

/-- The resources behind an event. -/
def handle (t : ResourceTable) : Event → ResourceTable
  | .acquired p r => t.adjust r fun x => { x with owner := some p }
  | .released _ r => t.adjust r fun x => { x with owner := none }
  | .blocked p r => t.adjust r fun x => { x with waiters := ⟨x.waiters.pids ++ [p]⟩ }
  | .woke p r => t.adjust r fun x => { x with waiters := x.waiters.erase p }
  | _ => t

/-- The processes behind an event.  A process arrives with the priority that its job defines, and a
change of a priority starts from the one that is known. -/
def enter (c : Scenario) (ps : PidMap Profile) : Event → Option (PidMap Profile)
  | .forked p => (c.jobs.find? fun j => j.pid = p).map fun j => ps.insert p ⟨0, j.priority, false⟩
  | .ran p n => ps.revise p fun x => some { x with age := n }
  | .exited p => ps.revise p fun x => some { x with exited := true }
  | .priorityChanged p old new => ps.revise p fun x =>
    if x.priority = old then some { x with priority := new } else none
  | _ => some ps

end Event

namespace Account

/-- The account of nothing. -/
def blank (c : Scenario) : Account := ⟨none, .ofSize c.resourceCount, .empty⟩

/-- The account behind one more event. -/
def add (c : Scenario) (a : Account) (e : Event) : Option Account :=
  (e.enter c a.processes).map fun ps => ⟨e.seat a.current, e.handle a.resources, ps⟩

/-- The account behind more events. -/
def replay (c : Scenario) : List Event → Account → Option Account
  | [], a => some a
  | e :: es, a => (a.add c e).bind (replay c es)

/-- The status of a process as an account tells it. -/
def statusOf (a : Account) (p : Pid) (x : Profile) : Status :=
  if x.exited then .terminated
  else if (a.resources.waitingOn? p).isSome then .waiting
  else if a.current = some p then .running
  else .ready

/-- The account tells of the machine what is on the CPU, the owner and the wait-set of every
resource, and the age, the priority and the status of every process. -/
structure Shows (a : Account) (m : Machine) : Prop where
  current : a.current = m.current
  resources : a.resources = m.resources
  processes : ∀ p, (a.processes.get? p).map (fun x => (x.age, x.priority, a.statusOf p x)) =
    (m.process? p).map fun x => (x.age, x.priority, x.status)

/-- The processes behind more events. -/
def enterAll (c : Scenario) : List Event → PidMap Profile → Option (PidMap Profile)
  | [], ps => some ps
  | e :: es, ps => (e.enter c ps).bind (enterAll c es)

variable {c : Scenario} {a : Account} {es fs : List Event} {ps : PidMap Profile}

/-- The parts of an account are replayed one by one. -/
theorem replay_eq : replay c es a = (enterAll c es a.processes).map fun ps =>
    ⟨es.foldl (fun o e => e.seat o) a.current, es.foldl Event.handle a.resources, ps⟩ := by
  induction es generalizing a with
  | nil => rfl
  | cons e es ih =>
    rw [replay, add, enterAll]
    cases e.enter c a.processes with
    | none => rfl
    | some ps =>
      rw [Option.map_some, Option.bind_some, ih, Option.bind_some]
      rfl

theorem replay_append : replay c (es ++ fs) a = (replay c es a).bind (replay c fs) := by
  induction es generalizing a with
  | nil => rfl
  | cons e es ih =>
    rw [List.cons_append, replay, replay]
    cases a.add c e with
    | none => rfl
    | some b => rw [Option.bind_some, Option.bind_some, ih]

theorem enterAll_singleton {e : Event} : enterAll c [e] ps = e.enter c ps := by
  rw [enterAll]
  exact Option.bind_fun_some _

theorem enterAll_append :
    enterAll c (es ++ fs) ps = (enterAll c es ps).bind (enterAll c fs) := by
  induction es generalizing ps with
  | nil => rfl
  | cons e es ih =>
    rw [List.cons_append, enterAll, enterAll]
    cases e.enter c ps with
    | none => rfl
    | some qs => rw [Option.bind_some, Option.bind_some, ih]

end Account

/-! ## Processes in accounts -/

/-- An event that tells nothing of the age, the priority or the end of a process. -/
def Event.Mute : Event → Prop
  | .forked _ | .ran _ _ | .exited _ | .priorityChanged _ _ _ => False
  | .switched _ _ | .idle | .acquired _ _ | .blocked _ _ | .released _ _ | .woke _ _ => True

theorem Account.enterAll_mute {c : Scenario} {es : List Event} {ps : PidMap Profile}
    (h : ∀ e ∈ es, e.Mute) : enterAll c es ps = some ps := by
  induction es with
  | nil => rfl
  | cons e es ih =>
    obtain ⟨he, hes⟩ := List.forall_mem_cons.1 h
    have hsame : e.enter c ps = some ps := by
      cases e with
      | forked | ran | exited | priorityChanged => exact he.elim
      | switched | idle | acquired | blocked | released | woke => rfl
    rw [enterAll, hsame, Option.bind_some, ih hes]

theorem PidMap.revise_of {ps : PidMap Profile} {p : Pid} {f : Profile → Option Profile}
    {x y : Profile} (hx : ps.get? p = some x) (hy : f x = some y) :
    ps.revise p f = some (ps.insert p y) := by
  rw [revise, hx, Option.bind_some, hy, Option.map_some]

/-- What a revision leaves alone is told as before. -/
theorem PidMap.map_insert {α : Type} {ps : PidMap Profile} {p : Pid} {x y : Profile}
    {f : Profile → α} (hx : ps.get? p = some x) (hf : f y = f x) (q : Pid) :
    ((ps.insert p y).get? q).map f = (ps.get? q).map f := by
  rw [get?_insert]
  split
  · next hp => rw [← hp, hx, Option.map_some, Option.map_some, hf]
  · rfl

/-- The priority of the process named `p`, if it was admitted. -/
def Machine.priority? (m : Machine) (p : Pid) : Option Nat := (m.process? p).map (·.priority)

namespace Simulation

open Account

variable {s : Strategy} {c : Scenario} {a b : Moment} {l : List Activity} {j : Journal}
variable {ps : PidMap Profile} {p q : Pid}

/-- Where jobs arrive no time has passed since the last arrival. -/
theorem Path.before_arriving (g : Path s (opening c).moment j b) (hb : b.phase = .arriving) :
    b.before = b.machine := by
  induction g with
  | refl => rfl
  | snoc _ hm _ =>
    cases hm with
    | arrive | close => rfl
    | begin | idle | dispatch | grant | block | run | release | remain | exit => cases hb

/-- What is told of the processes at a moment. -/
structure Profiled (ps : PidMap Profile) (a : Moment) : Prop where
  ages : ∀ p, (ps.get? p).map (·.age) = a.machine.age? p
  ends : ∀ p x, ps.get? p = some x → (x.exited = true ↔ a.machine.status? p = some .terminated)
  priorities : ∀ p, (ps.get? p).map (·.priority) = a.before.priority? p

/-- A process that neither arrives nor runs keeps its age. -/
theorem age?_move (hm : Move s a l b) (hl : ∀ e ∈ eventsOf l, e.Mute) :
    b.machine.age? p = a.machine.age? p := by
  rcases age_move hm p with ⟨-, ho⟩ | ⟨hes, -, -⟩ | ⟨hes, -, -⟩
  · exact ho
  · exact False.elim (hl (.forked p) (hes ▸ List.mem_singleton_self _))
  · exact False.elim (hl (.ran p _) (hes ▸ List.mem_singleton_self _))

/-- A process has ended as long as none has exited. -/
theorem terminated_move (hreg : a.Regular c) (hm : Move s a l b)
    (hl : .exited p ∉ eventsOf l) :
    b.machine.status? p = some .terminated ↔ a.machine.status? p = some .terminated := by
  rcases status_move hreg hm p with ⟨-, -, hend⟩ | ⟨-, ha, hb⟩ | ⟨-, ha, hb⟩ | ⟨hes, -, -⟩
  · exact hend
  · simp [ha, hb]
  · simp [ha, hb]
  · exact absurd (hes ▸ List.mem_singleton_self _) hl

theorem Profiled.known (h : Profiled ps a) {x : ProcessRecord}
    (hx : a.machine.process? p = some x) :
    ∃ y, ps.get? p = some y ∧ y.age = x.age := by
  have hage := h.ages p
  rw [Machine.age?_of hx] at hage
  exact Option.map_eq_some_iff.1 hage

theorem Profiled.unknown (h : Profiled ps a) (hx : a.machine.process? p = none) :
    ps.get? p = none := by
  have hage := h.ages p
  rwa [Machine.age?_eq_none.2 hx, Option.map_eq_none_iff] at hage

/-- A move with mute events leaves what is told of the processes as it is. -/
theorem Profiled.mute (h : Profiled ps a) (hreg : a.Regular c) (hm : Move s a l b)
    (hl : ∀ e ∈ eventsOf l, e.Mute) (hb : ∀ p, b.before.priority? p = a.before.priority? p) :
    ∃ qs, enterAll c (eventsOf l) ps = some qs ∧ Profiled qs b := by
  refine ⟨ps, enterAll_mute hl, fun p => ?_, fun p x hx => ?_, fun p => ?_⟩
  · rw [age?_move hm hl, h.ages]
  · rw [terminated_move hreg hm fun hex => hl _ hex, h.ends p x hx]
  · rw [hb, h.priorities]

theorem mute_decided {o : Option Pid} {d : Decision} : ∀ e ∈ eventsOf [.decided o d], e.Mute := by
  intro e he
  rw [mem_events_decided he]
  trivial

/-- A job is found by its pid. -/
theorem find?_job (hc : c.Sound) {k : Job} (hk : k ∈ c.jobs) :
    (c.jobs.find? fun i => i.pid = k.pid) = some k := by
  cases hfind : c.jobs.find? fun i => decide (i.pid = k.pid) with
  | none => exact absurd (decide_eq_true rfl) (List.find?_eq_none.1 hfind k hk)
  | some i =>
    have hpid : i.pid = k.pid := by simpa using List.find?_some hfind
    rw [job_ext hc (List.mem_of_find?_eq_some hfind) hk hpid]

/-- A process arrives. -/
theorem Profiled.arrive (hc : c.Valid) (h : Profiled ps a) (hreg : a.Regular c)
    {k : Job} (hm : Move s a [.forked k] b) (hk : k ∈ c.jobs)
    (hnew : a.machine.process? k.pid = none) (hb : ∀ p, b.before.priority? p =
      if k.pid = p then some k.priority else a.before.priority? p) :
    ∃ qs, enterAll c [.forked k.pid] ps = some qs ∧ Profiled qs b := by
  refine ⟨ps.insert k.pid ⟨0, k.priority, false⟩, ?_, fun p => ?_, fun p x hx => ?_, fun p => ?_⟩
  · rw [enterAll_singleton, Event.enter, find?_job hc.sound hk, Option.map_some]
  · rw [PidMap.get?_insert]
    rcases age_move hm p with ⟨hkeep, ho⟩ | ⟨hes, -, hb⟩ | ⟨hes, -, -⟩
    · have hp : k.pid ≠ p := fun hp =>
        (hkeep (.forked k.pid) List.mem_cons_self).1 (congrArg Event.forked hp)
      rw [if_neg hp, ho, h.ages]
    · obtain rfl := Event.forked.inj (List.singleton_inj.1 hes)
      rw [if_pos rfl, hb]
      rfl
    · cases List.singleton_inj.1 hes
  · rw [terminated_move hreg hm (by simp [eventsOf, Activity.event?])]
    rw [PidMap.get?_insert] at hx
    split at hx
    · next hp =>
      cases hx
      rw [← hp, Machine.status?, hnew]
      simp
    · exact h.ends p x hx
  · rw [PidMap.get?_insert, hb]
    split
    · rfl
    · exact h.priorities p

/-- A process runs. -/
theorem Profiled.run (h : Profiled ps a) (hreg : a.Regular c) {n : Nat}
    (hm : Move s a [.ran p n] b) (hknown : a.machine.process? p ≠ none)
    (hb : b.before = a.before) :
    ∃ qs, enterAll c [.ran p n] ps = some qs ∧ Profiled qs b := by
  obtain ⟨x, hx⟩ := Option.ne_none_iff_exists'.1 hknown
  obtain ⟨y, hy, -⟩ := h.known hx
  refine ⟨ps.insert p { y with age := n }, ?_, fun q => ?_, fun q z hz => ?_, fun q => ?_⟩
  · rw [enterAll_singleton, Event.enter]
    exact PidMap.revise_of hy rfl
  · rw [PidMap.get?_insert]
    rcases age_move hm q with ⟨hkeep, ho⟩ | ⟨hes, -, -⟩ | ⟨hes, -, ho⟩
    · have hp : p ≠ q := fun hp =>
        (hkeep (.ran p n) List.mem_cons_self).2 n (congrArg (Event.ran · n) hp)
      rw [if_neg hp, ho, h.ages]
    · cases List.singleton_inj.1 hes
    · obtain ⟨rfl, rfl⟩ := Event.ran.inj (List.singleton_inj.1 hes)
      rw [if_pos rfl, ho]
      rfl
  · rw [terminated_move hreg hm (by simp [eventsOf, Activity.event?])]
    rw [PidMap.get?_insert] at hz
    split at hz
    · next hp =>
      cases hz
      exact h.ends q y (hp ▸ hy)
    · exact h.ends q z hz
  · rw [hb, ← h.priorities]
    exact PidMap.map_insert hy (by rfl) q

/-- A process exits. -/
theorem Profiled.exit (h : Profiled ps a) (hreg : a.Regular c) (hm : Move s a [.exited p] b)
    (hknown : a.machine.process? p ≠ none) (hb : b.before = a.before) :
    ∃ qs, enterAll c [.exited p] ps = some qs ∧ Profiled qs b := by
  obtain ⟨x, hx⟩ := Option.ne_none_iff_exists'.1 hknown
  obtain ⟨y, hy, -⟩ := h.known hx
  refine ⟨ps.insert p { y with exited := true }, ?_, fun q => ?_, fun q z hz => ?_, fun q => ?_⟩
  · rw [enterAll_singleton, Event.enter]
    exact PidMap.revise_of hy rfl
  · have hage : b.machine.age? q = a.machine.age? q := by
      rcases age_move hm q with ⟨-, ho⟩ | ⟨hes, -, -⟩ | ⟨hes, -, -⟩
      · exact ho
      · cases List.singleton_inj.1 hes
      · cases List.singleton_inj.1 hes
    rw [hage, ← h.ages]
    exact PidMap.map_insert hy (by rfl) q
  · rw [PidMap.get?_insert] at hz
    split at hz
    · next hp =>
      cases hz
      obtain ⟨-, -, -, hmachine, -⟩ := hm.of_exited List.mem_cons_self
      rw [hmachine, Machine.status?_turn, if_pos hp, ← hp, Machine.status?_of hx]
      simp
    · next hp =>
      rw [terminated_move hreg hm (by simpa [eventsOf, Activity.event?] using Ne.symm hp)]
      exact h.ends q z hz
  · rw [hb, ← h.priorities]
    exact PidMap.map_insert hy (by rfl) q

/-! ## The end of a tick -/

/-- What the end of a tick tells of the priority of a process, if it was another one in `m`. -/
def changeSince (m : Machine) (e : Pid × ProcessRecord) : Option Event :=
  (m.priority? e.1).bind fun k =>
    if k = e.2.priority then none else some (.priorityChanged e.1 k e.2.priority)

theorem events_priorityChanges {m n : Machine} :
    eventsOf (priorityChanges m n) = n.processes.entries.filterMap (changeSince m) := by
  rw [eventsOf, priorityChanges, List.filterMap_filterMap]
  refine congrArg (List.filterMap · _) (funext fun e => ?_)
  obtain ⟨p, x⟩ := e
  simp only [changeSince, Machine.priority?]
  cases m.process? p with
  | none => rfl
  | some y => by_cases h : y.priority = x.priority <;> simp [h, Activity.event?]

theorem enterAll_change {m : Machine} {x : ProcessRecord}
    (hp : (ps.get? p).map (·.priority) = m.priority? p) :
    ∃ qs, enterAll c (changeSince m (p, x)).toList ps = some qs ∧ ∀ q, qs.get? q =
      if p = q then (ps.get? q).map fun y => { y with priority := x.priority } else ps.get? q := by
  have still : (∀ y, ps.get? p = some y → y.priority = x.priority) → ∀ q, ps.get? q =
      if p = q then (ps.get? q).map fun y => { y with priority := x.priority } else ps.get? q := by
    intro hsame q
    split
    · next hpq =>
      subst hpq
      cases hy : ps.get? p with
      | none => rfl
      | some y => rw [Option.map_some, ← hsame y hy]
    · rfl
  rw [changeSince, ← hp]
  cases hy : ps.get? p with
  | none => exact ⟨ps, rfl, still (by simp [hy])⟩
  | some y =>
    dsimp only [Option.map_some, Option.bind_some]
    split
    · next hsame => exact ⟨ps, rfl, still fun z hz => Option.some.inj (hy.symm.trans hz) ▸ hsame⟩
    · refine ⟨ps.insert p { y with priority := x.priority }, ?_, fun q => ?_⟩
      · rw [Option.toList_some, enterAll_singleton, Event.enter]
        exact PidMap.revise_of hy (if_pos rfl)
      · rw [PidMap.get?_insert]
        split
        · next hpq => rw [← hpq, hy, Option.map_some]
        · rfl

/-- Where an account has the priorities of `m`, the end of a tick gives it those of the records. -/
theorem enterAll_changes {m : Machine} {l : List (Pid × ProcessRecord)}
    (hl : l.Pairwise fun e f => e.1.val < f.1.val)
    (hps : ∀ e ∈ l, (ps.get? e.1).map (·.priority) = m.priority? e.1) :
    ∃ qs, enterAll c (l.filterMap (changeSince m)) ps = some qs ∧
      (∀ p, (∀ e ∈ l, e.1 ≠ p) → qs.get? p = ps.get? p) ∧
      ∀ e ∈ l, qs.get? e.1 = (ps.get? e.1).map fun y => { y with priority := e.2.priority } := by
  induction l generalizing ps with
  | nil => exact ⟨ps, rfl, fun _ _ => rfl, fun e he => absurd he List.not_mem_nil⟩
  | cons e l ih =>
    obtain ⟨p, x⟩ := e
    obtain ⟨hfirst, hl⟩ := List.pairwise_cons.1 hl
    obtain ⟨hp, hps⟩ := List.forall_mem_cons.1 hps
    have hapart : ∀ e ∈ l, p ≠ e.1 := fun e he heq =>
      absurd (hfirst e he) (by rw [← heq]; exact Nat.lt_irrefl _)
    obtain ⟨rs, hrs, hget⟩ := enterAll_change (c := c) (x := x) hp
    have hrest : ∀ e ∈ l, rs.get? e.1 = ps.get? e.1 := fun e he => by
      rw [hget, if_neg (hapart e he)]
    obtain ⟨qs, hqs, hothers, hmembers⟩ := ih hl fun e he => by rw [hrest e he, hps e he]
    refine ⟨qs, ?_, fun q hq => ?_, fun e he => ?_⟩
    · have hcons : ((p, x) :: l).filterMap (changeSince m) =
          (changeSince m (p, x)).toList ++ l.filterMap (changeSince m) := by
        rw [List.filterMap_cons]
        cases changeSince m (p, x) <;> rfl
      rw [hcons, enterAll_append, hrs, Option.bind_some, hqs]
    · obtain ⟨hpq, hq⟩ := List.forall_mem_cons.1 hq
      rw [hothers q hq, hget, if_neg hpq]
    · rcases List.mem_cons.1 he with rfl | he
      · rw [hothers p fun e he => (hapart e he).symm, hget, if_pos rfl]
      · rw [hmembers e he, hrest e he]

/-- The end of a tick gives the account the priorities of the records, and nothing else. -/
theorem Profiled.caught_up (h : Profiled ps a) (hreg : a.Regular c) :
    ∃ qs, enterAll c (eventsOf (priorityChanges a.before a.machine)) ps = some qs ∧
      (∀ p, a.machine.process? p = none → qs.get? p = none) ∧
      ∀ p x, a.machine.process? p = some x →
        ∃ y, ps.get? p = some y ∧ qs.get? p = some { y with priority := x.priority } := by
  obtain ⟨qs, hqs, hothers, hmembers⟩ := enterAll_changes (c := c) (m := a.before)
    (l := a.machine.processes.entries) hreg.filed.sorted fun e _ => h.priorities e.1
  have hmem : ∀ {p x}, (p, x) ∈ a.machine.processes.entries ↔ a.machine.process? p = some x :=
    PidMap.mem_entries hreg.filed.sorted
  refine ⟨qs, by rw [events_priorityChanges, hqs], fun p hx => ?_, fun p x hx => ?_⟩
  · rw [hothers p, h.unknown hx]
    rintro e he rfl
    rw [hmem.1 he] at hx
    cases hx
  · obtain ⟨y, hy, -⟩ := h.known hx
    exact ⟨y, hy, by rw [hmembers (p, x) (hmem.2 hx), hy, Option.map_some]⟩

/-- Time passes, and the account catches up with the priorities. -/
theorem Profiled.close (h : Profiled ps a) (hreg : a.Regular c) {ran : Bool}
    (hb : b.before = b.machine) (hprocesses : b.machine.processes = a.machine.processes) :
    ∃ qs, enterAll c (eventsOf (closingEntries ran a.before a.machine)) ps = some qs ∧
      Profiled qs b := by
  obtain ⟨qs, hqs, hnone, hsome⟩ := h.caught_up hreg
  have hprocess : ∀ p, b.machine.process? p = a.machine.process? p := fun p => by
    rw [Machine.process?, hprocesses, Machine.process?]
  refine ⟨qs, ?_, fun p => ?_, fun p y hy => ?_, fun p => ?_⟩
  · rw [closingEntries, eventsOf_append, enterAll_append, enterAll_mute, Option.bind_some, hqs]
    cases ran with
    | true => exact fun e he => absurd he List.not_mem_nil
    | false => exact fun e he => List.mem_singleton.1 he ▸ trivial
  · rw [Machine.age?, hprocess, ← Machine.age?, ← h.ages]
    cases hx : a.machine.process? p with
    | none => rw [hnone p hx, h.unknown hx]
    | some x =>
      obtain ⟨y, hy, hz⟩ := hsome p x hx
      rw [hy, hz]
      rfl
  · rw [Machine.status?, hprocess, ← Machine.status?]
    cases hx : a.machine.process? p with
    | none =>
      rw [hnone p hx] at hy
      cases hy
    | some x =>
      obtain ⟨z, hz, hq⟩ := hsome p x hx
      obtain rfl := Option.some.inj (hq.symm.trans hy)
      exact h.ends p z hz
  · rw [hb, Machine.priority?, hprocess]
    cases hx : a.machine.process? p with
    | none =>
      rw [hnone p hx]
      rfl
    | some x =>
      obtain ⟨y, -, hz⟩ := hsome p x hx
      rw [hz]
      rfl

/-! ## Moves -/

/-- Owners and wait-sets change in requests and releases only, and the events of a move say how. -/
theorem handle_move (hreg : a.Regular c) (hm : Move s a l b) :
    (eventsOf l).foldl Event.handle a.machine.resources = b.machine.resources := by
  have decided : ∀ {m n : Machine} {d : Decision}, s.policy.Decides m n d →
      (eventsOf [.decided m.current d]).foldl Event.handle m.resources = n.resources := by
    intro m n d hd
    rw [eventsOf_decided, hd.resources]
    split <;> rfl
  cases hm with
  | arrive _ hn =>
    obtain ⟨-, -, rfl⟩ := Machine.fork_eq_ok.1 hn
    rfl
  | begin | remain | exit => rfl
  | idle hn => exact decided (Policy.schedule_decides hn)
  | dispatch hn => exact decided (Policy.schedule_decides hn)
  | grant hn =>
    have hacquires := hreg.phase.2.acquires hn
    cases hacquires with
    | granted => rfl
  | block hn =>
    have hacquires := hreg.phase.2.acquires hn
    cases hacquires with
    | blocked => rfl
  | run hn =>
    obtain ⟨_, -, -, -, rfl⟩ := Machine.grow_eq_ok.1 hn
    rfl
  | release hn =>
    have hreleases := hreg.phase.releases hn
    rw [events_release hreg.filed hn]
    cases hreleases with
    | quiet => rfl
    | wake => rfl
  | close _ hn =>
    obtain ⟨-, rfl⟩ := Machine.advance_eq_ok.1 hn
    have hstill : ∀ (es : List Event) (t : ResourceTable),
        (∀ e ∈ es, e = .idle ∨ ∃ p i k, e = .priorityChanged p i k) →
        es.foldl Event.handle t = t := by
      intro es t hes
      induction es with
      | nil => rfl
      | cons e es ih =>
        obtain ⟨he, hes⟩ := List.forall_mem_cons.1 hes
        have hsame : e.handle t = t := by rcases he with rfl | ⟨_, _, _, rfl⟩ <;> rfl
        rw [List.foldl_cons, hsame, ih hes]
    exact hstill _ _ fun e he => mem_events_closing he

/-- The processes of an account follow a move. -/
theorem Profiled.move (hc : c.Valid) (h : Profiled ps a) (hreg : a.Regular c)
    (ha : a.phase = .arriving → a.before = a.machine) (hm : Move s a l b) :
    ∃ qs, enterAll c (eventsOf l) ps = some qs ∧ Profiled qs b := by
  have known : ∀ {m : Machine} {p : Pid}, m.status? p = some .running → m.process? p ≠ none :=
    fun hrun => Option.ne_none_iff_exists'.2 (Machine.exists_record hrun)
  have hmove := hm
  cases hm with
  | @arrive m _ _ k _ _ hn =>
    obtain ⟨hnew, -, rfl⟩ := Machine.fork_eq_ok.1 hn
    refine h.arrive hc hreg hmove (hreg.pending k (by simp)).1 hnew fun p => ?_
    rw [ha rfl, Machine.priority?, Machine.process?_enroll]
    split <;> rfl
  | begin =>
    refine h.mute hreg hmove (fun e he => absurd he List.not_mem_nil) fun p => ?_
    rw [ha rfl]
  | idle => exact h.mute hreg hmove mute_decided fun _ => rfl
  | dispatch => exact h.mute hreg hmove mute_decided fun _ => rfl
  | grant =>
    exact h.mute hreg hmove (fun e he => List.mem_singleton.1 he ▸ trivial) fun _ => rfl
  | block =>
    exact h.mute hreg hmove (fun e he => List.mem_singleton.1 he ▸ trivial) fun _ => rfl
  | run => exact h.run hreg hmove (known hreg.phase.2.running) rfl
  | @release m n _ _ r _ _ _ _ =>
    refine h.mute hreg hmove ?_ fun _ => rfl
    rw [events_released]
    cases leaver? m n r with
    | none => simp [Event.Mute]
    | some w => simp [Event.Mute]
  | remain => exact h.mute hreg hmove (fun e he => absurd he List.not_mem_nil) fun _ => rfl
  | exit => exact h.exit hreg hmove (known hreg.phase.running) rfl
  | close _ hn =>
    obtain ⟨-, rfl⟩ := Machine.advance_eq_ok.1 hn
    exact h.close hreg rfl rfl

/-! ## Runs -/

/-- The account of a run so far at a moment. -/
structure Tracks (a : Account) (b : Moment) : Prop where
  current : a.current = b.machine.current
  resources : a.resources = b.machine.resources
  profiled : Profiled a.processes b

theorem profiled_opening : Profiled .empty (opening c).moment :=
  ⟨fun _ => rfl, fun _ _ hx => absurd hx (by simp), fun _ => rfl⟩

/-- The events of a run so far can be replayed, and the account follows the run. -/
theorem Path.tracked (hc : c.Valid) (g : Path s (opening c).moment j b) :
    ∃ a, replay c (j.events.map (·.event)) (blank c) = some a ∧ Tracks a b := by
  induction g with
  | refl => exact ⟨blank c, rfl, rfl, rfl, profiled_opening⟩
  | @snoc d e j l g hm ih =>
    obtain ⟨a, ha, hcurrent, hresources, hprofiled⟩ := ih
    obtain ⟨qs, hqs, hnext⟩ := hprofiled.move hc (g.regular hc) g.before_arriving hm
    have hevents : (within d.machine.tick (eventsOf l)).map (·.event) = eventsOf l := by
      rw [within, List.map_map]
      exact List.map_id _
    refine ⟨⟨e.machine.current, e.machine.resources, qs⟩, ?_, rfl, rfl, hnext⟩
    rw [events_snoc, List.map_append, hevents, replay_append, ha, Option.bind_some, replay_eq,
      hqs, hcurrent, hresources, seat_move hm, handle_move (g.regular hc) hm, Option.map_some]

/-- What is on the CPU is not ready. -/
theorem seated_move (hreg : a.Regular c) (hm : Move s a l b)
    (ha : ∀ p, a.machine.current = some p → a.machine.status? p ≠ some .ready) (p : Pid)
    (hp : b.machine.current = some p) : b.machine.status? p ≠ some .ready := by
  cases hm with
  | @arrive m _ _ k _ _ hn =>
    obtain ⟨hnew, -, rfl⟩ := Machine.fork_eq_ok.1 hn
    have hknown : m.status? p ≠ none := hreg.filed.current p hp
    have hne : k.pid ≠ p := by
      rintro rfl
      rw [Machine.status?, hnew] at hknown
      exact hknown rfl
    rw [Machine.status?_enroll, if_neg hne]
    exact ha p hp
  | begin | remain => exact ha p hp
  | idle hn hnext =>
    rw [current_decides (Policy.schedule_decides hn), hnext] at hp
    cases hp
  | dispatch hn =>
    have hd := Policy.schedule_decides hn
    rw [current_decides hd] at hp
    rw [(Machine.running_of_decides hd hp).2]
    simp
  | grant hn =>
    have hacquires := hreg.phase.2.acquires hn
    rw [current_acquires hacquires] at hp
    rw [Machine.status?_granted hacquires]
    exact ha p hp
  | block hn =>
    have hacquires := hreg.phase.2.acquires hn
    rw [current_acquires hacquires] at hp
    rw [Machine.status?_blocked hacquires]
    split
    · cases Machine.status? _ p <;> simp
    · exact ha p hp
  | run hn =>
    obtain ⟨_, -, -, -, rfl⟩ := Machine.grow_eq_ok.1 hn
    rw [Machine.status?_adjust (f := .aged _) fun _ => rfl]
    exact ha p hp
  | release hn =>
    have hreleases := hreg.phase.releases hn
    rw [current_releases hreleases] at hp
    rw [Machine.status?_releases hreleases]
    split
    · next hw =>
      -- what is woken was waiting, and what is on the CPU is running
      have hwaits := Machine.status?_woken (hw ▸ hreleases)
      have hrun := hreg.phase.running
      rw [Option.some.inj (hreg.phase.current.symm.trans hp), hwaits] at hrun
      cases hrun
    · exact ha p hp
  | exit =>
    rw [Machine.status?_turn]
    split
    · cases Machine.status? _ p <;> simp
    · exact ha p hp
  | close _ hn =>
    obtain ⟨-, rfl⟩ := Machine.advance_eq_ok.1 hn
    exact ha p hp

theorem Path.seated (hc : c.Valid) (g : Path s (opening c).moment j b) :
    ∀ p, b.machine.current = some p → b.machine.status? p ≠ some .ready := by
  induction g with
  | refl => exact fun p hp => by cases hp
  | snoc g hm ih => exact seated_move (g.regular hc) hm ih

/-- The statuses follow from the account. -/
theorem Tracks.statusOf {a : Account} {x : Profile} {y : ProcessRecord} (h : Tracks a b)
    (hm : b.machine.Filed)
    (hseat : b.machine.current = some p → b.machine.status? p ≠ some .ready)
    (hx : a.processes.get? p = some x) (hy : b.machine.process? p = some y) :
    a.statusOf p x = y.status := by
  have hend := h.profiled.ends p x hx
  have hwait : (a.resources.waitingOn? p).isSome ↔ b.machine.status? p = some .waiting := by
    rw [h.resources, ResourceTable.waitingOn?_isSome, hm.mem_waiters]
  have hrun := hm.running p
  unfold Account.statusOf
  rw [h.current]
  rw [Machine.status?_of hy] at hend hwait hrun hseat
  cases hst : y.status <;> simp_all

/-- Where the priorities are up to date the account shows the machine. -/
theorem Tracks.shows {a : Account} (h : Tracks a b) (hm : b.machine.Filed)
    (hseat : ∀ p, b.machine.current = some p → b.machine.status? p ≠ some .ready)
    (hb : b.before.processes = b.machine.processes) : a.Shows b.machine := by
  refine ⟨h.current, h.resources, fun p => ?_⟩
  cases hy : b.machine.process? p with
  | none => rw [h.profiled.unknown hy, Option.map_none, Option.map_none]
  | some y =>
    obtain ⟨x, hx, hage⟩ := h.profiled.known hy
    have hpriority := h.profiled.priorities p
    rw [Machine.priority?, Machine.process?, hb, ← Machine.process?, hx, hy, Option.map_some,
      Option.map_some, Option.some.injEq] at hpriority
    rw [hx, Option.map_some, Option.map_some, hage, hpriority, h.statusOf hm (hseat p) hx hy]

theorem Path.shown (hc : c.Valid) (g : Path s (opening c).moment j b)
    (hb : b.before.processes = b.machine.processes) :
    ∃ a, replay c (j.events.map (·.event)) (blank c) = some a ∧ a.Shows b.machine := by
  obtain ⟨a, ha, htracks⟩ := g.tracked hc
  exact ⟨a, ha, htracks.shows (g.regular hc).filed (g.seated hc) hb⟩

/-- The whole trace can be replayed, up to the end of the run. -/
theorem shown_end (hc : c.Valid) {f : Finished} (hf : playAll s c = .ok f) :
    ∃ a, replay c (f.journal.events.map (·.event)) (blank c) = some a ∧ a.Shows f.machine := by
  have hexits := playAll_exits hc hf
  rw [playAll_journal hc hf]
  generalize f.machine = m at hexits ⊢
  generalize f.exit = e at hexits
  cases hexits with
  | @ended k r _ hlt hk he =>
    have he' : r.exit ≠ none := by simp [he]
    obtain ⟨g, n, m, acts, hg, hm, hplay, -, rfl, hmachine⟩ := tickAt_last hc hk he'
    have hstart := (startAt_moment hc hg).2
    obtain ⟨hdormant, -⟩ := hplay.dormant hc (hstart.regular hc) (dormant_of_ended hc hk he' hg)
    rw [events_historyBefore, annals_of_quiet (i := k + 1) hlt fun i hi => ?_,
      ← events_historyBefore, historyBefore_tick hk, hmachine]
    · exact (hstart.trans hplay).shown hc hdormant.still
    · rw [eventsAt, tickAt_after hk he' hi]
      rfl
  | limit hg => exact (startAt_moment hc hg).2.shown hc rfl

end Simulation

open Simulation

variable {c : Scenario}

/-- The trace of a run is a complete record of its state: at the start of every tick the events so
far can be replayed, and they tell what is on the CPU, who owns and who waits for every resource,
and the age, the priority and the status of every process.  So does the whole trace at the end. -/
theorem replay_shows_state (s : Strategy) (hc : c.Valid) {run : Run}
    (hrun : simulate s c = .ok run) :
    (∀ k ≤ run.trace.endTick, ∃ g a, startAt s c k = some g ∧
      Account.replay c ((run.trace.before k).map (·.event)) (.blank c) = some a ∧
      a.Shows g.machine) ∧
    ∃ f a, playAll s c = .ok f ∧ run.trace = traceOf c f ∧
      Account.replay c (run.trace.events.map (·.event)) (.blank c) = some a ∧
      a.Shows f.machine := by
  constructor
  · intro k hk
    obtain ⟨g, j, hg, -, hpath, hbefore⟩ := startAt_of_le hc hrun hk
    obtain ⟨a, ha, hshows⟩ := hpath.shown hc rfl
    exact ⟨g, a, hg, by rw [Trace.before, ← hbefore]; exact ha, hshows⟩
  · obtain ⟨f, hf, rfl⟩ := playAll_of_simulate hc hrun
    obtain ⟨a, ha, hshows⟩ := shown_end hc hf
    exact ⟨f, a, hf, rfl, ha, hshows⟩

/-- In this run a process waits at the start of the third tick, and its priority has been lent. -/
theorem replay_shows_state_contended :
    ∃ run g a, simulate .priorityInheritance .contended = .ok run ∧ 2 ≤ run.trace.endTick ∧
      startAt .priorityInheritance .contended 2 = some g ∧
      Account.replay .contended ((run.trace.before 2).map (·.event)) (.blank .contended) = some a ∧
      a.Shows g.machine ∧ g.machine.status? ⟨2⟩ = some .waiting ∧
      (g.machine.process? ⟨1⟩).map (·.priority) = some 9 := by
  have hsim : (simulate .priorityInheritance .contended).toOption.any (fun run =>
      decide (2 ≤ run.trace.endTick)) = true := by decide
  have hstart : (startAt .priorityInheritance .contended 2).any (fun g =>
      decide (g.machine.status? ⟨2⟩ = some .waiting ∧
        (g.machine.process? ⟨1⟩).map (·.priority) = some 9)) = true := by decide
  obtain ⟨run, hrun, hend⟩ := Option.any_eq_true _ _ |>.1 hsim
  obtain ⟨g, hg, hstate⟩ := Option.any_eq_true _ _ |>.1 hstart
  have hrun := toOption_eq_some.1 hrun
  obtain ⟨hwaits, hlent⟩ := of_decide_eq_true hstate
  have hend := of_decide_eq_true hend
  obtain ⟨g', a, hg', ha, hshows⟩ :=
    (replay_shows_state .priorityInheritance (c := .contended) (by decide) hrun).1 2 hend
  obtain rfl := Option.some.inj (hg.symm.trans hg')
  exact ⟨run, g, a, hrun, hend, hg, ha, hshows, hwaits, hlent⟩

end Uniprocessor
