import Uniprocessor.Proofs.Audit
/-
  What the events of a run say of its state.

  A move changes the time, the age of a process, the owner of a resource and the status of a
  process each in one of a few ways, and every way leaves its mark in the events of the move:
  `TimeStep`, `AgeStep`, `OwnerStep` and `StatusStep`, with `time_move`, `age_move`, `owner_move`
  and `status_move`.

  `Path.split_event` cuts a run at an event of its trace, and `Path.timed` says that at most one
  process runs in a tick.
-/

namespace Uniprocessor

/-- Some process uses the CPU. -/
def Event.Runs (e : Event) : Prop := ∃ p n, e = .ran p n

namespace Activity

variable {x : Activity} {p : Pid} {r : ResourceId} {n : Nat}

theorem event?_eq_acquired : x.event? = some (.acquired p r) ↔ ∃ k, x = .acquired p r k := by
  cases x <;> simp [event?, eq_comm]

theorem event?_eq_blocked : x.event? = some (.blocked p r) ↔ ∃ o i k, x = .blocked p r o i k := by
  cases x <;> simp [event?]

theorem event?_eq_released : x.event? = some (.released p r) ↔ x = .released p r := by
  cases x <;> simp [event?]

theorem event?_eq_ran : x.event? = some (.ran p n) ↔ x = .ran p n := by
  cases x <;> simp [event?]

theorem event?_eq_exited : x.event? = some (.exited p) ↔ x = .exited p := by
  cases x <;> simp [event?]

theorem event?_eq_idle : x.event? = some .idle ↔ x = .idle := by
  cases x <;> simp [event?]

end Activity

/-- The age of the process named `p`, if it was admitted. -/
def Machine.age? (m : Machine) (p : Pid) : Option Nat := (m.process? p).map (·.age)

namespace Machine

variable {m n : Machine} {p q : Pid} {x : ProcessRecord}

theorem age?_of (hx : m.process? p = some x) : m.age? p = some x.age := by
  rw [age?, hx]
  rfl

theorem age?_eq_none : m.age? p = none ↔ m.process? p = none := by
  rw [age?, Option.map_eq_none_iff]

theorem Follows.age? (h : m.Follows n) : n.age? p = m.age? p := by
  cases hx : m.process? p with
  | none => rw [age?_eq_none.2 hx, age?_eq_none, h.process?_eq_none, hx]
  | some x =>
    obtain ⟨y, hy, s, k, rfl⟩ := h.to hx
    rw [age?_of hx, age?_of hy]

end Machine

namespace Simulation

/-- The events of the activities of a move. -/
def eventsOf (l : List Activity) : List Event := l.filterMap Activity.event?

theorem mem_eventsOf {l : List Activity} {e : Event} :
    e ∈ eventsOf l ↔ ∃ x ∈ l, Activity.event? x = some e := List.mem_filterMap

theorem mem_eventsOf_append {l k : List Activity} {e : Event} :
    e ∈ eventsOf (l ++ k) ↔ e ∈ eventsOf l ∨ e ∈ eventsOf k := by
  rw [eventsOf, List.filterMap_append, List.mem_append]
  rfl

theorem ran_mem_eventsOf {l : List Activity} {p : Pid} {n : Nat} :
    .ran p n ∈ eventsOf l ↔ .ran p n ∈ l := by
  simp only [mem_eventsOf, Activity.event?_eq_ran, exists_eq_right]

theorem acquired_mem_eventsOf {l : List Activity} {p : Pid} {r : ResourceId} :
    .acquired p r ∈ eventsOf l ↔ ∃ k, .acquired p r k ∈ l := by
  simp only [mem_eventsOf, Activity.event?_eq_acquired]
  constructor
  · rintro ⟨x, hx, k, rfl⟩
    exact ⟨k, hx⟩
  · rintro ⟨k, hk⟩
    exact ⟨_, hk, k, rfl⟩

theorem released_mem_eventsOf {l : List Activity} {p : Pid} {r : ResourceId} :
    .released p r ∈ eventsOf l ↔ .released p r ∈ l := by
  simp only [mem_eventsOf, Activity.event?_eq_released, exists_eq_right]

theorem exited_mem_eventsOf {l : List Activity} {p : Pid} :
    .exited p ∈ eventsOf l ↔ .exited p ∈ l := by
  simp only [mem_eventsOf, Activity.event?_eq_exited, exists_eq_right]

theorem idle_mem_eventsOf {l : List Activity} : .idle ∈ eventsOf l ↔ .idle ∈ l := by
  simp only [mem_eventsOf, Activity.event?_eq_idle, exists_eq_right]

/-- Events that happen in one tick. -/
def within (t : Nat) (es : List Event) : List TraceEvent := es.map (TraceEvent.mk t)

variable {s : Strategy} {c : Scenario} {a b : Moment} {l : List Activity} {j : Journal}
variable {p q : Pid} {r : ResourceId} {t : Nat}

theorem events_append (i j : Journal) : (i ++ j).events = i.events ++ j.events :=
  List.filterMap_append

theorem events_stamp (t : Nat) (l : List Activity) :
    (stamp t l).events = within t (eventsOf l) := by
  rw [Journal.events, stamp, within, eventsOf, List.filterMap_map, List.map_filterMap]
  rfl

/-- The events of a path and one more move. -/
theorem events_snoc (j : Journal) (t : Nat) (l : List Activity) :
    (j ++ stamp t l).events = j.events ++ within t (eventsOf l) := by
  rw [events_append, events_stamp]

theorem mem_within {e : TraceEvent} {t : Nat} {es : List Event} :
    e ∈ within t es ↔ e.tick = t ∧ e.event ∈ es := by
  obtain ⟨u, e⟩ := e
  rw [within, List.mem_map]
  constructor
  · rintro ⟨f, hf, he⟩
    obtain ⟨rfl, rfl⟩ := TraceEvent.mk.inj he
    exact ⟨rfl, hf⟩
  · rintro ⟨rfl, he⟩
    exact ⟨e, he, rfl⟩

/-- The end of a tick is idle or changes priorities. -/
theorem mem_events_closing {ran : Bool} {m n : Machine} {e : Event}
    (h : e ∈ eventsOf (closingEntries ran m n)) :
    e = .idle ∨ ∃ p i k, e = .priorityChanged p i k := by
  obtain ⟨x, hx, he⟩ := List.mem_filterMap.1 h
  rcases mem_closingEntries hx with rfl | ⟨p, i, k, rfl⟩
  · cases he
    exact .inl rfl
  · cases he
    exact .inr ⟨p, i, k, rfl⟩

/-- The end of a tick is idle when nothing has run in it. -/
theorem idle_mem_events_closing {ran : Bool} {m n : Machine} :
    .idle ∈ eventsOf (closingEntries ran m n) ↔ ran = false := by
  rw [idle_mem_eventsOf]
  constructor
  · intro h
    cases ran with
    | false => rfl
    | true =>
      obtain ⟨_, _, _, he⟩ := mem_priorityChanges h
      cases he
  · rintro rfl
    exact List.mem_append_left _ (List.mem_singleton_self _)

/-- A decision is recorded, if at all, by a switch. -/
theorem mem_events_decided {o : Option Pid} {d : Decision} {e : Event}
    (h : e ∈ eventsOf [.decided o d]) : e = .switched o d.next := by
  obtain ⟨x, hx, he⟩ := List.mem_filterMap.1 h
  obtain rfl := List.mem_singleton.1 hx
  simp only [Activity.event?] at he
  split at he
  · cases he
  · cases he
    rfl

/-- The trace shows who left the wait-set. -/
theorem events_released (o w : Option Pid) :
    eventsOf (releaseEntries p r o w) = .released p r :: (w.map fun q => Event.woke q r).toList := by
  cases o <;> cases w <;> rfl

/-- In a filed machine this is whom the release made ready. -/
theorem events_release {m n : Machine} {o : Option Pid} (hm : m.Filed)
    (hn : s.release m r = .ok (n, o)) :
    eventsOf (releaseEntries p r o (leaver? m n r)) =
      .released p r :: (o.map fun q => Event.woke q r).toList := by
  rw [events_released, leaver?_eq hm hn]

/-- A path goes through the move that wrote an event of its trace. -/
theorem Path.split_event {e : Event} {pre post : List TraceEvent} (h : Path s a j b)
    (hj : j.events = pre ++ ⟨t, e⟩ :: post) :
    ∃ d f i l x k rest, Activity.event? x = some e ∧
      pre = Journal.events i ++ within t (eventsOf l) ∧
      post = within t (eventsOf k) ++ Journal.events rest ∧ Path s a i d ∧ d.machine.tick = t ∧
      Move s d (l ++ x :: k) f ∧ Path s f rest b := by
  obtain ⟨i, tail, rfl, rfl, htail⟩ := List.filterMap_eq_append_iff.1 hj
  obtain ⟨skip, ⟨u, x⟩, rest, rfl, hskip, hx, rfl⟩ := List.filterMap_eq_cons_iff.1 htail
  obtain ⟨e', he, hte⟩ := Option.map_eq_some_iff.1 hx
  obtain ⟨rfl, rfl⟩ := TraceEvent.mk.inj hte
  rw [← List.append_assoc] at h
  obtain ⟨d, f, i', l, k, rest', hpre, rfl, hpath, ht, hm, hrest⟩ := h.split rfl
  refine ⟨d, f, i', l, x, k, rest', he, ?_, ?_, hpath, ht, hm, hrest⟩
  · have hnil : Journal.events skip = [] := List.filterMap_eq_nil_iff.2 hskip
    have := congrArg Journal.events hpre
    rw [events_append, events_append, hnil, List.append_nil, events_stamp] at this
    exact this
  · change Journal.events (stamp u k ++ rest') = _
    rw [events_append, events_stamp]

/-- Every event of a trace is that of a move of the path. -/
theorem Path.exists_move {e : TraceEvent} (h : Path s a j b) (he : e ∈ j.events) :
    ∃ d f i l, Path s a i d ∧ Move s d l f ∧ e.event ∈ eventsOf l := by
  obtain ⟨pre, post, hj⟩ := List.append_of_mem he
  obtain ⟨d, f, i, l, x, k, rest, hx, -, -, hd, -, hm, -⟩ := h.split_event hj
  exact ⟨d, f, i, _, hd, hm, mem_eventsOf.2 ⟨x, List.mem_append_right _ List.mem_cons_self, hx⟩⟩

/-- Where an event is all that its move writes, the trace is cut between two moves. -/
theorem Path.split_alone {e : Event} {pre post : List TraceEvent}
    (alone : ∀ {a b l x}, Move s a l b → x ∈ l → Activity.event? x = some e → l = [x])
    (h : Path s a j b) (hj : j.events = pre ++ ⟨t, e⟩ :: post) :
    ∃ d f i x rest, Activity.event? x = some e ∧ pre = Journal.events i ∧
      post = Journal.events rest ∧ Path s a i d ∧ d.machine.tick = t ∧ Move s d [x] f ∧
      Path s f rest b := by
  obtain ⟨d, f, i, l, x, k, rest, hx, rfl, rfl, hd, ht, hm, hrest⟩ := h.split_event hj
  have hl := alone hm (List.mem_append_right _ List.mem_cons_self) hx
  obtain ⟨rfl, rfl⟩ := eq_nil_of_append_singleton hl
  exact ⟨d, f, i, x, rest, hx, List.append_nil _, List.nil_append _, hd, ht, hm, hrest⟩

/-- Where a trace says that a process acquired a resource, the path goes through the grant. -/
theorem Path.split_acquired {pre post : List TraceEvent} (h : Path s a j b)
    (hj : j.events = pre ++ ⟨t, .acquired p r⟩ :: post) :
    ∃ d f i k rest, pre = Journal.events i ∧ post = Journal.events rest ∧ Path s a i d ∧
      d.machine.tick = t ∧ Move s d [.acquired p r k] f ∧ Path s f rest b := by
  obtain ⟨d, f, i, x, rest, hx, hpre, hpost, hd, ht, hm, hrest⟩ := h.split_alone (by
    intro a b l x hm hl hx
    obtain ⟨k, rfl⟩ := Activity.event?_eq_acquired.1 hx
    exact (hm.of_acquired hl).1) hj
  obtain ⟨k, rfl⟩ := Activity.event?_eq_acquired.1 hx
  exact ⟨d, f, i, k, rest, hpre, hpost, hd, ht, hm, hrest⟩

/-- Where a trace says that a request failed, the path goes through it. -/
theorem Path.split_blocked {pre post : List TraceEvent} (h : Path s a j b)
    (hj : j.events = pre ++ ⟨t, .blocked p r⟩ :: post) :
    ∃ d f i o k n rest, pre = Journal.events i ∧ post = Journal.events rest ∧ Path s a i d ∧
      d.machine.tick = t ∧ Move s d [.blocked p r o k n] f ∧ Path s f rest b := by
  obtain ⟨d, f, i, x, rest, hx, hpre, hpost, hd, ht, hm, hrest⟩ := h.split_alone (by
    intro a b l x hm hl hx
    obtain ⟨o, k, n, rfl⟩ := Activity.event?_eq_blocked.1 hx
    exact (hm.of_blocked hl).1) hj
  obtain ⟨o, k, n, rfl⟩ := Activity.event?_eq_blocked.1 hx
  exact ⟨d, f, i, o, k, n, rest, hpre, hpost, hd, ht, hm, hrest⟩

/-- Where a trace says that a process ran, the path goes through the move in which it did. -/
theorem Path.split_run {pre post : List TraceEvent} {n : Nat} (h : Path s a j b)
    (hj : j.events = pre ++ ⟨t, .ran p n⟩ :: post) :
    ∃ d f i rest, pre = Journal.events i ∧ post = Journal.events rest ∧ Path s a i d ∧
      d.machine.tick = t ∧ Move s d [.ran p n] f ∧ Path s f rest b := by
  obtain ⟨d, f, i, x, rest, hx, hpre, hpost, hd, ht, hm, hrest⟩ := h.split_alone (by
    intro a b l x hm hl hx
    obtain rfl := Activity.event?_eq_ran.1 hx
    exact (hm.of_ran hl).1) hj
  obtain rfl := Activity.event?_eq_ran.1 hx
  exact ⟨d, f, i, rest, hpre, hpost, hd, ht, hm, hrest⟩

/-- Where a trace says that a process exited, the path goes through its exit. -/
theorem Path.split_exited {pre post : List TraceEvent} (h : Path s a j b)
    (hj : j.events = pre ++ ⟨t, .exited p⟩ :: post) :
    ∃ d f i rest, pre = Journal.events i ∧ post = Journal.events rest ∧ Path s a i d ∧
      d.machine.tick = t ∧ Move s d [.exited p] f ∧ Path s f rest b := by
  obtain ⟨d, f, i, x, rest, hx, hpre, hpost, hd, ht, hm, hrest⟩ := h.split_alone (by
    intro a b l x hm hl hx
    obtain rfl := Activity.event?_eq_exited.1 hx
    exact (hm.of_exited hl).1) hj
  obtain rfl := Activity.event?_eq_exited.1 hx
  exact ⟨d, f, i, rest, hpre, hpost, hd, ht, hm, hrest⟩

/-! ## Time -/

/-- A process has run in this tick. -/
def Phase.Ran : Phase → Prop
  | .releasing _ _ | .closing true => True
  | .arriving | .deciding | .requesting _ _ _ | .closing false => False

/-- What a move with these events does to the time. -/
inductive TimeStep (es : List Event) (a b : Moment) : Prop
  | stay : (∀ e ∈ es, ¬ e.Runs) → b.machine.tick = a.machine.tick →
      (b.phase.Ran ↔ a.phase.Ran) → TimeStep es a b
  | run {p : Pid} {n : Nat} : es = [.ran p n] → b.machine.tick = a.machine.tick →
      ¬ a.phase.Ran → b.phase.Ran → TimeStep es a b
  | pass {ran : Bool} : (∀ e ∈ es, ¬ e.Runs) → b.machine.tick = a.machine.tick + 1 →
      a.phase = .closing ran → b.phase = .arriving → TimeStep es a b

theorem time_move (hm : Move s a l b) : TimeStep (eventsOf l) a b := by
  cases hm with
  | arrive _ hn =>
    obtain ⟨-, -, rfl⟩ := Machine.fork_eq_ok.1 hn
    exact .stay (by simp [eventsOf, Activity.event?, Event.Runs]) rfl Iff.rfl
  | begin | remain => exact .stay (by simp [eventsOf]) rfl Iff.rfl
  | idle hn =>
    refine .stay (fun e he => ?_) (Strategy.steady_schedule hn).tick Iff.rfl
    rw [mem_events_decided he]
    simp [Event.Runs]
  | dispatch hn =>
    refine .stay (fun e he => ?_) (Strategy.steady_schedule hn).tick Iff.rfl
    rw [mem_events_decided he]
    simp [Event.Runs]
  | grant hn =>
    exact .stay (by simp [eventsOf, requestActivity, Activity.event?, Event.Runs])
      (Strategy.steady_acquire hn).tick Iff.rfl
  | block hn =>
    exact .stay (by simp [eventsOf, requestActivity, Activity.event?, Event.Runs])
      (Strategy.steady_acquire hn).tick Iff.rfl
  | run hn =>
    obtain ⟨_, -, -, -, rfl⟩ := Machine.grow_eq_ok.1 hn
    exact .run rfl rfl id trivial
  | @release _ _ _ _ _ w _ _ hn =>
    refine .stay ?_ (Strategy.steady_release hn).tick Iff.rfl
    rw [events_released]
    simp [Event.Runs]
  | exit => exact .stay (by simp [eventsOf, Activity.event?, Event.Runs]) rfl Iff.rfl
  | close _ hn =>
    obtain ⟨-, rfl⟩ := Machine.advance_eq_ok.1 hn
    refine .pass (fun e he => ?_) rfl rfl rfl
    rcases mem_events_closing he with rfl | ⟨_, _, _, rfl⟩ <;> simp [Event.Runs]

theorem tick_le_move (hm : Move s a l b) : a.machine.tick ≤ b.machine.tick := by
  rcases time_move hm with ⟨-, ht, -⟩ | ⟨-, ht, -, -⟩ | ⟨-, ht, -, -⟩ <;> omega

/-- Time does not go back. -/
theorem Path.tick_le (g : Path s a j b) : a.machine.tick ≤ b.machine.tick :=
  g.invariant (P := fun b => a.machine.tick ≤ b.machine.tick)
    (fun _ _ _ ha hm => Nat.le_trans ha (tick_le_move hm)) (Nat.le_refl _)

/-- No time passes while a process runs. -/
theorem tick_of_ran (hm : Move s a l b) {n : Nat} (hl : .ran p n ∈ l) :
    b.machine.tick = a.machine.tick := by
  have hran := ran_mem_eventsOf.2 hl
  rcases time_move hm with ⟨hq, -⟩ | ⟨-, ht, -⟩ | ⟨hq, -⟩
  · exact absurd ⟨p, n, rfl⟩ (hq _ hran)
  · exact ht
  · exact absurd ⟨p, n, rfl⟩ (hq _ hran)

/-- The times at which processes have run before a moment, one process at a time. -/
structure Timed (es : List TraceEvent) (a : Moment) : Prop where
  past : ∀ e ∈ es, e.event.Runs →
    e.tick < a.machine.tick ∨ e.tick = a.machine.tick ∧ a.phase.Ran
  order : es.Pairwise fun e f => e.event.Runs → f.event.Runs → e.tick < f.tick

/-- What runs at one time is one event. -/
theorem Timed.unique {es : List TraceEvent} {e f : TraceEvent} (h : Timed es a) (he : e ∈ es)
    (hf : f ∈ es) (hre : e.event.Runs) (hrf : f.event.Runs) (ht : e.tick = f.tick) : e = f := by
  have hpair := h.order.imp (S := fun e f =>
    e.event.Runs → f.event.Runs → e.tick < f.tick ∨ f.tick < e.tick)
    fun hab ha hb => .inl (hab ha hb)
  rcases eq_or_of_pairwise (fun _ _ hab hb ha => (hab ha hb).symm) hpair he hf with heq | hlt
  · exact heq
  · rcases hlt hre hrf with hlt | hlt <;> omega

theorem Timed.move {es : List TraceEvent} (h : Timed es a) (hm : Move s a l b) :
    Timed (es ++ within a.machine.tick (eventsOf l)) b := by
  have quiet : (∀ e ∈ eventsOf l, ¬ e.Runs) →
      ∀ e ∈ within a.machine.tick (eventsOf l), ¬ e.event.Runs :=
    fun hq e he => hq _ (mem_within.1 he).2
  have hpast := h.past
  -- moves in which nothing runs only let the time of the older events pass
  have still : (∀ e ∈ eventsOf l, ¬ e.Runs) →
      (∀ t, t < a.machine.tick ∨ t = a.machine.tick ∧ a.phase.Ran →
        t < b.machine.tick ∨ t = b.machine.tick ∧ b.phase.Ran) →
      Timed (es ++ within a.machine.tick (eventsOf l)) b := by
    intro hq hstep
    refine ⟨fun e he hr => ?_, List.pairwise_append.2 ⟨h.order, ?_, fun _ _ f hf _ hr => ?_⟩⟩
    · rcases List.mem_append.1 he with he | he
      · exact hstep _ (hpast e he hr)
      · exact absurd hr (quiet hq e he)
    · exact List.pairwise_of_forall_mem_list fun f hf _ _ hr => absurd hr (quiet hq f hf)
    · exact absurd hr (quiet hq f hf)
  rcases time_move hm with ⟨hq, ht, hran⟩ | ⟨hl, ht, hna, hb⟩ | ⟨hq, ht, -, hb⟩
  · refine still hq fun t hlt => ?_
    rwa [ht, hran]
  · rw [hl]
    refine ⟨fun e he hr => ?_, List.pairwise_append.2 ⟨h.order, List.pairwise_singleton _ _, ?_⟩⟩
    · rw [ht]
      rcases List.mem_append.1 he with he | he
      · exact .inl ((hpast e he hr).resolve_right fun hn => hna hn.2)
      · exact .inr ⟨(mem_within.1 he).1, hb⟩
    · intro e he f hf hr _
      rw [(mem_within.1 hf).1]
      exact (hpast e he hr).resolve_right fun hn => hna hn.2
  · refine still hq fun t hlt => ?_
    rw [ht]
    omega

/-- At most one process runs in a tick, and later ticks come later in the trace. -/
theorem Path.timed {j : Journal} (g : Path s a j b) :
    Timed j.events b := by
  induction g with
  | refl => exact ⟨fun e he => absurd he List.not_mem_nil, .nil⟩
  | snoc _ hm ih =>
    rw [events_snoc]
    exact ih.move hm

/-! ## Ages -/

/-- What a move with these events does to the age of `p`. -/
inductive AgeStep (p : Pid) (es : List Event) (o o' : Option Nat) : Prop
  | keep : (∀ e ∈ es, e ≠ .forked p ∧ ∀ n, e ≠ .ran p n) → o' = o → AgeStep p es o o'
  | fork : es = [.forked p] → o = none → o' = some 0 → AgeStep p es o o'
  | run {n : Nat} : es = [.ran p (n + 1)] → o = some n → o' = some (n + 1) → AgeStep p es o o'

theorem age_move (hm : Move s a l b) (p : Pid) :
    AgeStep p (eventsOf l) (a.machine.age? p) (b.machine.age? p) := by
  cases hm with
  | @arrive m _ _ j _ _ hn =>
    obtain ⟨hnew, -, rfl⟩ := Machine.fork_eq_ok.1 hn
    by_cases hp : j.pid = p
    · subst hp
      have hborn : (m.enroll j).process? j.pid = some (.ofJob j) := by
        rw [Machine.process?_enroll, if_pos rfl]
      exact .fork rfl (Machine.age?_eq_none.2 hnew) (Machine.age?_of hborn)
    · refine .keep (by simp [eventsOf, Activity.event?, hp]) ?_
      rw [Machine.age?, Machine.process?_enroll, if_neg hp, Machine.age?]
  | begin | remain => exact .keep (by simp [eventsOf]) rfl
  | idle hn =>
    refine .keep (fun e he => ?_) (Machine.follows_decides (Policy.schedule_decides hn)).age?
    rw [mem_events_decided he]
    simp
  | dispatch hn =>
    refine .keep (fun e he => ?_) (Machine.follows_decides (Policy.schedule_decides hn)).age?
    rw [mem_events_decided he]
    simp
  | grant hn =>
    obtain ⟨q, -, hn⟩ := Strategy.acquire_eq_ok.1 hn
    exact .keep (by simp [eventsOf, requestActivity, Activity.event?])
      (Machine.follows_acquires (Protocol.acquire_acquires hn)).age?
  | block hn =>
    obtain ⟨q, -, hn⟩ := Strategy.acquire_eq_ok.1 hn
    exact .keep (by simp [eventsOf, requestActivity, Activity.event?])
      (Machine.follows_acquires (Protocol.acquire_acquires hn)).age?
  | @run m _ _ _ q _ _ _ _ hn =>
    obtain ⟨y, hy, -, rfl, rfl⟩ := Machine.grow_eq_ok.1 hn
    by_cases hp : q = p
    · subst hp
      have hgrown : (m.adjust q (.aged (y.age + 1))).process? q = some (y.aged (y.age + 1)) := by
        rw [Machine.process?_adjust, if_pos rfl, hy]
        rfl
      exact .run rfl (Machine.age?_of hy) (Machine.age?_of hgrown)
    · refine .keep (by simp [eventsOf, Activity.event?, hp]) ?_
      rw [Machine.age?, Machine.process?_adjust, if_neg hp, Machine.age?]
  | @release _ _ _ _ _ w _ _ hn =>
    obtain ⟨q, -, hn⟩ := Strategy.release_eq_ok.1 hn
    refine .keep ?_ (Machine.follows_releases (Protocol.release_releases hn)).age?
    rw [events_released]
    simp
  | exit =>
    exact .keep (by simp [eventsOf, Activity.event?])
      (Machine.follows_adjust fun x => x.alike_turn .terminated).age?
  | close _ hn =>
    obtain ⟨-, rfl⟩ := Machine.advance_eq_ok.1 hn
    refine .keep (fun e he => ?_) rfl
    rcases mem_events_closing he with rfl | ⟨_, _, _, rfl⟩ <;> simp

/-! ## Owners -/

/-- What a move with these events does to the owner of `r`. -/
inductive OwnerStep (r : ResourceId) (es : List Event) (o o' : Option Pid) : Prop
  | keep : (∀ e ∈ es, ∀ p, e ≠ .acquired p r ∧ e ≠ .released p r) → o' = o → OwnerStep r es o o'
  | take {p : Pid} : es = [.acquired p r] → o = none → o' = some p → OwnerStep r es o o'
  | give {p : Pid} {w : Option Pid} : es = .released p r :: (w.map fun q => Event.woke q r).toList →
      o = some p → o' = none → OwnerStep r es o o'

theorem owner_move (hreg : a.Regular c) (hm : Move s a l b) (r : ResourceId) :
    OwnerStep r (eventsOf l) (a.machine.resources.owner? r) (b.machine.resources.owner? r) := by
  cases hm with
  | arrive _ hn =>
    obtain ⟨-, -, rfl⟩ := Machine.fork_eq_ok.1 hn
    exact .keep (by simp [eventsOf, Activity.event?]) rfl
  | begin | remain => exact .keep (by simp [eventsOf]) rfl
  | idle hn =>
    refine .keep (fun e he => ?_) (by rw [(Policy.schedule_decides hn).resources])
    rw [mem_events_decided he]
    simp
  | dispatch hn =>
    refine .keep (fun e he => ?_) (by rw [(Policy.schedule_decides hn).resources])
    rw [mem_events_decided he]
    simp
  | @grant _ _ _ _ p t _ _ hn =>
    have ha := hreg.phase.2.acquires hn
    have howner := ha.owner?_granted (s := r)
    by_cases htr : t = r
    · subst htr
      rw [if_pos rfl] at howner
      exact .take rfl ha.free howner
    · rw [if_neg htr] at howner
      exact .keep (by simp [eventsOf, requestActivity, Activity.event?, htr]) howner
  | block hn =>
    exact .keep (by simp [eventsOf, requestActivity, Activity.event?])
      (hreg.phase.2.acquires hn).owner?_blocked
  | run hn =>
    obtain ⟨_, -, -, -, rfl⟩ := Machine.grow_eq_ok.1 hn
    exact .keep (by simp [eventsOf, Activity.event?]) rfl
  | @release _ _ _ p t w _ _ hn =>
    have hr := hreg.phase.releases hn
    have howner := hr.owner? (s := r)
    rw [events_released]
    by_cases htr : t = r
    · subst htr
      rw [if_pos rfl] at howner
      exact .give rfl hr.owned howner
    · rw [if_neg htr] at howner
      exact .keep (by simp [htr]) howner
  | exit => exact .keep (by simp [eventsOf, Activity.event?]) rfl
  | close _ hn =>
    obtain ⟨-, rfl⟩ := Machine.advance_eq_ok.1 hn
    refine .keep (fun e he => ?_) rfl
    rcases mem_events_closing he with rfl | ⟨_, _, _, rfl⟩ <;> simp

/-- Where `p` neither acquires nor releases `r` it owns it as before. -/
theorem owns_move (hreg : a.Regular c) (hm : Move s a l b) (hgain : ∀ k, .acquired p r k ∉ l)
    (hgive : .released p r ∉ l) :
    b.machine.resources.owner? r = some p ↔ a.machine.resources.owner? r = some p := by
  rw [← released_mem_eventsOf] at hgive
  have hgain : .acquired p r ∉ eventsOf l := by
    rw [acquired_mem_eventsOf]
    exact fun ⟨k, hk⟩ => hgain k hk
  rcases owner_move hreg hm r with ⟨-, ho⟩ | ⟨hes, hoa, hob⟩ | ⟨hes, hoa, hob⟩
  · rw [ho]
  · rw [hoa, hob, Option.some.injEq, iff_false_right (by simp)]
    rintro rfl
    exact hgain (hes ▸ List.mem_singleton_self _)
  · rw [hoa, hob, Option.some.injEq, iff_false_left (by simp)]
    rintro rfl
    exact hgive (hes ▸ List.mem_cons_self)

/-- What is acquired was free. -/
theorem free_of_gained (hreg : a.Regular c) (hm : Move s a l b) {k : Nat}
    (hl : .acquired p r k ∈ l) : a.machine.resources.owner? r = none := by
  obtain ⟨-, d, due, hphase, -, hn⟩ := hm.of_acquired hl
  exact ((hreg.requests hphase).2.acquires hn).free

theorem owner_of_gained (hreg : a.Regular c) (hm : Move s a l b) {k : Nat}
    (hl : .acquired p r k ∈ l) : b.machine.resources.owner? r = some p := by
  obtain ⟨-, d, due, hphase, -, hn⟩ := hm.of_acquired hl
  rw [((hreg.requests hphase).2.acquires hn).owner?_granted, if_pos rfl]

/-- An owner keeps its resource until it gives it back. -/
theorem Path.owner_kept {j : Journal} (hc : c.Valid) (ha : a.Regular c) (g : Path s a j b)
    (ho : a.machine.resources.owner? r = some p) (hj : ∀ t, ⟨t, .released p r⟩ ∉ j.events) :
    b.machine.resources.owner? r = some p := by
  induction g with
  | refl => exact ho
  | @snoc d e j l g hm ih =>
    rw [events_snoc] at hj
    have hd := ih fun t ht => hj t (List.mem_append_left _ ht)
    have hgive : .released p r ∉ l := fun hl => hj d.machine.tick
      (List.mem_append_right _ (mem_within.2 ⟨rfl, released_mem_eventsOf.2 hl⟩))
    refine (owns_move (ha.path hc g) hm (fun k hk => ?_) hgive).2 hd
    rw [free_of_gained (ha.path hc g) hm hk] at hd
    cases hd

theorem owner_of_given (hreg : a.Regular c) (hm : Move s a l b) (hl : .released p r ∈ l) :
    b.machine.resources.owner? r = none := by
  have hmem := released_mem_eventsOf.2 hl
  rcases owner_move hreg hm r with ⟨hkeep, -⟩ | ⟨hes, -, -⟩ | ⟨-, -, hob⟩
  · exact absurd rfl (hkeep _ hmem p).2
  · rw [hes] at hmem
    cases List.mem_singleton.1 hmem
  · exact hob

/-! ## Waits and ends -/

/-- What a move with these events does to the status of `p`, as far as waiting and the end go. -/
inductive StatusStep (p : Pid) (es : List Event) (o o' : Option Status) : Prop
  | keep : (∀ e ∈ es, e ≠ .exited p ∧ ∀ r, e ≠ .blocked p r ∧ e ≠ .woke p r) →
      (o' = some .waiting ↔ o = some .waiting) → (o' = some .terminated ↔ o = some .terminated) →
      StatusStep p es o o'
  | block {r : ResourceId} : es = [.blocked p r] → o = some .running → o' = some .waiting →
      StatusStep p es o o'
  | wake {q : Pid} {r : ResourceId} : es = [.released q r, .woke p r] → o = some .waiting →
      o' = some .ready → StatusStep p es o o'
  | exit : es = [.exited p] → o = some .running → o' = some .terminated → StatusStep p es o o'

/-- A decision moves only between the CPU and the ready queue. -/
theorem status_decides {π : Policy} {m n : Machine} {d : Decision} (hm : π.Decides m n d)
    (q : Pid) : n.status? q = m.status? q ∨ m.Active q ∧ n.Active q := by
  have retires : ∀ {k : Machine}, π.Retires m k →
      k.status? q = m.status? q ∨ m.status? q = some .running ∧ k.status? q = some .ready := by
    intro k hr
    cases hr with
    | leave => exact .inl rfl
    | @requeue p hw =>
      obtain ⟨-, x, hx, hs, -⟩ := hw
      rw [Machine.status?_enqueue, Machine.status?_turn,
        Machine.status?_adjust Policy.reset_status]
      split
      · next hpq =>
        right
        rw [← hpq, Machine.status?_of hx, hs]
        exact ⟨rfl, rfl⟩
      · exact .inl rfl
  cases hm with
  | keep => exact .inl rfl
  | idle hr _ =>
    rw [Machine.status?_seat, Machine.status?_ripen]
    exact (retires hr).imp_right fun ⟨hrun, hready⟩ => ⟨.inr hrun, .inl (by
      rw [Machine.status?_seat, Machine.status?_ripen, hready])⟩
  | @pick k p x hr _ hx hs =>
    have hk := retires hr
    have hp : k.status? p = some .ready := by
      rw [← Machine.status?_ripen (π := π), Machine.status?_of hx, hs]
    have hn : ((((π.ripen k).put p (x.turn .running)).dequeue p).seat (some p)).status? q =
        if p = q then some .running else k.status? q := by
      rw [Machine.status?_seat, Machine.status?_dequeue, Machine.status?_put,
        Machine.status?_ripen]
      split
      · next hpq =>
        rw [← hpq, hp]
        rfl
      · rfl
    by_cases hpq : p = q
    · subst hpq
      rw [if_pos rfl] at hn
      rw [hp] at hk
      refine .inr ⟨?_, .inr hn⟩
      rcases hk with h | ⟨h, -⟩
      · exact .inl h.symm
      · exact .inr h
    · rw [if_neg hpq] at hn
      rw [hn]
      refine hk.imp_right fun ⟨hrun, hready⟩ => ⟨.inr hrun, .inl ?_⟩
      rw [hn, hready]

theorem StatusStep.same {es : List Event} {o o' : Option Status} (ho : o' = o)
    (he : ∀ e ∈ es, e ≠ .exited p ∧ ∀ r, e ≠ .blocked p r ∧ e ≠ .woke p r) :
    StatusStep p es o o' :=
  .keep he (by rw [ho]) (by rw [ho])

theorem StatusStep.decides {π : Policy} {m n : Machine} {d : Decision} (hm : π.Decides m n d)
    (p : Pid) (o : Option Pid) :
    StatusStep p (eventsOf [.decided o d]) (m.status? p) (n.status? p) := by
  have he : ∀ e ∈ eventsOf [.decided o d],
      e ≠ .exited p ∧ ∀ r, e ≠ .blocked p r ∧ e ≠ .woke p r := by
    intro e he
    rw [mem_events_decided he]
    simp
  rcases status_decides hm p with h | ⟨hma | hma, hna | hna⟩
  · exact .same h he
  all_goals exact .keep he (by simp [hma, hna]) (by simp [hma, hna])

theorem status_move (hreg : a.Regular c) (hm : Move s a l b) (p : Pid) :
    StatusStep p (eventsOf l) (a.machine.status? p) (b.machine.status? p) := by
  cases hm with
  | @arrive m _ _ j _ _ hn =>
    obtain ⟨hnew, -, rfl⟩ := Machine.fork_eq_ok.1 hn
    have he : ∀ e ∈ eventsOf [.forked j],
        e ≠ .exited p ∧ ∀ r, e ≠ .blocked p r ∧ e ≠ .woke p r := by
      simp [eventsOf, Activity.event?]
    by_cases hp : j.pid = p
    · have hnone : m.status? p = none := by
        rw [Machine.status?, ← hp, hnew]
        rfl
      refine .keep he ?_ ?_ <;>
        simp [Machine.status?_enroll, hp, hnone]
    · exact .same (by rw [Machine.status?_enroll, if_neg hp]) he
  | begin | remain => exact .same rfl (by simp [eventsOf])
  | idle hn => exact .decides (Policy.schedule_decides hn) p _
  | dispatch hn => exact .decides (Policy.schedule_decides hn) p _
  | grant hn =>
    have ha := hreg.phase.2.acquires hn
    exact .same (Machine.status?_granted ha) (by simp [eventsOf, requestActivity, Activity.event?])
  | @block _ _ _ _ q _ _ _ _ hn =>
    have hreq := hreg.phase.2
    have hn := Machine.status?_blocked (q := p) (hreq.acquires hn)
    by_cases hp : q = p
    · subst hp
      rw [if_pos rfl, hreq.running, Option.map_some] at hn
      exact .block rfl hreq.running hn
    · rw [if_neg hp] at hn
      exact .same hn (by simp [eventsOf, requestActivity, Activity.event?, hp])
  | run hn =>
    obtain ⟨_, -, -, -, rfl⟩ := Machine.grow_eq_ok.1 hn
    exact .same (Machine.status?_adjust fun _ => rfl) (by simp [eventsOf, Activity.event?])
  | @release _ _ _ q t w _ _ hn =>
    have hr := hreg.phase.releases hn
    rw [events_release hreg.filed hn]
    have hn := Machine.status?_releases (q := p) hr
    by_cases hp : w = some p
    · subst hp
      rw [if_pos rfl] at hn
      exact .wake rfl (Machine.status?_woken hr) hn
    · rw [if_neg hp] at hn
      refine .same hn ?_
      cases w with
      | none => simp
      | some v => simpa using fun hv => hp (congrArg some hv)
  | @exit _ _ q _ _ =>
    have hrun := hreg.phase.running
    by_cases hp : q = p
    · subst hp
      refine .exit rfl hrun ?_
      dsimp only at hrun ⊢
      rw [Machine.status?_turn, if_pos rfl, hrun]
      rfl
    · exact .same (by rw [Machine.status?_turn, if_neg hp])
        (by simp [eventsOf, Activity.event?, hp])
  | close _ hn =>
    obtain ⟨-, rfl⟩ := Machine.advance_eq_ok.1 hn
    refine .same rfl fun e he => ?_
    rcases mem_events_closing he with rfl | ⟨_, _, _, rfl⟩ <;> simp

/-! ## Runs -/

theorem playAll_of_simulate {run : Run} (hc : c.Valid) (h : simulate s c = .ok run) :
    ∃ f, playAll s c = .ok f ∧ run = ⟨traceOf c f, logOf s c f⟩ := by
  have hlimits : s.checkLimits (.start c.resourceCount c.limits) = .ok () := if_pos hc.sound.caps
  simp only [simulate, hc.accepted, ok_bind, bind_eq_ok, Machine.allocate_eq_ok] at h
  obtain ⟨_, ⟨-, rfl⟩, h⟩ := h
  simp only [hlimits, bind_eq_ok, pure_eq_ok] at h
  obtain ⟨f, hf, rfl⟩ := h
  exact ⟨f, hf, rfl⟩

/-- The trace of a run of a valid scenario is that of a path.  The run does not end while a process
is to give something back, and it ends normally only where nothing is left to do. -/
theorem path_of_simulate {run : Run} (hc : c.Valid) (h : simulate s c = .ok run) :
    ∃ j b, Path s (opening c).moment j b ∧ run.trace.events = j.events ∧ b.phase.back = none ∧
      (run.trace.exit = .normal → ∃ ran, Over ran b.pending b.machine) := by
  obtain ⟨f, hf, rfl⟩ := playAll_of_simulate hc h
  change ∃ j b, Path s (opening c).moment j b ∧ f.journal.events = j.events ∧ b.phase.back = none ∧
    (f.exit = .normal → _)
  have hends := playAll_ends hf
  generalize f.journal = j at hends ⊢
  generalize f.machine = m at hends
  generalize f.exit = x at hends ⊢
  cases hends with
  | limit g => exact ⟨j, _, g, rfl, rfl, fun hx => by cases hx⟩
  | @normal _ ran _ _ _ g hover => exact ⟨j, _, g, rfl, rfl, fun _ => ⟨ran, hover⟩⟩
  | broken g _ hv =>
    rw [(g.regular hc).filed.audit_eq_ok] at hv
    cases hv

end Simulation

end Uniprocessor
