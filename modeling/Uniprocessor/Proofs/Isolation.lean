import Mathlib.Data.List.Basic
import Uniprocessor.Proofs.Division
/-
  Less urgent processes do not count for the more urgent ones.

  A run of a scenario that is split at `θ` is followed by the run of the urgent processes alone, of
  which the machine is at every moment the restricted one (`Shadows`).  Where an urgent process has
  the CPU both runs make the same move.  The CPU goes to another only where no urgent process could
  use it.  The shorter run is idle then, and nothing that happens up to the end of the tick shows
  in the restricted machine (`unnamed_move`).  Once all urgent processes are gone the shorter run is
  over, while the longer one goes on without them.

  Main statement: `urgent_processes_isolated`.
-/

namespace Uniprocessor

/-- Whether an event tells of a process that `P` names.  That the CPU changes hands or is idle tells
of the whole machine. -/
def Event.concerns (P : Pid → Bool) : Event → Bool
  | .forked p | .ran p _ | .acquired p _ | .blocked p _ | .released p _ | .woke p _
  | .priorityChanged p _ _ | .exited p => P p
  | .switched _ _ | .idle => false

namespace Simulation

variable {s : Strategy} {c : Scenario} {a a' b : Moment} {l : List Activity} {i j : Journal}
variable {m n : Machine} {p : Pid} {due : List ResourceId} {θ : Nat} {P : Pid → Bool}

/-! ## What is shown of the named processes -/

/-- What a process lacks it lacks in the restricted machine. -/
theorem requestsOf_restrict (hp : P p) (h : requestsOf m p = .ok due) :
    requestsOf (m.restrict P) p = .ok due := by
  obtain ⟨x, hx, rfl⟩ := Scripted.requestsOf_eq_ok.1 h
  refine Scripted.requestsOf_eq_ok.2 ⟨x, by rw [Machine.process?_restrict, if_pos hp, hx], ?_⟩
  refine lacks_congr (.refl x) fun r => ?_
  rw [Machine.owner?_restrict, Option.filter_eq_some_iff]
  exact and_iff_left hp

theorem concerns_decided {o : Option Pid} {d : Decision} :
    (eventsOf [.decided o d]).filter (Event.concerns P) = [] := by
  rw [eventsOf_decided]
  split <;> rfl

/-- The changes of priority that are shown are those of the restricted machine. -/
theorem concerns_priorityChanges :
    (eventsOf (priorityChanges m n)).filter (Event.concerns P) =
      eventsOf (priorityChanges (m.restrict P) (n.restrict P)) := by
  simp only [priorityChanges, eventsOf, List.filterMap_filterMap, List.filter_filterMap]
  show _ = (n.processes.entries.filter fun e => P e.1).filterMap _
  rw [List.filterMap_filter]
  refine List.filterMap_congr fun e _ => ?_
  rw [Machine.process?_restrict]
  cases m.process? e.1 with
  | none => by_cases hp : P e.1 <;> simp [hp]
  | some y =>
    by_cases hp : P e.1 <;> by_cases hy : y.priority = e.2.priority <;>
      simp [hp, hy, Activity.event?, Event.concerns]

theorem concerns_closing {ran : Bool} :
    (eventsOf (closingEntries ran m n)).filter (Event.concerns P) =
      eventsOf (priorityChanges (m.restrict P) (n.restrict P)) := by
  rw [closingEntries, eventsOf_append, List.filter_append, concerns_priorityChanges]
  cases ran <;> rfl

theorem priorityChanges_eq_nil (hm : n.Filed) (h : m.processes = n.processes) :
    priorityChanges m n = [] := by
  refine List.filterMap_eq_nil_iff.2 fun e he => ?_
  have hx : m.process? e.1 = some e.2 := by
    rw [Machine.process?, h]
    exact (PidMap.mem_entries hm.sorted).1 he
  simp [hx]

/-! ## Moments of one run -/

/-- Before the first decision of a tick the machine is as it was when the last job arrived. -/
theorem Path.before_of_arriving (g : Path s (opening c).moment j a) (ha : a.phase = .arriving) :
    a.before = a.machine := by
  cases g with
  | refl => rfl
  | snoc _ hm =>
    cases hm with
    | arrive | close => rfl
    | begin | idle | dispatch | grant | block | run | release | remain | exit => cases ha

/-- An idle tick leaves nobody on the CPU. -/
theorem Path.current_of_idle (g : Path s (opening c).moment j a) (ha : a.phase = .closing false) :
    a.machine.current = none := by
  cases g with
  | refl => cases ha
  | snoc _ hm =>
    cases hm with
    | idle hn hnext => exact (current_decides (Policy.schedule_decides hn)).trans hnext
    | arrive | begin | dispatch | grant | block | run | release | remain | exit | close => cases ha

/-- A tick that has come among the dead without a run has changed no process. -/
theorem still_move (hreg : a.Regular c)
    (h : ¬ a.phase.Ran → (∀ p, ¬ Alive a.machine p) → a.before.processes = a.machine.processes)
    (hm : Move s a l b) (hran : ¬ b.phase.Ran) (hdead : ∀ p, ¬ Alive b.machine p) :
    b.before.processes = b.machine.processes := by
  have alive : ∀ {p}, b.machine.status? p = some .running → False := fun hp =>
    hdead _ (alive_of_running hp)
  cases hm with
  | arrive | begin | close => rfl
  | @idle m n _ d _ hn =>
    have hd := Policy.schedule_decides hn
    have hwas : ∀ p, ¬ Alive m p := fun p hp => by
      rcases status_decides hd p with hst | ⟨-, hactive⟩
      · obtain ⟨st, hs, hne⟩ := hp
        exact hdead p ⟨st, hst.trans hs, hne⟩
      · exact hdead p (alive_of_active hactive)
    obtain ⟨rfl, -⟩ := decides_dead hreg.filed hwas hd
    exact h id hwas
  | dispatch hn hnext =>
    exact (alive (Machine.running_of_decides (Policy.schedule_decides hn) hnext).2).elim
  | grant hn =>
    have ha := hreg.phase.2.acquires hn
    exact (alive ((Machine.status?_granted ha).trans hreg.phase.2.running)).elim
  | @block _ _ _ _ p _ _ _ _ hn =>
    have ha := hreg.phase.2.acquires hn
    refine absurd ⟨.waiting, ?_, by simp⟩ (hdead p)
    show Machine.status? _ p = _
    rw [Machine.status?_blocked ha, if_pos rfl, hreg.phase.2.running]
    rfl
  | run | release | remain | exit => exact absurd trivial hran

theorem Path.still (hc : c.Valid) (g : Path s (opening c).moment j a) (hran : ¬ a.phase.Ran)
    (hdead : ∀ p, ¬ Alive a.machine p) : a.before.processes = a.machine.processes := by
  induction g with
  | refl => rfl
  | snoc g hm ih => exact still_move (g.regular hc) ih hm hran hdead

/-! ## Moves that do not show -/

/-- While no urgent process could use the CPU, nothing shows of what happens up to the end of the
tick. -/
theorem unnamed_move (hs : s.policy = .priority) (hκ : s.protocol.Plain) (hc : c.Valid)
    (hsplit : c.Split θ) (g : Path s (opening c).moment j a)
    (hnone : ∀ p, ¬ (a.machine.restrict (c.urgent θ)).Active p)
    (hcur : (a.machine.restrict (c.urgent θ)).current = none)
    (ha : a.phase ≠ .arriving) (hopen : ∀ ran, a.phase ≠ .closing ran) (hm : Move s a l b) :
    b.machine.restrict (c.urgent θ) = a.machine.restrict (c.urgent θ) ∧
      b.before = a.before ∧ b.pending = a.pending ∧ b.phase ≠ .arriving ∧
      (eventsOf l).filter (Event.concerns (c.urgent θ)) = [] := by
  have hreg := g.regular hc
  have other : ∀ {p}, a.machine.status? p = some .running → c.urgent θ p = false := by
    intro p hrun
    refine Bool.eq_false_iff.2 fun hp => ?_
    exact hnone p (Machine.active_restrict.2 ⟨hp, .inr hrun⟩)
  have decided : ∀ {n d}, a.phase = .deciding → s.policy.Decides a.machine n d →
      n.restrict (c.urgent θ) = a.machine.restrict (c.urgent θ) := by
    intro n d hphase hd
    have hscripted := hreg.scripted
    rw [hphase] at hscripted
    rw [hs] at hd
    have hd := hd.restrict hreg.filed hscripted.unfinished_running (g.parted hs hκ hc hsplit)
    rw [(decides_inactive hreg.filed.restrict hnone hd).1, ← hcur]
    rfl
  cases hm with
  | arrive | begin => exact absurd rfl ha
  | close => exact absurd rfl (hopen _)
  | idle hn =>
    exact ⟨decided rfl (Policy.schedule_decides hn), rfl, rfl, by simp, concerns_decided⟩
  | dispatch hn =>
    exact ⟨decided rfl (Policy.schedule_decides hn), rfl, rfl, by simp, concerns_decided⟩
  | grant hn =>
    have hp := other hreg.phase.2.running
    have hacq := hreg.phase.2.acquires hn
    have hfree := hacq.free
    refine ⟨hacq.restrict_of_not (by simp [hp]) fun o ho => ?_, rfl, rfl, by simp, ?_⟩
    · rw [hfree] at ho
      cases ho
    · simp [eventsOf, requestActivity, Activity.event?, Event.concerns, hp]
  | @block _ _ _ _ p o r _ _ hn =>
    have hp := other hreg.phase.2.running
    have hacq := hreg.phase.2.acquires hn
    refine ⟨hacq.restrict_of_not (by simp [hp]) fun o ho => ?_, rfl, rfl, by simp, ?_⟩
    · rw [hsplit.urgent_iff hc.sound (hreg.uses_of_owner ho) (hreg.uses_of_request rfl), hp]
      exact Bool.false_ne_true
    · simp [eventsOf, requestActivity, Activity.event?, Event.concerns, hp]
  | run hn =>
    have hp := other hreg.phase.2.running
    obtain ⟨_, -, -, -, rfl⟩ := Machine.grow_eq_ok.1 hn
    refine ⟨Machine.restrict_adjust_of_not _ _ (by simp [hp]), rfl, rfl, by simp, ?_⟩
    simp [eventsOf, Activity.event?, Event.concerns, hp]
  | @release m _ _ p r o _ _ hn =>
    have hp := other hreg.phase.running
    have hr := Returns.releases hreg.phase hn
    have hwaiters : ∀ w ∈ m.resources.waiters r, c.urgent θ w = false := fun w hw => by
      rw [← hp, Bool.eq_iff_iff]
      exact hsplit.urgent_iff hc.sound (hreg.uses_of_waiter (g.waits hc) hw)
        (hreg.uses_of_owner hr.owned)
    refine ⟨hr.restrict_of_not (by simp [hp]) fun w hw => by simp [hwaiters w hw], rfl, rfl,
      by simp, ?_⟩
    rw [events_release hreg.filed hn]
    cases o with
    | none => simp [Event.concerns, hp]
    | some w => simp [Event.concerns, hp, hwaiters w hr.mem_of_woken]
  | remain => exact ⟨rfl, rfl, rfl, by simp, rfl⟩
  | exit =>
    have hp := other hreg.phase.running
    refine ⟨Machine.restrict_adjust_of_not _ _ (by simp [hp]), rfl, rfl, by simp, ?_⟩
    simp [eventsOf, Activity.event?, Event.concerns, hp]

/-! ## The run of the urgent processes -/

/-- The moment as it is among the urgent processes. -/
def Moment.restrict (c : Scenario) (θ : Nat) (a : Moment) : Moment where
  phase := a.phase
  machine := a.machine.restrict (c.urgent θ)
  before := a.before.restrict (c.urgent θ)
  pending := a.pending.filter fun k => θ ≤ k.priority

/-- The process whose turn it is. -/
def Phase.turn? : Phase → Option Pid
  | .requesting _ p _ | .releasing p _ => some p
  | .arriving | .deciding | .closing _ => none

/-- A moment of a run with the moment that the run of the urgent processes is at. -/
inductive Shadows (c : Scenario) (θ : Nat) (a : Moment) : Moment → Prop
  /-- It is the turn of an urgent process, or of nobody. -/
  | along : (∀ p, a.phase.turn? = some p → c.urgent θ p) → Shadows c θ a (a.restrict c θ)
  /-- The other processes use up a tick that is idle for the urgent ones. -/
  | aside : a.phase ≠ .arriving → (∀ p, ¬ (a.machine.restrict (c.urgent θ)).Active p) →
      Shadows c θ a { a.restrict c θ with phase := .closing false }
  /-- The urgent processes are gone, and time goes on without them. -/
  | past {m b : Machine} : Over false (a.restrict c θ).pending m →
      a.machine.restrict (c.urgent θ) = { m with tick := a.machine.tick } →
      (a.before.restrict (c.urgent θ)).processes =
        (a.machine.restrict (c.urgent θ)).processes →
      Shadows c θ a ⟨.closing false, m, b, (a.restrict c θ).pending⟩

/-- A move is answered by a path that the urgent processes cannot tell from it. -/
def Answered (s : Strategy) (c : Scenario) (θ : Nat) (a' : Moment) (t : Nat) (l : List Activity)
    (b : Moment) : Prop :=
  ∃ i b', Path s a' i b' ∧ Shadows c θ b b' ∧
    Journal.shown (Event.concerns (c.urgent θ)) i =
      within t ((eventsOf l).filter (Event.concerns (c.urgent θ)))

/-- What does not show needs no answer. -/
theorem Answered.quiet {t : Nat} (hb : Shadows c θ b a')
    (hl : (eventsOf l).filter (Event.concerns (c.urgent θ)) = []) :
    Answered s c θ a' t l b :=
  ⟨[], a', .refl, hb, by rw [hl]; rfl⟩

theorem Answered.move {k : List Activity} {b' : Moment} {t : Nat} (hm : Move s a' k b')
    (hb : Shadows c θ b b') (ht : a'.machine.tick = t)
    (hk : (eventsOf k).filter (Event.concerns (c.urgent θ)) =
      (eventsOf l).filter (Event.concerns (c.urgent θ))) : Answered s c θ a' t l b :=
  ⟨_, b', hm.path, hb, by rw [shown_stamp, hk, ht]⟩

/-! ### The calls of an urgent process -/

theorem fork_restrict {k : Job} (hm : m.Filed) (hk : P k.pid) (hn : m.fork k = .ok n) :
    (m.restrict P).fork k = .ok (n.restrict P) := by
  obtain ⟨hnew, hready, rfl⟩ := Machine.fork_eq_ok.1 hn
  refine Machine.fork_eq_ok.2 ⟨?_, fun hmem => hready (List.mem_filter.1 hmem).1,
    Machine.restrict_enroll m hm.sorted hk⟩
  rw [Machine.process?_restrict, if_pos hk, hnew]

theorem schedule_restrict {d : Decision} {m₀ : Machine} {u : List Job}
    (hs : s.policy = .priority) (hreg : Moment.Regular c ⟨.deciding, m, m₀, u⟩)
    (hm : m.Parted P θ) (hn : s.schedule m = .ok (n, d)) :
    Policy.priority.Decides (m.restrict P) (n.restrict P) (d.restrict P) ∧
      s.schedule (m.restrict P) = .ok (n.restrict P, d.restrict P) := by
  have hd := Policy.schedule_decides hn
  rw [hs] at hd
  have hd := hd.restrict hreg.filed hreg.scripted.unfinished_running hm
  refine ⟨hd, (hreg.filed.restrict.schedule_eq_ok (π := s.policy)).2 ?_⟩
  rwa [hs]

theorem current_restrict (hp : P p) (h : m.current = some p) :
    (m.restrict P).current = some p :=
  Option.filter_eq_some_iff.2 ⟨h, hp⟩

theorem acquire_restrict {d : Decision} {r : ResourceId} {reply : Reply} {m₀ : Machine}
    {u : List Job} (hc : c.Sound) (hsplit : c.Split θ) (hp : c.urgent θ p)
    (hreg : Moment.Regular c ⟨.requesting d p (r :: due), m, m₀, u⟩)
    (hn : s.acquire m r = .ok (n, reply)) :
    s.acquire (m.restrict (c.urgent θ)) r = .ok (n.restrict (c.urgent θ), reply) := by
  have ha := (hreg.phase.2.acquires hn).restrict hp fun o ho =>
    (hsplit.urgent_iff hc (hreg.uses_of_owner ho) (hreg.uses_of_request rfl)).2 hp
  exact Strategy.acquire_eq_ok.2
    ⟨p, current_restrict hp hreg.phase.2.current, Protocol.acquire_of_acquires ha⟩

theorem grow_restrict {age : Nat} (hp : P p) (hn : m.grow p = .ok (n, age)) :
    (m.restrict P).grow p = .ok (n.restrict P, age) := by
  obtain ⟨x, hx, hbound, rfl, rfl⟩ := Machine.grow_eq_ok.1 hn
  refine Machine.grow_eq_ok.2 ⟨x, ?_, hbound, rfl, Machine.restrict_adjust p m _⟩
  rw [Machine.process?_restrict, if_pos hp, hx]

theorem release_restrict {r : ResourceId} {o : Option Pid} {m₀ : Machine} {u : List Job}
    (hc : c.Sound) (hsplit : c.Split θ) (hp : c.urgent θ p)
    (hreg : Moment.Regular c ⟨.releasing p (r :: due), m, m₀, u⟩) (hwaits : Waits m)
    (hn : s.release m r = .ok (n, o)) :
    s.release (m.restrict (c.urgent θ)) r = .ok (n.restrict (c.urgent θ), o) := by
  have hr := Returns.releases hreg.phase hn
  have hr' := hr.restrict hp fun w hw =>
    (hsplit.urgent_iff hc (hreg.uses_of_waiter hwaits hw) (hreg.uses_of_owner hr.owned)).2 hp
  exact Strategy.release_eq_ok.2
    ⟨p, current_restrict hp hreg.phase.current, hreg.filed.restrict.release_eq_ok.2 hr'⟩

/-! ### Answers -/

/-- The end of a tick.  The run of the urgent processes ends there if nothing is left to do in
it. -/
theorem answered_close {ran ran' : Bool} {m₀ : Machine} {u : List Job} (hc : c.Valid)
    (hn : m.advance = .ok n)
    (g : Path s (opening (c.atLeast θ)).moment j ⟨.closing ran', m.restrict (c.urgent θ),
      m₀.restrict (c.urgent θ), u.filter fun k => θ ≤ k.priority⟩) :
    Answered s c θ ⟨.closing ran', m.restrict (c.urgent θ), m₀.restrict (c.urgent θ),
      u.filter fun k => θ ≤ k.priority⟩ m.tick (closingEntries ran m₀ m) ⟨.arriving, n, n, u⟩ := by
  have hd := hc.atLeast θ
  obtain ⟨hbound, rfl⟩ := Machine.advance_eq_ok.1 hn
  by_cases hover : Over ran' (u.filter fun k => θ ≤ k.priority) (m.restrict (c.urgent θ))
  · obtain ⟨rfl, hdone⟩ := hover
    have hfiled := (g.regular hd).filed
    have hstill := g.still hd id ((liveCount_eq_zero hfiled).1 hdone.2)
    refine .quiet (.past ⟨rfl, hdone⟩ rfl rfl) ?_
    rw [concerns_closing, priorityChanges_eq_nil hfiled hstill]
    rfl
  · refine .move (.close hover (Machine.advance_eq_ok.2 ⟨hbound, rfl⟩))
      (.along (a := ⟨.arriving, m.pass, m.pass, u⟩) (by simp [Phase.turn?])) rfl ?_
    rw [concerns_closing, concerns_closing, Machine.restrict_restrict, Machine.restrict_restrict]

/-- The run of the urgent processes has no arrivals of others. -/
theorem answered_arrive {m₀ : Machine} {k : Job} {u : List Job} (hc : c.Valid)
    (hreg : Moment.Regular c ⟨.arriving, m, m₀, k :: u⟩) (hbefore : m₀ = m)
    (hstart : k.start ≤ m.tick) (hn : m.fork k = .ok n) :
    Answered s c θ (Moment.restrict c θ ⟨.arriving, m, m₀, k :: u⟩) m.tick [.forked k]
      ⟨.arriving, n, n, u⟩ := by
  have hurgent := Scenario.urgent_job (θ := θ) hc.sound (hreg.pending k List.mem_cons_self).1
  by_cases hk : θ ≤ k.priority
  · have hfork := fork_restrict hreg.filed (hurgent.2 hk) hn
    have hpending : (k :: u).filter (fun k => θ ≤ k.priority) =
        k :: u.filter fun k => θ ≤ k.priority := List.filter_cons_of_pos (by simpa using hk)
    rw [Moment.restrict, hpending]
    exact .move (.arrive hstart hfork) (.along (by simp [Phase.turn?])) rfl rfl
  · have hother : ¬ c.urgent θ k.pid := fun h => hk (hurgent.1 h)
    obtain ⟨-, -, rfl⟩ := Machine.fork_eq_ok.1 hn
    have hrest := Machine.restrict_enroll_of_not m hother
    have hpending : (k :: u).filter (fun k => θ ≤ k.priority) =
        u.filter fun k => θ ≤ k.priority := List.filter_cons_of_neg (by simpa using hk)
    rw [Moment.restrict, hpending, hbefore, ← hrest]
    refine .quiet (.along (by simp [Phase.turn?])) ?_
    simp [eventsOf, Activity.event?, Event.concerns, hother]

/-- Where another process gets the CPU, the run of the urgent processes has an idle tick. -/
theorem answered_dispatch {m₀ : Machine} {d : Decision} {u : List Job}
    (hs : s.policy = .priority) (hreg : Moment.Regular c ⟨.deciding, m, m₀, u⟩)
    (hparted : m.Parted (c.urgent θ) θ) (hn : s.schedule m = .ok (n, d)) (hnext : d.next = some p)
    (hdue : requestsOf n p = .ok due) :
    Answered s c θ (Moment.restrict c θ ⟨.deciding, m, m₀, u⟩) m.tick [.decided m.current d]
      ⟨.requesting d p due, n, m₀, u⟩ := by
  obtain ⟨hd', hn'⟩ := schedule_restrict hs hreg hparted hn
  have hnext' := d.next_restrict (P := c.urgent θ)
  rw [hnext] at hnext'
  by_cases hp : c.urgent θ p
  · rw [Option.filter_some_pos hp] at hnext'
    have hdue' := requestsOf_restrict hp hdue
    have hsame := Decision.restrict_of_next hnext hp
    rw [hsame] at hn' hnext'
    exact .move (.dispatch hn' hnext' hdue') (.along fun q hq => Option.some.inj hq ▸ hp) rfl
      (concerns_decided.trans concerns_decided.symm)
  · rw [Option.filter_some_neg (by simpa using hp)] at hnext'
    have hfiled := hreg.filed.decides hreg.scripted.unfinished_running
      (Policy.schedule_decides hn)
    exact .move (.idle hn' hnext') (.aside (by simp) fun q =>
      Machine.not_active_of_idle hfiled.restrict hd' hnext') rfl
      (concerns_decided.trans concerns_decided.symm)

/-- Where it is the turn of an urgent process the two runs make the same move. -/
theorem answered_along (hs : s.policy = .priority) (hκ : s.protocol.Plain) (hc : c.Valid)
    (hsplit : c.Split θ) (g : Path s (opening c).moment i a)
    (g' : Path s (opening (c.atLeast θ)).moment j (a.restrict c θ))
    (ha : ∀ p, a.phase.turn? = some p → c.urgent θ p) (hm : Move s a l b) :
    Answered s c θ (a.restrict c θ) a.machine.tick l b := by
  have hreg := g.regular hc
  have hparted := g.parted hs hκ hc hsplit
  cases hm with
  | arrive hstart hn => exact answered_arrive hc hreg (g.before_of_arriving rfl) hstart hn
  | begin hlate =>
    have hlater := later_of_head g.pending_sorted hlate
    refine .move (.begin fun k hk => ?_) (.along (by simp [Phase.turn?])) rfl rfl
    exact hlater k (List.mem_filter.1 (List.mem_of_head? hk)).1
  | @idle m n m₀ d u hn hnext =>
    obtain ⟨-, hn'⟩ := schedule_restrict hs hreg hparted hn
    have hnext' : (d.restrict (c.urgent θ)).next = none := by
      rw [Decision.next_restrict, hnext]
      rfl
    exact .move (.idle hn' hnext') (.along (by simp [Phase.turn?])) rfl
      (concerns_decided.trans concerns_decided.symm)
  | dispatch hn hnext hdue => exact answered_dispatch hs hreg hparted hn hnext hdue
  | grant hn =>
    have hp := ha _ rfl
    exact .move (.grant (acquire_restrict hc.sound hsplit hp hreg hn))
      (.along fun q hq => Option.some.inj hq ▸ hp) rfl rfl
  | block hn =>
    have hp := ha _ rfl
    exact .move (.block (acquire_restrict hc.sound hsplit hp hreg hn))
      (.along (by simp [Phase.turn?])) rfl rfl
  | run hn hx hdue =>
    have hp := ha _ rfl
    refine .move (.run (grow_restrict hp hn) ?_ hdue)
      (.along fun q hq => Option.some.inj hq ▸ hp) rfl rfl
    rw [Machine.process?_restrict, if_pos hp, hx]
  | release hn =>
    have hp := ha _ rfl
    have hn' := release_restrict hc.sound hsplit hp hreg (g.waits hc) hn
    refine .move (.release hn') (.along fun q hq => Option.some.inj hq ▸ hp) rfl ?_
    rw [events_release hreg.filed.restrict hn', events_release hreg.filed hn]
  | remain hx hd =>
    have hp := ha _ rfl
    refine .move (.remain ?_ hd) (.along (by simp [Phase.turn?])) rfl rfl
    rw [Machine.process?_restrict, if_pos hp, hx]
  | @exit m m₀ p x u hx hd =>
    have hp := ha _ rfl
    have hx' : (m.restrict (c.urgent θ)).process? p = some x := by
      rw [Machine.process?_restrict, if_pos hp, hx]
    have hb : Shadows c θ ⟨.closing true, m.adjust p (.turn .terminated), m₀, u⟩
        ⟨.closing true, (m.restrict (c.urgent θ)).adjust p (.turn .terminated),
          m₀.restrict (c.urgent θ), u.filter fun k => θ ≤ k.priority⟩ := by
      rw [← Machine.restrict_adjust]
      exact .along (by simp [Phase.turn?])
    exact .move (.exit hx' hd) hb rfl rfl
  | close _ hn => exact answered_close hc hn g'

/-- In a tick that is idle for the urgent processes they do nothing but let it pass. -/
theorem answered_aside (hs : s.policy = .priority) (hκ : s.protocol.Plain) (hc : c.Valid)
    (hsplit : c.Split θ) (g : Path s (opening c).moment i a)
    (g' : Path s (opening (c.atLeast θ)).moment j { a.restrict c θ with phase := .closing false })
    (ha : a.phase ≠ .arriving) (hnone : ∀ p, ¬ (a.machine.restrict (c.urgent θ)).Active p)
    (hm : Move s a l b) :
    Answered s c θ { a.restrict c θ with phase := .closing false } a.machine.tick l b := by
  -- the urgent processes wait at the end of their idle tick until the others are done with it
  by_cases hopen : ∀ ran, a.phase ≠ .closing ran
  · obtain ⟨hmachine, hbefore, hpending, hb, hl⟩ :=
      unnamed_move hs hκ hc hsplit g hnone (g'.current_of_idle rfl) ha hopen hm
    refine .quiet ?_ hl
    have hsame : ({ a.restrict c θ with phase := .closing false } : Moment) =
        { b.restrict c θ with phase := .closing false } := by
      rw [Moment.restrict, Moment.restrict, hmachine, hbefore, hpending]
    rw [hsame]
    exact .aside hb (by rwa [hmachine])
  · cases hm with
    | close _ hn => exact answered_close hc hn g'
    | arrive | begin | idle | dispatch | grant | block | run | release | remain | exit =>
      exact absurd (by simp) hopen

/-- Where the urgent processes are gone nothing shows any more. -/
theorem answered_past {m₀ : Machine} (hs : s.policy = .priority) (hκ : s.protocol.Plain)
    (hc : c.Valid) (hsplit : c.Split θ) (g : Path s (opening c).moment i a)
    (g' : Path s (opening (c.atLeast θ)).moment j
      ⟨.closing false, m, m₀, (a.restrict c θ).pending⟩)
    (hover : Over false (a.restrict c θ).pending m)
    (hmachine : a.machine.restrict (c.urgent θ) = { m with tick := a.machine.tick })
    (hstill : (a.before.restrict (c.urgent θ)).processes =
      (a.machine.restrict (c.urgent θ)).processes)
    (hm : Move s a l b) :
    Answered s c θ ⟨.closing false, m, m₀, (a.restrict c θ).pending⟩ a.machine.tick l b := by
  have hfiled := (g.regular hc).filed
  have hpending : ∀ k ∈ a.pending, ¬ θ ≤ k.priority := fun k hk hle =>
    List.eq_nil_iff_forall_not_mem.1 hover.2.1 k (List.mem_filter.2 ⟨hk, by simpa using hle⟩)
  by_cases hopen : a.phase ≠ .arriving ∧ ∀ ran, a.phase ≠ .closing ran
  · have hnone : ∀ p, ¬ (a.machine.restrict (c.urgent θ)).Active p := fun p hp => by
      rw [hmachine] at hp
      exact (liveCount_eq_zero (g'.regular (hc.atLeast θ)).filed).1 hover.2.2 p
        (alive_of_active (m := m) hp)
    have hcur : (a.machine.restrict (c.urgent θ)).current = none := by
      rw [hmachine]
      exact g'.current_of_idle rfl
    obtain ⟨hmachine', hbefore, hpending', -, hl⟩ :=
      unnamed_move hs hκ hc hsplit g hnone hcur hopen.1 hopen.2 hm
    have htick : (b.machine.restrict (c.urgent θ)).tick =
        (a.machine.restrict (c.urgent θ)).tick := congrArg Machine.tick hmachine'
    change b.machine.tick = a.machine.tick at htick
    have hsame : (a.restrict c θ).pending = (b.restrict c θ).pending := by
      rw [Moment.restrict, Moment.restrict, hpending']
    rw [hsame] at hover ⊢
    refine .quiet (.past hover ?_ ?_) hl
    · rw [hmachine', htick, hmachine]
    · rw [hmachine', hbefore, hstill]
  · cases hm with
    | @arrive n _ _ k u _ hn =>
      have hk := hpending k List.mem_cons_self
      have hother : ¬ c.urgent θ k.pid := fun hurgent => hk
        ((Scenario.urgent_job hc.sound ((g.regular hc).pending k List.mem_cons_self).1).1 hurgent)
      obtain ⟨-, -, rfl⟩ := Machine.fork_eq_ok.1 hn
      have hsame : (k :: u).filter (fun k => θ ≤ k.priority) =
          u.filter fun k => θ ≤ k.priority := List.filter_cons_of_neg (by simpa using hk)
      rw [Moment.restrict, hsame] at hover ⊢
      refine .quiet (.past hover ?_ rfl) ?_
      · exact (Machine.restrict_enroll_of_not n hother).trans hmachine
      · simp [eventsOf, Activity.event?, Event.concerns, hother]
    | begin => exact .quiet (.past hover hmachine rfl) rfl
    | @close m' n _ ran u _ hn =>
      obtain ⟨-, rfl⟩ := Machine.advance_eq_ok.1 hn
      refine .quiet (.past hover ?_ rfl) ?_
      · exact congrArg Machine.pass hmachine
      · rw [concerns_closing, priorityChanges_eq_nil hfiled.restrict hstill]
        rfl
    | idle | dispatch | grant | block | run | release | remain | exit =>
      exact absurd (by simp) hopen

theorem Shadows.move (hs : s.policy = .priority) (hκ : s.protocol.Plain) (hc : c.Valid)
    (hsplit : c.Split θ) (g : Path s (opening c).moment i a)
    (g' : Path s (opening (c.atLeast θ)).moment j a') (h : Shadows c θ a a')
    (hm : Move s a l b) : Answered s c θ a' a.machine.tick l b := by
  cases h with
  | along ha => exact answered_along hs hκ hc hsplit g g' ha hm
  | aside ha hnone => exact answered_aside hs hκ hc hsplit g g' ha hnone hm
  | past hover hmachine hstill =>
    exact answered_past hs hκ hc hsplit g g' hover hmachine hstill hm

/-! ## Runs -/

theorem opening_restrict : (opening c).moment.restrict c θ = (opening (c.atLeast θ)).moment := by
  have hmachine : (Machine.start c.resourceCount c.limits).restrict (c.urgent θ) =
      .start c.resourceCount c.limits := by
    simp [Machine.restrict, Machine.start, PidMap.restrict, PidMap.empty, Queue.restrict,
      Queue.empty, ResourceTable.restrict, ResourceTable.ofSize, Resource.restrict, Resource.idle]
  have hpending : (arrivals c.jobs).filter (fun k => θ ≤ k.priority) =
      arrivals (c.atLeast θ).jobs := filter_arrivals _ _
  rw [Moment.restrict]
  show (⟨.arriving, (Machine.start _ _).restrict _, (Machine.start _ _).restrict _,
    (arrivals c.jobs).filter _⟩ : Moment) = _
  rw [hmachine, hpending]
  rfl

/-- A run is followed by the run of the urgent processes. -/
theorem Path.shadows (hs : s.policy = .priority) (hκ : s.protocol.Plain) (hc : c.Valid)
    (hsplit : c.Split θ) (g : Path s (opening c).moment j a) :
    ∃ i a', Path s (opening (c.atLeast θ)).moment i a' ∧ Shadows c θ a a' ∧
      Journal.shown (Event.concerns (c.urgent θ)) i =
        Journal.shown (Event.concerns (c.urgent θ)) j := by
  have hstart : Shadows c θ (opening c).moment (opening (c.atLeast θ)).moment := by
    rw [← opening_restrict]
    exact .along fun p hp => by cases hp
  obtain ⟨i, a', g', ⟨-, -, ha⟩, hi⟩ := g.follow s (Event.concerns (c.urgent θ))
    (R := fun a a' => (∃ i, Path s (opening c).moment i a) ∧
      (∃ i, Path s (opening (c.atLeast θ)).moment i a') ∧ Shadows c θ a a')
    (fun ⟨⟨i, hpath⟩, ⟨i', hpath'⟩, h⟩ hm => by
      obtain ⟨k, b', hk, hb, hshown⟩ := h.move hs hκ hc hsplit hpath hpath' hm
      exact ⟨k, b', hk, ⟨⟨_, hpath.snoc hm⟩, ⟨_, hpath'.trans hk⟩, hb⟩, hshown⟩)
    ⟨⟨[], .refl⟩, ⟨[], .refl⟩, hstart⟩
  exact ⟨i, a', g', ha, hi⟩

/-- Where the run is over, that of the urgent processes is. -/
theorem Shadows.ended (hc : c.Valid) (g : Path s (opening c).moment j a) (h : Shadows c θ a a')
    (ha : a.Ended) : a'.Ended := by
  obtain ⟨hphase, -, hpending, hlive⟩ := ha
  have hfiled := (g.regular hc).filed
  have hover : Over false (a.restrict c θ).pending (a.machine.restrict (c.urgent θ)) := by
    refine ⟨rfl, by rw [Moment.restrict, hpending]; rfl, ?_⟩
    refine (liveCount_eq_zero hfiled.restrict).2 fun p hp => ?_
    obtain ⟨st, hst, hne⟩ := hp
    rw [Machine.status?_restrict] at hst
    split at hst
    · exact (liveCount_eq_zero hfiled).1 hlive p ⟨st, hst, hne⟩
    · cases hst
  cases h with
  | along => exact ⟨hphase, hover⟩
  | aside => exact ⟨rfl, hover⟩
  | past hover' => exact ⟨rfl, hover'⟩

/-- Events behind the tick limit are not shown. -/
theorem shown_eq_nil {V : Event → Bool} {N : Nat} {k : Journal} (g : Path s a k b)
    (ha : a.machine.tick = N) (hk : ∀ e ∈ Journal.shown V k, e.tick < N) :
    Journal.shown V k = [] := by
  refine List.eq_nil_iff_forall_not_mem.2 fun e he => ?_
  have hle := (g.tick_mem (List.mem_filter.1 he).1).1
  have hlt := hk e he
  omega

/-- The run of the urgent processes shows what the whole run shows of them. -/
theorem shown_playAll (hs : s.policy = .priority) (hκ : s.protocol.Plain) (hc : c.Valid)
    (hsplit : c.Split θ) {f f' : Finished} (hf : playAll s c = .ok f)
    (hf' : playAll s (c.atLeast θ) = .ok f') :
    Journal.shown (Event.concerns (c.urgent θ)) f'.journal =
      Journal.shown (Event.concerns (c.urgent θ)) f.journal := by
  obtain ⟨a, g, ha, hbefore⟩ := exists_last hc hf
  obtain ⟨e, ge, he, hbefore'⟩ := exists_last (hc.atLeast θ) hf'
  obtain ⟨i, a', g', hshadow, hi⟩ := g.shadows hs hκ hc hsplit
  have ha' : a'.Ended ∨ a'.machine.tick = c.maxTicks := by
    rcases ha with hended | ⟨hphase, htick⟩
    · exact .inl (hshadow.ended hc g hended)
    · cases hshadow with
      | along => exact .inr htick
      | aside hne => exact absurd hphase hne
      | past hover => exact .inl ⟨rfl, hover⟩
  rw [← hi]
  -- the path that follows the whole run and the run of the urgent processes itself are one path up
  -- to where the shorter one stops, and behind that the longer one shows nothing
  rcases g'.linear ge with ⟨k, hk, hj⟩ | ⟨k, hk, hj⟩
  · have hnil : Journal.shown (Event.concerns (c.urgent θ)) k = [] := by
      rcases ha' with hended | htick
      · rw [hended.last hk]
        rfl
      · refine shown_eq_nil hk htick fun e he => hbefore' e ?_
        rw [hj, events_append]
        exact List.mem_append_right _ (List.mem_filter.1 he).1
    rw [hj, shown_append, hnil, List.append_nil]
  · have hnil : Journal.shown (Event.concerns (c.urgent θ)) k = [] := by
      rcases he with hended | ⟨-, htick⟩
      · rw [hended.last hk]
        rfl
      · refine shown_eq_nil hk htick fun e he => hbefore e ?_
        have hmem : e ∈ Journal.shown (Event.concerns (c.urgent θ)) i := by
          rw [hj, shown_append]
          exact List.mem_append_right _ he
        rw [hi] at hmem
        exact (List.mem_filter.1 hmem).1
    rw [hj, shown_append, hnil, List.append_nil]

end Simulation

open Simulation

variable {s : Strategy} {c : Scenario} {θ : Nat}

/-- Processes of a lower priority have no influence on those of priority `θ` and more, unless they
share a resource with them: under priority scheduling, with or without inheritance, the traces
with and without them tell the same of the more urgent ones. -/
theorem urgent_processes_isolated (hs : s = .priority ∨ s = .priorityInheritance) (hc : c.Valid)
    (hsplit : c.Split θ) :
    ∃ t u, Leaves s c t ∧ Leaves s (c.atLeast θ) u ∧
      (t.events.filter fun e => e.event.concerns (c.urgent θ)) =
        u.events.filter fun e => e.event.concerns (c.urgent θ) := by
  have hpolicy : s.policy = .priority := by rcases hs with rfl | rfl <;> rfl
  have hκ : s.protocol.Plain := by
    rcases hs with rfl | rfl
    · exact Protocol.plain_mutex _
    · exact Protocol.plain_inheritance
  obtain ⟨f, hf⟩ := exists_playAll (s := s) hc
  obtain ⟨f', hf'⟩ := exists_playAll (s := s) (hc.atLeast θ)
  exact ⟨_, _, leaves_of_playAll hc hf, leaves_of_playAll (hc.atLeast θ) hf',
    (shown_playAll hpolicy hκ hc hsplit hf hf').symm⟩

/-- Two urgent processes share a resource, and so do two others, which were there first. -/
def Scenario.layered : Scenario where
  jobs := [
    { pid := ⟨1⟩, name := "backup", start := 0, lifespan := 4, priority := 1,
      holds := [{ resource := ⟨1⟩, since := 0, duration := 3 }] },
    { pid := ⟨2⟩, name := "report", start := 1, lifespan := 2, priority := 3,
      holds := [{ resource := ⟨1⟩, since := 0, duration := 1 }] },
    { pid := ⟨3⟩, name := "control", start := 2, lifespan := 3, priority := 5,
      holds := [{ resource := ⟨0⟩, since := 0, duration := 2 }] },
    { pid := ⟨4⟩, name := "alarm", start := 3, lifespan := 2, priority := 9,
      holds := [{ resource := ⟨0⟩, since := 1, duration := 1 }] }]
  resourceCount := 2
  limits := .standard
  maxTicks := 20
  audit := true

/-- The urgent ones contend with each other, whether the others contend or are not there. -/
theorem urgent_processes_isolated_layered :
    Scenario.layered.Split 5 ∧ (Scenario.layered.atLeast 5).jobs.length = 2 ∧
      ∃ t u, Leaves .priorityInheritance .layered t ∧
        Leaves .priorityInheritance (Scenario.layered.atLeast 5) u ∧
        ⟨1, .blocked ⟨2⟩ ⟨1⟩⟩ ∈ t.events ∧ ⟨4, .blocked ⟨4⟩ ⟨0⟩⟩ ∈ u.events ∧
        (t.events.filter fun e => e.event.concerns (Scenario.layered.urgent 5)) =
          u.events.filter fun e => e.event.concerns (Scenario.layered.urgent 5) := by
  have hsplit : Scenario.layered.Split 5 := by decide
  obtain ⟨t, u, ht, hu, hsame⟩ := urgent_processes_isolated (s := .priorityInheritance)
    (c := .layered) (.inr rfl) (by decide) hsplit
  have hothers := ht.of_any (fun t => ⟨1, .blocked ⟨2⟩ ⟨1⟩⟩ ∈ t.events) (by decide)
  have hurgent := hu.of_any (fun u => ⟨4, .blocked ⟨4⟩ ⟨0⟩⟩ ∈ u.events) (by decide)
  exact ⟨hsplit, by decide, t, u, ht, hu, hothers, hurgent, hsame⟩

end Uniprocessor
