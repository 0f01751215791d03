import Mathlib.Data.List.Basic
import Uniprocessor.Proofs.Determinacy
import Uniprocessor.Proofs.Overtaking
import Uniprocessor.Proofs.Urgency
/-
  The order in which a resource wakes those that wait for it.

  Who waits for a resource can be read off the trace: those that have been blocked on it and not
  been woken since (`waitersAfter`).  A move joins somebody to the wait-set, or gives the resource
  back, or leaves the wait-set as it is (`WaitStep`, `wait_move`), so that the trace and the machine
  always agree on it (`Path.waitersAfter`).

  Where the earliest waiter is woken, those blocked are at every moment those woken with those that
  still wait behind them (`Path.blockedOn`).  Where the most urgent one is, its priority is compared
  with what the others have at that moment, lent priorities included (`firstBest_woken`).

  Main statement: `wake_ups_in_order`.
-/

namespace Uniprocessor

namespace Event

/-- Who is blocked on `r`. -/
def blockedOn? (r : ResourceId) : Event → Option Pid
  | .blocked p t => if t = r then some p else none
  | _ => none

/-- Who is woken at `r`. -/
def wokenOn? (r : ResourceId) : Event → Option Pid
  | .woke p t => if t = r then some p else none
  | _ => none

/-- Whether `r` is given back. -/
def frees (r : ResourceId) : Event → Bool
  | .released _ t => t = r
  | _ => false

variable {e : Event} {p : Pid} {r : ResourceId}

theorem blockedOn?_eq_some : e.blockedOn? r = some p ↔ e = .blocked p r := by
  cases e <;> simp [blockedOn?, and_comm]

theorem wokenOn?_eq_some : e.wokenOn? r = some p ↔ e = .woke p r := by
  cases e <;> simp [wokenOn?, and_comm]

end Event

/-- The processes that are blocked on `r`, one after the other. -/
def blockedOn (r : ResourceId) (es : List TraceEvent) : List Pid :=
  es.filterMap fun e => e.event.blockedOn? r

/-- The processes that are woken at `r`, one after the other. -/
def wokenOn (r : ResourceId) (es : List TraceEvent) : List Pid :=
  es.filterMap fun e => e.event.wokenOn? r

/-- Those that have been blocked on `r` and not been woken since, in the order in which they were
blocked. -/
def waitersAfter (r : ResourceId) : List TraceEvent → List Pid
  | [] => []
  | e :: es =>
    match e.event.blockedOn? r with
    | some p =>
      if ∀ f ∈ es, f.event ≠ .woke p r then p :: waitersAfter r es else waitersAfter r es
    | none => waitersAfter r es

/-- The events up to the next release of `r`. -/
def untilFreed (r : ResourceId) (es : List TraceEvent) : List TraceEvent :=
  es.takeWhile fun e => !e.event.frees r

section Lists

variable {r : ResourceId} {es fs : List TraceEvent}

theorem blockedOn_append : blockedOn r (es ++ fs) = blockedOn r es ++ blockedOn r fs :=
  List.filterMap_append

theorem wokenOn_append : wokenOn r (es ++ fs) = wokenOn r es ++ wokenOn r fs :=
  List.filterMap_append

/-- What happens later wakes some of those that wait and blocks others, who join behind them. -/
theorem waitersAfter_append :
    waitersAfter r (es ++ fs) =
      (waitersAfter r es).filter (fun p => ∀ f ∈ fs, f.event ≠ .woke p r) ++ waitersAfter r fs := by
  induction es with
  | nil => rfl
  | cons e es ih =>
    rw [List.cons_append, waitersAfter, waitersAfter, ih]
    cases e.event.blockedOn? r with
    | none => rfl
    | some p =>
      simp only [List.forall_mem_append]
      by_cases hes : ∀ f ∈ es, f.event ≠ .woke p r
      · rw [if_pos hes, List.filter_cons]
        by_cases hfs : ∀ f ∈ fs, f.event ≠ .woke p r
        · rw [if_pos ⟨hes, hfs⟩, if_pos (decide_eq_true hfs), List.cons_append]
        · rw [if_neg fun h => hfs h.2, if_neg (by simpa using hfs)]
      · rw [if_neg hes, if_neg fun h => hes h.1]

/-- Who waits has been blocked. -/
theorem waitersAfter_sublist : (waitersAfter r es).Sublist (blockedOn r es) := by
  induction es with
  | nil => exact .slnil
  | cons e es ih =>
    rw [waitersAfter, blockedOn, List.filterMap_cons]
    cases e.event.blockedOn? r with
    | none => exact ih
    | some p =>
      dsimp only
      split
      · exact ih.cons_cons p
      · exact ih.cons p

theorem blockedOn_eq_nil (h : ∀ e ∈ es, ∀ p, e.event ≠ .blocked p r) : blockedOn r es = [] := by
  refine List.filterMap_eq_nil_iff.2 fun e he => Option.eq_none_iff_forall_ne_some.2 ?_
  exact fun p hp => h e he p (Event.blockedOn?_eq_some.1 hp)

theorem wokenOn_eq_nil (h : ∀ e ∈ es, ∀ p, e.event ≠ .woke p r) : wokenOn r es = [] := by
  refine List.filterMap_eq_nil_iff.2 fun e he => Option.eq_none_iff_forall_ne_some.2 ?_
  exact fun p hp => h e he p (Event.wokenOn?_eq_some.1 hp)

/-- Where nobody is woken, nobody is woken up to a release either. -/
theorem quiet_of_wokenOn (h : wokenOn r es = []) : wokenOn r (untilFreed r es) = [] :=
  List.sublist_nil.1 (h ▸ (List.takeWhile_sublist _).filterMap _)

theorem quiet_append (hes : wokenOn r (untilFreed r es) = [])
    (hfs : wokenOn r (untilFreed r fs) = []) : wokenOn r (untilFreed r (es ++ fs)) = [] := by
  rw [untilFreed, List.takeWhile_append]
  split
  · next hall =>
    rw [untilFreed, (List.takeWhile_prefix _).eq_of_length hall] at hes
    rw [wokenOn_append, hes]
    exact hfs
  · exact hes

end Lists

namespace Simulation

variable {s : Strategy} {c : Scenario} {a b : Moment} {l : List Activity} {j : Journal}
variable {m n : Machine} {p q w : Pid} {r t : ResourceId} {κ : Protocol} {u : Nat}

/-! ## Releases -/

/-- The most urgent of those that wait is woken, the earliest of several. -/
theorem firstBest_woken (hm : m.Filed) (hκ : κ.wakeOrder = .priority)
    (hr : κ.Releases m r q n (some w)) :
    FirstBest (fun x y => priorityOf m y < priorityOf m x) w (m.resources.waiters r) := by
  have hq : q ∉ m.resources.waiters r := hm.owner_apart r q hr.owned
  have known : ∀ v ∈ m.resources.waiters r,
      ∃ x, (κ.freed m r q).process? v = some x ∧ priorityOf m v = x.priority := by
    intro v hv
    obtain ⟨x, hx, -⟩ := Machine.status?_eq_some.1 ((hm.mem_waiters v).1 ⟨r, hv⟩)
    refine ⟨x, ?_, priorityOf_of hx⟩
    rw [Protocol.process?_freed, if_neg fun h : q = v => hq (h ▸ hv), hx]
  cases hr with
  | wake _ hbest =>
    refine hbest.congr fun v hv v' hv' => ?_
    obtain ⟨x, hx, hpx⟩ := known v hv
    obtain ⟨y, hy, hpy⟩ := known v' hv'
    rw [Machine.beats_iff hx hy, hκ, hpx, hpy]
    rfl

/-! ## Moves -/

/-- What a move with these events does to the wait-set of `r`. -/
inductive WaitStep (s : Strategy) (r : ResourceId) (es : List Event) (a b : Moment) : Prop
  | keep : (∀ e ∈ es, ∀ p, e ≠ .blocked p r ∧ e ≠ .woke p r ∧ e ≠ .released p r) →
      b.machine.resources.waiters r = a.machine.resources.waiters r → WaitStep s r es a b
  | join {p : Pid} : es = [.blocked p r] →
      b.machine.resources.waiters r = a.machine.resources.waiters r ++ [p] → WaitStep s r es a b
  | free {q : Pid} {o : Option Pid} :
      es = .released q r :: (o.map fun w => Event.woke w r).toList →
      s.protocol.Releases a.machine r q b.machine o → WaitStep s r es a b

theorem wait_move (hreg : a.Regular c) (hm : Move s a l b) (r : ResourceId) :
    WaitStep s r (eventsOf l) a b := by
  cases hm with
  | arrive _ hn =>
    obtain ⟨-, -, rfl⟩ := Machine.fork_eq_ok.1 hn
    exact .keep (by simp [eventsOf, Activity.event?]) rfl
  | begin | remain => exact .keep (by simp [eventsOf]) rfl
  | idle hn =>
    refine .keep (fun e he => ?_) (by rw [(Policy.schedule_decides hn).resources])
    rw [mem_events_decided he]
    simp
  | dispatch hn =>
    refine .keep (fun e he => ?_) (by rw [(Policy.schedule_decides hn).resources])
    rw [mem_events_decided he]
    simp
  | grant hn =>
    exact .keep (by simp [eventsOf, requestActivity, Activity.event?])
      (hreg.phase.2.acquires hn).waiters_granted
  | @block _ _ _ _ p _ t _ _ hn =>
    have hwaiters := (hreg.phase.2.acquires hn).waiters_blocked (s := r)
    by_cases htr : t = r
    · subst htr
      rw [if_pos rfl] at hwaiters
      exact .join rfl hwaiters
    · rw [if_neg htr] at hwaiters
      exact .keep (by simp [eventsOf, requestActivity, Activity.event?, htr]) hwaiters
  | run hn =>
    obtain ⟨_, -, -, -, rfl⟩ := Machine.grow_eq_ok.1 hn
    exact .keep (by simp [eventsOf, Activity.event?]) rfl
  | @release _ _ _ p t w _ _ hn =>
    have hr := hreg.phase.releases hn
    rw [events_release hreg.filed hn]
    by_cases htr : t = r
    · subst htr
      exact .free rfl hr
    · cases w with
      | none => exact .keep (by simp [htr]) hr.waiters_quiet
      | some w => exact .keep (by simp [htr]) (hr.waiters_wake.trans (if_neg htr))
  | exit => exact .keep (by simp [eventsOf, Activity.event?]) rfl
  | close _ hn =>
    obtain ⟨-, rfl⟩ := Machine.advance_eq_ok.1 hn
    refine .keep (fun e he => ?_) rfl
    rcases mem_events_closing he with rfl | ⟨_, _, _, rfl⟩ <;> simp

/-- A release does what its entries in the journal say. -/
theorem releases_of_entries {o : Option Pid} (hreg : a.Regular c)
    (hm : Move s a l b) (hl : eventsOf l = .released q r :: (o.map fun w => Event.woke w r).toList) :
    s.protocol.Releases a.machine r q b.machine o := by
  have hstep := wait_move hreg hm r
  rw [hl] at hstep
  rcases hstep with ⟨hes, -⟩ | ⟨hes, -⟩ | @⟨q', o', hes, hr⟩
  · exact absurd rfl (hes _ List.mem_cons_self q).2.2
  · cases (List.cons.inj hes).1
  · obtain ⟨hq, ho⟩ := List.cons.inj hes
    cases hq
    have ho : o = o' := by
      cases o <;> cases o' <;> simp_all
    exact ho ▸ hr

/-- The wait-set of a machine is that of the trace which leads to it. -/
theorem Path.waitersAfter (hc : c.Valid) (g : Path s (opening c).moment j b) (r : ResourceId) :
    waitersAfter r j.events = b.machine.resources.waiters r := by
  induction g with
  | refl => exact waiters_opening.symm
  | @snoc d e j l g hm ih =>
    have hreg := g.regular hc
    rw [events_snoc, waitersAfter_append, ih]
    rcases wait_move hreg hm r with ⟨hes, hw⟩ | @⟨p, hes, hw⟩ | @⟨q, o, hes, hr⟩
    · have hnone : Uniprocessor.waitersAfter r (within d.machine.tick (eventsOf l)) = [] := by
        have hblocked : blockedOn r (within d.machine.tick (eventsOf l)) = [] :=
          blockedOn_eq_nil fun e he p => (hes e.event (mem_within.1 he).2 p).1
        exact List.sublist_nil.1 (hblocked ▸ waitersAfter_sublist)
      rw [hnone, List.append_nil, hw, List.filter_eq_self.2 fun p _ => ?_]
      exact decide_eq_true fun e he => (hes e.event (mem_within.1 he).2 p).2.1
    · rw [hes, hw, List.filter_eq_self.2 fun p _ => by simp [within]]
      simp [Uniprocessor.waitersAfter, within, Event.blockedOn?]
    · rw [waiters_released hreg.filed hr, hes]
      cases o with
      | none => simp [Uniprocessor.waitersAfter, within, Event.blockedOn?]
      | some w => simp [Uniprocessor.waitersAfter, within, Event.blockedOn?]

/-- Where the earliest is woken, those that have been blocked are those that have been woken and
behind them those that wait. -/
theorem Path.blockedOn (hκ : s.protocol = .mutex .fifo) (hc : c.Valid)
    (g : Path s (opening c).moment j b) (r : ResourceId) :
    blockedOn r j.events = wokenOn r j.events ++ b.machine.resources.waiters r := by
  induction g with
  | refl =>
    rw [waiters_opening]
    rfl
  | @snoc d e j l g hm ih =>
    rw [events_snoc, blockedOn_append, wokenOn_append, ih]
    rcases wait_move (g.regular hc) hm r with ⟨hes, hw⟩ | @⟨p, hes, hw⟩ | @⟨q, o, hes, hr⟩
    · rw [blockedOn_eq_nil fun f hf p => (hes f.event (mem_within.1 hf).2 p).1,
        wokenOn_eq_nil fun f hf p => (hes f.event (mem_within.1 hf).2 p).2.1, hw, List.append_nil,
        List.append_nil]
    · simp [hes, hw, within, Uniprocessor.blockedOn, Uniprocessor.wokenOn, Event.blockedOn?,
        Event.wokenOn?]
    · rw [hκ] at hr
      cases o with
      | none =>
        simp [hes, hr.waiters_quiet, within, Uniprocessor.blockedOn, Uniprocessor.wokenOn,
          Event.blockedOn?, Event.wokenOn?]
      | some w =>
        obtain ⟨post, hpost⟩ := head_of_woken hr
        simp [hes, hr.waiters_wake, hpost, within, Uniprocessor.blockedOn, Uniprocessor.wokenOn,
          Event.blockedOn?, Event.wokenOn?]

/-- Nobody is woken but by a release. -/
theorem Path.quiet (hc : c.Valid) (ha : a.Regular c) (g : Path s a j b) (r : ResourceId) :
    wokenOn r (untilFreed r j.events) = [] := by
  induction g with
  | refl => rfl
  | @snoc d e j l g hm ih =>
    rw [events_snoc]
    refine quiet_append ih ?_
    rcases wait_move (ha.path hc g) hm r with ⟨hes, -⟩ | ⟨hes, -⟩ | ⟨hes, -⟩
    · exact quiet_of_wokenOn (wokenOn_eq_nil fun f hf p => (hes _ (mem_within.1 hf).2 p).2.1)
    · exact quiet_of_wokenOn (by simp [hes, within, wokenOn, Event.wokenOn?])
    · simp [hes, within, untilFreed, Event.frees, wokenOn]

/-- A release wakes whom it made ready. -/
theorem Move.entries_of_released (hreg : a.Regular c) (hm : Move s a l b)
    (hl : .released q r ∈ l) : ∃ o, l = releaseEntries q r o o := by
  cases hm with
  | @release _ _ _ p t o _ _ hn =>
    rw [leaver?_eq hreg.filed hn] at hl ⊢
    obtain ⟨rfl, rfl⟩ : q = p ∧ r = t := by simpa [releaseEntries] using hl
    exact ⟨o, rfl⟩
  | close => rcases mem_closingEntries hl with he | ⟨_, _, _, he⟩ <;> cases he
  | arrive | begin | idle | dispatch | grant | block | run | remain | exit =>
    simp [requestActivity] at hl

/-- Where a trace says that a resource is given back, the path goes through the release. -/
theorem Path.split_released {pre post : List TraceEvent} (hc : c.Valid) (ha : a.Regular c)
    (g : Path s a j b) (hj : j.events = pre ++ ⟨u, .released q r⟩ :: post) :
    ∃ d f i o rest, pre = Journal.events i ∧
      post = within u (o.map fun w => Event.woke w r).toList ++ Journal.events rest ∧
      Path s a i d ∧ d.machine.tick = u ∧ Move s d (releaseEntries q r o o) f ∧
      Path s f rest b := by
  obtain ⟨d, f, i, l, x, k, rest, hx, rfl, rfl, hd, ht, hm, hrest⟩ := g.split_event hj
  obtain rfl := Activity.event?_eq_released.1 hx
  obtain ⟨o, hl⟩ := hm.entries_of_released (ha.path hc hd)
    (List.mem_append_right _ List.mem_cons_self)
  have hentries : [] ++ releaseEntries q r o o = l ++ .released q r :: k := hl.symm
  obtain ⟨rfl, -, rfl⟩ := (List.append_cons_inj_of_notMem List.not_mem_nil (by simp)).1 hentries
  refine ⟨d, f, i, o, rest, ?_, ?_, hd, ht, hm, hrest⟩
  · simp [eventsOf, within]
  · cases o <;> rfl

/-- Who is woken is woken by a release, in the same move. -/
theorem Move.of_woken (hreg : a.Regular c) (hm : Move s a l b) (hl : .woke w r ∈ l) :
    ∃ q, l = releaseEntries q r (some w) (some w) := by
  cases hm with
  | @release _ _ _ q t o _ _ hn =>
    rw [leaver?_eq hreg.filed hn] at hl ⊢
    obtain ⟨_, rfl, rfl, rfl⟩ : ∃ v, o = some v ∧ v = w ∧ t = r := by
      simpa [releaseEntries] using hl
    exact ⟨q, rfl⟩
  | close => rcases mem_closingEntries hl with he | ⟨_, _, _, he⟩ <;> cases he
  | arrive | begin | idle | dispatch | grant | block | run | remain | exit =>
    simp [requestActivity] at hl

/-- Where a trace says that somebody is woken, the path goes through the release behind it. -/
theorem Path.split_woken {pre post : List TraceEvent} (hc : c.Valid) (ha : a.Regular c)
    (g : Path s a j b) (hj : j.events = pre ++ ⟨u, .woke w r⟩ :: post) :
    ∃ d f i q rest, pre = Journal.events i ++ [⟨u, .released q r⟩] ∧ post = Journal.events rest ∧
      Path s a i d ∧ d.machine.tick = u ∧ Move s d (releaseEntries q r (some w) (some w)) f ∧
      Path s f rest b := by
  obtain ⟨d, f, i, l, x, k, rest, hx, rfl, rfl, hd, ht, hm, hrest⟩ := g.split_event hj
  obtain rfl : x = .woke w r := by cases x <;> simp_all [Activity.event?]
  obtain ⟨q, hl⟩ := hm.of_woken (ha.path hc hd) (List.mem_append_right _ List.mem_cons_self)
  have hentries : [Activity.released q r, .promoted w r] ++ [.woke w r] = l ++ .woke w r :: k :=
    hl.symm
  obtain ⟨rfl, -, rfl⟩ := (List.append_cons_inj_of_notMem (by simp) List.not_mem_nil).1 hentries
  exact ⟨d, f, i, q, rest, rfl, rfl, hd, ht, hm, hrest⟩

end Simulation

open Simulation

variable {c : Scenario} {s : Strategy}

/-- A resource wakes those that wait for it in the order of the strategy.  Where this is first come,
first served, those that are woken are the first of those that are blocked.  Under the three that
look at priorities the one that is woken has the greatest priority among those that wait at that
moment, and was blocked before all others that have the same.  And a release wakes one process if
any waits, and nobody else is woken before the next release. -/
theorem wake_ups_in_order {run : Run} (hc : c.Valid) (hrun : simulate s c = .ok run)
    (r : ResourceId) :
    (s.protocol.wakeOrder = .fifo → wokenOn r run.trace.events <+: blockedOn r run.trace.events) ∧
    (s = .priority ∨ s = .priorityCeiling ∨ s = .priorityInheritance →
      ∀ pre t p post, run.trace.events = pre ++ ⟨t, .woke p r⟩ :: post →
        ∃ i a b q front back, Path s (opening c).moment i a ∧
          Move s a (releaseEntries q r (some p) (some p)) b ∧ pre = i.events ++ [⟨t, .released q r⟩] ∧
          waitersAfter r pre = front ++ p :: back ∧
          (∀ w ∈ front, priorityOf a.machine w < priorityOf a.machine p) ∧
          ∀ w ∈ back, priorityOf a.machine w ≤ priorityOf a.machine p) ∧
    ∀ pre t q post, run.trace.events = pre ++ ⟨t, .released q r⟩ :: post →
      (waitersAfter r pre = [] → wokenOn r (untilFreed r post) = []) ∧
      (waitersAfter r pre ≠ [] → ∃ w rest, post = ⟨t, .woke w r⟩ :: rest ∧
        w ∈ waitersAfter r pre ∧ wokenOn r (untilFreed r post) = [w]) := by
  obtain ⟨j, b, g, hevents, -⟩ := path_of_simulate hc hrun
  rw [hevents]
  refine ⟨fun hκ => ?_, fun hs pre t p post hj => ?_, fun pre t q post hj => ?_⟩
  · have hκ : s.protocol = .mutex .fifo := by
      cases s <;> first | rfl | cases hκ
    exact ⟨_, (g.blockedOn hκ hc r).symm⟩
  · have hκ : s.protocol.wakeOrder = .priority := by
      rcases hs with rfl | rfl | rfl <;> rfl
    obtain ⟨a, f, i, q, rest, rfl, -, ha, rfl, hm, -⟩ := g.split_woken hc (regular_opening hc) hj
    have hreg := ha.regular hc
    have hr : s.protocol.Releases a.machine r q f.machine (some p) :=
      releases_of_entries hreg hm (events_released _ _)
    obtain ⟨front, back, hsplit, hfront, hback⟩ := firstBest_woken hreg.filed hκ hr
    have hwaiters : waitersAfter r (i.events ++ [⟨a.machine.tick, .released q r⟩]) =
        a.machine.resources.waiters r := by
      rw [waitersAfter_append, ha.waitersAfter hc]
      simp [waitersAfter, Event.blockedOn?]
    refine ⟨i, a, f, q, front, back, ha, hm, rfl, hwaiters.trans hsplit, hfront, fun w hw => ?_⟩
    exact Nat.le_of_not_lt (hback w hw)
  · obtain ⟨a, f, i, o, rest, rfl, rfl, ha, rfl, hm, hrest⟩ :=
      g.split_released hc (regular_opening hc) hj
    have hreg := ha.regular hc
    have hr := releases_of_entries hreg hm (events_released _ _)
    have hquiet := hrest.quiet hc ((ha.snoc hm).regular hc) r
    rw [ha.waitersAfter hc]
    cases o with
    | none => exact ⟨fun _ => hquiet, fun hw => absurd (hr.waiters_eq_nil) hw⟩
    | some w =>
      have hw := hr.mem_of_woken
      refine ⟨fun hnone => absurd (hnone ▸ hw) List.not_mem_nil, fun _ => ?_⟩
      refine ⟨w, rest.events, rfl, hw, ?_⟩
      simpa [within, untilFreed, Event.frees, wokenOn, Event.wokenOn?] using hquiet

/-- Three processes wait for what the first one holds: a less urgent one, and two of the same
priority behind it. -/
def Scenario.queued : Scenario where
  jobs := [
    { pid := ⟨1⟩, name := "holder", start := 0, lifespan := 5, priority := 1,
      holds := [{ resource := ⟨0⟩, since := 0, duration := 4 }] },
    { pid := ⟨2⟩, name := "normal", start := 1, lifespan := 2, priority := 5,
      holds := [{ resource := ⟨0⟩, since := 0, duration := 1 }] },
    { pid := ⟨3⟩, name := "urgent", start := 2, lifespan := 2, priority := 9,
      holds := [{ resource := ⟨0⟩, since := 0, duration := 1 }] },
    { pid := ⟨4⟩, name := "late", start := 3, lifespan := 2, priority := 9,
      holds := [{ resource := ⟨0⟩, since := 0, duration := 1 }] }]
  resourceCount := 1
  limits := .standard
  maxTicks := 40
  audit := true

theorem third_among {front back : List Pid} (h : [⟨2⟩, ⟨3⟩, ⟨4⟩] = front ++ ⟨3⟩ :: back) :
    front = [⟨2⟩] ∧ back = [⟨4⟩] := by
  match front, h with
  | [_], h => simpa [eq_comm] using h
  | [_, _], h => simp at h
  | _ :: _ :: _ :: _, h => simp at h

/-- The third process is woken before the second, which has waited longer, and before the fourth,
which is as urgent. -/
theorem wake_ups_in_order_queued :
    ∃ run pre post i a b q, simulate .priorityInheritance .queued = .ok run ∧
      run.trace.events = pre ++ ⟨3, .woke ⟨3⟩ ⟨0⟩⟩ :: post ∧
      waitersAfter ⟨0⟩ pre = [⟨2⟩, ⟨3⟩, ⟨4⟩] ∧
      Path .priorityInheritance (opening .queued).moment i a ∧
      Move .priorityInheritance a (releaseEntries q ⟨0⟩ (some ⟨3⟩) (some ⟨3⟩)) b ∧
      priorityOf a.machine ⟨2⟩ < priorityOf a.machine ⟨3⟩ ∧
      priorityOf a.machine ⟨4⟩ ≤ priorityOf a.machine ⟨3⟩ := by
  have hsim : (simulate .priorityInheritance .queued).toOption.any (fun run =>
      decide (run.trace.events = run.trace.events.take 22 ++ ⟨3, .woke ⟨3⟩ ⟨0⟩⟩ ::
          run.trace.events.drop 23 ∧
        waitersAfter ⟨0⟩ (run.trace.events.take 22) = [⟨2⟩, ⟨3⟩, ⟨4⟩])) = true := by
    decide
  obtain ⟨run, hrun, hsplit⟩ := Option.any_eq_true _ _ |>.1 hsim
  obtain ⟨hevents, hwaiters⟩ := of_decide_eq_true hsplit
  have hrun := toOption_eq_some.1 hrun
  obtain ⟨-, hwakes, -⟩ := wake_ups_in_order (c := .queued) (by decide) hrun ⟨0⟩
  obtain ⟨i, a, b, q, front, back, ha, hm, -, hwho, hfront, hback⟩ :=
    hwakes (.inr (.inr rfl)) _ 3 ⟨3⟩ _ hevents
  obtain ⟨rfl, rfl⟩ := third_among (hwaiters.symm.trans hwho)
  exact ⟨run, _, _, i, a, b, q, hrun, hevents, hwaiters, ha, hm, hfront _ (by simp),
    hback _ (by simp)⟩

end Uniprocessor
