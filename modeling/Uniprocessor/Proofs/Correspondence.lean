import Uniprocessor.Proofs.Lockstep
import Uniprocessor.Proofs.Replay
import Uniprocessor.Proofs.Translation
/-
  Runs under other names and other numbers.

  The run of a translated scenario is the translated run of the scenario.  Within a tick each move
  is the translated one (`Move.translate`), and so is the path up to the end of the turns
  (`Path.translate`).  What the end of a tick tells of priorities is told by pid, so that it may
  come in another order (`changes_translate`); where the pids stay, it does not.  A tick therefore
  comes to the same but for this order (`Corresponds`, `tick_translate`), and the two runs come
  to the same exit at one time (`leaves_translate`).
-/

namespace Uniprocessor

/-- The event as one of other processes. -/
def Event.rename (φ : Pid → Pid) : Event → Event
  | .forked p => .forked (φ p)
  | .switched prev next => .switched (prev.map φ) (next.map φ)
  | .ran p n => .ran (φ p) n
  | .idle => .idle
  | .acquired p r => .acquired (φ p) r
  | .blocked p r => .blocked (φ p) r
  | .released p r => .released (φ p) r
  | .woke p r => .woke (φ p) r
  | .priorityChanged p old new => .priorityChanged (φ p) old new
  | .exited p => .exited (φ p)

/-- The event with other grades of priority. -/
def Event.regrade (f : Nat → Nat) : Event → Event
  | .priorityChanged p old new => .priorityChanged p (f old) (f new)
  | e => e

theorem Event.regrade_id (e : Event) : e.regrade id = e := by
  cases e <;> rfl

theorem Event.rename_id (e : Event) : e.rename id = e := by
  cases e with
  | switched prev next => rw [rename, Option.map_id, id, id]
  | _ => rfl

/-- Whether an event is a change of priority. -/
def Event.isChange : Event → Bool
  | .priorityChanged _ _ _ => true
  | _ => false

/-- Another event in the same tick. -/
def TraceEvent.map (g : Event → Event) (e : TraceEvent) : TraceEvent := ⟨e.tick, g e.event⟩

namespace Translation

open Simulation

variable (τ : Translation)

def event (e : Event) : Event := (e.regrade τ.grade).rename τ.pid

def phase : Phase → Phase
  | .arriving => .arriving
  | .deciding => .deciding
  | .requesting d p due => .requesting (τ.decision d) (τ.pid p) due
  | .releasing p due => .releasing (τ.pid p) due
  | .closing ran => .closing ran

def moment (a : Moment) : Moment where
  phase := τ.phase a.phase
  machine := τ.machine a.machine
  before := τ.machine a.before
  pending := a.pending.map τ.job

def progress (g : Progress) : Progress := ⟨τ.machine g.machine, g.pending.map τ.job⟩

def scenario (c : Scenario) : Scenario :=
  { c with jobs := c.jobs.map τ.job, limits := τ.limits c.limits }

variable {τ} {s : Strategy} {c : Scenario} {S : Set Nat}

@[simp] theorem isChange_event (e : Event) : (τ.event e).isChange = e.isChange := by
  cases e <;> rfl

theorem arrivals_job (l : List Job) : arrivals (l.map τ.job) = (arrivals l).map τ.job := by
  have arrive_job : ∀ (j : Job) (l : List Job),
      arrive (τ.job j) (l.map τ.job) = (arrive j l).map τ.job := by
    intro j l
    induction l with
    | nil => rfl
    | cons k l ih =>
      rw [List.map_cons, arrive, arrive]
      by_cases h : j.start ≤ k.start
      · rw [if_pos (show (τ.job j).start ≤ (τ.job k).start from h), if_pos h]
        rfl
      · rw [if_neg (show ¬ (τ.job j).start ≤ (τ.job k).start from h), if_neg h, ih]
        rfl
  induction l with
  | nil => rfl
  | cons j l ih =>
    show arrive (τ.job j) (arrivals (l.map τ.job)) = (arrive j (arrivals l)).map τ.job
    rw [ih, arrive_job]

theorem progress_opening : τ.progress (opening c) = opening (τ.scenario c) := by
  have hidle : τ.resources (.ofSize c.resourceCount) = .ofSize c.resourceCount :=
    congrArg ResourceTable.mk List.map_replicate
  show Progress.mk (τ.machine (.start c.resourceCount c.limits)) ((arrivals c.jobs).map τ.job) =
    ⟨.start c.resourceCount (τ.limits c.limits), arrivals (c.jobs.map τ.job)⟩
  rw [arrivals_job]
  show Progress.mk ⟨.empty, .empty, τ.resources (.ofSize c.resourceCount), none,
    τ.limits c.limits, 0⟩ _ = _
  rw [hidle]
  rfl

end Translation

/-- The second trace is the first one, translated; the order in which the end of a tick tells of
priorities may be another, unless the pids are the same. -/
structure Trace.Corresponds (τ : Translation) (t t' : Trace) : Prop where
  endTick : t'.endTick = t.endTick
  exit : t'.exit = t.exit
  told : (t'.events.filter fun e => !e.event.isChange) =
    (t.events.filter fun e => !e.event.isChange).map (TraceEvent.map τ.event)
  changes : ∀ k, ((t'.eventsOn k).filter Event.isChange).Perm
    (((t.eventsOn k).filter Event.isChange).map τ.event)
  exact : (∀ p, τ.pid p = p) → t'.events = t.events.map (TraceEvent.map τ.event)

namespace Simulation

open Translation

variable {τ : Translation} {s : Strategy} {c : Scenario} {S : Set Nat} {m n : Machine} {p : Pid}
variable {a b : Moment} {i j : Journal} {l : List Activity} {g : Progress} {r r' : TickResult}
variable {k : Nat}

/-! ## Moves -/

theorem requestsOf_translate {due : List ResourceId} (h : requestsOf m p = .ok due) :
    requestsOf (τ.machine m) (τ.pid p) = .ok due := by
  obtain ⟨x, hx, rfl⟩ := Scripted.requestsOf_eq_ok.1 h
  refine Scripted.requestsOf_eq_ok.2 ⟨_, process?_of hx, ?_⟩
  unfold Machine.lacks
  refine List.filter_congr fun r _ => ?_
  rw [decide_eq_decide, ne_eq, owner?_machine_iff]

theorem events_decided_translate {o : Option Pid} {d : Decision} :
    eventsOf [.decided (o.map τ.pid) (τ.decision d)] =
      (eventsOf [.decided o d]).map τ.event := by
  rw [eventsOf_decided, eventsOf_decided, next_decision]
  by_cases h : d.next = o
  · rw [if_pos h, if_pos (congrArg _ h)]
    rfl
  · rw [if_neg h, if_neg fun heq => h (Option.map_injective τ.pid_injective heq)]
    rfl

/-- A move within a tick is a move of the translated run. -/
theorem Move.translate (hτ : τ.Faithful s c S) (hreg : a.Regular c)
    (hreg' : (τ.moment a).Regular (τ.scenario c)) (hall : a.machine.All (Drawn S))
    (hm : Move s a l b) (ht : b.machine.tick = a.machine.tick) :
    ∃ l', Move s (τ.moment a) l' (τ.moment b) ∧ eventsOf l' = (eventsOf l).map τ.event := by
  have hlimits := hreg.scripted.limits
  have decides : ∀ {n d}, s.schedule a.machine = .ok (n, d) →
      s.schedule (τ.machine a.machine) = .ok (τ.machine n, τ.decision d) := by
    intro n d hn
    have hd := (Policy.schedule_decides hn).translate hτ hlimits hall
    exact hreg'.filed.schedule_eq_ok.2 hd
  cases hm with
  | @arrive m _ _ job u hj hn =>
    obtain ⟨hnew, hready, rfl⟩ := Machine.fork_eq_ok.1 hn
    have hfork : (τ.machine m).fork (τ.job job) = .ok (τ.machine (m.enroll job)) := by
      refine Machine.fork_eq_ok.2 ⟨?_, ?_, machine_enroll job⟩
      · show (τ.machine m).process? (τ.pid job.pid) = none
        rw [process?_machine, hnew]
        rfl
      · exact fun hmem => hready (mem_ready_machine.1 hmem)
    exact ⟨_, .arrive hj hfork, rfl⟩
  | @begin m _ u hlate =>
    refine ⟨_, .begin fun job hjob => ?_, rfl⟩
    rw [List.head?_map] at hjob
    obtain ⟨job', hjob', rfl⟩ := Option.map_eq_some_iff.1 hjob
    exact hlate job' hjob'
  | idle hn hnext =>
    refine ⟨_, .idle (decides hn) ?_, events_decided_translate⟩
    rw [next_decision, hnext]
    rfl
  | dispatch hn hnext hdue =>
    refine ⟨_, .dispatch (decides hn) ?_ (requestsOf_translate hdue), events_decided_translate⟩
    rw [next_decision, hnext]
    rfl
  | @grant m n _ d p r due u hn =>
    have hacquires := (hreg.phase.2.acquires hn).translate hτ.ordered hall
    have hn' : s.acquire (τ.machine m) r = .ok (τ.machine n, .granted) :=
      Strategy.acquire_eq_ok.2 ⟨_, hreg'.phase.2.current, Protocol.acquire_of_acquires hacquires⟩
    exact ⟨_, .grant hn', rfl⟩
  | @block m n _ d p o r due u hn =>
    have hacquires := (hreg.phase.2.acquires hn).translate hτ.ordered hall
    have hn' : s.acquire (τ.machine m) r = .ok (τ.machine n, .blocked (τ.pid o)) :=
      Strategy.acquire_eq_ok.2 ⟨_, hreg'.phase.2.current, Protocol.acquire_of_acquires hacquires⟩
    exact ⟨_, .block hn', rfl⟩
  | @run m _ _ d p age x due u hn hx hdue =>
    obtain ⟨y, hy, hbound, rfl, rfl⟩ := Machine.grow_eq_ok.1 hn
    have hgrow : τ.machine (m.adjust p (.aged (y.age + 1))) =
        (τ.machine m).adjust (τ.pid p) (.aged (y.age + 1)) := machine_adjust fun _ _ => rfl
    have hn' : (τ.machine m).grow (τ.pid p) =
        .ok (τ.machine (m.adjust p (.aged (y.age + 1))), y.age + 1) :=
      Machine.grow_eq_ok.2 ⟨_, process?_of hy, hbound, rfl, hgrow⟩
    exact ⟨_, .run hn' (process?_of hx) hdue, rfl⟩
  | @release m n _ p r o due u hn =>
    have hreleases := (Returns.releases hreg.phase hn).translate hτ.ordered hall
    have hn' : s.release (τ.machine m) r = .ok (τ.machine n, o.map τ.pid) :=
      Strategy.release_eq_ok.2 ⟨_, hreg'.phase.current, hreg'.filed.release_eq_ok.2 hreleases⟩
    have hevents := events_release (p := τ.pid p) hreg'.filed hn'
    refine ⟨_, .release hn', hevents.trans ?_⟩
    rw [events_release hreg.filed hn]
    cases o <;> rfl
  | remain hx hd => exact ⟨_, .remain (process?_of hx) hd, rfl⟩
  | @exit m before p x u hx hd =>
    have hexit := Move.exit (s := s) (b := τ.machine before) (u := u.map τ.job)
      (process?_of (τ := τ) hx) hd
    rw [← machine_turn] at hexit
    exact ⟨_, hexit, rfl⟩
  | close _ hn =>
    obtain ⟨-, rfl⟩ := Machine.advance_eq_ok.1 hn
    exact absurd ht (Nat.succ_ne_self _)

/-- A path within a tick is a path of the translated run. -/
theorem Path.translate (hc : c.Valid) (hc' : (τ.scenario c).Valid) (hτ : τ.Faithful s c S)
    {i' : Journal} (ha : Path s (opening c).moment i a)
    (ha' : Path s (opening (τ.scenario c)).moment i' (τ.moment a)) (g : Path s a j b)
    (ht : b.machine.tick = a.machine.tick) :
    ∃ j', Path s (τ.moment a) j' (τ.moment b) ∧
      Journal.events j' = j.events.map (TraceEvent.map τ.event) := by
  induction g with
  | refl => exact ⟨[], .refl, rfl⟩
  | @snoc d b j l g hm ih =>
    have hle := g.tick_le
    have hle' := tick_le_move hm
    have htick : d.machine.tick = a.machine.tick := by omega
    obtain ⟨j', g', hj'⟩ := ih htick
    have hd := ha.trans g
    obtain ⟨l', hm', hl'⟩ := hm.translate hτ (hd.regular hc) ((ha'.trans g').regular hc')
      (hd.kept hc hτ.drawn) (by omega)
    refine ⟨_, g'.snoc hm', ?_⟩
    rw [events_snoc, events_snoc, List.map_append, hj', hl']
    simp only [within, List.map_map]
    rfl

/-! ## The end of a tick -/

theorem changeSince_translate (hS : StrictMonoOn τ.grade S) (hm : m.All (Drawn S))
    {x : ProcessRecord} (hx : Drawn S x) :
    changeSince (τ.machine m) (τ.pid p, τ.record x) = (changeSince m (p, x)).map τ.event := by
  have hpriority : (τ.machine m).priority? (τ.pid p) = (m.priority? p).map τ.grade := by
    rw [Machine.priority?, Machine.priority?, process?_machine, Option.map_map, Option.map_map]
    rfl
  unfold changeSince
  dsimp only
  rw [hpriority, Machine.priority?]
  cases hy : m.process? p with
  | none => rfl
  | some y =>
    have hiff : τ.grade y.priority = τ.grade x.priority ↔ y.priority = x.priority :=
      ⟨fun h => hS.injOn (hm p y hy).1 hx.1 h, congrArg τ.grade⟩
    show (if τ.grade y.priority = τ.grade x.priority then none else some _) =
      Option.map τ.event (if y.priority = x.priority then none else some _)
    by_cases h : y.priority = x.priority
    · rw [if_pos h, if_pos (hiff.2 h)]
      rfl
    · rw [if_neg h, if_neg fun heq => h (hiff.1 heq)]
      rfl

/-- The changes of priority are those of the translated machines, in the order of the new pids. -/
theorem changes_translate (hS : StrictMonoOn τ.grade S) (hm : m.All (Drawn S))
    (hn : n.All (Drawn S)) (hsorted : n.processes.Sorted) :
    (eventsOf (priorityChanges (τ.machine m) (τ.machine n))).Perm
      ((eventsOf (priorityChanges m n)).map τ.event) ∧
    ((∀ p, τ.pid p = p) → eventsOf (priorityChanges (τ.machine m) (τ.machine n)) =
      (eventsOf (priorityChanges m n)).map τ.event) := by
  have hmap : (n.processes.entries.map fun e => (τ.pid e.1, τ.record e.2)).filterMap
      (changeSince (τ.machine m)) =
      (n.processes.entries.filterMap (changeSince m)).map τ.event := by
    rw [List.filterMap_map, List.map_filterMap]
    refine List.filterMap_congr fun e he => ?_
    exact changeSince_translate hS hm (hn e.1 e.2 ((PidMap.mem_entries hsorted).1 he))
  rw [events_priorityChanges, events_priorityChanges, ← hmap]
  refine ⟨(processes_perm hsorted).filterMap _, fun hid => ?_⟩
  exact congrArg _ (entries_processes hsorted hid)

theorem over_translate {ran : Bool} {u : List Job} (hn : n.Filed) (hn' : (τ.machine n).Filed) :
    Over ran (u.map τ.job) (τ.machine n) ↔ Over ran u n := by
  unfold Over
  rw [liveCount_eq_zero hn, liveCount_eq_zero hn', List.map_eq_nil_iff]
  refine and_congr_right fun _ => and_congr_right fun _ => ⟨fun h p hp => ?_, fun h q hq => ?_⟩
  · obtain ⟨t, ht, hne⟩ := hp
    obtain ⟨x, hx, rfl⟩ := Machine.status?_eq_some.1 ht
    exact h (τ.pid p) ⟨_, Machine.status?_of (process?_of hx), hne⟩
  · obtain ⟨t, ht, hne⟩ := hq
    obtain ⟨y, hy, rfl⟩ := Machine.status?_eq_some.1 ht
    obtain ⟨p, x, rfl, hx, rfl⟩ := exists_process? hy
    exact h p ⟨_, Machine.status?_of hx, hne⟩

/-- The second tick comes to what the first one comes to, translated; the order in which it tells of
priorities may be another, unless the pids are the same. -/
structure TickResult.Corresponds (τ : Translation) (r r' : TickResult) : Prop where
  after : r'.after = τ.progress r.after
  exit : r'.exit = r.exit
  told : (eventsOf r'.done).filter (fun e => !e.isChange) =
    ((eventsOf r.done).filter fun e => !e.isChange).map τ.event
  changes : ((eventsOf r'.done).filter Event.isChange).Perm
    (((eventsOf r.done).filter Event.isChange).map τ.event)
  exact : (∀ p, τ.pid p = p) → eventsOf r'.done = (eventsOf r.done).map τ.event

theorem filter_map_event (V : Event → Bool) (hV : ∀ e, V (τ.event e) = V e) (es : List Event) :
    (es.map τ.event).filter V = (es.filter V).map τ.event := by
  rw [List.filter_map]
  refine congrArg _ (List.filter_congr fun e _ => ?_)
  exact hV e

/-- Two ticks correspond whose events do, up to the order of the changes at their ends. -/
theorem corresponds_of (own changes changes' : List Event)
    (hafter : r'.after = τ.progress r.after) (hexit : r'.exit = r.exit)
    (hdone : eventsOf r.done = own ++ changes)
    (hdone' : eventsOf r'.done = own.map τ.event ++ changes')
    (hchanges : ∀ e ∈ changes, e.isChange = true)
    (hperm : changes'.Perm (changes.map τ.event))
    (hexact : (∀ p, τ.pid p = p) → changes' = changes.map τ.event) : r.Corresponds τ r' := by
  have hchanges' : ∀ e ∈ changes', e.isChange = true := by
    intro e he
    obtain ⟨e', he', rfl⟩ := List.mem_map.1 (hperm.mem_iff.1 he)
    rw [isChange_event, hchanges e' he']
  have silent : ∀ {es : List Event}, (∀ e ∈ es, e.isChange = true) →
      es.filter (fun e => !e.isChange) = [] := by
    intro es hes
    refine List.filter_eq_nil_iff.2 fun e he => ?_
    rw [hes e he]
    exact Bool.false_ne_true
  refine ⟨hafter, hexit, ?_, ?_, fun hid => ?_⟩
  · rw [hdone, hdone', List.filter_append, List.filter_append, silent hchanges, silent hchanges',
      List.append_nil, List.append_nil]
    exact filter_map_event (fun e => !e.isChange) (fun e => by simp) own
  · rw [hdone, hdone', List.filter_append, List.filter_append, List.map_append,
      filter_map_event Event.isChange isChange_event,
      List.filter_eq_self.2 hchanges, List.filter_eq_self.2 hchanges']
    exact hperm.append_left _
  · rw [hdone, hdone', hexact hid, List.map_append]

/-! ## Ticks -/

/-- What the ends of two corresponding ticks come to. -/
theorem Closes.translate {ran : Bool} {u : List Job} {acts acts' : List Activity}
    (hS : StrictMonoOn τ.grade S) (hm : m.All (Drawn S)) (hn : n.All (Drawn S)) (hfiled : n.Filed)
    (hfiled' : (τ.machine n).Filed) (hacts : eventsOf acts' = (eventsOf acts).map τ.event)
    {audit : Bool} (h : Closes audit ran m n u acts r)
    (h' : Closes audit ran (τ.machine m) (τ.machine n) (u.map τ.job) acts' r') :
    r.Corresponds τ r' := by
  have hover : Over ran (u.map τ.job) (τ.machine n) ↔ Over ran u n :=
    over_translate hfiled hfiled'
  cases h with
  | ended ho =>
    cases h' with
    | ended =>
      exact corresponds_of (eventsOf acts) [] [] rfl rfl (List.append_nil _).symm
        (by rw [List.append_nil]; exact hacts) (by simp) (.refl _) fun _ => rfl
    | broken ho' => exact absurd (hover.2 ho) ho'
    | next ho' => exact absurd (hover.2 ho) ho'
  | broken _ _ hv =>
    rw [hfiled.audit_eq_ok] at hv
    cases hv
  | next ho _ hpass =>
    obtain ⟨-, rfl⟩ := Machine.advance_eq_ok.1 hpass
    cases h' with
    | ended ho' => exact absurd (hover.1 ho') ho
    | broken _ _ hv =>
      rw [hfiled'.audit_eq_ok] at hv
      cases hv
    | next _ _ hpass' =>
      obtain ⟨-, rfl⟩ := Machine.advance_eq_ok.1 hpass'
      obtain ⟨hperm, hexact⟩ := changes_translate hS hm hn hfiled.sorted
      have hidle : eventsOf (if ran then [] else [Activity.idle]) =
          (eventsOf (if ran then [] else [Activity.idle])).map τ.event := by
        cases ran <;> rfl
      refine corresponds_of (eventsOf acts ++ eventsOf (if ran then [] else [Activity.idle]))
        (eventsOf (priorityChanges m n))
        (eventsOf (priorityChanges (τ.machine m) (τ.machine n))) rfl rfl ?_ ?_ ?_ hperm hexact
      · rw [closingEntries, eventsOf_append, eventsOf_append, List.append_assoc]
      · rw [closingEntries, eventsOf_append, eventsOf_append, List.map_append, ← hidle, hacts,
          List.append_assoc]
      · intro e he
        obtain ⟨x, hx, hevent⟩ := mem_eventsOf.1 he
        obtain ⟨p, i, k, rfl⟩ := mem_priorityChanges hx
        cases hevent
        rfl

theorem tick_translate (hc : c.Valid) (hc' : (τ.scenario c).Valid) (hτ : τ.Faithful s c S)
    (hk : k < c.maxTicks) (hg : startAt s c k = some g)
    (hg' : startAt s (τ.scenario c) k = some (τ.progress g)) :
    ∃ r r', tickAt s c k = some r ∧ tickAt s (τ.scenario c) k = some r' ∧ r.Corresponds τ r' := by
  obtain ⟨ht, hpath⟩ := startAt_moment hc hg
  obtain ⟨-, hpath'⟩ := startAt_moment hc' hg'
  have hbound : g.machine.tick + 1 < tickBound := by
    have := hc.inRange.2.2.1
    omega
  obtain ⟨r, hr⟩ : ∃ r, step s c.audit g = .ok r := exists_step hc (hpath.regular hc) hbound
  obtain ⟨ran, m, n, acts, htick, hplay, hcloses⟩ := step_path hr
  obtain ⟨j', hplay', hevents⟩ := Path.translate hc hc' hτ hpath hpath' hplay htick
  obtain ⟨-, acts', r', rfl, hr', hcloses'⟩ := step_of_path hc' (g := τ.progress g)
    (hpath'.regular hc') hbound hplay' htick
  refine ⟨r, r', tickAt_eq_some.2 ⟨g, hg, hr⟩, tickAt_eq_some.2 ⟨_, hg', hr'⟩, ?_⟩
  have hturns := hpath.trans hplay
  have hacts : eventsOf acts' = (eventsOf acts).map τ.event := by
    rw [events_stamp, events_stamp, within, within, List.map_map] at hevents
    refine (List.map_inj_right fun e f hef => (TraceEvent.mk.inj hef).2).1 (hevents.trans ?_)
    rw [List.map_map]
    rfl
  exact hcloses.translate hτ.ordered (hturns.kept_before hc hτ.drawn) (hturns.kept hc hτ.drawn)
    (hturns.regular hc).filed ((hpath'.trans hplay').regular hc').filed hacts hcloses'

/-! ## Runs -/

theorem start_translate (hc : c.Valid) (hc' : (τ.scenario c).Valid) (hτ : τ.Faithful s c S)
    (hk : k ≤ c.maxTicks) : startAt s (τ.scenario c) k = (startAt s c k).map τ.progress := by
  induction k with
  | zero => exact congrArg some progress_opening.symm
  | succ k ih =>
    have ih := ih (Nat.le_of_succ_le hk)
    cases hg : startAt s c k with
    | none =>
      rw [hg] at ih
      rw [startAt, startAt, tickAt_eq_none hg, tickAt_eq_none ih]
      rfl
    | some g =>
      rw [hg] at ih
      obtain ⟨r, r', hr, hr', hsame⟩ := tick_translate hc hc' hτ hk hg ih
      rw [startAt, startAt, hr, hr', Option.bind_some, Option.bind_some, hsame.exit, hsame.after]
      by_cases he : r.exit = none
      · rw [if_pos he, if_pos he]
        rfl
      · rw [if_neg he, if_neg he]
        rfl

/-- What the ticks of two corresponding runs have told. -/
theorem eventsAt_translate (hc : c.Valid) (hc' : (τ.scenario c).Valid) (hτ : τ.Faithful s c S)
    (hk : k < c.maxTicks) :
    ((eventsAt s (τ.scenario c) k).filter fun e => !e.isChange) =
      ((eventsAt s c k).filter fun e => !e.isChange).map τ.event ∧
    ((eventsAt s (τ.scenario c) k).filter Event.isChange).Perm
      (((eventsAt s c k).filter Event.isChange).map τ.event) ∧
    ((∀ p, τ.pid p = p) → eventsAt s (τ.scenario c) k = (eventsAt s c k).map τ.event) := by
  have hstart := start_translate hc hc' hτ (Nat.le_of_lt hk)
  cases hg : startAt s c k with
  | none =>
    rw [hg] at hstart
    rw [eventsAt, eventsAt, tickAt_eq_none hg, tickAt_eq_none hstart]
    exact ⟨rfl, .refl _, fun _ => rfl⟩
  | some g =>
    rw [hg] at hstart
    obtain ⟨r, r', hr, hr', hsame⟩ := tick_translate hc hc' hτ hk hg hstart
    rw [eventsAt_of hr, eventsAt_of hr']
    exact ⟨hsame.told, hsame.changes, hsame.exact⟩

theorem Exits.translate (hc : c.Valid) (hc' : (τ.scenario c).Valid) (hτ : τ.Faithful s c S)
    {e : Exit} (h : Exits s c c.maxTicks m e) :
    Exits s (τ.scenario c) c.maxTicks (τ.machine m) e := by
  cases h with
  | ended hk hr he =>
    obtain ⟨g, hg, -⟩ := tickAt_eq_some.1 hr
    have hg' := start_translate hc hc' hτ (Nat.le_of_lt hk)
    rw [hg] at hg'
    obtain ⟨q, r', hq, hr', hsame⟩ := tick_translate hc hc' hτ hk hg hg'
    obtain rfl := Option.some.inj (hr.symm.trans hq)
    have hexits := Exits.ended hk hr' (hsame.exit.trans he)
    rw [hsame.after] at hexits
    exact hexits
  | limit hg =>
    have hg' := start_translate hc hc' hτ (Nat.le_refl _)
    rw [hg] at hg'
    exact .limit hg'

/-! ## Traces -/

theorem map_annals (h : Event → Event) (F : Nat → List Event) (n : Nat) :
    (annals F n).map (TraceEvent.map h) = annals (fun k => (F k).map h) n := by
  induction n with
  | zero => rfl
  | succ n ih =>
    rw [annals, List.map_append, ih, annals, within, within, List.map_map, List.map_map]
    rfl

theorem filter_annals (V : Event → Bool) (F : Nat → List Event) (n : Nat) :
    (annals F n).filter (fun e => V e.event) = annals (fun k => (F k).filter V) n := by
  induction n with
  | zero => rfl
  | succ n ih =>
    rw [annals, List.filter_append, ih, annals, within, within, List.filter_map]
    rfl

/-- What happens in a tick behind the last one. -/
theorem filter_annals_of_le {F : Nat → List Event} {n : Nat} (hk : n ≤ k) :
    (annals F n).filter (fun e => e.tick = k) = [] := by
  refine List.filter_eq_nil_iff.2 fun e he => ?_
  rw [decide_eq_true_eq]
  have := (mem_annals.1 he).1
  omega

theorem eventsOn_of_lt {t : Trace} {F : Nat → List Event} {n : Nat} (ht : t.events = annals F n)
    (hk : k < n) : t.eventsOn k = F k := by
  rw [Trace.eventsOn, ht, filter_annals_eq hk, within, List.map_map]
  exact List.map_id _

theorem eventsOn_of_le {t : Trace} {F : Nat → List Event} {n : Nat} (ht : t.events = annals F n)
    (hk : n ≤ k) : t.eventsOn k = [] := by
  rw [Trace.eventsOn, ht, filter_annals_of_le hk]
  rfl

/-- The run of a translated scenario is the translated run. -/
theorem leaves_translate (hc : c.Valid) (hc' : (τ.scenario c).Valid) (hτ : τ.Faithful s c S) :
    ∃ t t', Leaves s c t ∧ Leaves s (τ.scenario c) t' ∧ t.Corresponds τ t' := by
  obtain ⟨f, hf⟩ := exists_playAll (s := s) hc
  obtain ⟨f', hf'⟩ := exists_playAll (s := s) hc'
  obtain ⟨hmachine, hexit⟩ :=
    (playAll_exits hc' hf').unique ((playAll_exits hc hf).translate hc hc' hτ)
  have hevents : (traceOf c f).events = annals (eventsAt s c) c.maxTicks := playAll_events hc hf
  have hevents' : (traceOf (τ.scenario c) f').events =
      annals (eventsAt s (τ.scenario c)) c.maxTicks := playAll_events hc' hf'
  refine ⟨_, _, leaves_of_playAll hc hf, leaves_of_playAll hc' hf',
    ⟨?_, hexit, ?_, fun k => ?_, fun hid => ?_⟩⟩
  · show f'.machine.tick = f.machine.tick
    rw [hmachine]
    rfl
  · rw [hevents, hevents', filter_annals fun e => !e.isChange, filter_annals fun e => !e.isChange,
      map_annals]
    exact annals_congr fun k hk => (eventsAt_translate hc hc' hτ hk).1
  · rcases Nat.lt_or_ge k c.maxTicks with hk | hk
    · rw [eventsOn_of_lt hevents hk, eventsOn_of_lt hevents' hk]
      exact (eventsAt_translate hc hc' hτ hk).2.1
    · rw [eventsOn_of_le hevents hk, eventsOn_of_le hevents' hk]
      exact .refl _
  · rw [hevents, hevents', map_annals]
    exact annals_congr fun k hk => (eventsAt_translate hc hc' hτ hk).2.2 hid

end Simulation

end Uniprocessor
