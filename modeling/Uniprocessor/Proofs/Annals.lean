import Uniprocessor.Proofs.Deadline
/-
  A trace as the annals of its ticks.

  `annals F n` are the events `F k` of the ticks `k < n`, one tick behind the other.  They are
  ordered by tick, and a tick is cut out of them by its number (`filter_annals_lt`,
  `filter_annals_eq`).  The trace of a run is the annals of what its ticks have done
  (`events_eq_annals`), and the part of it that lies before a tick boundary is that of the path to
  this boundary (`startAt_of_le`).

  The last switch of a trace says what is on the CPU (`seatAfter`, `Path.seat`).  A tick in which
  the run ends starts among the dead (`dormant_of_ended`), where nothing changes but the process on
  the CPU (`Path.dormant`).  The path of a whole run ends where nothing is left to do, or at the
  tick limit (`exists_last`).
-/

namespace Uniprocessor

/-- The process on the CPU behind an event, if it was `o` before. -/
def Event.seat (o : Option Pid) : Event → Option Pid
  | .switched _ next => next
  | _ => o

/-- The process that the last switch has put on the CPU. -/
def seatAfter (es : List TraceEvent) : Option Pid := es.foldl (fun o e => e.event.seat o) none

/-- The part of a trace that comes before a tick. -/
def Trace.before (t : Trace) (k : Nat) : List TraceEvent := t.events.filter fun e => e.tick < k

/-- The events of one tick. -/
def Trace.eventsOn (t : Trace) (k : Nat) : List Event :=
  (t.events.filter fun e => e.tick = k).map (·.event)

namespace Simulation

/-! ## Annals -/

/-- The events of the first `n` ticks, one tick behind the other. -/
def annals (F : Nat → List Event) : Nat → List TraceEvent
  | 0 => []
  | n + 1 => annals F n ++ within n (F n)

variable {F : Nat → List Event} {i k n : Nat} {e : TraceEvent}

theorem mem_annals : e ∈ annals F n ↔ e.tick < n ∧ e.event ∈ F e.tick := by
  induction n with
  | zero => exact iff_of_false List.not_mem_nil fun h => absurd h.1 (Nat.not_lt_zero _)
  | succ n ih =>
    rw [annals, List.mem_append, ih, mem_within, Nat.lt_succ_iff_lt_or_eq, or_and_right]
    refine or_congr Iff.rfl ⟨?_, ?_⟩
    · rintro ⟨rfl, he⟩
      exact ⟨rfl, he⟩
    · rintro ⟨rfl, he⟩
      exact ⟨rfl, he⟩

/-- Annals are ordered by tick. -/
theorem annals_ordered : (annals F n).Pairwise fun e f => e.tick ≤ f.tick := by
  induction n with
  | zero => exact .nil
  | succ n ih =>
    refine List.pairwise_append.2 ⟨ih, ?_, fun e he f hf => ?_⟩
    · refine List.pairwise_of_forall_mem_list fun e he f hf => ?_
      exact Nat.le_of_eq ((mem_within.1 he).1.trans (mem_within.1 hf).1.symm)
    · rw [(mem_within.1 hf).1]
      exact Nat.le_of_lt (mem_annals.1 he).1

/-- What comes before a tick are the annals up to it. -/
theorem filter_annals_lt (hk : k ≤ n) :
    (annals F n).filter (fun e => e.tick < k) = annals F k := by
  induction n with
  | zero =>
    obtain rfl : k = 0 := by omega
    rfl
  | succ n ih =>
    rcases Nat.lt_or_eq_of_le hk with hlt | rfl
    · have hnone : (within n (F n)).filter (fun e => e.tick < k) = [] := by
        refine List.filter_eq_nil_iff.2 fun e he => ?_
        rw [(mem_within.1 he).1, decide_eq_true_eq]
        omega
      rw [annals, List.filter_append, ih (Nat.le_of_lt_succ hlt), hnone, List.append_nil]
    · refine List.filter_eq_self.2 fun e he => ?_
      rw [decide_eq_true_eq]
      exact (mem_annals.1 he).1

/-- What happens in a tick is what the annals have under its number. -/
theorem filter_annals_eq (hk : k < n) :
    (annals F n).filter (fun e => e.tick = k) = within k (F k) := by
  induction n with
  | zero => omega
  | succ n ih =>
    rw [annals, List.filter_append]
    rcases Nat.lt_or_eq_of_le (Nat.le_of_lt_succ hk) with hlt | rfl
    · have hnone : (within n (F n)).filter (fun e => e.tick = k) = [] := by
        refine List.filter_eq_nil_iff.2 fun e he => ?_
        rw [(mem_within.1 he).1, decide_eq_true_eq]
        omega
      rw [ih hlt, hnone, List.append_nil]
    · have hnone : (annals F k).filter (fun e => e.tick = k) = [] := by
        refine List.filter_eq_nil_iff.2 fun e he => ?_
        rw [decide_eq_true_eq]
        exact Nat.ne_of_lt (mem_annals.1 he).1
      have hall : (within k (F k)).filter (fun e => e.tick = k) = within k (F k) := by
        refine List.filter_eq_self.2 fun e he => ?_
        rw [decide_eq_true_eq]
        exact (mem_within.1 he).1
      rw [hnone, hall, List.nil_append]

/-- Ticks without events leave the annals as they are. -/
theorem annals_of_quiet (hi : i ≤ n) (hq : ∀ k, i ≤ k → F k = []) :
    annals F n = annals F i := by
  induction n with
  | zero =>
    obtain rfl : i = 0 := by omega
    rfl
  | succ n ih =>
    rcases Nat.lt_or_eq_of_le hi with hlt | rfl
    · have hle := Nat.le_of_lt_succ hlt
      rw [annals, hq n hle, ih hle]
      exact List.append_nil _
    · rfl

/-! ## The annals of a run -/

variable {s : Strategy} {c : Scenario} {g : Progress} {r : TickResult} {f : Finished}

/-- The events of the `k`-th tick of a run. -/
def eventsAt (s : Strategy) (c : Scenario) (k : Nat) : List Event :=
  ((tickAt s c k).map fun r => eventsOf r.done).getD []

theorem eventsAt_of (h : tickAt s c k = some r) : eventsAt s c k = eventsOf r.done := by
  rw [eventsAt, h, Option.map_some, Option.getD_some]

theorem historyBefore_succ : historyBefore s c (k + 1) =
    historyBefore s c k ++ ((tickAt s c k).map fun r => stamp k r.done).getD [] := by
  cases k <;> rfl

/-- A tick adds what it has done to the history. -/
theorem historyBefore_tick (h : tickAt s c k = some r) :
    historyBefore s c (k + 1) = historyBefore s c k ++ stamp k r.done := by
  rw [historyBefore_succ, h, Option.map_some, Option.getD_some]

theorem events_historyBefore : (historyBefore s c k).events = annals (eventsAt s c) k := by
  induction k with
  | zero => rfl
  | succ k ih =>
    rw [historyBefore_succ, events_append, ih, annals, eventsAt]
    cases tickAt s c k with
    | none => rfl
    | some r => rw [Option.map_some, Option.getD_some, events_stamp, Option.map_some,
        Option.getD_some]

theorem advance_journal (hc : c.Valid) {journal : Array (Nat × Activity)}
    (hg : startAt s c k = some g) (hj : journal.toList = historyBefore s c k)
    (h : advance s c.audit n g journal = .ok f) : f.journal = historyBefore s c (k + n) := by
  have htick := (startAt_moment hc hg).1
  induction n generalizing k g journal with
  | zero =>
    cases h
    exact hj
  | succ n ih =>
    simp only [advance, bind_eq_ok, htick] at h
    obtain ⟨r, hr, h⟩ := h
    have hk : tickAt s c k = some r := tickAt_eq_some.2 ⟨g, hg, hr⟩
    have hnow : (journal ++ r.done.map fun a => (k, a)).toList = historyBefore s c (k + 1) := by
      rw [Array.toList_appendList, hj, historyBefore_tick hk]
      rfl
    cases he : r.exit with
    | some exit =>
      simp only [he, pure_eq_ok] at h
      subst h
      -- no tick follows, so that the history grows no more
      have hstill : ∀ i, historyBefore s c (k + 1 + i) = historyBefore s c (k + 1) := by
        intro i
        induction i with
        | zero => rfl
        | succ i ih =>
          have hnone : tickAt s c (k + 1 + i) = none :=
            tickAt_after hk (by simp [he]) (by omega)
          rw [← Nat.add_assoc, historyBefore_succ, hnone, ih]
          exact List.append_nil _
      rw [show k + (n + 1) = k + 1 + n by omega, hstill]
      exact hnow
    | none =>
      simp only [he] at h
      have hnext : startAt s c (k + 1) = some r.after := startAt_succ.2 ⟨r, hk, he, rfl⟩
      rw [show k + (n + 1) = k + 1 + n by omega]
      exact ih hnext hnow h (startAt_moment hc hnext).1

theorem playAll_journal (hc : c.Valid) (hf : playAll s c = .ok f) :
    f.journal = historyBefore s c c.maxTicks := by
  have h := advance_journal (k := 0) hc rfl rfl hf
  rwa [Nat.zero_add] at h

/-- What a run has written is the annals of its ticks. -/
theorem playAll_events (hc : c.Valid) (hf : playAll s c = .ok f) :
    f.journal.events = annals (eventsAt s c) c.maxTicks := by
  rw [playAll_journal hc hf, events_historyBefore]

variable {run : Run}

theorem events_eq_annals (hc : c.Valid) (h : simulate s c = .ok run) :
    run.trace.events = annals (eventsAt s c) c.maxTicks := by
  obtain ⟨f, hf, rfl⟩ := playAll_of_simulate hc h
  exact playAll_events hc hf

/-- A tick boundary of a run is the end of a path, whose events are those of the trace that come
before it. -/
theorem startAt_of_le (hc : c.Valid) (h : simulate s c = .ok run) (hk : k ≤ run.trace.endTick) :
    ∃ g j, startAt s c k = some g ∧ g.machine.tick = k ∧ Path s (opening c).moment j g.moment ∧
      j.events = run.trace.events.filter fun e => e.tick < k := by
  obtain ⟨hle, q, hq⟩ := simulate_end hc h
  obtain ⟨g, hg⟩ : ∃ g, startAt s c k = some g := by
    rcases Nat.lt_or_eq_of_le hk with hlt | rfl
    · obtain ⟨r, hr, -⟩ := startAt_before hq hlt
      obtain ⟨g, hg, -⟩ := tickAt_eq_some.1 hr
      exact ⟨g, hg⟩
    · exact ⟨q, hq⟩
  obtain ⟨ht, hpath⟩ := startAt_moment hc hg
  refine ⟨g, _, hg, ht, hpath, ?_⟩
  rw [events_eq_annals hc h, filter_annals_lt (Nat.le_trans hk hle), events_historyBefore]

variable {a b : Moment} {j : Journal} {l : List Activity} {p : Pid} {o : Option Pid} {t : Nat}
variable {es : List Event}

/-! ## The process on the CPU -/

theorem eventsOf_append {l k : List Activity} : eventsOf (l ++ k) = eventsOf l ++ eventsOf k :=
  List.filterMap_append

theorem eventsOf_decided {d : Decision} :
    eventsOf [.decided o d] = if d.next = o then [] else [.switched o d.next] := by
  by_cases h : d.next = o <;> simp [eventsOf, Activity.event?, h]

theorem seat_decided {d : Decision} :
    (eventsOf [.decided o d]).foldl (fun o e => e.seat o) o = d.next := by
  rw [eventsOf_decided]
  split
  · next h => exact h.symm
  · rfl

theorem seat_of_still (hes : ∀ e ∈ es, ∀ i i', e ≠ .switched i i') :
    es.foldl (fun o e => e.seat o) o = o := by
  induction es with
  | nil => rfl
  | cons e es ih =>
    obtain ⟨he, hes⟩ := List.forall_mem_cons.1 hes
    have hseat : e.seat o = o := by
      cases e with
      | switched i i' => exact absurd rfl (he i i')
      | _ => rfl
    rw [List.foldl_cons, hseat, ih hes]

theorem current_decides {π : Policy} {m n : Machine} {d : Decision} (h : π.Decides m n d) :
    n.current = d.next := by
  cases h with
  | keep hw => exact hw.1
  | idle => rfl
  | pick => rfl

theorem current_acquires {κ : Protocol} {m n : Machine} {r : ResourceId} {reply : Reply}
    (h : κ.Acquires m r p n reply) : n.current = m.current := by
  cases h with
  | granted => rfl
  | blocked => rfl

theorem current_releases {κ : Protocol} {m n : Machine} {r : ResourceId} {w : Option Pid}
    (h : κ.Releases m r p n w) : n.current = m.current := by
  cases h with
  | quiet => rfl
  | wake => rfl

/-- The CPU changes hands in decisions only, and the events of a move say so. -/
theorem seat_move (hm : Move s a l b) :
    (eventsOf l).foldl (fun o e => e.seat o) a.machine.current = b.machine.current := by
  cases hm with
  | arrive _ hn =>
    obtain ⟨-, -, rfl⟩ := Machine.fork_eq_ok.1 hn
    rfl
  | begin | remain | exit => rfl
  | idle hn => rw [seat_decided, current_decides (Policy.schedule_decides hn)]
  | dispatch hn => rw [seat_decided, current_decides (Policy.schedule_decides hn)]
  | grant hn =>
    obtain ⟨i, -, hn⟩ := Strategy.acquire_eq_ok.1 hn
    exact (current_acquires (Protocol.acquire_acquires hn)).symm
  | block hn =>
    obtain ⟨i, -, hn⟩ := Strategy.acquire_eq_ok.1 hn
    exact (current_acquires (Protocol.acquire_acquires hn)).symm
  | run hn =>
    obtain ⟨_, -, -, -, rfl⟩ := Machine.grow_eq_ok.1 hn
    rfl
  | @release m n _ _ r _ _ _ hn =>
    obtain ⟨i, -, hn⟩ := Strategy.release_eq_ok.1 hn
    rw [current_releases (Protocol.release_releases hn), events_released]
    cases leaver? m n r <;> rfl
  | close _ hn =>
    obtain ⟨-, rfl⟩ := Machine.advance_eq_ok.1 hn
    refine seat_of_still fun e he o o' heq => ?_
    rcases mem_events_closing he with rfl | ⟨_, _, _, rfl⟩ <;> cases heq

theorem foldl_seat_within : (within t es).foldl (fun o e => e.event.seat o) o =
    es.foldl (fun o e => e.seat o) o := by
  rw [within, List.foldl_map]

/-- The last switch of a run so far has put there what is on the CPU. -/
theorem Path.seat (g : Path s (opening c).moment j b) : seatAfter j.events = b.machine.current := by
  induction g with
  | refl => rfl
  | snoc g hm ih =>
    rw [events_snoc, seatAfter, List.foldl_append, ← seatAfter, ih, foldl_seat_within,
      seat_move hm]

theorem Move.of_switched {x : Activity} {prev next : Option Pid} (hm : Move s a l b) (hx : x ∈ l)
    (he : x.event? = some (.switched prev next)) :
    l = [x] ∧ prev = a.machine.current ∧ prev ≠ next := by
  have decided : ∀ {d : Decision}, x ∈ [.decided a.machine.current d] →
      [.decided a.machine.current d] = [x] ∧ prev = a.machine.current ∧ prev ≠ next := by
    intro d hx
    obtain rfl := List.mem_singleton.1 hx
    rw [Activity.event?] at he
    split at he
    · cases he
    · next hne =>
      cases he
      exact ⟨rfl, rfl, fun heq => hne heq.symm⟩
  cases hm with
  | idle => exact decided hx
  | dispatch => exact decided hx
  | release =>
    simp only [releaseEntries, List.mem_cons, List.mem_append, Option.mem_toList,
      Option.map_eq_some_iff] at hx
    rcases hx with rfl | ⟨w, -, rfl⟩ | ⟨w, -, rfl⟩ <;> cases he
  | close =>
    rcases mem_closingEntries hx with rfl | ⟨_, _, _, rfl⟩ <;> cases he
  | begin | remain => cases hx
  | arrive | grant | block | run | exit =>
    rw [List.mem_singleton.1 hx] at he
    cases he

/-- A switch takes the CPU from the process that the switch before it has put there. -/
theorem Path.switched_from {pre post : List TraceEvent} {prev next : Option Pid}
    (g : Path s (opening c).moment j b) (hj : j.events = pre ++ ⟨t, .switched prev next⟩ :: post) :
    prev = seatAfter pre ∧ prev ≠ next := by
  obtain ⟨d, f, i, x, rest, hx, rfl, -, hd, -, hm, -⟩ :=
    g.split_alone (fun hm hx he => (hm.of_switched hx he).1) hj
  obtain ⟨-, hprev, hne⟩ := hm.of_switched (List.mem_singleton_self x) hx
  rw [hd.seat]
  exact ⟨hprev, hne⟩

/-! ## Among the dead -/

/-- Nobody is alive, nobody is to arrive, and the tick has changed no process. -/
structure Dormant (a : Moment) : Prop where
  dead : ∀ p, ¬ Alive a.machine p
  pending : a.pending = []
  still : a.before.processes = a.machine.processes

/-- A decision where nobody could use the CPU leaves it idle and changes nothing else. -/
theorem decides_inactive {π : Policy} {m n : Machine} {d : Decision} (hm : m.Filed)
    (hnone : ∀ p, ¬ m.Active p) (h : π.Decides m n d) : n = m.seat none ∧ d.next = none := by
  have hready : m.ready.pids = [] := List.eq_nil_iff_forall_not_mem.2 fun p hp =>
    hnone p (.inl ((hm.mem_ready p).1 hp))
  have hworks : ∀ p, ¬ m.Works p := fun p ⟨_, x, hx, hs, _⟩ =>
    hnone p (.inr (Machine.status?_eq_some.2 ⟨x, hx, hs⟩))
  have retired : ∀ {k : Machine}, π.Retires m k → k = m := by
    intro k hr
    cases hr with
    | leave => rfl
    | requeue hw => exact absurd hw (hworks _)
  cases h with
  | keep hw => exact absurd hw (hworks _)
  | idle hr _ =>
    rw [retired hr, Policy.ripen_of_empty hready]
    exact ⟨rfl, rfl⟩
  | pick hr hbest _ _ =>
    have hmem := hbest.mem
    rw [Policy.ready_ripen, retired hr, hready] at hmem
    cases hmem

/-- A decision among the dead leaves the CPU idle and changes nothing else. -/
theorem decides_dead {π : Policy} {m n : Machine} {d : Decision} (hm : m.Filed)
    (hdead : ∀ p, ¬ Alive m p) (h : π.Decides m n d) : n = m.seat none ∧ d.next = none :=
  decides_inactive hm (fun p hp => hdead p (alive_of_active hp)) h

/-- A move among the dead only lets the time pass or leaves the CPU idle. -/
theorem Dormant.move (h : Dormant a) (hreg : a.Regular c) (hm : Move s a l b) :
    Dormant b ∧ b.machine.processes = a.machine.processes ∧
      b.machine.resources = a.machine.resources ∧ ∀ p, .forked p ∉ eventsOf l := by
  obtain ⟨hdead, hpending, hstill⟩ := h
  have running : ∀ {p : Pid}, a.machine.status? p = some .running → False :=
    fun hp => hdead _ (alive_of_running hp)
  have decided : ∀ {o : Option Pid} {d : Decision} (p : Pid),
      .forked p ∉ eventsOf [.decided o d] := fun p hp => by cases mem_events_decided hp
  cases hm with
  | arrive => cases hpending
  | begin => exact ⟨⟨hdead, hpending, rfl⟩, rfl, rfl, fun p hp => by cases hp⟩
  | idle hn =>
    obtain ⟨rfl, -⟩ := decides_dead hreg.filed hdead (Policy.schedule_decides hn)
    exact ⟨⟨hdead, hpending, hstill⟩, rfl, rfl, decided⟩
  | dispatch hn hnext =>
    obtain ⟨-, hnone⟩ := decides_dead hreg.filed hdead (Policy.schedule_decides hn)
    rw [hnone] at hnext
    cases hnext
  | grant | block | run => exact (running hreg.phase.2.running).elim
  | release | remain | exit => exact (running hreg.phase.running).elim
  | close _ hn =>
    obtain ⟨-, rfl⟩ := Machine.advance_eq_ok.1 hn
    refine ⟨⟨hdead, hpending, rfl⟩, rfl, rfl, fun p hp => ?_⟩
    rcases mem_events_closing hp with he | ⟨_, _, _, he⟩ <;> cases he

/-- Among the dead nothing changes but the process on the CPU, nobody arrives and nobody takes part
in anything. -/
theorem Path.dormant (hc : c.Valid) (ha : a.Regular c) (hd : Dormant a) (h : Path s a j b) :
    Dormant b ∧ b.machine.processes = a.machine.processes ∧
      b.machine.resources = a.machine.resources ∧
      ∀ e ∈ j.events, ∀ p, e.event ≠ .forked p ∧ ¬ e.event.Engages p := by
  induction h with
  | refl => exact ⟨hd, rfl, rfl, fun e he => absurd he List.not_mem_nil⟩
  | snoc g hm ih =>
    obtain ⟨hdormant, hprocesses, hresources, hquiet⟩ := ih
    have hreg := ha.path hc g
    obtain ⟨hnext, hprocesses', hresources', hforked⟩ := hdormant.move hreg hm
    refine ⟨hnext, hprocesses'.trans hprocesses, hresources'.trans hresources, fun e he p => ?_⟩
    rw [events_snoc] at he
    rcases List.mem_append.1 he with he | he
    · exact hquiet e he p
    · have hmem := (mem_within.1 he).2
      exact ⟨fun heq => hforked p (heq ▸ hmem), fun hengaged =>
        hdormant.dead p (engaged_move hreg hm hmem hengaged)⟩

/-- The tick in which a run ends starts among the dead. -/
theorem dormant_of_ended (hc : c.Valid) (hk : tickAt s c k = some r) (he : r.exit ≠ none)
    (hg : startAt s c k = some g) : Dormant g.moment := by
  have hpath := (startAt_moment hc hg).2
  obtain ⟨hpending, hlive⟩ := (ended_tick hc hk he).1.idle hc hpath
  exact ⟨(liveCount_eq_zero (hpath.regular hc).filed).1 hlive, hpending, rfl⟩

/-! ## The end of a run -/

/-- Nothing left to do: the run is over. -/
def Moment.Ended (a : Moment) : Prop := a.phase = .closing false ∧ Over false a.pending a.machine

theorem Moment.Ended.last (h : a.Ended) (g : Path s a j b) : j = [] := by
  rcases g.uncons with ⟨-, hj⟩ | ⟨l, e, k, hm, -, -⟩
  · exact hj
  · exact absurd h.2 (hm.of_closing h.1)

/-- What happens on a path happens between its ends. -/
theorem Path.tick_mem (g : Path s a j b) {e : TraceEvent} (he : e ∈ j.events) :
    a.machine.tick ≤ e.tick ∧ e.tick ≤ b.machine.tick := by
  obtain ⟨t, e⟩ := e
  obtain ⟨pre, post, hj⟩ := List.append_of_mem he
  obtain ⟨d, _, i, _, _, _, _, -, -, -, hd, rfl, hm, hrest⟩ := g.split_event hj
  exact ⟨hd.tick_le, Nat.le_trans (tick_le_move hm) hrest.tick_le⟩

/-- A run that is played out is over or has come to the tick limit, behind all its events. -/
theorem exists_last (hc : c.Valid) {f : Finished} (hf : playAll s c = .ok f) :
    ∃ a, Path s (opening c).moment f.journal a ∧
      (a.Ended ∨ a.phase = .arriving ∧ a.machine.tick = c.maxTicks) ∧
      ∀ e ∈ f.journal.events, e.tick < c.maxTicks := by
  have hbefore : ∀ e ∈ f.journal.events, e.tick < c.maxTicks := by
    rw [playAll_events hc hf]
    exact fun e he => (mem_annals.1 he).1
  have hexits := playAll_exits hc hf
  have hends := playAll_ends hf
  generalize f.journal = j at hends hbefore ⊢
  generalize f.machine = m at hends hexits
  generalize f.exit = e at hends hexits
  cases hends with
  | limit g =>
    refine ⟨_, g, .inr ⟨rfl, ?_⟩, hbefore⟩
    generalize he : Exit.tickLimit m.tick = e at hexits
    cases hexits with
    | ended _ hk hexit =>
      obtain ⟨rfl, -⟩ := tickAt_ended hc hk hexit
      cases he
    | limit => exact Exit.tickLimit.inj he
  | normal g hover =>
    obtain ⟨rfl, hdone⟩ := hover
    exact ⟨_, g, .inl ⟨rfl, rfl, hdone⟩, hbefore⟩
  | broken g _ hv =>
    rw [(g.regular hc).filed.audit_eq_ok] at hv
    cases hv

end Simulation

end Uniprocessor
