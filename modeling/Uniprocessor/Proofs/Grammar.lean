import Uniprocessor.Proofs.Annals
import Uniprocessor.Proofs.Tally
/-
  The grammar of a trace.

  The events of a tick are the arrivals, then the attempts that ended blocked, then what the tick
  came to, then the changes of priorities (`TickWord`).  All events of one attempt are of the
  process that the last switch has put on the CPU; a switch names as the process before it the one
  that was put there by the switch before (`seatAfter`).  Behind an attempt that ended blocked the
  CPU always changes hands, since the blocked process is not picked again (`switches_decided`).

  `Spelled` says how far the word of a tick has come at a moment, with one lemma for one move
  (`Spelled.move`) and one for a tick (`Path.spelled`, `tickWord`).  Every word has one event in
  which a process runs or the tick is called idle (`TickWord.count_turns`), so that these events
  count the ticks (`count_turns`).

  Main statement: `trace_grammatical`.
-/

namespace Uniprocessor

/-! ## Words -/

/-- The CPU passes from `o` to `o'`, or stays where it is.  Behind a request that has failed
(`blocked`) it does not stay. -/
inductive Switches : Bool → Option Pid → Option Pid → List Event → Prop
  | stay {o : Option Pid} : Switches false o o []
  | move {blocked : Bool} {o o' : Option Pid} : o ≠ o' → Switches blocked o o' [.switched o o']

/-- The process `p` gets the CPU and acquires resources. -/
inductive Served (blocked : Bool) (o : Option Pid) (p : Pid) : List Event → Prop
  | seated {es : List Event} : Switches blocked o (some p) es → Served blocked o p es
  | acquired {es : List Event} {r : ResourceId} : Served blocked o p es →
      Served blocked o p (es ++ [.acquired p r])

/-- Attempts that end blocked; the first one finds `o` on the CPU, and `o'` is there behind the last
one. -/
inductive Attempts (o : Option Pid) : List Event → Bool → Option Pid → Prop
  | none : Attempts o [] false o
  | fail {es ts : List Event} {blocked : Bool} {o' : Option Pid} {p : Pid} {r : ResourceId} :
      Attempts o es blocked o' → Served blocked o' p ts →
      Attempts o (es ++ ts ++ [.blocked p r]) true (some p)

/-- The process `p` gives resources back, and each may wake a process that waits for it. -/
inductive Handbacks (p : Pid) : List Event → Prop
  | none : Handbacks p []
  | give {es : List Event} {r : ResourceId} : Handbacks p es →
      Handbacks p (es ++ [.released p r])
  | wake {es : List Event} {r : ResourceId} {w : Pid} : Handbacks p es →
      Handbacks p (es ++ [.released p r, .woke w r])

/-- A process runs for a tick, gives resources back and may end, or nothing is ready. -/
inductive Outcome (blocked : Bool) (o : Option Pid) : List Event → Option Pid → Prop
  | ran {ts hs : List Event} {p : Pid} {n : Nat} : Served blocked o p ts → Handbacks p hs →
      Outcome blocked o (ts ++ .ran p n :: hs) (some p)
  | ended {ts hs : List Event} {p : Pid} {n : Nat} : Served blocked o p ts → Handbacks p hs →
      Outcome blocked o (ts ++ .ran p n :: hs ++ [.exited p]) (some p)
  | idle {ts : List Event} : Switches blocked o none ts → Outcome blocked o (ts ++ [.idle]) none

/-- The events of a tick that finds `o` on the CPU and leaves `o'` there. -/
inductive TickWord (o o' : Option Pid) : List Event → Prop
  | mk {ps : List Pid} {as out cs : List Event} {blocked : Bool} {q : Option Pid} :
      Attempts o as blocked q → Outcome blocked q out o' →
      (∀ e ∈ cs, ∃ p i k, e = .priorityChanged p i k) →
      TickWord o o' (ps.map .forked ++ as ++ out ++ cs)

/-- A process runs, or the tick is called idle. -/
def Event.isTurn : Event → Bool
  | .ran _ _ | .idle => true
  | _ => false

/-! ## Turns -/

variable {o o' : Option Pid} {p : Pid} {es : List Event} {blocked : Bool}

theorem count_forked {ps : List Pid} : (ps.map Event.forked).countP Event.isTurn = 0 :=
  List.countP_eq_zero.2 fun e he => by
    obtain ⟨p, -, rfl⟩ := List.mem_map.1 he
    simp [Event.isTurn]

theorem Switches.count (h : Switches blocked o o' es) : es.countP Event.isTurn = 0 := by
  cases h <;> rfl

theorem Served.count (h : Served blocked o p es) : es.countP Event.isTurn = 0 := by
  induction h with
  | seated hs => exact hs.count
  | acquired _ ih => rw [List.countP_append, ih]; rfl

theorem Attempts.count (h : Attempts o es blocked o') : es.countP Event.isTurn = 0 := by
  induction h with
  | none => rfl
  | fail _ hts ih => rw [List.countP_append, List.countP_append, ih, hts.count]; rfl

theorem Handbacks.count (h : Handbacks p es) : es.countP Event.isTurn = 0 := by
  induction h with
  | none => rfl
  | give _ ih => rw [List.countP_append, ih]; rfl
  | wake _ ih => rw [List.countP_append, ih]; rfl

theorem Outcome.count (h : Outcome blocked o es o') : es.countP Event.isTurn = 1 := by
  cases h with
  | ran hts hhs => rw [List.countP_append, List.countP_cons, hts.count, hhs.count]; rfl
  | ended hts hhs =>
    rw [List.countP_append, List.countP_append, List.countP_cons, hts.count, hhs.count]
    rfl
  | idle hts => rw [List.countP_append, hts.count]; rfl

/-- In every tick a process runs once, or the tick is called idle once. -/
theorem TickWord.count_turns (h : TickWord o o' es) : es.countP Event.isTurn = 1 := by
  cases h with
  | mk has hout hcs =>
    have hchanges : List.countP Event.isTurn _ = 0 := List.countP_eq_zero.2 fun e he => by
      obtain ⟨p, i, k, rfl⟩ := hcs e he
      simp [Event.isTurn]
    rw [List.countP_append, List.countP_append, List.countP_append, count_forked, has.count,
      hout.count, hchanges]

namespace Simulation

variable {s : Strategy} {c : Scenario} {a b : Moment} {l : List Activity} {j : Journal}
variable {g : Progress} {r : TickResult} {o o' : Option Pid} {p q : Pid} {k t : Nat}
variable {es : List Event} {blocked : Bool}

/-! ## The word of a tick, move by move -/

/-- How far the word of a tick has come at a moment, if the tick found `o` on the CPU. -/
inductive Spelled (o : Option Pid) (es : List Event) : Moment → Prop
  | arriving {m before : Machine} {u : List Job} {ps : List Pid} : m.current = o →
      es = ps.map .forked → Spelled o es ⟨.arriving, m, before, u⟩
  | deciding {m before : Machine} {u : List Job} {ps : List Pid} {as : List Event}
      {blocked : Bool} : Attempts o as blocked m.current →
      (blocked = true → ∃ p, m.current = some p ∧ m.status? p = some .waiting) →
      es = ps.map .forked ++ as → Spelled o es ⟨.deciding, m, before, u⟩
  | requesting {m before : Machine} {u : List Job} {d : Decision} {p : Pid}
      {due : List ResourceId} {ps : List Pid} {as ts : List Event} {blocked : Bool}
      {q : Option Pid} : Attempts o as blocked q → Served blocked q p ts →
      es = ps.map .forked ++ as ++ ts → Spelled o es ⟨.requesting d p due, m, before, u⟩
  | releasing {m before : Machine} {u : List Job} {p : Pid} {n : Nat} {due : List ResourceId}
      {ps : List Pid} {as ts hs : List Event} {blocked : Bool} {q : Option Pid} :
      Attempts o as blocked q → Served blocked q p ts → Handbacks p hs →
      es = ps.map .forked ++ as ++ (ts ++ .ran p n :: hs) →
      Spelled o es ⟨.releasing p due, m, before, u⟩
  | busy {m before : Machine} {u : List Job} {ps : List Pid} {as out : List Event}
      {blocked : Bool} {q : Option Pid} : Attempts o as blocked q →
      Outcome blocked q out m.current → es = ps.map .forked ++ as ++ out →
      Spelled o es ⟨.closing true, m, before, u⟩
  | idle {m before : Machine} {u : List Job} {ps : List Pid} {as ts : List Event}
      {blocked : Bool} {q : Option Pid} : Attempts o as blocked q → Switches blocked q none ts →
      m.current = none → es = ps.map .forked ++ as ++ ts →
      Spelled o es ⟨.closing false, m, before, u⟩

/-- A decision moves the CPU on, or leaves it where it is; it does not leave it to a process that
has just blocked. -/
theorem switches_decided {π : Policy} {m n : Machine} {d : Decision} (hd : π.Decides m n d)
    (hb : blocked = true → ∃ p, m.current = some p ∧ m.status? p = some .waiting) :
    Switches blocked m.current d.next (eventsOf [.decided m.current d]) := by
  rw [eventsOf_decided]
  split
  · next hnext =>
    cases blocked with
    | false =>
      rw [hnext]
      exact .stay
    | true =>
      obtain ⟨p, hp, hwaits⟩ := hb rfl
      have hrun := (Machine.running_of_decides hd (hnext.trans hp)).2
      rcases Machine.status?_decides hd hwaits (by simp) with h | ⟨h, -⟩
      · rw [hrun] at h
        cases h
      · cases h
  · next hnext => exact .move (Ne.symm hnext)

theorem Spelled.move (h : Spelled o es a) (hreg : a.Regular c) (hm : Move s a l b)
    (ht : b.machine.tick = a.machine.tick) : Spelled o (es ++ eventsOf l) b := by
  cases hm with
  | @arrive _ _ _ j _ _ hn =>
    cases h with
    | @arriving _ _ _ ps hcur hes =>
      obtain ⟨-, -, rfl⟩ := Machine.fork_eq_ok.1 hn
      have hword : es ++ eventsOf [.forked j] = (ps ++ [j.pid]).map .forked := by
        rw [hes, List.map_append]
        rfl
      exact .arriving hcur hword
  | begin =>
    cases h with
    | @arriving _ _ _ ps hcur hes =>
      have hword : es ++ eventsOf [] = ps.map .forked ++ [] := by
        rw [hes]
        rfl
      subst hcur
      exact .deciding .none (by simp) hword
  | idle hn hnext =>
    cases h with
    | deciding has hblocked hes =>
      have hd := Policy.schedule_decides hn
      have hs := switches_decided hd hblocked
      rw [hnext] at hs
      exact .idle has hs ((current_decides hd).trans hnext) (by rw [hes])
  | dispatch hn hnext =>
    cases h with
    | deciding has hblocked hes =>
      have hs := switches_decided (Policy.schedule_decides hn) hblocked
      rw [hnext] at hs
      exact .requesting has (.seated hs) (by rw [hes])
  | @grant _ _ _ _ p r _ _ _ =>
    cases h with
    | @requesting _ _ _ _ _ _ ps as ts _ _ has hts hes =>
      have hword : es ++ [.acquired p r] = ps.map .forked ++ as ++ (ts ++ [.acquired p r]) := by
        rw [hes, List.append_assoc]
      exact .requesting has hts.acquired hword
  | @block m n _ _ p _ r _ _ hn =>
    cases h with
    | @requesting _ _ _ _ _ _ ps as ts _ _ has hts hes =>
      have hreq := hreg.phase.2
      have hacquires := hreq.acquires hn
      have hcur : n.current = some p := (current_acquires hacquires).trans hreq.current
      have hwaits : n.status? p = some .waiting := by
        rw [Machine.status?_blocked hacquires, if_pos rfl, hreq.running, Option.map_some]
      have hword : es ++ [.blocked p r] = ps.map .forked ++ (as ++ ts ++ [.blocked p r]) := by
        rw [hes, List.append_assoc, List.append_assoc, List.append_assoc]
      exact .deciding (hcur ▸ has.fail hts) (fun _ => ⟨p, hcur, hwaits⟩) hword
  | @run _ _ _ _ p n _ _ _ _ _ _ =>
    cases h with
    | @requesting _ _ _ _ _ _ ps as ts _ _ has hts hes =>
      have hword : es ++ [.ran p n] = ps.map .forked ++ as ++ (ts ++ .ran p n :: []) := by
        rw [hes, List.append_assoc]
      exact .releasing has hts .none hword
  | @release m m' before p t w due u _ =>
    cases h with
    | @releasing _ _ _ _ n _ ps as ts _ _ _ has hts hhs hes =>
      have hword : ∀ {es' hs : List Event}, Handbacks p hs →
          es ++ es' = ps.map .forked ++ as ++ (ts ++ .ran p n :: hs) →
          Spelled o (es ++ es') ⟨.releasing p due, m', before, u⟩ :=
        fun hhs hes => .releasing has hts hhs hes
      rw [events_released]
      cases leaver? m m' t with
      | none => exact hword (hhs.give (r := t)) (by simp [hes])
      | some w => exact hword (hhs.wake (r := t) (w := w)) (by simp [hes])
  | remain =>
    cases h with
    | releasing has hts hhs hes =>
      have hword := (List.append_nil es).trans hes
      exact .busy has (hreg.phase.current.symm ▸ .ran hts hhs) hword
  | @exit _ _ p _ _ _ _ =>
    cases h with
    | @releasing _ _ _ _ n _ ps as ts hs _ _ has hts hhs hes =>
      have hword : es ++ [.exited p] =
          ps.map .forked ++ as ++ (ts ++ .ran p n :: hs ++ [.exited p]) := by
        rw [hes, List.append_assoc]
      exact .busy has (hreg.phase.current.symm ▸ .ended hts hhs) hword
  | close _ hn =>
    obtain ⟨-, rfl⟩ := Machine.advance_eq_ok.1 hn
    exact absurd ht (Nat.succ_ne_self _)

/-- The word of a tick grows along the path of the tick. -/
theorem Path.spelled (hc : c.Valid) (ha : a.Regular c) (h : Path s a j b)
    (hstart : Spelled a.machine.current [] a) (ht : b.machine.tick = a.machine.tick) :
    ∃ es, j.events = within a.machine.tick es ∧ Spelled a.machine.current es b := by
  induction h with
  | refl => exact ⟨[], rfl, hstart⟩
  | @snoc d _ _ _ g hm ih =>
    have hle := g.tick_le
    have hle' := tick_le_move hm
    obtain ⟨es, hes, hspelled⟩ := ih (by omega)
    have htick : d.machine.tick = a.machine.tick := by omega
    refine ⟨_, ?_, hspelled.move (ha.path hc g) hm (by omega)⟩
    rw [events_snoc, hes, htick]
    exact List.map_append.symm

theorem within_inj {fs : List Event} (h : within t es = within t fs) : es = fs :=
  List.map_injective_iff.2 (fun _ _ he => (TraceEvent.mk.inj he).2) h

/-- The events of a tick are spelled by its end. -/
theorem tick_spelled (hc : c.Valid) (hg : startAt s c k = some g) {ran : Bool} {m n : Machine}
    {u : List Job} {acts : List Activity}
    (hplay : Path s g.moment (stamp k acts) ⟨.closing ran, m, n, u⟩) (hm : m.tick = k) :
    Spelled g.machine.current (eventsOf acts) ⟨.closing ran, m, n, u⟩ := by
  obtain ⟨ht, hpath⟩ := startAt_moment hc hg
  have hstart : Spelled g.machine.current [] g.moment := .arriving rfl List.map_nil.symm
  obtain ⟨es, hes, hspelled⟩ := hplay.spelled hc (hpath.regular hc) hstart (hm.trans ht.symm)
  rw [events_stamp, show g.moment.machine.tick = k from ht] at hes
  rwa [within_inj hes]

/-- A tick that is not the last one of its run spells a word. -/
theorem tickWord (hc : c.Valid) (hg : startAt s c k = some g) (hk : tickAt s c k = some r)
    (he : r.exit = none) :
    TickWord g.machine.current r.after.machine.current (eventsOf r.done) := by
  obtain ⟨g', ran, n, m, acts, hg', hm, hplay, -, hdone, hafter⟩ := tickAt_passed hc hk he
  obtain rfl := Option.some.inj (hg.symm.trans hg')
  have hchanges : ∀ e ∈ eventsOf (priorityChanges n m), ∃ p i k, e = .priorityChanged p i k := by
    intro e hmem
    obtain ⟨x, hx, hxe⟩ := mem_eventsOf.1 hmem
    obtain ⟨p, i, k, rfl⟩ := mem_priorityChanges hx
    cases hxe
    exact ⟨p, i, k, rfl⟩
  have hspelled := tick_spelled hc hg hplay hm
  rw [hdone, hafter, closingEntries, eventsOf_append, eventsOf_append, ← List.append_assoc]
  generalize eventsOf acts = es at hspelled ⊢
  cases hspelled with
  | busy has hout hes =>
    rw [hes, if_pos rfl]
    change TickWord _ _ (_ ++ [] ++ _)
    rw [List.append_nil]
    exact .mk has hout hchanges
  | idle has hts hcur hes =>
    rw [hes, if_neg (by simp), List.append_assoc (_ ++ _) _ (eventsOf [_])]
    change TickWord _ m.current _
    rw [hcur]
    exact .mk has (.idle hts) hchanges

/-- A tick in which a run ends has no events but that the CPU is left idle. -/
theorem last_tick (hc : c.Valid) (hk : tickAt s c k = some r) (he : r.exit ≠ none) :
    eventsOf r.done = [] ∨ ∃ p, eventsOf r.done = [.switched (some p) none] := by
  obtain ⟨g, n, m, acts, hg, hm, hplay, -, rfl, -⟩ := tickAt_last hc hk he
  obtain ⟨-, -, -, hquiet⟩ := hplay.dormant hc ((startAt_moment hc hg).2.regular hc)
    (dormant_of_ended hc hk he hg)
  have hquiet : ∀ e ∈ eventsOf r.done, ∀ p, e ≠ .forked p ∧ ¬ e.Engages p := by
    intro e hmem p
    exact hquiet ⟨k, e⟩ (by rw [events_stamp]; exact mem_within.2 ⟨rfl, hmem⟩) p
  have hspelled := tick_spelled hc hg hplay hm
  generalize eventsOf r.done = es at hspelled hquiet ⊢
  generalize g.machine.current = i at hspelled
  cases hspelled with
  | @idle _ _ _ ps as ts _ _ has hts _ hes =>
    have hps : ps = [] := List.eq_nil_iff_forall_not_mem.2 fun p hp =>
      (hquiet (.forked p) (by simp [hes, hp]) p).1 rfl
    cases has with
    | @fail _ _ _ _ p r _ _ =>
      exact absurd rfl (hquiet (.blocked p r) (by simp [hes]) p).2
    | none =>
      rw [hps] at hes
      rw [show es = ts from hes]
      cases hts with
      | stay => exact .inl rfl
      | @move _ o _ hne =>
        obtain ⟨p, hp⟩ := Option.ne_none_iff_exists'.1 hne
        exact .inr ⟨p, by rw [hp]⟩

/-! ## Runs -/

/-- Annals in which every tick has one turn have as many turns as ticks. -/
theorem count_annals {es : Nat → List Event} {n : Nat}
    (h : ∀ k < n, (es k).countP Event.isTurn = 1) :
    (annals es n).countP (fun e => e.event.isTurn) = n := by
  induction n with
  | zero => rfl
  | succ n ih =>
    rw [annals, List.countP_append, ih fun k hk => h k (Nat.lt_succ_of_lt hk),
      countP_within Event.isTurn, h n n.lt_succ_self]

variable {run : Run}

/-- Before its end a run spells a word in every tick, from the process that the last switch before
the tick has put on the CPU to the one that the last switch before the next tick has put there. -/
theorem trace_words (hc : c.Valid) (hrun : simulate s c = .ok run) (hk : k < run.trace.endTick) :
    TickWord (seatAfter (run.trace.before k)) (seatAfter (run.trace.before (k + 1)))
      (run.trace.eventsOn k) := by
  obtain ⟨g, i, hg, -, hi, hbefore⟩ := startAt_of_le hc hrun (Nat.le_of_lt hk)
  obtain ⟨g', i', hg', -, hi', hbefore'⟩ := startAt_of_le hc hrun hk
  obtain ⟨r, hr, he, rfl⟩ := startAt_succ.1 hg'
  have hword := tickWord hc hg hr he
  have hlt : k < c.maxTicks := Nat.lt_of_lt_of_le hk (simulate_end hc hrun).1
  have hevents : run.trace.eventsOn k = eventsOf r.done := by
    rw [Trace.eventsOn, events_eq_annals hc hrun, filter_annals_eq hlt, eventsAt_of hr, within,
      List.map_map]
    exact List.map_id _
  rw [hevents, Trace.before, Trace.before, ← hbefore, ← hbefore', hi.seat, hi'.seat]
  exact hword

/-- At the end of a run nothing happens but that the CPU is left idle, and only in a run that ends
normally. -/
theorem trace_rest (hc : c.Valid) (hrun : simulate s c = .ok run) :
    ∃ rest, run.trace.events = run.trace.before run.trace.endTick ++ rest ∧
      (rest = [] ∨ run.trace.exit = .normal ∧
        ∃ p, rest = [⟨run.trace.endTick, .switched (some p) none⟩]) := by
  obtain ⟨m, hexits, hend⟩ := simulate_exits hc hrun
  obtain ⟨hle, -⟩ := simulate_end hc hrun
  rw [Trace.before, events_eq_annals hc hrun, filter_annals_lt hle]
  rw [hend] at hle ⊢
  generalize run.trace.exit = e at hexits ⊢
  cases hexits with
  | @ended k r _ hlt hk he =>
    obtain ⟨rfl, htick⟩ := tickAt_ended hc hk he
    have hquiet : ∀ i, k + 1 ≤ i → eventsAt s c i = [] := by
      intro i hi
      rw [eventsAt, tickAt_after hk (by simp [he]) hi]
      rfl
    rw [htick, annals_of_quiet hlt hquiet, annals, eventsAt_of hk]
    refine ⟨_, rfl, ?_⟩
    rcases last_tick hc hk (by simp [he]) with hnone | ⟨p, hp⟩
    · rw [hnone]
      exact .inl rfl
    · rw [hp]
      exact .inr ⟨rfl, p, rfl⟩
  | limit hg =>
    rw [(startAt_moment hc hg).1]
    exact ⟨[], (List.append_nil _).symm, .inl rfl⟩

theorem count_turns_eq (es : List TraceEvent) :
    es.countP (fun e => e.event.isTurn) =
      (es.countP fun e => e.event.runner?.isSome) + es.countP fun e => e.event = .idle := by
  induction es with
  | nil => rfl
  | cons e es ih =>
    simp only [List.countP_cons, ih]
    cases e.event <;> simp [Event.isTurn, Event.runner?] <;> omega

/-- The turns of a run count its ticks. -/
theorem count_turns (hc : c.Valid) (hrun : simulate s c = .ok run) :
    run.trace.events.countP (fun e => e.event.isTurn) = run.trace.endTick := by
  obtain ⟨hle, g, hg⟩ := simulate_end hc hrun
  obtain ⟨rest, hrest, hquiet⟩ := trace_rest hc hrun
  have hcount : rest.countP (fun e => e.event.isTurn) = 0 := by
    rcases hquiet with rfl | ⟨-, p, rfl⟩ <;> rfl
  rw [hrest, List.countP_append, hcount, Trace.before, events_eq_annals hc hrun,
    filter_annals_lt hle]
  refine count_annals fun k hk => ?_
  obtain ⟨r, hr, he⟩ := startAt_before hg hk
  obtain ⟨q, hq, -⟩ := tickAt_eq_some.1 hr
  rw [eventsAt_of hr]
  exact (tickWord hc hq hr he).count_turns

end Simulation

open Simulation

variable {c : Scenario}

/-- The events of a run are ordered by tick, and those of every tick before the end form a word of
the grammar, which starts with the process on the CPU that the last switch has put there.  A switch
changes the process on the CPU and names the one that the switch before it has put there.  Behind
the last of these words there is at most one event, which leaves the CPU idle at the end of a run
that ends normally.  So the busy ticks and the idle ticks make up the run. -/
theorem trace_grammatical (s : Strategy) (hc : c.Valid) {run : Run}
    (hrun : simulate s c = .ok run) :
    run.trace.events.Pairwise (fun e f => e.tick ≤ f.tick) ∧
    (∀ k < run.trace.endTick, TickWord (seatAfter (run.trace.before k))
      (seatAfter (run.trace.before (k + 1))) (run.trace.eventsOn k)) ∧
    (∀ pre post t prev next, run.trace.events = pre ++ ⟨t, .switched prev next⟩ :: post →
      prev = seatAfter pre ∧ prev ≠ next) ∧
    (∃ rest, run.trace.events = run.trace.before run.trace.endTick ++ rest ∧
      (rest = [] ∨ run.trace.exit = .normal ∧
        ∃ p, rest = [⟨run.trace.endTick, .switched (some p) none⟩])) ∧
    run.trace.summary.busyTicks + run.trace.summary.idleTicks = run.trace.endTick := by
  refine ⟨?_, fun k hk => trace_words hc hrun hk, ?_, trace_rest hc hrun, ?_⟩
  · rw [events_eq_annals hc hrun]
    exact annals_ordered
  · intro pre post t prev next hcut
    obtain ⟨j, b, hpath, hevents, -⟩ := path_of_simulate hc hrun
    exact hpath.switched_from (hevents ▸ hcut)
  · rw [Trace.summary_eq, ← count_turns_eq, count_turns hc hrun]

/-- In the second tick of this run the urgent process blocks and the other one is put back. -/
theorem trace_grammatical_contended :
    ∃ run, simulate .priorityInheritance .contended = .ok run ∧ 1 < run.trace.endTick ∧
      run.trace.eventsOn 1 = [.forked ⟨2⟩, .switched (some ⟨1⟩) (some ⟨2⟩), .blocked ⟨2⟩ ⟨0⟩,
        .switched (some ⟨2⟩) (some ⟨1⟩), .ran ⟨1⟩ 2, .priorityChanged ⟨1⟩ 1 9] ∧
      TickWord (seatAfter (run.trace.before 1)) (seatAfter (run.trace.before 2))
        (run.trace.eventsOn 1) ∧
      run.trace.summary.busyTicks + run.trace.summary.idleTicks = run.trace.endTick := by
  have hsim : (simulate .priorityInheritance .contended).toOption.any (fun run =>
      decide (1 < run.trace.endTick ∧ run.trace.eventsOn 1 = [.forked ⟨2⟩,
        .switched (some ⟨1⟩) (some ⟨2⟩), .blocked ⟨2⟩ ⟨0⟩, .switched (some ⟨2⟩) (some ⟨1⟩),
        .ran ⟨1⟩ 2, .priorityChanged ⟨1⟩ 1 9])) = true := by decide
  obtain ⟨run, hrun, hsim⟩ := Option.any_eq_true _ _ |>.1 hsim
  obtain ⟨hlt, hevents⟩ := of_decide_eq_true hsim
  have hrun := toOption_eq_some.1 hrun
  obtain ⟨-, hwords, -, -, hcount⟩ :=
    trace_grammatical .priorityInheritance (c := .contended) (by decide) hrun
  exact ⟨run, hrun, hlt, hevents, hwords 1 hlt, hcount⟩

end Uniprocessor
