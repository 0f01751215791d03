import Uniprocessor.Lifetime
import Uniprocessor.Proofs.Turns
/-
  The tally of the lifetimes against the machines at the turns of a run.

  `census p st ms` counts the machines of `ms` in which `p` has the status `st`.  With the machines
  at the turns so far, the tally has for every process the number of those in which it ran and the
  number of those in which it waited; a wait that is not over yet is known by the turn in which it
  began (`Lived`).  While a process is alive its arrival and the three counts make up the turns so
  far.

  `Ledger.move` is the step for a move that is not a turn, and `Ledger.turn` for one that is;
  `startAt_ledger` is the run up to a tick.
-/

namespace Uniprocessor

/-- The number of machines in which `p` has the status `st`. -/
def census (p : Pid) (st : Status) (ms : List Machine) : Nat :=
  ms.countP fun m => m.status? p = some st

/-- The number of machines in which `p` runs, waits or is ready. -/
def spent (p : Pid) (ms : List Machine) : Nat :=
  census p .running ms + census p .waiting ms + census p .ready ms

/-- The event divides the lifetime of `p`. -/
def Event.Marks (p : Pid) : Event → Prop
  | .forked q | .ran q _ | .blocked q _ | .woke q _ | .exited q => q = p
  | .switched _ _ | .idle | .acquired _ _ | .released _ _ | .priorityChanged _ _ _ => False

variable {p q : Pid} {st st' : Status} {ms : List Machine} {m : Machine} {l : Lifetime}
variable {since : Option Nat} {t : Nat}

theorem census_le (p : Pid) (st : Status) (ms : List Machine) : census p st ms ≤ ms.length :=
  List.countP_le_length

theorem census_turn (hm : m.status? p = some st) :
    census p st' (ms ++ [m]) = census p st' ms + if st = st' then 1 else 0 := by
  rw [census, List.countP_append, List.countP_singleton, ← census, hm]
  simp only [Option.some.injEq, decide_eq_true_eq]

theorem spent_turn (hm : m.status? p = some st) :
    spent p (ms ++ [m]) = spent p ms + if st = .terminated then 0 else 1 := by
  simp only [spent, census_turn hm]
  cases st <;> simp <;> omega

/-- Who is not known has no status. -/
theorem census_unknown (h : ∀ m ∈ ms, m.status? p = none) : census p st ms = 0 :=
  List.countP_eq_zero.2 fun m hm => by simp [h m hm]

theorem Event.Marks.unique {e : Event} (hq : e.Marks q) (hp : e.Marks p) : q = p := by
  cases e <;> first | exact hp.elim | exact hq.symm.trans hp

/-! ## One process -/

/-- What the tally knows of a process with the status `st` that waits since the tick `since`. -/
structure Lived (ms : List Machine) (p : Pid) (st : Status) (l : Lifetime) (since : Option Nat) :
    Prop where
  ran : l.ran = census p .running ms
  awake : since = none → st ≠ .waiting ∧ l.blocked = census p .waiting ms
  asleep : ∀ t, since = some t →
    st = .waiting ∧ t ≤ ms.length ∧ l.blocked + ms.length = census p .waiting ms + t
  response : ∀ r, l.firstRun = some r → l.arrival ≤ r ∧ r < ms.length
  alive : st ≠ .terminated → l.exit = none ∧ l.arrival + spent p ms = ms.length
  ended : st = .terminated →
    ∃ e, l.exit = some e ∧ l.arrival + spent p ms = e + 1 ∧ e < ms.length

namespace Lived

/-- A process begins its life ready. -/
theorem arrive (h : ∀ m ∈ ms, m.status? p = none) :
    Lived ms p .ready (.arriving ms.length) none where
  ran := (census_unknown h).symm
  awake _ := ⟨by simp, (census_unknown h).symm⟩
  asleep _ ht := by cases ht
  response _ hr := by cases hr
  alive _ := by
    rw [spent, census_unknown h, census_unknown h, census_unknown h]
    exact ⟨rfl, rfl⟩
  ended ht := by cases ht

theorem since_of_awake (h : Lived ms p st l since) (hst : st ≠ .waiting) : since = none :=
  Option.eq_none_iff_forall_ne_some.2 fun t ht => hst (h.asleep t ht).1

theorem since_of_asleep (h : Lived ms p .waiting l since) : ∃ t, since = some t :=
  Option.ne_none_iff_exists'.1 fun hnone => (h.awake hnone).1 rfl

/-- Whether a process runs or is ready makes no difference. -/
theorem restate (h : Lived ms p st l since) (hw : st' = .waiting ↔ st = .waiting)
    (he : st' = .terminated ↔ st = .terminated) : Lived ms p st' l since where
  ran := h.ran
  awake hs := ⟨mt hw.1 (h.awake hs).1, (h.awake hs).2⟩
  asleep t ht := ⟨hw.2 (h.asleep t ht).1, (h.asleep t ht).2⟩
  response := h.response
  alive hne := h.alive (mt he.2 hne)
  ended ht := h.ended (he.1 ht)

/-- How often a process was scheduled or blocked makes no difference. -/
theorem recount (h : Lived ms p st l since) (i k : Nat) :
    Lived ms p st { l with scheduleCount := i, blockCount := k } since where
  ran := h.ran
  awake := h.awake
  asleep := h.asleep
  response := h.response
  alive := h.alive
  ended := h.ended

/-- A process that blocks waits from now on. -/
theorem block (h : Lived ms p .running l since) : Lived ms p .waiting l (some ms.length) where
  ran := h.ran
  awake hs := by cases hs
  asleep t ht := by
    obtain rfl := Option.some.inj ht
    have hblocked := (h.awake (h.since_of_awake (by simp))).2
    exact ⟨rfl, Nat.le_refl _, by rw [hblocked]⟩
  response := h.response
  alive _ := h.alive (by simp)
  ended ht := by cases ht

/-- When a process is woken its wait is counted. -/
theorem wake (h : Lived ms p .waiting l (some t)) :
    Lived ms p .ready { l with blocked := l.blocked + (ms.length - t) } none where
  ran := h.ran
  awake _ := by
    obtain ⟨-, hle, hblocked⟩ := h.asleep t rfl
    refine ⟨by simp, ?_⟩
    dsimp only
    omega
  asleep _ ht := by cases ht
  response := h.response
  alive _ := h.alive (by simp)
  ended ht := by cases ht

/-- A process ends with the turn that it has taken. -/
theorem exit (h : Lived ms p .running l since) (ht : ms.length = t + 1) :
    Lived ms p .terminated { l with exit := some t } since where
  ran := h.ran
  awake hs := ⟨by simp, (h.awake hs).2⟩
  asleep u hu := absurd (h.asleep u hu).1 (by simp)
  response := h.response
  alive hne := absurd rfl hne
  ended _ := ⟨t, rfl, (h.alive (by simp)).2.trans ht, by omega⟩

/-- A turn of the process itself. -/
theorem run (h : Lived ms p .running l since) (hm : m.status? p = some .running) :
    Lived (ms ++ [m]) p .running (l.run ms.length) since where
  ran := by
    rw [census_turn hm, if_pos rfl, ← h.ran]
    rfl
  awake hs := by
    rw [census_turn hm, if_neg (by simp)]
    exact ⟨by simp, (h.awake hs).2⟩
  asleep t ht := absurd (h.asleep t ht).1 (by simp)
  response r hr := by
    have hlength : (ms ++ [m]).length = ms.length + 1 := List.length_append
    obtain ⟨-, hsum⟩ := h.alive (by simp)
    rw [hlength]
    change l.arrival ≤ r ∧ _
    rw [Lifetime.run, Option.some.injEq] at hr
    cases hfirst : l.firstRun with
    | none =>
      rw [hfirst, Option.getD_none] at hr
      omega
    | some i =>
      have hresponse := h.response i hfirst
      rw [hfirst, Option.getD_some] at hr
      omega
  alive hne := by
    obtain ⟨hexit, hsum⟩ := h.alive hne
    rw [spent_turn hm, if_neg hne, List.length_append, ← hsum]
    exact ⟨hexit, rfl⟩
  ended he := by cases he

/-- A turn of somebody else. -/
theorem pass (h : Lived ms p st l since) (hm : m.status? p = some st) (hst : st ≠ .running) :
    Lived (ms ++ [m]) p st l since where
  ran := by
    rw [census_turn hm, if_neg hst]
    exact h.ran
  awake hs := by
    obtain ⟨hne, hblocked⟩ := h.awake hs
    rw [census_turn hm, if_neg hne]
    exact ⟨hne, hblocked⟩
  asleep t ht := by
    obtain ⟨hwaits, hle, hblocked⟩ := h.asleep t ht
    rw [census_turn hm, if_pos hwaits, List.length_append, List.length_singleton]
    exact ⟨hwaits, by omega, by omega⟩
  response r hr := by
    obtain ⟨hle, hlt⟩ := h.response r hr
    rw [List.length_append, List.length_singleton]
    exact ⟨hle, by omega⟩
  alive hne := by
    obtain ⟨hexit, hsum⟩ := h.alive hne
    rw [spent_turn hm, if_neg hne, List.length_append, List.length_singleton]
    exact ⟨hexit, by omega⟩
  ended he := by
    obtain ⟨e, hexit, hsum, hlt⟩ := h.ended he
    rw [spent_turn hm, if_pos he, List.length_append, List.length_singleton]
    exact ⟨e, hexit, hsum, by omega⟩

end Lived

/-- What the tally knows of `p`: nothing before it has arrived. -/
inductive Booked (ms : List Machine) (p : Pid) :
    Option Status → Option Lifetime → Option Nat → Prop
  | unknown : (∀ m ∈ ms, m.status? p = none) → Booked ms p none none none
  | known {st : Status} {l : Lifetime} {since : Option Nat} : Lived ms p st l since →
      Booked ms p (some st) (some l) since

/-- As far as the tally goes the status is the same. -/
structure Standing (o o' : Option Status) : Prop where
  known : o' = none ↔ o = none
  waiting : o' = some .waiting ↔ o = some .waiting
  ended : o' = some .terminated ↔ o = some .terminated

namespace Booked

variable {o o' : Option Status} {x : Option Lifetime}

theorem restate (h : Booked ms p o x since) (ho : Standing o o') : Booked ms p o' x since := by
  cases h with
  | unknown hnone =>
    rw [ho.known.2 rfl]
    exact .unknown hnone
  | @known st _ _ hl =>
    obtain ⟨st', rfl⟩ := Option.ne_none_iff_exists'.1 (mt ho.known.1 (Option.some_ne_none st))
    exact .known (hl.restate (by simpa using ho.waiting) (by simpa using ho.ended))

theorem recount (h : Booked ms p o x since) (f g : Lifetime → Nat) :
    Booked ms p o (x.map fun l => { l with scheduleCount := f l, blockCount := g l }) since := by
  cases h with
  | unknown hnone => exact .unknown hnone
  | known hl => exact .known (hl.recount _ _)

/-- A turn adds itself to the lifetime of the process that runs. -/
theorem turn (h : Booked ms p o x since) (hm : m.status? p = o) :
    Booked (ms ++ [m]) p o (if o = some .running then x.map (·.run ms.length) else x) since := by
  cases h with
  | unknown hnone =>
    refine .unknown fun n hn => ?_
    rcases List.mem_append.1 hn with hn | hn
    · exact hnone n hn
    · rwa [List.mem_singleton.1 hn]
  | @known st _ _ hl =>
    by_cases hst : st = .running
    · subst hst
      rw [if_pos rfl]
      exact .known (hl.run hm)
    · rw [if_neg (mt Option.some.inj hst)]
      exact .known (hl.pass hm hst)

theorem of_status (h : Booked ms p (some st) x since) :
    ∃ l, x = some l ∧ Lived ms p st l since := by
  cases h with
  | known hl => exact ⟨_, rfl, hl⟩

theorem of_unknown (h : Booked ms p none x since) :
    (∀ m ∈ ms, m.status? p = none) ∧ x = none ∧ since = none := by
  cases h with
  | unknown hnone => exact ⟨hnone, rfl, rfl⟩

end Booked

/-! ## All processes -/

open Lifetimes

namespace Lifetimes.Tally

theorem addAll_append {es fs : List TraceEvent} {T T' T'' : Tally} (h : addAll es T = .ok T')
    (g : addAll fs T' = .ok T'') : addAll (es ++ fs) T = .ok T'' := by
  induction es generalizing T with
  | nil =>
    cases h
    exact g
  | cons e es ih =>
    rw [addAll, bind_eq_ok] at h
    obtain ⟨U, hU, h⟩ := h
    rw [List.cons_append, addAll, hU]
    exact ih h

theorem addAll_singleton {e : TraceEvent} {T : Tally} : addAll [e] T = T.add e := by
  simp only [addAll]
  cases T.add e <;> rfl

theorem add_woke {T : Tally} {r : ResourceId} {u : Nat} (hs : T.blockedSince.get? p = some u)
    (hl : T.processes.get? p = some l) (hu : u ≤ t + 1) (ht : t + 1 < tickBound)
    (hb : l.blocked + (t + 1 - u) < tickBound) :
    T.add ⟨t, .woke p r⟩ = .ok {
      processes := T.processes.adjust p fun x => { x with blocked := l.blocked + (t + 1 - u) }
      blockedSince := T.blockedSince.erase p } := by
  simp only [add, hs, settle, hl, addTicks_eq_ok.2 ⟨ht, rfl⟩, subTicks_eq_ok.2 ⟨hu, rfl⟩,
    addTicks_eq_ok.2 ⟨hb, rfl⟩, ok_bind]
  rfl

end Lifetimes.Tally

namespace Simulation

variable {s : Strategy} {c : Scenario} {a b : Moment} {acts : List Activity} {j : Journal}
variable {T : Tally} {n : Machine} {r : ResourceId} {k : Nat}

/-- The tally `T` agrees with the machines `ms` at the turns so far and with the machine `m` now. -/
structure Ledger (ms : List Machine) (T : Tally) (m : Machine) : Prop where
  processes : T.processes.Sorted
  waits : T.blockedSince.Sorted
  booked : ∀ p, Booked ms p (m.status? p) (T.processes.get? p) (T.blockedSince.get? p)

/-- Where nothing divides the lifetime of a process its status is the same. -/
theorem standing_move (hreg : a.Regular c) (hm : Move s a acts b)
    (hes : ∀ e ∈ eventsOf acts, ¬ e.Marks p) :
    Standing (a.machine.status? p) (b.machine.status? p) := by
  have status_none : ∀ {m : Machine}, m.status? p = none ↔ m.age? p = none := by
    intro m
    rw [Machine.age?_eq_none, Machine.status?, Option.map_eq_none_iff]
  have unmarked : ∀ {es : List Event} {e : Event}, eventsOf acts = es → e ∈ es → ¬ e.Marks p :=
    fun heq he => hes _ (heq ▸ he)
  have hage : b.machine.age? p = a.machine.age? p := by
    rcases age_move hm p with ⟨-, ho⟩ | ⟨heq, -, -⟩ | @⟨i, heq, -, -⟩
    · exact ho
    · exact absurd rfl (unmarked heq List.mem_cons_self)
    · exact absurd rfl (unmarked heq List.mem_cons_self)
  rcases status_move hreg hm p with ⟨-, hw, he⟩ | ⟨heq, -, -⟩ | ⟨heq, -, -⟩ | ⟨heq, -, -⟩
  · exact ⟨by rw [status_none, status_none, hage], hw, he⟩
  · exact absurd rfl (unmarked heq List.mem_cons_self)
  · exact absurd rfl (unmarked heq (List.mem_cons_of_mem _ List.mem_cons_self))
  · exact absurd rfl (unmarked heq List.mem_cons_self)

theorem marks_only {e : Event} (hes : eventsOf acts = [e]) (he : e.Marks p) :
    ∀ x ∈ eventsOf acts, ∀ q, x.Marks q → q = p := by
  intro x hx q hq
  rw [hes, List.mem_singleton] at hx
  exact (hx ▸ hq).unique he

/-- The tally after events that divide no lifetime but that of `p`. -/
theorem Ledger.update {T' : Tally} (h : Ledger ms T a.machine) (hreg : a.Regular c)
    (hm : Move s a acts b) (hes : ∀ e ∈ eventsOf acts, ∀ q, e.Marks q → q = p)
    (hprocesses : T'.processes.Sorted) (hwaits : T'.blockedSince.Sorted)
    (hother : ∀ q ≠ p, T'.processes.get? q = T.processes.get? q ∧
      T'.blockedSince.get? q = T.blockedSince.get? q)
    (hp : Booked ms p (b.machine.status? p) (T'.processes.get? p) (T'.blockedSince.get? p)) :
    Ledger ms T' b.machine := by
  refine ⟨hprocesses, hwaits, fun q => ?_⟩
  by_cases hq : q = p
  · exact hq ▸ hp
  · obtain ⟨hl, hs⟩ := hother q hq
    rw [hl, hs]
    exact (h.booked q).restate (standing_move hreg hm fun e he hmark => hq (hes e he q hmark))

/-- Events that divide no lifetime only count how often the processes are scheduled. -/
theorem Ledger.unmarked {es : List Event} (h : Ledger ms T m)
    (hes : ∀ e ∈ es, ∀ p, ¬ e.Marks p) (t : Nat) :
    ∃ T', Tally.addAll (within t es) T = .ok T' ∧ Ledger ms T' m := by
  induction es generalizing T with
  | nil => exact ⟨T, rfl, h⟩
  | cons e es ih =>
    obtain ⟨he, hes⟩ := List.forall_mem_cons.1 hes
    have hnext : ∃ T', T.add ⟨t, e⟩ = .ok T' ∧ Ledger ms T' m := by
      cases e with
      | switched o o' =>
        cases o' with
        | none => exact ⟨T, rfl, h⟩
        | some q =>
          refine ⟨_, rfl, h.processes.adjust _ _, h.waits, fun p => ?_⟩
          have hp := h.booked p
          rw [PidMap.get?_adjust]
          split
          · exact hp.recount _ _
          · exact hp
      | idle | acquired | released | priorityChanged => exact ⟨T, rfl, h⟩
      | forked q | ran q | blocked q | woke q | exited q => exact absurd rfl (he q)
    obtain ⟨T', hT', hledger⟩ := hnext
    obtain ⟨T'', hT'', hledger⟩ := ih hledger hes
    refine ⟨T'', ?_, hledger⟩
    rw [within, List.map_cons, Tally.addAll, hT']
    exact hT''

/-- A move that divides no lifetime. -/
theorem Ledger.still (h : Ledger ms T a.machine) (hreg : a.Regular c) (hm : Move s a acts b)
    (hes : ∀ e ∈ eventsOf acts, ∀ p, ¬ e.Marks p) (t : Nat) :
    ∃ T', Tally.addAll (within t (eventsOf acts)) T = .ok T' ∧ Ledger ms T' b.machine := by
  obtain ⟨T', hT', hledger⟩ := h.unmarked hes t
  exact ⟨T', hT', hledger.processes, hledger.waits, fun p =>
    (hledger.booked p).restate (standing_move hreg hm fun e he => hes e he p)⟩

section Marks

variable (h : Ledger ms T a.machine) (hreg : a.Regular c) (hm : Move s a acts b)

include h hreg hm

theorem Ledger.arrive (hes : eventsOf acts = [.forked p]) (ha : a.machine.status? p = none)
    (hb : b.machine.status? p = some .ready) (ht : a.machine.tick = ms.length) :
    ∃ T', Tally.addAll (within a.machine.tick (eventsOf acts)) T = .ok T' ∧
      Ledger ms T' b.machine := by
  have hp := h.booked p
  rw [ha] at hp
  obtain ⟨hunknown, -, hsince⟩ := hp.of_unknown
  have hmarks := marks_only hes (p := p) (by rfl)
  rw [hes]
  refine ⟨_, rfl, h.update hreg hm hmarks
    (h.processes.insert _ _) h.waits (fun q hq => ?_) ?_⟩
  · rw [PidMap.get?_insert, if_neg (Ne.symm hq)]
    exact ⟨rfl, rfl⟩
  · rw [hb, PidMap.get?_insert, if_pos rfl, hsince, ht]
    exact .known (.arrive hunknown)

theorem Ledger.block (hes : eventsOf acts = [.blocked p r])
    (ha : a.machine.status? p = some .running) (hb : b.machine.status? p = some .waiting)
    (ht : a.machine.tick = ms.length) :
    ∃ T', Tally.addAll (within a.machine.tick (eventsOf acts)) T = .ok T' ∧
      Ledger ms T' b.machine := by
  have hp := h.booked p
  rw [ha] at hp
  obtain ⟨l, hl, hlived⟩ := hp.of_status
  have hmarks := marks_only hes (p := p) (by rfl)
  rw [hes]
  refine ⟨_, rfl, h.update hreg hm hmarks
    (h.processes.adjust _ _) (h.waits.insert _ _) (fun q hq => ?_) ?_⟩
  · rw [PidMap.get?_adjust, if_neg (Ne.symm hq), PidMap.get?_insert, if_neg (Ne.symm hq)]
    exact ⟨rfl, rfl⟩
  · rw [hb, PidMap.get?_adjust, if_pos rfl, hl, PidMap.get?_insert, if_pos rfl, ht]
    exact .known (hlived.block.recount _ _)

theorem Ledger.wake (hes : eventsOf acts = [.released q r, .woke p r])
    (ha : a.machine.status? p = some .waiting) (hb : b.machine.status? p = some .ready)
    (ht : a.machine.tick + 1 = ms.length) (hbound : ms.length < tickBound) :
    ∃ T', Tally.addAll (within a.machine.tick (eventsOf acts)) T = .ok T' ∧
      Ledger ms T' b.machine := by
  have hp := h.booked p
  rw [ha] at hp
  obtain ⟨l, hl, hlived⟩ := hp.of_status
  obtain ⟨u, hu⟩ := hlived.since_of_asleep
  rw [hu] at hlived
  obtain ⟨-, hle, hblocked⟩ := hlived.asleep u rfl
  have hcensus := census_le p .waiting ms
  have hadd := Tally.add_woke (r := r) hu hl (ht ▸ hle) (ht ▸ hbound) (by omega)
  rw [ht] at hadd
  refine ⟨⟨T.processes.adjust p fun x => { x with blocked := l.blocked + (ms.length - u) },
    T.blockedSince.erase p⟩, ?_, h.update hreg hm (p := p) (fun e he v hv => ?_)
    (h.processes.adjust _ _) (h.waits.erase _) (fun v hv => ?_) ?_⟩
  · rw [hes]
    exact Tally.addAll_singleton.trans hadd
  · rw [hes, List.mem_cons, List.mem_singleton] at he
    rcases he with rfl | rfl
    · exact hv.elim
    · exact hv.symm
  · rw [PidMap.get?_adjust, if_neg (Ne.symm hv), PidMap.get?_erase, if_neg (Ne.symm hv)]
    exact ⟨rfl, rfl⟩
  · rw [hb, PidMap.get?_adjust, if_pos rfl, hl, PidMap.get?_erase, if_pos rfl]
    exact .known hlived.wake

theorem Ledger.exit (hes : eventsOf acts = [.exited p])
    (ha : a.machine.status? p = some .running) (hb : b.machine.status? p = some .terminated)
    (ht : a.machine.tick + 1 = ms.length) :
    ∃ T', Tally.addAll (within a.machine.tick (eventsOf acts)) T = .ok T' ∧
      Ledger ms T' b.machine := by
  have hp := h.booked p
  rw [ha] at hp
  obtain ⟨l, hl, hlived⟩ := hp.of_status
  have hmarks := marks_only hes (p := p) (by rfl)
  rw [hes]
  refine ⟨_, rfl, h.update hreg hm hmarks
    (h.processes.adjust _ _) h.waits (fun q hq => ?_) ?_⟩
  · rw [PidMap.get?_adjust, if_neg (Ne.symm hq)]
    exact ⟨rfl, rfl⟩
  · rw [hb, PidMap.get?_adjust, if_pos rfl, hl]
    exact .known (hlived.exit ht.symm)

/-- A move that is not a turn keeps the tally. -/
theorem Ledger.move (hlength : ms.length = a.turns) (hturns : b.turns = a.turns)
    (hbound : ms.length < tickBound) :
    ∃ T', Tally.addAll (within a.machine.tick (eventsOf acts)) T = .ok T' ∧
      Ledger ms T' b.machine := by
  have hmove := hm
  cases hm with
  | @arrive m n _ j _ _ hn =>
    obtain ⟨hnew, -, rfl⟩ := Machine.fork_eq_ok.1 hn
    have hnone : m.status? j.pid = none := by
      rw [Machine.status?, hnew]
      rfl
    have hready : (m.enroll j).status? j.pid = some .ready := by
      rw [Machine.status?_enroll, if_pos rfl]
    exact h.arrive hreg hmove rfl hnone hready hlength.symm
  | begin | remain => exact h.still hreg hmove (fun e he => absurd he List.not_mem_nil) _
  | idle | dispatch =>
    refine h.still hreg hmove (fun e he p hp => ?_) _
    rw [mem_events_decided he] at hp
    exact hp
  | grant =>
    refine h.still hreg hmove (fun e he p hp => ?_) _
    obtain rfl := List.mem_singleton.1 he
    exact hp
  | @block m n _ _ p _ r _ _ hn =>
    have hreq := hreg.phase.2
    have hwaits : n.status? p = some .waiting := by
      rw [Machine.status?_blocked (hreq.acquires hn), if_pos rfl, hreq.running, Option.map_some]
    exact h.block hreg hmove rfl hreq.running hwaits hlength.symm
  | run hn =>
    obtain ⟨_, -, -, -, rfl⟩ := Machine.grow_eq_ok.1 hn
    exact absurd hturns (Nat.succ_ne_self _)
  | @release m n _ p r w _ _ hn =>
    have hreleases := hreg.phase.releases hn
    have hevents := events_release (p := p) hreg.filed hn
    cases w with
    | none =>
      refine h.still hreg hmove (fun e he q hq => ?_) _
      rw [hevents] at he
      obtain rfl := List.mem_singleton.1 he
      exact hq
    | some v =>
      have hready : n.status? v = some .ready := by
        rw [Machine.status?_releases hreleases, if_pos rfl]
      exact h.wake hreg hmove hevents (Machine.status?_woken hreleases) hready hlength.symm hbound
  | @exit m _ p _ _ =>
    have hrun := hreg.phase.running
    have hend : (m.adjust p (.turn .terminated)).status? p = some .terminated := by
      rw [Machine.status?_turn, if_pos rfl, hrun]
      rfl
    exact h.exit hreg hmove rfl hrun hend hlength.symm
  | @close m n before ran _ _ hn =>
    obtain ⟨-, rfl⟩ := Machine.advance_eq_ok.1 hn
    cases ran with
    | false => exact absurd hturns (Nat.succ_ne_self _)
    | true =>
      refine h.still hreg hmove (fun e he q hq => ?_) _
      rcases mem_events_closing he with rfl | ⟨_, _, _, rfl⟩
      · exact hq
      · exact hq

end Marks

/-- A turn is counted for every process by its status. -/
theorem Ledger.turn {runner : Option Pid} (h : Ledger ms T a.machine) (hreg : a.Regular c)
    (hm : Move s a acts b) (hsettled : Settled runner a.phase)
    (hlength : ms.length = a.machine.tick)
    (hidle : a.phase = .closing false → a.machine.current = none) :
    ∃ T', Tally.addAll (within a.machine.tick (eventsOf acts)) T = .ok T' ∧
      Ledger (ms ++ [a.machine]) T' b.machine := by
  have hrunning := hsettled.running hreg hidle
  cases hm with
  | @run m n _ _ p _ _ _ _ hn =>
    cases hsettled
    obtain ⟨x, -, -, -, rfl⟩ := Machine.grow_eq_ok.1 hn
    refine ⟨_, rfl, h.processes.adjust _ _, h.waits, fun q => ?_⟩
    have hq := (h.booked q).turn (m := m) rfl
    dsimp only at hrunning hq hlength ⊢
    rw [Machine.status?_adjust (f := .aged _) fun _ => rfl, PidMap.get?_adjust, ← hlength]
    simp only [hrunning, Option.some.injEq] at hq
    exact hq
  | @close m n before ran _ hover hn =>
    obtain ⟨-, rfl⟩ := Machine.advance_eq_ok.1 hn
    cases hsettled
    have hnext : Ledger (ms ++ [m]) T m.pass := by
      refine ⟨h.processes, h.waits, fun q => ?_⟩
      have hq := (h.booked q).turn (m := m) rfl
      rwa [if_neg (by simp [hrunning])] at hq
    refine hnext.unmarked (fun e he q hq => ?_) _
    rcases mem_events_closing he with rfl | ⟨_, _, _, rfl⟩
    · exact hq
    · exact hq
  | arrive | begin | idle | dispatch | grant | block | release | remain | exit => cases hsettled

/-- Along a path without turns the tally is kept. -/
theorem Path.ledger (hc : c.Valid) (ha : a.Regular c) (g : Path s a j b) (h : Ledger ms T a.machine)
    (hlength : ms.length = a.turns) (hturns : b.turns = a.turns) (hbound : ms.length < tickBound) :
    ∃ T', Tally.addAll j.events T = .ok T' ∧ Ledger ms T' b.machine := by
  induction g with
  | refl => exact ⟨T, rfl, h⟩
  | @snoc d e j l g hm ih =>
    have hle := g.turns_le
    have hle' := turns_le_move hm
    obtain ⟨T', hT', hledger⟩ := ih (by omega)
    obtain ⟨T'', hT'', hledger⟩ :=
      hledger.move (ha.path hc g) hm (by omega) (by omega) hbound
    rw [events_snoc]
    exact ⟨T'', Tally.addAll_append hT' hT'', hledger⟩

/-- At the start of a tick the tally agrees with the machines at the turns so far. -/
theorem startAt_ledger (hc : c.Valid) {g : Progress} (hg : startAt s c k = some g)
    (hbound : k < tickBound) :
    ∃ T, Tally.addAll (historyBefore s c k).events ⟨.empty, .empty⟩ = .ok T ∧
      Ledger (turnsBefore s c k) T g.machine ∧ (turnsBefore s c k).length = k ∧
      ∀ m ∈ turnsBefore s c k, m.Filed := by
  induction k generalizing g with
  | zero =>
    cases hg
    refine ⟨_, rfl, ⟨PidMap.sorted_empty, PidMap.sorted_empty, fun p => ?_⟩, rfl, fun m hm => ?_⟩
    · exact .unknown fun m hm => absurd hm List.not_mem_nil
    · exact absurd hm List.not_mem_nil
  | succ k ih =>
    obtain ⟨r, hr, he, rfl⟩ := startAt_succ.1 hg
    obtain ⟨g', a, l, b, i, j, runner, hg', hturn, hsettled, htick, hi, hm, hj, hdone⟩ :=
      tick_turn hc hr he
    obtain ⟨ht, hpath⟩ := startAt_moment hc hg'
    obtain ⟨T, hT, hledger, hlength, hfiled⟩ := ih hg' (by omega)
    have hstart : g'.moment.turns = k := ht
    have ha : a.turns = k := by rw [Moment.turns, htick, hsettled.turns, Nat.add_zero]
    have hb : b.turns = k + 1 := by rw [hsettled.turn hm, ha]
    have hend : r.after.moment.turns = k + 1 := (startAt_moment hc hg).1
    have hreg := (hpath.trans hi).regular hc
    obtain ⟨T₁, hT₁, h₁⟩ := hi.ledger hc (hpath.regular hc) hledger (by omega) (by omega) (by omega)
    obtain ⟨T₂, hT₂, h₂⟩ := h₁.turn hreg hm hsettled (by omega) (hpath.trans hi).unseated
    have hlength' : (turnsBefore s c (k + 1)).length = k + 1 := by
      rw [turnsBefore_succ hturn, List.length_append, hlength]
      rfl
    rw [← turnsBefore_succ hturn] at h₂
    obtain ⟨T₃, hT₃, h₃⟩ := hj.ledger hc (hreg.move hc hm) h₂ (by omega) (by omega) (by omega)
    refine ⟨T₃, ?_, h₃, hlength', fun m hm => ?_⟩
    · rw [htick] at hT₂
      rw [historyBefore_tick hr, hdone, events_append, events_append, events_append, events_stamp]
      exact Tally.addAll_append hT (Tally.addAll_append (Tally.addAll_append hT₁ hT₂) hT₃)
    · rw [turnsBefore_succ hturn] at hm
      rcases List.mem_append.1 hm with hm | hm
      · exact hfiled m hm
      · rw [List.mem_singleton.1 hm]
        exact hreg.filed

end Simulation

end Uniprocessor
