import Uniprocessor.Proofs.Lifespan
/-
  A run by its ticks.

  `startAt` is the state before a tick as `tickAt` is what the tick comes to, and `tickAt_closes`
  puts both on the path of the run.  A tick is busy or idle, and its events say which
  (`Closes.busy_iff`).  The trace of a run holds what its ticks have done, each under its number
  (`mem_trace`), and the history up to a tick holds what has happened by then (`mem_historyAt`,
  `tickAt_alive`).  `Exits` says which tick is the last (`simulate_exits`, `simulate_end`).
-/

namespace Uniprocessor

namespace Simulation

variable {s : Strategy} {c : Scenario} {g : Progress} {r : TickResult} {k t n : Nat}
variable {x : Activity} {e : Event}

/-! ## Before and after a tick -/

/-- The state before the `k`-th tick of a run. -/
def startAt (s : Strategy) (c : Scenario) : Nat → Option Progress
  | 0 => some (opening c)
  | k + 1 => (tickAt s c k).bind fun r => if r.exit = none then some r.after else none

/-- What a run has written before its `k`-th tick. -/
def historyBefore (s : Strategy) (c : Scenario) : Nat → Journal
  | 0 => []
  | k + 1 => historyAt s c k

theorem tickAt_eq_some :
    tickAt s c k = some r ↔ ∃ g, startAt s c k = some g ∧ step s c.audit g = .ok r := by
  cases k with
  | zero => simp [tickAt, startAt, toOption_eq_some]
  | succ k =>
    simp only [tickAt, startAt, Option.bind_eq_some_iff]
    constructor
    · rintro ⟨q, hq, h⟩
      split at h
      · next he => exact ⟨q.after, ⟨q, hq, if_pos he⟩, toOption_eq_some.1 h⟩
      · cases h
    · rintro ⟨g, ⟨q, hq, h⟩, hr⟩
      split at h
      · next he =>
        cases h
        exact ⟨q, hq, by rw [if_pos he, toOption_eq_some.2 hr]⟩
      · cases h

theorem startAt_succ :
    startAt s c (k + 1) = some g ↔ ∃ r, tickAt s c k = some r ∧ r.exit = none ∧ r.after = g := by
  simp only [startAt, Option.bind_eq_some_iff, Option.ite_none_right_eq_some, Option.some.injEq]

theorem startAt_moment (hc : c.Valid) (h : startAt s c k = some g) :
    g.machine.tick = k ∧ Path s (opening c).moment (historyBefore s c k) g.moment := by
  cases k with
  | zero =>
    cases h
    exact ⟨rfl, .refl⟩
  | succ k =>
    obtain ⟨r, hr, he, rfl⟩ := startAt_succ.1 h
    obtain ⟨e, hpath, -, hnext⟩ := tickAt_moment hc hr
    obtain ⟨rfl, ht⟩ := hnext he
    exact ⟨ht, hpath⟩

/-- The end of a tick changes nothing but the time. -/
theorem Closes.after {audit ran : Bool} {b m : Machine} {u : List Job} {acts : List Activity}
    (h : Closes audit ran b m u acts r) :
    r.after.pending = u ∧ ∃ i, r.after.machine = { m with tick := i } := by
  cases h with
  | ended | broken => exact ⟨rfl, m.tick, rfl⟩
  | next _ _ hn =>
    obtain ⟨-, rfl⟩ := Machine.advance_eq_ok.1 hn
    exact ⟨rfl, m.tick + 1, rfl⟩

/-- A tick is a path from the state before it to the end of its last turn. -/
theorem tickAt_closes (hc : c.Valid) (h : tickAt s c k = some r) :
    ∃ g ran b m acts, startAt s c k = some g ∧ m.tick = k ∧
      Path s g.moment (stamp k acts) ⟨.closing ran, m, b, g.later⟩ ∧
      Path s (opening c).moment (historyBefore s c k ++ stamp k acts)
        ⟨.closing ran, m, b, g.later⟩ ∧
      Closes c.audit ran b m g.later acts r := by
  obtain ⟨g, hg, hr⟩ := tickAt_eq_some.1 h
  obtain ⟨ht, hpath⟩ := startAt_moment hc hg
  obtain ⟨ran, b, m, acts, hm, hplay, hcloses⟩ := step_path hr
  rw [ht] at hm hplay
  exact ⟨g, ran, b, m, acts, hg, hm, hplay, hpath.trans hplay, hcloses⟩

/-- A tick is the last one where nothing is left to do, and only there. -/
theorem Closes.unbroken {audit ran : Bool} {b m : Machine} {u : List Job} {acts : List Activity}
    (hm : m.Filed) (h : Closes audit ran b m u acts r) :
    Over ran u m ∧ r.exit = some .normal ∧ r.after.machine = m ∨
      ¬ Over ran u m ∧ r.exit = none := by
  cases h with
  | ended hover => exact .inl ⟨hover, rfl, rfl⟩
  | broken _ _ hv =>
    rw [hm.audit_eq_ok] at hv
    cases hv
  | next hover => exact .inr ⟨hover, rfl⟩

theorem tickAt_ended {e : Exit} (hc : c.Valid) (h : tickAt s c k = some r)
    (he : r.exit = some e) : e = .normal ∧ r.after.machine.tick = k := by
  obtain ⟨g, ran, b, m, acts, -, hm, -, hpath, hcloses⟩ := tickAt_closes hc h
  rcases hcloses.unbroken (hpath.regular hc).filed with ⟨-, hexit, hmachine⟩ | ⟨-, hexit⟩
  · rw [hmachine]
    exact ⟨Option.some.inj (he.symm.trans hexit), hm⟩
  · rw [he] at hexit
    cases hexit

/-- Behind its exit a run has no ticks. -/
theorem tickAt_after (h : tickAt s c k = some r) (he : r.exit ≠ none) (hkt : k < t) :
    tickAt s c t = none := by
  induction t with
  | zero => omega
  | succ t ih =>
    rw [tickAt]
    rcases Nat.lt_or_eq_of_le (Nat.le_of_lt_succ hkt) with hlt | rfl
    · rw [ih hlt]
      rfl
    · rw [h, Option.bind_some, if_neg he]

theorem startAt_after (h : tickAt s c k = some r) (he : r.exit ≠ none) (hkt : k < t) :
    startAt s c t = none := by
  obtain ⟨t, rfl⟩ : ∃ u, t = u + 1 := ⟨t - 1, by omega⟩
  rcases Nat.lt_or_eq_of_le (Nat.le_of_lt_succ hkt) with hlt | rfl
  · rw [startAt, tickAt_after h he hlt]
    rfl
  · rw [startAt, h, Option.bind_some, if_neg he]

/-- Before a tick come all the earlier ones. -/
theorem startAt_before (h : startAt s c t = some g) (hkt : k < t) :
    ∃ r, tickAt s c k = some r ∧ r.exit = none := by
  induction t generalizing g with
  | zero => omega
  | succ t ih =>
    obtain ⟨r, hr, he, -⟩ := startAt_succ.1 h
    rcases Nat.lt_or_eq_of_le (Nat.le_of_lt_succ hkt) with hlt | rfl
    · obtain ⟨q, hq, -⟩ := tickAt_eq_some.1 hr
      exact ih hq hlt
    · exact ⟨r, hr, he⟩

/-- The states before two ticks are on one path. -/
theorem startAt_path {h : Progress} (hkt : k ≤ t) (hk : startAt s c k = some g)
    (ht : startAt s c t = some h) : ∃ j, Path s g.moment j h.moment := by
  induction t generalizing h with
  | zero =>
    obtain rfl : k = 0 := by omega
    cases hk.symm.trans ht
    exact ⟨[], .refl⟩
  | succ t ih =>
    rcases Nat.lt_or_eq_of_le hkt with hlt | rfl
    · obtain ⟨r, hr, he, rfl⟩ := startAt_succ.1 ht
      obtain ⟨q, hq, hstep⟩ := tickAt_eq_some.1 hr
      obtain ⟨j, hj⟩ := ih (Nat.le_of_lt_succ hlt) hq
      obtain ⟨ran, b, m, acts, -, hplay, hcloses⟩ := step_path hstep
      cases hcloses with
      | ended | broken => cases he
      | next hover _ hn => exact ⟨_, (hj.trans hplay).snoc (.close hover hn)⟩
    · cases hk.symm.trans ht
      exact ⟨[], .refl⟩

/-- Every later tick lies on a path from the end of an earlier one. -/
theorem tickAt_later (hc : c.Valid) {q : TickResult} (hkt : k < t) (hk : tickAt s c k = some q)
    (ht : tickAt s c t = some r) :
    q.after.moment.Regular c ∧ ∃ j e, Path s q.after.moment (j ++ stamp t r.done) e := by
  have he : q.exit = none := by
    refine Decidable.byContradiction fun he => ?_
    rw [tickAt_after hk he hkt] at ht
    cases ht
  have hnext : startAt s c (k + 1) = some q.after := startAt_succ.2 ⟨q, hk, he, rfl⟩
  obtain ⟨g, hg, hstep⟩ := tickAt_eq_some.1 ht
  obtain ⟨htick, hpath⟩ := startAt_moment hc hg
  obtain ⟨e, hplay, -⟩ := step_moment hc (hpath.regular hc) hstep
  obtain ⟨j, hj⟩ := startAt_path hkt hnext hg
  rw [htick] at hplay
  exact ⟨(startAt_moment hc hnext).2.regular hc, j, e, hj.trans hplay⟩

/-! ## Busy and idle ticks -/

/-- Where a process has run in this tick the journal says so. -/
theorem Path.exists_ran {a b : Moment} {j : Journal} (h : Path s a j b) (ha : ¬ a.phase.Ran)
    (hb : b.phase.Ran) : ∃ p n, ⟨b.machine.tick, .ran p n⟩ ∈ j.events := by
  induction h with
  | refl => exact absurd hb ha
  | snoc _ hm ih =>
    rw [events_snoc]
    rcases time_move hm with ⟨-, ht, hran⟩ | ⟨hl, ht, -, -⟩ | ⟨-, -, -, hnext⟩
    · obtain ⟨p, n, hmem⟩ := ih (hran.1 hb)
      exact ⟨p, n, List.mem_append_left _ (ht ▸ hmem)⟩
    · exact ⟨_, _, List.mem_append_right _ (mem_within.2 ⟨ht, hl ▸ List.mem_singleton_self _⟩)⟩
    · rw [hnext] at hb
      exact hb.elim

/-- A tick is over when it is called idle. -/
theorem Path.idle_past {a b : Moment} {j : Journal} (h : Path s a j b) :
    ∀ e ∈ j.events, e.event = .idle → e.tick < b.machine.tick := by
  induction h with
  | refl => exact fun e he => absurd he List.not_mem_nil
  | @snoc d f j l _ hm ih =>
    intro e he heq
    rw [events_snoc] at he
    rcases List.mem_append.1 he with he | he
    · exact Nat.lt_of_lt_of_le (ih e he heq) (tick_le_move hm)
    · obtain ⟨ht, he⟩ := mem_within.1 he
      rw [heq] at he
      have htick := hm.tick_of_idle (idle_mem_eventsOf.1 he)
      omega

/-- What a tick writes besides the activities of its turns. -/
theorem Closes.done {audit ran : Bool} {b m : Machine} {u : List Job} {acts : List Activity}
    (h : Closes audit ran b m u acts r) :
    Over ran u m ∧ r.done = acts ∨ ¬ Over ran u m ∧ r.done = acts ++ closingEntries ran b m := by
  cases h with
  | ended hover => exact .inl ⟨hover, rfl⟩
  | broken hover => exact .inr ⟨hover, rfl⟩
  | next hover => exact .inr ⟨hover, rfl⟩

/-- What the turns of a tick say of themselves. -/
theorem Path.busy_iff {ran : Bool} {b m : Machine} {u : List Job} {acts : List Activity}
    (h : Path s g.moment (stamp k acts) ⟨.closing ran, m, b, u⟩) (hm : m.tick = k) :
    ((∃ p n, .ran p n ∈ eventsOf acts) ↔ ran = true) ∧ .idle ∉ eventsOf acts := by
  have hmem : ∀ {e}, e ∈ eventsOf acts → ⟨k, e⟩ ∈ (stamp k acts).events := by
    intro e he
    rw [events_stamp]
    exact mem_within.2 ⟨rfl, he⟩
  refine ⟨⟨fun ⟨p, n, hran⟩ => ?_, fun hran => ?_⟩, fun hidle => ?_⟩
  · rcases h.timed.past _ (hmem hran) ⟨p, n, rfl⟩ with hlt | ⟨-, hran⟩
    · exact absurd hm (Nat.ne_of_gt hlt)
    · cases ran with
      | true => rfl
      | false => exact hran.elim
  · subst hran
    obtain ⟨p, n, hran⟩ := h.exists_ran id trivial
    rw [events_stamp] at hran
    exact ⟨p, n, (mem_within.1 hran).2⟩
  · exact absurd hm (Nat.ne_of_gt (h.idle_past _ (hmem hidle) rfl))

/-- What a tick says of itself: a process has run in it, or it was idle and not the last one. -/
theorem Closes.busy_iff {audit ran : Bool} {b m : Machine} {u : List Job} {acts : List Activity}
    (h : Closes audit ran b m u acts r) (hm : m.tick = k)
    (path : Path s g.moment (stamp k acts) ⟨.closing ran, m, b, u⟩) :
    ((∃ p n, .ran p n ∈ eventsOf r.done) ↔ ran = true) ∧
      (.idle ∈ eventsOf r.done ↔ ran = false ∧ ¬ Over ran u m) := by
  obtain ⟨hacts, hidle⟩ := path.busy_iff hm
  rcases h.done with ⟨hover, hdone⟩ | ⟨hover, hdone⟩
  · rw [hdone]
    exact ⟨hacts, by simp [hidle, hover]⟩
  · have hclosing : ∀ p n, .ran p n ∉ eventsOf (closingEntries ran b m) := by
      intro p n hmem
      rcases mem_events_closing hmem with he | ⟨_, _, _, he⟩ <;> cases he
    rw [hdone]
    simp only [mem_eventsOf_append]
    refine ⟨?_, ?_⟩
    · simpa only [hclosing, or_false] using hacts
    · rw [or_iff_right hidle, and_iff_left hover]
      exact idle_mem_events_closing

/-! ## Journals and traces -/

theorem mem_events {j : Journal} : ⟨t, e⟩ ∈ j.events ↔ ∃ x, (t, x) ∈ j ∧ x.event? = some e := by
  simp only [Journal.events, List.mem_filterMap, Option.map_eq_some_iff]
  constructor
  · rintro ⟨⟨_, x⟩, hx, _, he, heq⟩
    cases heq
    exact ⟨x, hx, he⟩
  · rintro ⟨x, hx, he⟩
    exact ⟨(t, x), hx, e, he, rfl⟩

theorem mem_stamp {l : List Activity} : (t, x) ∈ stamp k l ↔ t = k ∧ x ∈ l := by
  simp only [stamp, List.mem_map, Prod.mk.injEq]
  constructor
  · rintro ⟨y, hy, rfl, rfl⟩
    exact ⟨rfl, hy⟩
  · rintro ⟨rfl, hx⟩
    exact ⟨x, hx, rfl, rfl⟩

/-- What is written in the `t`-th tick. -/
theorem mem_tick :
    (t, x) ∈ ((tickAt s c k).map fun r => stamp k r.done).getD [] ↔
      t = k ∧ ∃ r, tickAt s c t = some r ∧ x ∈ r.done := by
  cases h : tickAt s c k with
  | none =>
    simp only [Option.map_none, Option.getD_none, List.not_mem_nil, false_iff]
    rintro ⟨rfl, r, hr, -⟩
    rw [h] at hr
    cases hr
  | some r =>
    rw [Option.map_some, Option.getD_some, mem_stamp]
    constructor
    · rintro ⟨rfl, hx⟩
      exact ⟨rfl, r, h, hx⟩
    · rintro ⟨rfl, q, hq, hx⟩
      rw [Option.some.inj (h.symm.trans hq)]
      exact ⟨rfl, hx⟩

/-- The history up to a tick holds what has been done by then. -/
theorem mem_historyAt :
    (t, x) ∈ historyAt s c k ↔ t ≤ k ∧ ∃ r, tickAt s c t = some r ∧ x ∈ r.done := by
  induction k with
  | zero => rw [historyAt, mem_tick, Nat.le_zero]
  | succ k ih =>
    rw [historyAt, List.mem_append, ih, mem_tick, Nat.le_succ_iff, or_and_right]

/-- How a run comes to its exit within `n` ticks. -/
inductive Exits (s : Strategy) (c : Scenario) (n : Nat) : Machine → Exit → Prop
  | ended {k : Nat} {r : TickResult} {exit : Exit} : k < n → tickAt s c k = some r →
      r.exit = some exit → Exits s c n r.after.machine exit
  | limit {g : Progress} : startAt s c n = some g → Exits s c n g.machine (.tickLimit n)

theorem advance_exits (hc : c.Valid) {journal : Array (Nat × Activity)} {f : Finished}
    (hg : startAt s c k = some g) (h : advance s c.audit n g journal = .ok f) :
    Exits s c (k + n) f.machine f.exit ∧ ∀ t x, (t, x) ∈ f.journal ↔
      (t, x) ∈ journal.toList ∨ k ≤ t ∧ t < k + n ∧ ∃ r, tickAt s c t = some r ∧ x ∈ r.done := by
  have htick := (startAt_moment hc hg).1
  induction n generalizing k g journal with
  | zero =>
    cases h
    rw [htick]
    refine ⟨.limit hg, fun t x => ?_⟩
    refine (or_iff_left ?_).symm
    rintro ⟨hkt, htk, -⟩
    exact absurd hkt (Nat.not_le_of_lt htk)
  | succ n ih =>
    simp only [advance, bind_eq_ok, htick] at h
    obtain ⟨r, hr, h⟩ := h
    have hk : tickAt s c k = some r := tickAt_eq_some.2 ⟨g, hg, hr⟩
    have hnow : ∀ t x, (t, x) ∈ (journal ++ r.done.map fun a => (k, a)).toList ↔
        (t, x) ∈ journal.toList ∨ t = k ∧ x ∈ r.done := by
      intro t x
      rw [Array.toList_appendList, List.mem_append]
      exact or_congr Iff.rfl mem_stamp
    have here : ∀ {t x}, t = k → ((∃ q, tickAt s c t = some q ∧ x ∈ q.done) ↔ x ∈ r.done) := by
      rintro t x rfl
      simp [hk]
    cases he : r.exit with
    | some exit =>
      simp only [he, pure_eq_ok] at h
      subst h
      refine ⟨.ended (Nat.lt_add_of_pos_right n.succ_pos) hk he, fun t x => ?_⟩
      rw [hnow]
      refine or_congr Iff.rfl ⟨?_, ?_⟩
      · rintro ⟨ht, hx⟩
        exact ⟨by omega, by omega, (here ht).2 hx⟩
      · rintro ⟨hkt, -, q, hq, hx⟩
        rcases Nat.lt_or_eq_of_le hkt with hlt | heq
        · rw [tickAt_after hk (by simp [he]) hlt] at hq
          cases hq
        · exact ⟨heq.symm, (here heq.symm).1 ⟨q, hq, hx⟩⟩
    | none =>
      simp only [he] at h
      have hnext : startAt s c (k + 1) = some r.after := startAt_succ.2 ⟨r, hk, he, rfl⟩
      obtain ⟨hexits, hmem⟩ := ih hnext h (startAt_moment hc hnext).1
      rw [show k + 1 + n = k + (n + 1) by omega] at hexits hmem
      refine ⟨hexits, fun t x => ?_⟩
      rw [hmem, hnow, or_assoc]
      refine or_congr Iff.rfl ⟨?_, ?_⟩
      · rintro (⟨ht, hx⟩ | ⟨hkt, htk, hq⟩)
        · exact ⟨by omega, by omega, (here ht).2 hx⟩
        · exact ⟨by omega, htk, hq⟩
      · rintro ⟨hkt, htk, hq⟩
        rcases Nat.lt_or_eq_of_le hkt with hlt | heq
        · exact .inr ⟨hlt, htk, hq⟩
        · exact .inl ⟨heq.symm, (here heq.symm).1 hq⟩

variable {run : Run}

/-- A run comes to its exit in one of its ticks or at the tick limit. -/
theorem playAll_exits (hc : c.Valid) {f : Finished} (hf : playAll s c = .ok f) :
    Exits s c c.maxTicks f.machine f.exit := by
  have hexits := (advance_exits (k := 0) hc rfl hf).1
  rwa [Nat.zero_add] at hexits

theorem simulate_exits (hc : c.Valid) (h : simulate s c = .ok run) :
    ∃ m, Exits s c c.maxTicks m run.trace.exit ∧ run.trace.endTick = m.tick := by
  obtain ⟨f, hf, rfl⟩ := playAll_of_simulate hc h
  exact ⟨f.machine, playAll_exits hc hf, rfl⟩

/-- The trace of a run holds the events of its ticks, each under its number. -/
theorem mem_trace (hc : c.Valid) (h : simulate s c = .ok run) :
    ⟨t, e⟩ ∈ run.trace.events ↔
      t < c.maxTicks ∧ ∃ r, tickAt s c t = some r ∧ e ∈ eventsOf r.done := by
  obtain ⟨f, hf, rfl⟩ := playAll_of_simulate hc h
  have hmem := (advance_exits (k := 0) hc rfl hf).2
  change ⟨t, e⟩ ∈ f.journal.events ↔ _
  simp only [mem_events, hmem, mem_eventsOf, Nat.zero_add]
  constructor
  · rintro ⟨x, hx, he⟩
    obtain ⟨-, hlt, r, hr, hx⟩ := hx.resolve_left (by simp)
    exact ⟨hlt, r, hr, x, hx, he⟩
  · rintro ⟨hlt, r, hr, x, hx, he⟩
    exact ⟨x, .inr ⟨Nat.zero_le t, hlt, r, hr, hx⟩, he⟩

/-- What the trace says of the ticks up to the `k`-th is the history up to it. -/
theorem mem_events_historyAt (hc : c.Valid) (h : simulate s c = .ok run) (hk : k < c.maxTicks) :
    ⟨t, e⟩ ∈ (historyAt s c k).events ↔ t ≤ k ∧ ⟨t, e⟩ ∈ run.trace.events := by
  simp only [mem_trace hc h, mem_events, mem_historyAt, mem_eventsOf]
  constructor
  · rintro ⟨x, ⟨htk, r, hr, hx⟩, he⟩
    exact ⟨htk, Nat.lt_of_le_of_lt htk hk, r, hr, x, hx, he⟩
  · rintro ⟨htk, -, r, hr, x, hx, he⟩
    exact ⟨x, ⟨htk, r, hr, hx⟩, he⟩

theorem mem_events_historyBefore (hc : c.Valid) (h : simulate s c = .ok run)
    (hk : k ≤ c.maxTicks) :
    ⟨t, e⟩ ∈ (historyBefore s c k).events ↔ t < k ∧ ⟨t, e⟩ ∈ run.trace.events := by
  cases k with
  | zero =>
    refine ⟨fun he => ?_, fun he => absurd he.1 (Nat.not_lt_zero t)⟩
    cases he
  | succ k => rw [historyBefore, mem_events_historyAt hc h hk, Nat.lt_succ_iff]

/-- At the end of a tick a process is alive that has arrived by then and has not exited. -/
theorem tickAt_alive (hc : c.Valid) (h : simulate s c = .ok run) (hlt : k < c.maxTicks)
    (hk : tickAt s c k = some r) {p : Pid} :
    Alive r.after.machine p ↔ (∃ u ≤ k, ⟨u, .forked p⟩ ∈ run.trace.events) ∧
      ∀ v ≤ k, ⟨v, .exited p⟩ ∉ run.trace.events := by
  obtain ⟨e, hpath, hmachine, -⟩ := tickAt_moment hc hk
  rw [← hmachine, hpath.alive_iff hc]
  simp only [mem_events_historyAt hc h hlt, not_and]

/-- A run ends before one of its ticks, or in it. -/
theorem Exits.boundary {m : Machine} {exit : Exit} (hc : c.Valid) (h : Exits s c n m exit) :
    m.tick ≤ n ∧ ∃ g, startAt s c m.tick = some g := by
  cases h with
  | ended hlt hk he =>
    obtain ⟨g, hg, -⟩ := tickAt_eq_some.1 hk
    rw [(tickAt_ended hc hk he).2]
    exact ⟨Nat.le_of_lt hlt, g, hg⟩
  | @limit g hg =>
    rw [(startAt_moment hc hg).1]
    exact ⟨Nat.le_refl _, g, hg⟩

theorem simulate_end (hc : c.Valid) (h : simulate s c = .ok run) :
    run.trace.endTick ≤ c.maxTicks ∧ ∃ g, startAt s c run.trace.endTick = some g := by
  obtain ⟨m, hexits, hend⟩ := simulate_exits hc h
  rw [hend]
  exact hexits.boundary hc

end Simulation

end Uniprocessor
