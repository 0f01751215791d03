import Uniprocessor.Proofs.Rotation
import Uniprocessor.Proofs.Turnaround
/-
  Shortest remaining time first takes the CPU away for arrivals only, where nobody holds anything.

  Who runs had no more left to do than anybody who is ready (`Path.least`), and after that tick it
  has less.  The process is put behind all others before the next decision and loses ties there, but
  the ties can only be with those that have just arrived, which stand in the line in front of it, in
  the order of their definition (`Leads`).  So it runs on, or the first of the shortest among these
  runs (`Succeeds`).

  Main statement: `srtf_preempts_on_arrivals_only`.
-/

namespace Uniprocessor

/-- The CPU time that a process still needs. -/
def Machine.needs (m : Machine) (p : Pid) : Nat := (m.process? p).elim 0 ProcessRecord.remaining

/-- The jobs that start in this tick. -/
def Scenario.startingAt (c : Scenario) (t : Nat) : List Job := c.jobs.filter (·.start = t)

/-- The jobs that arrive in this tick of the trace. -/
def Trace.newcomers (u : Trace) (c : Scenario) (t : Nat) : List Job :=
  c.jobs.filter fun k => ⟨t, .forked k.pid⟩ ∈ u.events

/-- Who is to run in this tick after `p`, which needs `rest` more: it goes on unless one of those
that start now needs no more, and then it is the first of these that need least. -/
inductive Succeeds (c : Scenario) (t rest : Nat) (p : Pid) : Pid → Prop
  | same : (∀ k ∈ c.startingAt t, rest < k.lifespan) → Succeeds c t rest p p
  | fresh {k : Job} : k.lifespan ≤ rest →
      FirstBest (fun x y => x.lifespan < y.lifespan) k (c.startingAt t) → Succeeds c t rest p k.pid

/-- Where the last is less than all others but for some that stand next to it, it is the least, or
the first least one of these is. -/
theorem firstBest_last {α : Type} {key : α → Nat} {front mid : List α} {p v : α}
    (h : FirstBest (fun x y => key x < key y) v (front ++ mid ++ [p]))
    (hfront : ∀ q ∈ front, key p < key q) :
    (v = p ∧ ∀ q ∈ mid, key p < key q) ∨
      key v ≤ key p ∧ FirstBest (fun x y => key x < key y) v mid := by
  have hle : key v ≤ key p := by
    refine Nat.le_of_not_lt (h.unbeaten (fun x => Nat.lt_irrefl (key x))
      (fun x y => Nat.lt_asymm) p (by simp))
  have hnot : v ∉ front := fun hv => Nat.not_lt.2 hle (hfront v hv)
  obtain ⟨pre, post, hsplit, hpre, hpost⟩ := h
  rcases List.eq_nil_or_concat post with rfl | ⟨rest, w, rfl⟩
  · obtain ⟨rfl, hlast⟩ := List.append_inj' hsplit rfl
    obtain rfl : p = v := List.head_eq_of_cons_eq hlast
    exact .inl ⟨rfl, fun q hq => hpre q (List.mem_append_right _ hq)⟩
  · rw [List.concat_eq_append, ← List.cons_append, ← List.append_assoc] at hsplit
    obtain ⟨hinit, -⟩ := List.append_inj' hsplit rfl
    have hrest : ∀ y ∈ rest, ¬ key y < key v := fun y hy => hpost y (by simp [hy])
    refine .inr ⟨hle, ?_⟩
    rcases List.append_eq_append_iff.1 hinit with ⟨as, rfl, hmid⟩ | ⟨bs, hfs, hmid⟩
    · exact ⟨as, rest, hmid, fun y hy => hpre y (List.mem_append_right _ hy), hrest⟩
    · cases bs with
      | nil => exact ⟨[], rest, hmid.symm, nofun, hrest⟩
      | cons x bs =>
        obtain ⟨rfl, -⟩ := List.cons.inj hmid
        exact absurd (by simp [hfs]) hnot

namespace Simulation

variable {s : Strategy} {c : Scenario} {a b : Moment} {l : List Activity} {i j : Journal}
variable {m : Machine} {p q v : Pid} {job k : Job} {n t : Nat}

/-! ## Arrivals -/

/-- Before a tick begins, the jobs that start in it are still to arrive, in the order of their
definition. -/
theorem Path.pending_at (g : Path s (opening c).moment j a) (ht : a.machine.tick < t) :
    a.pending.filter (·.start = t) = c.startingAt t := by
  induction g with
  | refl =>
    change (arrivals c.jobs).filter _ = _
    rw [filter_arrivals]
    exact arrivals_of_same_start (t := t) fun k hk => by simpa using (List.mem_filter.1 hk).2
  | @snoc d e j l g hm ih =>
    have hle := tick_le_move hm
    have hold := ih (Nat.lt_of_le_of_lt hle ht)
    rcases pending_move hm with heq | ⟨k, heq, hl⟩
    · rwa [heq]
    · have hforked : .forked k.pid ∈ eventsOf l := hl ▸ List.mem_singleton_self _
      obtain ⟨i, hi, -, hstart⟩ := hm.of_forked hforked
      obtain rfl : k = i := (List.cons.inj (heq.symm.trans hi)).1
      rw [heq, List.filter_cons_of_neg (by simp; omega)] at hold
      exact hold

/-! ## What is needed -/

theorem needs_of {x : ProcessRecord} (hx : m.process? p = some x) : m.needs p = x.remaining := by
  rw [Machine.needs, hx]
  rfl

theorem beats_iff_needs (hp : m.process? p ≠ none) (hq : m.process? q ≠ none) :
    m.Beats Policy.shortestRemaining.beats p q ↔ m.needs p < m.needs q := by
  obtain ⟨x, hx⟩ := Option.ne_none_iff_exists'.1 hp
  obtain ⟨y, hy⟩ := Option.ne_none_iff_exists'.1 hq
  rw [Machine.beats_iff hx hy, needs_of hx, needs_of hy]
  rfl

theorem needs_of_job (hc : c.Valid) (hreg : a.Regular c) (hk : k ∈ c.jobs)
    (hp : a.machine.process? k.pid ≠ none) :
    a.machine.needs k.pid = k.lifespan - a.machine.ageOf k.pid := by
  obtain ⟨x, hx⟩ := Option.ne_none_iff_exists'.1 hp
  rw [needs_of hx, Machine.ageOf_of hx, ← (record_of_job hc.sound hreg.scripted hk hx).2]
  rfl

/-- Only a process that runs needs less afterwards. -/
theorem needs_move (hc : c.Valid) (hreg : a.Regular c) (hm : Move s a l b)
    (hp : a.machine.process? p ≠ none) (hl : ∀ n, .ran p n ∉ l) :
    b.machine.needs p = a.machine.needs p := by
  obtain ⟨x, hx⟩ := Option.ne_none_iff_exists'.1 hp
  obtain ⟨k, hk, rfl, -⟩ := (hreg.scripted.plays p x hx).job
  rw [needs_of_job hc hreg hk hp, needs_of_job hc (hreg.move hc hm) hk (known_move hm hp),
    ageOf_move hm hl]

/-! ## From one turn to the next -/

/-- Between the turn of `p` in the `t`-th tick and the turn of the next one, `p` needs `rest` and
everybody else more, but for those that have arrived in the next one. -/
inductive Leads (c : Scenario) (t rest : Nat) (p : Pid) (a : Moment) : Prop
  | ran : a.machine.tick = t → a.phase.turns = 1 → a.rota.runner = some p →
      a.machine.needs p = rest → (∀ q ∈ a.rota.ready, rest < a.machine.needs q) → Leads c t rest p a
  | queued {old : List Pid} {new : List Job} : a.machine.tick = t + 1 →
      a.phase = .arriving ∨ a.phase = .deciding → a.rota = ⟨old ++ new.map (·.pid), some p⟩ →
      a.machine.needs p = rest → (∀ q ∈ old, rest < a.machine.needs q) →
      (∀ k ∈ new, a.machine.needs k.pid = k.lifespan) →
      new ++ a.pending.filter (·.start = t + 1) = c.startingAt (t + 1) → Leads c t rest p a
  | called {v : Pid} : a.machine.tick = t + 1 → a.phase.called = some v →
      Succeeds c (t + 1) rest p v → Leads c t rest p a

theorem tick_kept (hm : Move s a l b) (ha : ∀ ran, a.phase ≠ .closing ran) :
    b.machine.tick = a.machine.tick := by
  rcases time_move hm with ⟨-, ht, -⟩ | ⟨-, ht, -, -⟩ | ⟨-, -, hclosing, -⟩
  · exact ht
  · exact ht
  · exact absurd hclosing (ha _)

/-- The decision takes the first of those that have just arrived and need least, unless all need
more than the one that has run. -/
theorem succeeds_of_firstBest {old : List Pid} {new : List Job} {rest : Nat} (hm : m.Filed)
    (hrota : m.rota = ⟨old ++ new.map (·.pid), some p⟩) (hp : m.needs p = rest)
    (hold : ∀ q ∈ old, rest < m.needs q) (hnew : ∀ k ∈ new, m.needs k.pid = k.lifespan)
    (hbest : FirstBest (m.Beats Policy.shortestRemaining.beats) v m.rota.line)
    (hstart : new = c.startingAt t) : Succeeds c t rest p v := by
  have hline : m.rota.line = old ++ new.map (·.pid) ++ [p] := by rw [hrota]; rfl
  have hkeys : FirstBest (fun x y => m.needs x < m.needs y) v m.rota.line :=
    hbest.congr fun x hx y hy =>
      (beats_iff_needs (hm.known_of_line hx) (hm.known_of_line hy)).symm
  rw [hline] at hkeys
  subst hp hstart
  rcases firstBest_last hkeys hold with ⟨rfl, hlater⟩ | ⟨hle, hfirst⟩
  · refine .same fun k hk => ?_
    rw [← hnew k hk]
    exact hlater k.pid (List.mem_map_of_mem hk)
  · obtain ⟨k, rfl, hk⟩ := hfirst.of_map
    refine .fresh (hnew k hk.mem ▸ hle) (hk.congr fun x hx y hy => ?_)
    rw [hnew x hx, hnew y hy]

theorem Leads.move {rest : Nat} (hc : c.Valid) (hbare : c.Bare)
    (g : Path .shortestRemaining (opening c).moment j a) (hm : Move .shortestRemaining a l b)
    (hran : ∀ q n, .ran q n ∉ l) (hexit : a.machine.tick = t → .exited p ∉ l)
    (h : Leads c t rest p a) : Leads c t rest p b := by
  have hreg := g.regular hc
  have hneeds : ∀ q ∈ a.rota.line, b.machine.needs q = a.machine.needs q := fun q hq =>
    needs_move hc hreg hm (hreg.filed.known_of_line hq) (hran q)
  have hrotates := rotates_move rfl hc hbare hreg hm
  cases h with
  | ran htick hturns hrunner hp hready =>
    have hline : a.rota.line = a.rota.ready ++ [p] := by rw [Rota.line, hrunner]; rfl
    have hp' : b.machine.needs p = rest := (hneeds p (by simp [hline])).trans hp
    have hready' : ∀ q ∈ a.rota.ready, rest < b.machine.needs q := fun q hq =>
      hneeds q (List.mem_append_left _ hq) ▸ hready q hq
    cases hrotates with
    | arrive _ ha | begin _ ha | idle _ ha | pick _ ha | run _ ha =>
      rw [ha] at hturns
      cases hturns
    | remain _ ha hb hrota =>
      have hkept := tick_kept hm (by simp [ha])
      exact .ran (hkept.trans htick) (by rw [hb]; rfl) (hrota ▸ hrunner) hp' (hrota ▸ hready')
    | exit hl _ _ hrun =>
      obtain rfl := Option.some.inj (hrunner.symm.trans hrun)
      exact absurd (by simp [hl]) (hexit htick)
    | close _ ha hb hpending hpass hrota =>
      have hrota' : b.rota = ⟨a.rota.ready ++ ([] : List Job).map (·.pid), some p⟩ := by
        rw [hrota, List.map_nil, List.append_nil, ← hrunner]
      refine .queued (hpass.trans (by rw [htick])) (.inl hb) hrota' hp' hready' nofun ?_
      rw [hpending]
      exact g.pending_at (by omega)
  | @queued old new htick hphase hrota hp hold hnew hdue =>
    have hline : a.rota.line = old ++ new.map (·.pid) ++ [p] := by rw [hrota]; rfl
    have hp' : b.machine.needs p = rest := (hneeds p (by simp [hline])).trans hp
    have hold' : ∀ q ∈ old, rest < b.machine.needs q := fun q hq =>
      hneeds q (by simp [hline, hq]) ▸ hold q hq
    have hnew' : ∀ k ∈ new, b.machine.needs k.pid = k.lifespan := fun k hk =>
      (hneeds k.pid (by rw [hline]; simp; exact .inr (.inl ⟨k, hk, rfl⟩))).trans (hnew k hk)
    cases hrotates with
    | run _ ha | remain _ ha | exit _ ha | close _ ha =>
      rw [ha] at hphase
      simp at hphase
    | @arrive k hl ha hb hpending hstart hfresh hrota' =>
      have hkept := tick_kept hm (by simp [ha])
      have hmem : k ∈ a.pending := hpending ▸ List.mem_cons_self
      have hk := (hreg.pending k hmem).1
      have hnow : k.start = t + 1 :=
        Nat.le_antisymm (htick ▸ hstart) (htick ▸ g.tick_le_start hc hmem)
      have hlife : b.machine.needs k.pid = k.lifespan := by
        have hknown := known_of_forked (hl ▸ hm)
        rw [needs_of_job hc (hreg.move hc hm) hk hknown, ageOf_move hm (hran k.pid),
          ageOf_pending hreg hmem, Nat.sub_zero]
      have hjoined : b.rota = ⟨old ++ (new ++ [k]).map (·.pid), some p⟩ := by
        rw [hrota', hrota, List.map_append, ← List.append_assoc]
        rfl
      refine .queued (hkept.trans htick) (.inl hb) hjoined hp' hold' ?_ ?_
      · intro i hi
        rcases List.mem_append.1 hi with hi | hi
        · exact hnew' i hi
        · rw [List.mem_singleton.1 hi, hlife]
      · rw [← hdue, hpending, List.filter_cons_of_pos (by simp [hnow]), List.append_assoc]
        rfl
    | begin _ ha hb hpending _ hrota' =>
      exact .queued ((tick_kept hm (by simp [ha])).trans htick) (.inr hb) (hrota'.trans hrota) hp'
        hold' hnew' (hpending ▸ hdue)
    | idle _ _ _ hempty => simp [hline] at hempty
    | @pick o d v _ ha hb hbest _ =>
      have hlate : a.pending.filter (·.start = t + 1) = [] := by
        refine List.filter_eq_nil_iff.2 fun k hk => ?_
        have := (g.pending_iff (by simp [ha]) (hreg.pending k hk).1).1 hk
        simp
        omega
      rw [hlate, List.append_nil] at hdue
      exact .called ((tick_kept hm (by simp [ha])).trans htick) (by rw [hb]; rfl)
        (succeeds_of_firstBest hreg.filed hrota hp hold hnew hbest hdue)
  | called htick hcalled _ =>
    cases hrotates with
    | @run d v n hl => exact absurd (by simp [hl]) (hran v n)
    | arrive _ ha | begin _ ha | idle _ ha | pick _ ha | remain _ ha | exit _ ha | close _ ha =>
      rw [ha] at hcalled
      cases hcalled

theorem Path.leads {rest : Nat} (hc : c.Valid) (hbare : c.Bare)
    (g : Path .shortestRemaining (opening c).moment i a) (h : Leads c t rest p a)
    (hpath : Path .shortestRemaining a j b) (hran : ∀ u q n, ⟨u, .ran q n⟩ ∉ j.events)
    (hexit : ⟨t, .exited p⟩ ∉ j.events) : Leads c t rest p b := by
  induction hpath with
  | refl => exact h
  | @snoc d e j l hd hm ih =>
    simp only [events_snoc, List.mem_append, not_or] at hran hexit
    refine (ih (fun u q n => (hran u q n).1) hexit.1).move hc hbare (g.trans hd) hm
      (fun q n hl => ?_) fun htick hl => ?_
    · exact (hran d.machine.tick q n).2 (mem_within.2 ⟨rfl, ran_mem_eventsOf.2 hl⟩)
    · exact hexit.2 (mem_within.2 ⟨htick.symm, exited_mem_eventsOf.2 hl⟩)

/-- Who runs needs less afterwards than anybody who is ready. -/
theorem Path.leads_start (hc : c.Valid) (hbare : c.Bare)
    (g : Path .shortestRemaining (opening c).moment j a)
    (hm : Move .shortestRemaining a [.ran k.pid n] b) (hk : k ∈ c.jobs) :
    Leads c a.machine.tick (k.lifespan - n) k.pid b := by
  have hreg := g.regular hc
  obtain ⟨-, d, ha, _, _, hb, -⟩ := hm.of_ran (List.mem_singleton_self _)
  obtain ⟨hscripted, hreq⟩ := hreg.requests ha
  obtain ⟨hrunner, hrota⟩ := (rotates_move rfl hc hbare hreg hm).of_requesting ha
  obtain ⟨hn, hage⟩ := ageOf_ran hm (List.mem_singleton_self _)
  obtain ⟨x, hx⟩ := Machine.exists_record hreq.running
  have hknown : a.machine.process? k.pid ≠ none := Option.ne_none_iff_exists'.2 ⟨x, hx⟩
  have hafter : b.machine.needs k.pid = k.lifespan - n := by
    rw [needs_of_job hc (hreg.move hc hm) hk (known_move hm hknown), hage]
  have htick := tick_of_ran hm (List.mem_singleton_self _)
  refine .ran htick (by rw [hb]; rfl) (hrota ▸ hrunner) hafter fun q hq => ?_
  rw [hrota] at hq
  have hready := (hreg.filed.mem_ready q).1 hq
  obtain ⟨y, hy, hst⟩ := Machine.status?_eq_some.1 hready
  have hqk : q ≠ k.pid := by
    rintro rfl
    rw [hreq.running] at hready
    cases hready
  -- before its turn it needed no more than `q`, and it was not done
  have hle := g.least hc ha hx hy hst
  have hlt := hreq.age_lt hscripted hx
  rw [← needs_of hx, ← needs_of hy, needs_of_job hc hreg hk hknown] at hle
  rw [← Machine.ageOf_of hx, (record_of_job hc.sound hreg.scripted hk hx).2] at hlt
  rw [needs_move hc hreg hm (Option.ne_none_iff_exists'.2 ⟨y, hy⟩) (by simp [hqk])]
  omega

/-- Who is to run next comes after `p`. -/
theorem Leads.succeeds {rest : Nat} (h : Leads c t rest p a) {d : Decision} {due : List ResourceId}
    (ha : a.phase = .requesting d v due) :
    a.machine.tick = t + 1 ∧ Succeeds c (t + 1) rest p v := by
  cases h with
  | ran _ hturns =>
    rw [ha] at hturns
    cases hturns
  | queued _ hphase =>
    rw [ha] at hphase
    simp at hphase
  | called htick hcalled hsucc =>
    rw [ha] at hcalled
    obtain rfl := Option.some.inj hcalled
    exact ⟨htick, hsucc⟩

/-- A run does not end between the two turns. -/
theorem Leads.not_last {rest : Nat} (h : Leads c t rest p a) (ht : t + 1 < c.maxTicks)
    (hlast : a.Ended ∨ a.phase = .arriving ∧ a.machine.tick = c.maxTicks) : False := by
  cases h with
  | ran _ hturns =>
    rcases hlast with ⟨ha, -⟩ | ⟨ha, -⟩
    · rw [ha] at hturns
      cases hturns
    · rw [ha] at hturns
      cases hturns
  | queued htick hphase =>
    rcases hlast with ⟨ha, -⟩ | ⟨-, hlimit⟩
    · rw [ha] at hphase
      simp at hphase
    · omega
  | called _ hcalled =>
    rcases hlast with ⟨ha, -⟩ | ⟨ha, -⟩
    · rw [ha] at hcalled
      cases hcalled
    · rw [ha] at hcalled
      cases hcalled

/-- Where a process runs there is a first one. -/
theorem Path.split_first_ran (g : Path s a j b) (h : ¬ ∀ u q n, ⟨u, .ran q n⟩ ∉ j.events) :
    ∃ d f i rest q n, Path s a i d ∧ Move s d [.ran q n] f ∧
      (∀ u q n, ⟨u, .ran q n⟩ ∉ Journal.events i) ∧
      j.events = Journal.events i ++ ⟨d.machine.tick, .ran q n⟩ :: Journal.events rest := by
  cases hfind : j.events.find? fun e => e.event.runner?.isSome with
  | none =>
    refine absurd (fun u q n hmem => ?_) h
    simpa [Event.runner?] using List.find?_eq_none.1 hfind _ hmem
  | some e =>
    obtain ⟨u, e⟩ := e
    obtain ⟨he, front, back, hsplit, hfront⟩ := List.find?_eq_some_iff_append.1 hfind
    obtain ⟨q, hq⟩ := Option.isSome_iff_exists.1 he
    obtain ⟨n, rfl⟩ := Event.runner?_eq_some.1 hq
    obtain ⟨d, f, i, rest, rfl, rfl, hd, rfl, hm, -⟩ := g.split_run hsplit
    refine ⟨d, f, i, rest, q, n, hd, hm, fun u q n hmem => ?_, hsplit⟩
    simpa [Event.runner?] using hfront _ hmem

end Simulation

open Simulation

/-- Under shortest remaining time first, where nobody holds anything, a process that has run and is
not done runs in the next tick as well, if there is one before the limit, unless somebody arrives in
it that needs no more; and then the first of the arrivals that need least runs. -/
theorem srtf_preempts_on_arrivals_only {c : Scenario} (hc : c.Valid) (hbare : c.Bare) {run : Run}
    (hrun : simulate .shortestRemaining c = .ok run) {i : Job} (hi : i ∈ c.jobs) {t n : Nat}
    (hran : ⟨t, .ran i.pid n⟩ ∈ run.trace.events)
    (hgoes : ⟨t, .exited i.pid⟩ ∉ run.trace.events) (hplayed : t + 1 < c.maxTicks) :
    ((∀ k ∈ run.trace.newcomers c (t + 1), i.lifespan - n < k.lifespan) →
      ∀ q, (∃ m, ⟨t + 1, .ran q m⟩ ∈ run.trace.events) ↔ q = i.pid) ∧
    ((∃ k ∈ run.trace.newcomers c (t + 1), k.lifespan ≤ i.lifespan - n) →
      ∃ k, FirstBest (fun x y => x.lifespan < y.lifespan) k (run.trace.newcomers c (t + 1)) ∧
        ∀ q, (∃ m, ⟨t + 1, .ran q m⟩ ∈ run.trace.events) ↔ q = k.pid) := by
  obtain ⟨f, hf, rfl⟩ := playAll_of_simulate hc hrun
  obtain ⟨b, g, hlast, -⟩ := exists_last hc hf
  have hevents : (traceOf c f).events = f.journal.events := rfl
  rw [hevents] at hran hgoes
  obtain ⟨pre, post, hsplit⟩ := List.append_of_mem hran
  obtain ⟨a, e, j, rest, rfl, rfl, ga, rfl, hm, hpath⟩ := g.split_run hsplit
  have ge := ga.snoc hm
  have hleads := ga.leads_start hc hbare hm hi
  have hstays : ⟨a.machine.tick, .exited i.pid⟩ ∉ rest.events := by
    intro hmem
    rw [hsplit] at hgoes
    exact hgoes (List.mem_append_right _ (List.mem_cons_of_mem _ hmem))
  -- somebody runs before the end, since the run does not end before
  have hsome : ¬ ∀ u q n, ⟨u, .ran q n⟩ ∉ rest.events := fun hnone =>
    (ge.leads hc hbare hleads hpath hnone hstays).not_last hplayed hlast
  obtain ⟨d, _, j', rest', v, m, hd, hm', hnone, hrest⟩ := hpath.split_first_ran hsome
  obtain ⟨-, _, hphase, -⟩ := hm'.of_ran (List.mem_singleton_self _)
  have hstill : ⟨a.machine.tick, .exited i.pid⟩ ∉ j'.events := fun hmem =>
    hstays (hrest ▸ List.mem_append_left _ hmem)
  obtain ⟨htick, hsucceeds⟩ := (ge.leads hc hbare hleads hd hnone hstill).succeeds hphase
  rw [hrest, htick] at hsplit
  have honly : ∀ q, (∃ m, ⟨a.machine.tick + 1, .ran q m⟩ ∈ (traceOf c f).events) ↔ q = v := by
    have hmem : ⟨a.machine.tick + 1, .ran v m⟩ ∈ f.journal.events := by simp [hsplit]
    refine fun q => ⟨fun ⟨k, hk⟩ => ?_, fun hq => ⟨m, hq ▸ hmem⟩⟩
    cases g.timed.unique hk hmem ⟨q, k, rfl⟩ ⟨v, m, rfl⟩ rfl
    rfl
  have hnew : (traceOf c f).newcomers c (a.machine.tick + 1) =
      c.startingAt (a.machine.tick + 1) := by
    refine List.filter_congr fun k hk => decide_eq_decide.2 ⟨fun hu => ?_, fun hstart => ?_⟩
    · exact (g.forked_at_start hc hk hu).symm
    · have hforked := ((ge.trans hd).forked_iff hc (by simp [hphase]) hk).2
        ⟨hstart.symm, Nat.le_of_eq htick.symm⟩
      rw [events_append, events_snoc] at hforked
      rw [hevents, hsplit]
      simp only [List.mem_append, List.mem_cons, mem_within] at hforked ⊢
      tauto
  simp only [honly, hnew]
  cases hsucceeds with
  | same hlater =>
    exact ⟨fun _ _ => Iff.rfl, fun ⟨k, hk, hle⟩ => absurd (hlater k hk) (Nat.not_lt.2 hle)⟩
  | fresh hle hbest =>
    refine ⟨fun hlater => absurd (hlater _ hbest.mem) (Nat.not_lt.2 hle), fun _ => ⟨_, hbest, ?_⟩⟩
    exact fun _ => Iff.rfl

/-- Two processes arrive that need as much as is left of the first. -/
def Scenario.tied : Scenario where
  jobs := [
    { pid := ⟨1⟩, name := "old", start := 0, lifespan := 4, priority := 0, holds := [] },
    { pid := ⟨2⟩, name := "new", start := 1, lifespan := 3, priority := 0, holds := [] },
    { pid := ⟨3⟩, name := "equal", start := 1, lifespan := 3, priority := 0, holds := [] }]
  resourceCount := 0
  limits := .standard
  maxTicks := 20
  audit := true

/-- In the second tick the first of the two takes the CPU, and it keeps it in the third. -/
theorem srtf_preempts_on_arrivals_only_tied :
    ∃ run, simulate .shortestRemaining .tied = .ok run ∧
      (∃ k, FirstBest (fun x y => x.lifespan < y.lifespan) k (run.trace.newcomers .tied 1) ∧
        ∀ q, (∃ m, ⟨1, .ran q m⟩ ∈ run.trace.events) ↔ q = k.pid) ∧
      ⟨1, .ran ⟨2⟩ 1⟩ ∈ run.trace.events ∧
      ∀ q, (∃ m, ⟨2, .ran q m⟩ ∈ run.trace.events) ↔ q = ⟨2⟩ := by
  have hsim : (simulate .shortestRemaining .tied).toOption.any (fun run =>
      decide (⟨0, .ran ⟨1⟩ 1⟩ ∈ run.trace.events ∧ ⟨0, .exited ⟨1⟩⟩ ∉ run.trace.events ∧
        (∃ k ∈ run.trace.newcomers .tied 1, k.lifespan ≤ 4 - 1) ∧
        ⟨1, .ran ⟨2⟩ 1⟩ ∈ run.trace.events ∧ ⟨1, .exited ⟨2⟩⟩ ∉ run.trace.events ∧
        run.trace.newcomers .tied 2 = [])) = true := by
    decide
  obtain ⟨run, hrun, hran⟩ := Option.any_eq_true _ _ |>.1 hsim
  obtain ⟨hfirst, hgoes, harrival, hsecond, hgoes', hnone⟩ := of_decide_eq_true hran
  have hrun := toOption_eq_some.1 hrun
  have hvalid : Scenario.tied.Valid := by decide
  have hbare : Scenario.tied.Bare := by decide
  have htaken := (srtf_preempts_on_arrivals_only hvalid hbare hrun List.mem_cons_self hfirst hgoes
    (by decide)).2 harrival
  have hkept := (srtf_preempts_on_arrivals_only hvalid hbare hrun
    (List.mem_cons_of_mem _ List.mem_cons_self) hsecond hgoes' (by decide)).1 (by simp [hnone])
  exact ⟨run, hrun, htaken, hsecond, hkept⟩

end Uniprocessor
