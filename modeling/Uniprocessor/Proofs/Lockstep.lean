import Uniprocessor.Proofs.Annals
import Uniprocessor.Proofs.Determinacy
/-
  Two runs side by side.

  `Path.follow`: a relation between the moments of two runs that every move of the one can be
  answered under by a path of the other leads from path to path, and what is shown of the two
  journals is the same.

  The simplest such relation is that of two strategies that do the same: at every moment of its
  run the one decides, grants and releases as the other would (`Moment.Agree`).  Their decisions
  may differ in name, so that their logs may differ, but not in the machine that they lead to nor
  in the process that they put on the CPU.  What the one goes the other can then go as well
  (`Path.answered`), and the two runs leave the same trace if this is so in the ticks that are
  played (`leaves_of_agree`, `leaves_of_agreeInTime`).
-/

namespace Uniprocessor

namespace Simulation

/-- The part of a journal's events that `V` shows. -/
def Journal.shown (V : Event → Bool) (j : Journal) : List TraceEvent :=
  j.events.filter fun e => V e.event

/-- The run of a scenario under `s` leaves the trace `t`. -/
def Leaves (s : Strategy) (c : Scenario) (t : Trace) : Prop :=
  (∃ f, playAll s c = .ok f ∧ traceOf c f = t) ∧
    (ResourceTable.CanAddress c.resourceCount → ∃ log, simulate s c = .ok ⟨t, log⟩)

variable {s s' : Strategy} {c : Scenario} {a a' b : Moment} {i j : Journal}
variable {l : List Activity} {g : Progress} {r : TickResult} {k : Nat}

theorem leaves_of_playAll (hc : c.Valid) {f : Finished} (hf : playAll s c = .ok f) :
    Leaves s c (traceOf c f) :=
  ⟨⟨f, hf, rfl⟩, fun hsize => ⟨_, simulate_of_playAll hc hsize hf⟩⟩

theorem Leaves.unique {t t' : Trace} (h : Leaves s c t)
    (h' : Leaves s c t') : t' = t := by
  obtain ⟨⟨f, hf, rfl⟩, -⟩ := h
  obtain ⟨⟨f', hf', rfl⟩, -⟩ := h'
  rw [hf] at hf'
  cases hf'
  rfl

/-- What can be computed of a run holds of the trace that it leaves. -/
theorem Leaves.of_any {t : Trace} (h : Leaves s c t) (P : Trace → Prop) [DecidablePred P]
    (hp : (playAll s c).toOption.any (fun f => decide (P (traceOf c f))) = true) : P t := by
  obtain ⟨⟨f, hf, rfl⟩, -⟩ := h
  exact of_toOption_any (P := fun f => P (traceOf c f)) hf hp

/-- What happens on a path that ends before the tick limit happens in the run. -/
theorem Path.events_initial {t : Trace} (hc : c.Valid) (ht : Leaves s c t)
    (g : Path s (opening c).moment j a) (hlt : a.machine.tick < c.maxTicks) :
    j.events <+: t.events := by
  obtain ⟨⟨f, hf, rfl⟩, -⟩ := ht
  change j.events <+: f.journal.events
  obtain ⟨e, ge, he, -⟩ := exists_last hc hf
  rcases g.linear ge with ⟨k, -, hj⟩ | ⟨k, hk, hj⟩
  · exact ⟨k.events, by rw [hj, events_append]⟩
  · rcases he with hended | ⟨-, htick⟩
    · have hsame : j = f.journal := by rw [hj, hended.last hk, List.append_nil]
      exact hsame ▸ List.prefix_rfl
    · have hle := hk.tick_le
      omega

/-! ## Runs tick by tick -/

theorem annals_congr {F G : Nat → List Event} {n : Nat} (h : ∀ k < n, F k = G k) :
    annals F n = annals G n := by
  induction n with
  | zero => rfl
  | succ n ih =>
    rw [annals, annals, ih fun k hk => h k (Nat.lt_succ_of_lt hk), h n n.lt_succ_self]

theorem tickAt_eq_none (h : startAt s c k = none) : tickAt s c k = none := by
  rw [Option.eq_none_iff_forall_ne_some]
  intro r hr
  obtain ⟨g, hg, -⟩ := tickAt_eq_some.1 hr
  cases h.symm.trans hg

/-- A run comes to its exit once. -/
theorem Exits.unique {n : Nat} {m m' : Machine} {e e' : Exit} (h : Exits s c n m e)
    (h' : Exits s c n m' e') : m = m' ∧ e = e' := by
  cases h with
  | @ended k q _ hk hq he =>
    cases h' with
    | @ended t q' _ ht hq' he' =>
      rcases Nat.lt_trichotomy k t with hlt | rfl | hlt
      · rw [tickAt_after hq (by simp [he]) hlt] at hq'
        cases hq'
      · cases hq.symm.trans hq'
        exact ⟨rfl, Option.some.inj (he.symm.trans he')⟩
      · rw [tickAt_after hq' (by simp [he']) hlt] at hq
        cases hq
    | limit hg =>
      rw [startAt_after hq (by simp [he]) hk] at hg
      cases hg
  | limit hg =>
    cases h' with
    | ended hk hq he =>
      rw [startAt_after hq (by simp [he]) hk] at hg
      cases hg
    | limit hg' =>
      cases hg.symm.trans hg'
      exact ⟨rfl, rfl⟩

/-! ## Paths answered by paths -/

section Follow

variable {V : Event → Bool}

theorem shown_append : Journal.shown V (i ++ j) = Journal.shown V i ++ Journal.shown V j := by
  simp only [Journal.shown, events_append, List.filter_append]

theorem shown_stamp (t : Nat) :
    Journal.shown V (stamp t l) = within t ((eventsOf l).filter V) := by
  simp only [Journal.shown, events_stamp, within, List.filter_map]
  rfl

theorem Path.follow (s' : Strategy) (V : Event → Bool) {R : Moment → Moment → Prop}
    (answer : ∀ {a a' l b}, R a a' → Move s a l b → ∃ i b', Path s' a' i b' ∧ R b b' ∧
      Journal.shown V i = within a.machine.tick ((eventsOf l).filter V))
    (h : Path s a j b) (hR : R a a') :
    ∃ i b', Path s' a' i b' ∧ R b b' ∧ Journal.shown V i = Journal.shown V j := by
  induction h with
  | refl => exact ⟨[], a', .refl, hR, rfl⟩
  | snoc _ hm ih =>
    obtain ⟨i, d, hpath, hd, hi⟩ := ih
    obtain ⟨k, e, hnext, he, hk⟩ := answer hd hm
    refine ⟨i ++ k, e, hpath.trans hnext, he, ?_⟩
    rw [shown_append, shown_append, hi, hk, shown_stamp]

end Follow

/-! ## Strategies that do the same -/

/-- What `s` does at this moment `s'` does as well. -/
structure Moment.Agree (s s' : Strategy) (a : Moment) : Prop where
  decide : ∀ n d, a.phase = .deciding → s.policy.Decides a.machine n d →
    ∃ d', s'.policy.Decides a.machine n d' ∧ d'.next = d.next
  acquire : ∀ d p r due n reply, a.phase = .requesting d p (r :: due) →
    s.protocol.Acquires a.machine r p n reply → s'.protocol.Acquires a.machine r p n reply
  release : ∀ p r due n o, a.phase = .releasing p (r :: due) →
    s.protocol.Releases a.machine r p n o → s'.protocol.Releases a.machine r p n o

/-- The phases differ in the name of a decision at most. -/
inductive Phase.Alike : Phase → Phase → Prop
  | refl {φ : Phase} : Alike φ φ
  | requesting {d d' : Decision} {p : Pid} {due : List ResourceId} :
      Alike (.requesting d p due) (.requesting d' p due)

/-- The moments differ in the name of a decision at most. -/
structure Moment.Alike (a b : Moment) : Prop where
  phase : a.phase.Alike b.phase
  machine : b.machine = a.machine
  before : b.before = a.before
  pending : b.pending = a.pending

theorem Moment.Alike.refl (a : Moment) : a.Alike a := ⟨.refl, rfl, rfl, rfl⟩

/-- Where no decision is pending there is no difference. -/
theorem Moment.Alike.eq_of_closing {ran : Bool} {m n : Machine} {u : List Job}
    (h : Moment.Alike ⟨.closing ran, m, n, u⟩ b) : b = ⟨.closing ran, m, n, u⟩ := by
  obtain ⟨φ, m', n', u'⟩ := b
  obtain ⟨hphase, hmachine, hbefore, hpending⟩ := h
  cases hphase
  rw [Moment.mk.injEq]
  exact ⟨rfl, hmachine, hbefore, hpending⟩

/-- A move of the one strategy is a move of the other, of the same events. -/
theorem Moment.Agree.move (hreg : a.Regular c) (h : a.Agree s s') (ha : a.Alike a')
    (hm : Move s a l b) :
    ∃ k b', Move s' a' k b' ∧ b.Alike b' ∧ eventsOf k = eventsOf l := by
  obtain ⟨φ', m', before', u'⟩ := a'
  obtain ⟨hphase, rfl, rfl, rfl⟩ := ha
  cases hm with
  | arrive hj hn =>
    cases hphase
    exact ⟨_, _, .arrive hj hn, .refl _, rfl⟩
  | begin hlate =>
    cases hphase
    exact ⟨_, _, .begin hlate, .refl _, rfl⟩
  | idle hn hnext =>
    cases hphase
    obtain ⟨d', hd', he⟩ := h.decide _ _ rfl (Policy.schedule_decides hn)
    refine ⟨_, _, .idle (hreg.filed.schedule_eq_ok.2 hd') (he.trans hnext), .refl _, ?_⟩
    rw [eventsOf_decided, eventsOf_decided, he]
  | dispatch hn hnext hdue =>
    cases hphase
    obtain ⟨d', hd', he⟩ := h.decide _ _ rfl (Policy.schedule_decides hn)
    refine ⟨_, _, .dispatch (hreg.filed.schedule_eq_ok.2 hd') (he.trans hnext) hdue,
      ⟨.requesting, rfl, rfl, rfl⟩, ?_⟩
    rw [eventsOf_decided, eventsOf_decided, he]
  | grant hn =>
    obtain ⟨-, hreq⟩ := hreg.phase
    have ha := h.acquire _ _ _ _ _ _ rfl (hreq.acquires hn)
    have hn' := Strategy.acquire_eq_ok.2 ⟨_, hreq.current, Protocol.acquire_of_acquires ha⟩
    cases hphase with
    | refl => exact ⟨_, _, .grant hn', .refl _, rfl⟩
    | requesting => exact ⟨_, _, .grant hn', ⟨.requesting, rfl, rfl, rfl⟩, rfl⟩
  | block hn =>
    obtain ⟨-, hreq⟩ := hreg.phase
    have ha := h.acquire _ _ _ _ _ _ rfl (hreq.acquires hn)
    have hn' := Strategy.acquire_eq_ok.2 ⟨_, hreq.current, Protocol.acquire_of_acquires ha⟩
    cases hphase <;> exact ⟨_, _, .block hn', .refl _, rfl⟩
  | run hn hx hdue =>
    cases hphase <;> exact ⟨_, _, .run hn hx hdue, .refl _, rfl⟩
  | release hn =>
    have hret := hreg.phase
    have hr := h.release _ _ _ _ _ rfl (Returns.releases hret hn)
    have hn' := Strategy.release_eq_ok.2 ⟨_, hret.current, hreg.filed.release_eq_ok.2 hr⟩
    cases hphase
    exact ⟨_, _, .release hn', .refl _, rfl⟩
  | remain hx hd =>
    cases hphase
    exact ⟨_, _, .remain hx hd, .refl _, rfl⟩
  | exit hx hd =>
    cases hphase
    exact ⟨_, _, .exit hx hd, .refl _, rfl⟩
  | close hover hn =>
    cases hphase
    exact ⟨_, _, .close hover hn, .refl _, rfl⟩

/-- What `s` can go `s'` can go as well, if the two do the same wherever the path moves on. -/
theorem Path.answered (hc : c.Valid) (ha : Path s (opening c).moment i a) (hp : Path s a j b)
    (h : ∀ k d l e rest, Path s a k d → Move s d l e → Path s e rest b →
      j = k ++ (stamp d.machine.tick l ++ rest) → d.Agree s s') :
    ∃ k b', Path s' a k b' ∧ b.Alike b' ∧ k.events = j.events := by
  induction hp with
  | refl => exact ⟨[], a, .refl, .refl a, rfl⟩
  | @snoc d e j l g hm ih =>
    obtain ⟨k, d', hk, halike, hevents⟩ := ih fun k f l' f' rest hf hm' hrest hj =>
      h k f l' f' _ hf hm' (hrest.snoc hm) (by rw [hj, List.append_assoc, List.append_assoc])
    have hagree : d.Agree s s' := h j d l e [] g hm .refl (by rw [List.append_nil])
    obtain ⟨l', e', hm', he, hl⟩ := hagree.move ((ha.trans g).regular hc) halike hm
    refine ⟨_, e', hk.snoc hm', he, ?_⟩
    rw [events_snoc, events_snoc, hevents, hl, halike.machine]

/-- At every moment of the run under `s` the two strategies do the same. -/
def Agree (s s' : Strategy) (c : Scenario) : Prop :=
  ∀ j a, Path s (opening c).moment j a → a.Agree s s'

/-- At every moment before the run under `s` is cut off the two strategies do the same. -/
def AgreeInTime (s s' : Strategy) (c : Scenario) : Prop :=
  ∀ j a, Path s (opening c).moment j a → a.machine.tick < c.maxTicks → a.Agree s s'

/-- Two ticks come to the same but for the names of decisions. -/
structure TickResult.Alike (r r' : TickResult) : Prop where
  after : r'.after = r.after
  exit : r'.exit = r.exit
  events : eventsOf r'.done = eventsOf r.done

theorem Closes.alike {audit ran : Bool} {m n : Machine} {u : List Job} {acts acts' : List Activity}
    {r' : TickResult} (h : Closes audit ran n m u acts r) (h' : Closes audit ran n m u acts' r')
    (hacts : eventsOf acts' = eventsOf acts) : r.Alike r' := by
  cases h with
  | ended ho =>
    cases h' with
    | ended => exact ⟨rfl, rfl, hacts⟩
    | broken ho' => exact absurd ho ho'
    | next ho' => exact absurd ho ho'
  | broken ho ha hv =>
    cases h' with
    | ended ho' => exact absurd ho' ho
    | broken _ _ hv' =>
      cases hv.symm.trans hv'
      exact ⟨rfl, rfl, by rw [eventsOf_append, eventsOf_append, hacts]⟩
    | next _ hv' => cases hv.symm.trans (hv' ha)
  | next ho hv hn =>
    cases h' with
    | ended ho' => exact absurd ho' ho
    | broken _ ha hv' => cases hv'.symm.trans (hv ha)
    | next _ _ hn' =>
      cases hn.symm.trans hn'
      exact ⟨rfl, rfl, by rw [eventsOf_append, eventsOf_append, hacts]⟩

/-- From one state the two strategies play the same tick. -/
theorem AgreeInTime.tick (hc : c.Valid) (h : AgreeInTime s s' c) (hk : k < c.maxTicks)
    (hg : startAt s c k = some g) (hg' : startAt s' c k = some g) :
    ∃ r r', tickAt s c k = some r ∧ tickAt s' c k = some r' ∧ r.Alike r' := by
  obtain ⟨ht, hpath⟩ := startAt_moment hc hg
  have hreg := hpath.regular hc
  have hbound : g.machine.tick + 1 < tickBound := by
    have := hc.inRange.2.2.1
    omega
  obtain ⟨r, hr⟩ : ∃ r, step s c.audit g = .ok r := exists_step hc hreg hbound
  obtain ⟨ran, n, m, acts, hm, hplay, hcloses⟩ := step_path hr
  obtain ⟨i, e, hplay', halike, hevents⟩ :=
    hpath.answered hc hplay fun i d l e rest hd hm' hrest _ => by
      have hle : d.machine.tick ≤ m.tick := Nat.le_trans (tick_le_move hm') hrest.tick_le
      exact h _ d (hpath.trans hd) (by omega)
  obtain rfl := halike.eq_of_closing
  obtain ⟨-, acts', r', rfl, hr', hcloses'⟩ := step_of_path hc hreg hbound hplay' hm
  refine ⟨r, r', tickAt_eq_some.2 ⟨g, hg, hr⟩, tickAt_eq_some.2 ⟨g, hg', hr'⟩,
    hcloses.alike hcloses' ?_⟩
  rw [events_stamp, events_stamp] at hevents
  exact (List.map_inj_right fun e f hef => (TraceEvent.mk.inj hef).2).1 hevents

theorem AgreeInTime.start (hc : c.Valid) (h : AgreeInTime s s' c) (hk : k ≤ c.maxTicks) :
    startAt s' c k = startAt s c k := by
  induction k with
  | zero => rfl
  | succ k ih =>
    have ih := ih (Nat.le_of_succ_le hk)
    cases hg : startAt s c k with
    | none => rw [startAt, startAt, tickAt_eq_none hg, tickAt_eq_none (ih.trans hg)]
    | some g =>
      obtain ⟨r, r', hr, hr', hsame⟩ := h.tick hc hk hg (ih.trans hg)
      rw [startAt, startAt, hr, hr', Option.bind_some, Option.bind_some, hsame.exit, hsame.after]

theorem AgreeInTime.events (hc : c.Valid) (h : AgreeInTime s s' c) (hk : k < c.maxTicks) :
    eventsAt s' c k = eventsAt s c k := by
  have hstart := h.start hc (Nat.le_of_lt hk)
  cases hg : startAt s c k with
  | none => rw [eventsAt, eventsAt, tickAt_eq_none hg, tickAt_eq_none (hstart.trans hg)]
  | some g =>
    obtain ⟨r, r', hr, hr', hsame⟩ := h.tick hc hk hg (hstart.trans hg)
    rw [eventsAt_of hr, eventsAt_of hr', hsame.events]

theorem AgreeInTime.exits (hc : c.Valid) (h : AgreeInTime s s' c) {m : Machine} {e : Exit}
    (he : Exits s c c.maxTicks m e) : Exits s' c c.maxTicks m e := by
  cases he with
  | ended hk hr he =>
    obtain ⟨g, hg, -⟩ := tickAt_eq_some.1 hr
    obtain ⟨q, r', hq, hr', hsame⟩ := h.tick hc hk hg ((h.start hc (Nat.le_of_lt hk)).trans hg)
    obtain rfl := Option.some.inj (hr.symm.trans hq)
    rw [← hsame.after]
    exact .ended hk hr' (hsame.exit.trans he)
  | limit hg => exact .limit ((h.start hc (Nat.le_refl _)).trans hg)

/-- Strategies that do the same leave the same trace. -/
theorem AgreeInTime.traceOf_eq (hc : c.Valid) (h : AgreeInTime s s' c) {f f' : Finished}
    (hf : playAll s c = .ok f) (hf' : playAll s' c = .ok f') : traceOf c f' = traceOf c f := by
  obtain ⟨hmachine, hexit⟩ :=
    (h.exits hc (playAll_exits hc hf)).unique (playAll_exits hc hf')
  have hevents : f'.journal.events = f.journal.events := by
    rw [playAll_events hc hf, playAll_events hc hf']
    exact annals_congr fun k hk => h.events hc hk
  rw [traceOf, traceOf, hevents, ← hmachine, ← hexit]

/-- Two runs leave the same trace if the strategies do the same as long as the first one lasts. -/
theorem leaves_of_agreeInTime (hc : c.Valid) (h : AgreeInTime s s' c) {t : Trace}
    (ht : Leaves s c t) : Leaves s' c t := by
  obtain ⟨⟨f, hf, rfl⟩, -⟩ := ht
  obtain ⟨f', hf'⟩ := exists_playAll (s := s') hc
  rw [← h.traceOf_eq hc hf hf']
  exact leaves_of_playAll hc hf'

theorem leaves_of_agree (hc : c.Valid) (h : Agree s s' c) {t : Trace} (ht : Leaves s c t) :
    Leaves s' c t :=
  leaves_of_agreeInTime hc (fun j a g _ => h j a g) ht

end Simulation

end Uniprocessor
