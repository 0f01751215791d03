import Uniprocessor.Proofs.Attendance
import Uniprocessor.Proofs.Keeping
/-
  Overtaking at resources whose wait-sets are first come, first served.

  A release wakes the earliest waiter and leaves the resource free.  Until that process is on the
  CPU again, anybody who asks for the resource gets it; and if it is taken when the process comes
  back for it, the process joins the wait-set again, behind all that are there by then.  So the
  resource does not always go to those who asked for it in the order in which they did
  (`grants_out_of_order`).

  What order there is comes from the ready queue with the wait-set behind it (`Machine.line`): a
  release moves the earliest waiter from the one to the other and nobody past anybody, and whoever
  joins the line joins behind those of the wait-set or of the ready queue.  Round robin serves the
  line from its head, so that a process keeps its place until it asks again; under the other
  policies it does while it waits (`line_kept`).  `Delayed` follows those that come later from the
  moment at which a process is blocked: they own the resource, or stand in the line behind it.

  Main statement: `overtaken_only_in_gaps`.
-/

namespace Uniprocessor

/-- `p` asks for `r`, whatever the answer is. -/
def Event.Asks (p : Pid) (r : ResourceId) (e : Event) : Prop :=
  e = .acquired p r ∨ e = .blocked p r

instance (p : Pid) (r : ResourceId) (e : Event) : Decidable (e.Asks p r) :=
  inferInstanceAs (Decidable (_ ∨ _))

/-- An event with `P` is among these, and none with `Q` behind it. -/
def Lately (P Q : Event → Prop) (es : List TraceEvent) : Prop :=
  ∃ pre e post, es = pre ++ e :: post ∧ P e.event ∧ ∀ f ∈ post, ¬ Q f.event

/-- `p` has asked for `r`, for a hold that has not come to its end. -/
def Asked (p : Pid) (r : ResourceId) : List TraceEvent → Prop :=
  Lately (Event.Asks p r) (· = .released p r)

/-- `r` has been given back, and nobody has taken it since. -/
def Gap (r : ResourceId) : List TraceEvent → Prop :=
  Lately (fun e => ∃ p, e = .released p r) fun e => ∃ p, e = .acquired p r

/-- For the hold of `r` that `p` asks for behind `es` and `fs` it has not asked in `es` already. -/
def Latecomer (p : Pid) (r : ResourceId) (es fs : List TraceEvent) : Prop :=
  ¬ (Asked p r es ∧ ∀ e ∈ fs, e.event ≠ .released p r)

/-- After `p` is blocked on `r`, and before it has got it, `q` gets it for a hold for which it has
not asked before. -/
def Overtakes (es : List TraceEvent) (q p : Pid) (r : ResourceId) : Prop :=
  ∃ done t later u rest,
    es = done ++ ⟨t, .blocked p r⟩ :: (later ++ ⟨u, .acquired q r⟩ :: rest) ∧
      (∀ e ∈ later, e.event ≠ .acquired p r) ∧ Latecomer q r (done ++ [⟨t, .blocked p r⟩]) later

/-- The event with which `p` loses the place that it took when it was blocked on `r`: under round
robin it asks again, and under the other policies it is woken. -/
def Policy.Dismisses (π : Policy) (p : Pid) (r : ResourceId) (e : Event) : Prop :=
  match π with
  | .roundRobin => e.Asks p r
  | .fifo | .shortestJob | .shortestRemaining | .priority | .priorityAging => e = .woke p r

/-- The ready queue with those who wait for `r` behind it. -/
def Machine.line (m : Machine) (r : ResourceId) : List Pid :=
  m.ready.pids ++ m.resources.waiters r

namespace Lately

variable {P Q : Event → Prop} {es fs : List TraceEvent} {e : TraceEvent}

theorem append_iff :
    Lately P Q (es ++ fs) ↔ Lately P Q fs ∨ Lately P Q es ∧ ∀ f ∈ fs, ¬ Q f.event := by
  constructor
  · rintro ⟨pre, e, post, heq, he, hpost⟩
    rcases List.append_eq_append_iff.1 heq with ⟨mid, -, hfs⟩ | ⟨mid, hes, hmid⟩
    · exact .inl ⟨mid, e, post, hfs, he, hpost⟩
    · cases mid with
      | nil => exact .inl ⟨[], e, post, hmid.symm, he, hpost⟩
      | cons _ mid =>
        obtain ⟨rfl, rfl⟩ := List.cons.inj hmid
        exact .inr ⟨⟨pre, e, mid, hes, he, fun f hf => hpost f (List.mem_append_left _ hf)⟩,
          fun f hf => hpost f (List.mem_append_right _ hf)⟩
  · rintro (⟨pre, e, post, rfl, he, hpost⟩ | ⟨⟨pre, e, post, rfl, he, hpost⟩, hfs⟩)
    · exact ⟨es ++ pre, e, post, by simp, he, hpost⟩
    · refine ⟨pre, e, post ++ fs, by simp, he, fun f hf => ?_⟩
      rcases List.mem_append.1 hf with hf | hf
      · exact hpost f hf
      · exact hfs f hf

theorem exists_mem (h : Lately P Q es) : ∃ e ∈ es, P e.event := by
  obtain ⟨pre, e, post, rfl, he, -⟩ := h
  exact ⟨e, by simp, he⟩

theorem snoc (he : P e.event) : Lately P Q (es ++ [e]) := ⟨es, e, [], rfl, he, nofun⟩

end Lately

/-- Who has asked for nothing at all comes late. -/
theorem latecomer_of_not_asks {q : Pid} {r : ResourceId} {es : List TraceEvent}
    (h : ∀ e ∈ es, ¬ e.event.Asks q r) (fs : List TraceEvent) : Latecomer q r es fs :=
  fun ⟨hasked, _⟩ =>
    have ⟨e, he, hask⟩ := hasked.exists_mem
    h e he hask

theorem Policy.dismisses_woke {π : Policy} {p : Pid} {r : ResourceId} (hπ : π ≠ .roundRobin) :
    π.Dismisses p r (.woke p r) := by
  cases π <;> first | rfl | exact absurd rfl hπ

theorem Policy.dismisses_asks {π : Policy} {p : Pid} {r : ResourceId} {e : Event}
    (hπ : π = .roundRobin) (he : e.Asks p r) : π.Dismisses p r e := by
  subst hπ
  exact he

namespace Simulation

variable {s : Strategy} {c : Scenario} {a b f : Moment} {l : List Activity} {i j : Journal}
variable {m n : Machine} {p q o w : Pid} {r t : ResourceId} {d : Decision} {u : Nat} {π : Policy}
variable {κ : Protocol} {es done later : List TraceEvent}

/-! ## The line -/

theorem not_running_of_line (hm : m.Filed) (hp : p ∈ m.line r) :
    m.status? p ≠ some .running := by
  rcases List.mem_append.1 hp with hp | hp
  · simp [(hm.mem_ready p).1 hp]
  · simp [(hm.mem_waiters p).1 ⟨r, hp⟩]

theorem line_blocked (ha : κ.Acquires m r p n (.blocked o)) : n.line r = m.line r ++ [p] := by
  rw [Machine.line, Machine.line, ha.ready, ha.waiters_blocked, if_pos rfl, List.append_assoc]

/-- A release wakes the earliest waiter. -/
theorem head_of_woken (hr : (Protocol.mutex .fifo).Releases m r p n (some w)) :
    ∃ post, m.resources.waiters r = w :: post := by
  cases hr with
  | wake _ hbest => exact hbest.head fun _ ⟨_, _, _, _, hxy⟩ => hxy

theorem line_released {o : Option Pid} (hr : (Protocol.mutex .fifo).Releases m t p n o) :
    (m.line r).Sublist (n.line r) := by
  rw [Machine.line, Machine.line, hr.ready]
  cases o with
  | none => simp [hr.waiters_quiet]
  | some w =>
    rw [hr.waiters_wake, Option.toList_some, List.append_assoc]
    refine (List.Sublist.refl _).append ?_
    split
    · next htr =>
      subst htr
      obtain ⟨post, hpost⟩ := head_of_woken hr
      rw [hpost, List.erase_cons_head]
      exact .refl _
    · exact List.sublist_append_right _ _

theorem ready_decides (hd : π.Decides m n d) :
    (∃ tail, n.ready.pids = m.ready.pids ++ tail) ∨
      ∃ v tail, d.next = some v ∧ n.ready.pids = (m.ready.pids ++ tail).erase v ∧
        (π = .roundRobin → ∃ post, m.ready.pids ++ tail = v :: post) := by
  cases hd with
  | keep => exact .inl ⟨[], (List.append_nil _).symm⟩
  | idle hr =>
    obtain ⟨tail, htail⟩ := hr.ready
    exact .inl ⟨tail, by rw [Machine.seat, Policy.ready_ripen, htail]⟩
  | @pick k v x hr hbest =>
    obtain ⟨tail, htail⟩ := hr.ready
    rw [Policy.ready_ripen, htail] at hbest
    refine .inr ⟨v, tail, rfl, ?_, ?_⟩
    · change (π.ripen k).ready.pids.erase v = _
      rw [Policy.ready_ripen, htail]
    · rintro rfl
      exact hbest.head fun _ ⟨_, _, _, _, hxy⟩ => hxy

/-- A decision leaves those who wait in their places; and round robin leaves everybody there but
the one whose turn it is. -/
theorem line_decides {tail : List Pid} (hm : m.Filed) (hd : π.Decides m n d)
    (hp : π = .roundRobin ∨ p ∈ m.resources.waiters r) (h : (p :: tail).Sublist (m.line r)) :
    (p :: tail).Sublist (n.line r) ∨ π = .roundRobin ∧ d.next = some p := by
  have hw : n.resources.waiters r = m.resources.waiters r := by rw [hd.resources]
  rcases hp with hπ | hp
  · rcases ready_decides hd with ⟨k, hk⟩ | ⟨v, k, hv, hk, hhead⟩
    · refine .inl (h.trans ?_)
      rw [Machine.line, Machine.line, hk, hw]
      exact (List.sublist_append_left _ _).append (.refl _)
    · obtain ⟨post, hpost⟩ := hhead hπ
      have h : (p :: tail).Sublist (v :: (post ++ m.resources.waiters r)) := by
        refine h.trans ?_
        rw [Machine.line, ← List.cons_append, ← hpost]
        exact (List.sublist_append_left _ _).append (.refl _)
      rcases List.sublist_cons_iff.1 h with h | ⟨_, hcons, -⟩
      · rw [hpost, List.erase_cons_head] at hk
        rw [Machine.line, hk, hw]
        exact .inl h
      · rw [(List.cons.inj hcons).1]
        exact .inr ⟨hπ, hv⟩
  · -- nobody who is ready stands behind one who waits
    have hready : p ∉ m.ready.pids := by
      rw [hm.mem_ready, (hm.mem_waiters p).1 ⟨r, hp⟩]
      simp
    obtain ⟨front, back, hsplit, hfront, hback⟩ := List.sublist_append_iff.1 h
    cases front with
    | cons v front =>
      rw [(List.cons.inj hsplit).1] at hready
      exact absurd (hfront.subset List.mem_cons_self) hready
    | nil =>
      rw [hsplit, List.nil_append, Machine.line, hw]
      exact .inl (hback.trans (List.sublist_append_right _ _))

/-- Those in the line behind `p` stay there until it is put on the CPU. -/
theorem line_kept {tail : List Pid} (hκ : s.protocol = .mutex .fifo) (hreg : a.Regular c)
    (hm : Move s a l b) (hp : s.policy = .roundRobin ∨ p ∈ a.machine.resources.waiters r)
    (h : (p :: tail).Sublist (a.machine.line r)) :
    (p :: tail).Sublist (b.machine.line r) ∨
      s.policy = .roundRobin ∧ ∃ o d, .decided o d ∈ l ∧ d.next = some p := by
  have decided : ∀ {n d o}, s.schedule a.machine = .ok (n, d) → .decided o d ∈ l →
      (p :: tail).Sublist (n.line r) ∨
        s.policy = .roundRobin ∧ ∃ o d, .decided o d ∈ l ∧ d.next = some p := by
    intro n d o hn hl
    exact (line_decides hreg.filed (Policy.schedule_decides hn) hp h).imp_right fun ⟨hπ, hnext⟩ =>
      ⟨hπ, o, d, hl, hnext⟩
  cases hm with
  | arrive _ hn =>
    obtain ⟨-, -, rfl⟩ := Machine.fork_eq_ok.1 hn
    exact .inl (h.trans ((List.sublist_append_left _ _).append (.refl _)))
  | begin | remain | exit => exact .inl h
  | idle hn => exact decided hn (List.mem_singleton_self _)
  | dispatch hn => exact decided hn (List.mem_singleton_self _)
  | grant hn =>
    have ha := hreg.phase.2.acquires hn
    rw [Machine.line, ha.ready, ha.waiters_granted]
    exact .inl h
  | block hn =>
    have ha := hreg.phase.2.acquires hn
    refine .inl (h.trans ?_)
    rw [Machine.line, Machine.line, ha.ready, ha.waiters_blocked]
    refine (List.Sublist.refl _).append ?_
    split
    · exact List.sublist_append_left _ _
    · exact .refl _
  | run hn =>
    obtain ⟨_, -, -, -, rfl⟩ := Machine.grow_eq_ok.1 hn
    exact .inl h
  | release hn => exact .inl (h.trans (line_released (hκ ▸ hreg.phase.releases hn)))
  | close _ hn =>
    obtain ⟨-, rfl⟩ := Machine.advance_eq_ok.1 hn
    exact .inl h

/-- A process waits until it is woken. -/
theorem waits_kept (hreg : a.Regular c) (hm : Move s a l b)
    (hp : p ∈ a.machine.resources.waiters r) (hl : .woke p r ∉ eventsOf l) :
    p ∈ b.machine.resources.waiters r := by
  cases hm with
  | arrive _ hn =>
    obtain ⟨-, -, rfl⟩ := Machine.fork_eq_ok.1 hn
    exact hp
  | begin | remain | exit => exact hp
  | idle hn | dispatch hn =>
    dsimp only
    rwa [(Policy.schedule_decides hn).resources]
  | grant hn =>
    dsimp only
    rwa [(hreg.phase.2.acquires hn).waiters_granted]
  | block hn =>
    dsimp only
    rw [(hreg.phase.2.acquires hn).waiters_blocked]
    split
    · exact List.mem_append_left _ hp
    · exact hp
  | run hn =>
    obtain ⟨_, -, -, -, rfl⟩ := Machine.grow_eq_ok.1 hn
    exact hp
  | @release _ _ _ _ t o _ _ hn =>
    have hr := hreg.phase.releases hn
    dsimp only
    cases o with
    | none => rwa [hr.waiters_quiet]
    | some w =>
      rw [hr.waiters_wake]
      split
      · next htr =>
        refine (List.mem_erase_of_ne ?_).2 hp
        rintro rfl
        rw [events_release hreg.filed hn] at hl
        simp [htr] at hl
      · exact hp
  | close _ hn =>
    obtain ⟨-, rfl⟩ := Machine.advance_eq_ok.1 hn
    exact hp

/-! ## What has been asked for -/

/-- Where a resource has no owner it has been given back and not been taken. -/
theorem gap_move (hreg : a.Regular c) (hm : Move s a l b)
    (h : a.machine.resources.owner? r ≠ none ∨ Gap r es) :
    b.machine.resources.owner? r ≠ none ∨ Gap r (es ++ within u (eventsOf l)) := by
  rcases owner_move hreg hm r with ⟨hes, ho⟩ | ⟨-, -, ho⟩ | @⟨o, w, hes, -, -⟩
  · rw [ho]
    refine h.imp_right fun hgap => Lately.append_iff.2 (.inr ⟨hgap, ?_⟩)
    rintro e he ⟨o, heq⟩
    exact (hes _ (mem_within.1 he).2 o).1 heq
  · exact .inl (by simp [ho])
  · refine .inr (Lately.append_iff.2 (.inl ⟨[], ⟨u, .released o r⟩,
      within u (w.map fun v => Event.woke v r).toList, by rw [hes]; rfl, ⟨o, rfl⟩, ?_⟩))
    rintro e he ⟨v, heq⟩
    cases w with
    | none => cases he
    | some w =>
      rw [List.mem_singleton.1 he] at heq
      cases heq

theorem asked_move (h : Asked q r (es ++ within u (eventsOf l))) :
    (∃ k, .acquired q r k ∈ l) ∨ (∃ o i k, .blocked q r o i k ∈ l) ∨
      Asked q r es ∧ .released q r ∉ l := by
  rcases Lately.append_iff.1 h with hnew | ⟨hold, hgive⟩
  · obtain ⟨e, he, hask | hask⟩ := hnew.exists_mem
    · exact .inl (acquired_mem_eventsOf.1 (hask ▸ (mem_within.1 he).2))
    · obtain ⟨x, hx, hxe⟩ := mem_eventsOf.1 (hask ▸ (mem_within.1 he).2)
      obtain ⟨o, i, k, rfl⟩ := Activity.event?_eq_blocked.1 hxe
      exact .inr (.inl ⟨o, i, k, hx⟩)
  · refine .inr (.inr ⟨hold, fun hl => ?_⟩)
    exact hgive ⟨u, .released q r⟩ (mem_within.2 ⟨rfl, released_mem_eventsOf.2 hl⟩) rfl

/-! ## Those who come later -/

/-- `p` is on the CPU and is to ask for `r`, which round robin has let it come to. -/
def AtTurn (s : Strategy) (p : Pid) (r : ResourceId) (a : Moment) : Prop :=
  s.policy = .roundRobin ∧ ∃ d due, a.phase = .requesting d p (r :: due)

/-- `p` wants `r` and has a place in the line. -/
structure InLine (s : Strategy) (p : Pid) (r : ResourceId) (a : Moment) : Prop where
  wants : a.machine.Wants p r
  mem : p ∈ a.machine.line r
  safe : s.policy = .roundRobin ∨ p ∈ a.machine.resources.waiters r

/-- Since `p` was blocked on `r`, whoever has asked for it for the first time owns it or stands in
the line behind `p`. -/
structure Delayed (s : Strategy) (p : Pid) (r : ResourceId) (done later : List TraceEvent)
    (a : Moment) : Prop where
  kept : ∀ e ∈ later, e.event ≠ .released p r
  gap : a.machine.resources.owner? r ≠ none ∨ Gap r later
  place : AtTurn s p r a ∨ InLine s p r a ∧ ∀ q, Asked q r (done ++ later) →
    Latecomer q r done later → a.machine.resources.owner? r = some q ∨
      [p, q].Sublist (a.machine.line r)

theorem AtTurn.asks (h : AtTurn s p r a) (hm : Move s a l b) : ∃ e ∈ eventsOf l, e.Asks p r := by
  obtain ⟨-, d, due, hphase⟩ := h
  cases hm with
  | grant =>
    cases hphase
    exact ⟨_, List.mem_singleton_self _, .inl rfl⟩
  | block =>
    cases hphase
    exact ⟨_, List.mem_singleton_self _, .inr rfl⟩
  | arrive | begin | idle | dispatch | run | release | remain | exit | close => cases hphase

theorem InLine.move (hκ : s.protocol = .mutex .fifo) (hreg : a.Regular c) (hm : Move s a l b)
    (h : InLine s p r a) (hl : ∀ e ∈ eventsOf l, ¬ s.policy.Dismisses p r e)
    (hpick : ¬ (s.policy = .roundRobin ∧ ∃ o d, .decided o d ∈ l ∧ d.next = some p)) :
    InLine s p r b where
  wants := wants_apart hreg hm (not_running_of_line hreg.filed h.mem) h.wants
  mem := List.singleton_sublist.1 <|
    (line_kept hκ hreg hm h.safe (List.singleton_sublist.2 h.mem)).resolve_right hpick
  safe := by
    by_cases hπ : s.policy = .roundRobin
    · exact .inl hπ
    · refine .inr (waits_kept hreg hm (h.safe.resolve_left hπ) fun hw => ?_)
      exact hl _ hw (Policy.dismisses_woke hπ)

theorem Delayed.move (hκ : s.protocol = .mutex .fifo) (hreg : a.Regular c) (hm : Move s a l b)
    (h : Delayed s p r done later a) (hl : ∀ e ∈ eventsOf l, ¬ s.policy.Dismisses p r e) :
    Delayed s p r done (later ++ within u (eventsOf l)) b := by
  rcases h.place with hturn | ⟨hline, hbehind⟩
  · obtain ⟨e, he, hask⟩ := hturn.asks hm
    exact absurd (Policy.dismisses_asks hturn.1 hask) (hl e he)
  have hidle := not_running_of_line hreg.filed hline.mem
  refine ⟨fun e he hgive => ?_, gap_move hreg hm h.gap, ?_⟩
  · rcases List.mem_append.1 he with he | he
    · exact h.kept e he hgive
    · have hmem := released_mem_eventsOf.1 (hgive ▸ (mem_within.1 he).2)
      obtain ⟨-, due, hphase⟩ := hm.of_released hmem
      exact hidle (hreg.returns hphase).2.running
  by_cases hpick : s.policy = .roundRobin ∧ ∃ o d, .decided o d ∈ l ∧ d.next = some p
  · obtain ⟨hπ, o, d, hmem, hnext⟩ := hpick
    exact .inl ⟨hπ, d, wants_requested hm hmem hnext hline.wants⟩
  refine .inr ⟨hline.move hκ hreg hm hl hpick, fun q hasked hlate => ?_⟩
  rw [← List.append_assoc] at hasked
  rcases asked_move hasked with ⟨k, hgain⟩ | ⟨o, i, k, hblock⟩ | ⟨hold, hgive⟩
  · exact .inl (owner_of_gained hreg hm hgain)
  · -- who is blocked joins the line at its end
    obtain ⟨-, d, due, hphase, hn⟩ := hm.of_blocked hblock
    rw [line_blocked ((hreg.requests hphase).2.acquires hn)]
    exact .inr ((List.singleton_sublist.2 hline.mem).append (.refl [q]))
  · have hlate : Latecomer q r done later := by
      rintro ⟨hdone, hlater⟩
      refine hlate ⟨hdone, fun e he heq => ?_⟩
      rcases List.mem_append.1 he with he | he
      · exact hlater e he heq
      · exact hgive (released_mem_eventsOf.1 (heq ▸ (mem_within.1 he).2))
    rcases hbehind q hold hlate with ho | hsub
    · refine .inl ((owns_move hreg hm (fun k hgain => ?_) hgive).2 ho)
      rw [free_of_gained hreg hm hgain] at ho
      cases ho
    · exact .inr ((line_kept hκ hreg hm hline.safe hsub).resolve_right hpick)

/-- Who is blocked has a place at the end of the line. -/
theorem delayed_blocked {k : Nat} {x : Nat} (hreg : a.Regular c) (hwaits : Waits b.machine)
    (hm : Move s a l b) (hl : .blocked p r o k x ∈ l) :
    Delayed s p r (done ++ [⟨u, .blocked p r⟩]) [] b := by
  obtain ⟨-, d, due, hphase, hn⟩ := hm.of_blocked hl
  have ha := (hreg.requests hphase).2.acquires hn
  have hmem : p ∈ b.machine.resources.waiters r := by
    rw [ha.waiters_blocked, if_pos rfl]
    exact List.mem_append_right _ (List.mem_singleton_self _)
  refine ⟨nofun, .inl ?_, .inr ⟨⟨hwaits r p hmem, List.mem_append_right _ hmem, .inr hmem⟩, ?_⟩⟩
  · rw [ha.owner?_blocked, ha.blocker.1]
    simp
  · intro q hasked hlate
    rw [List.append_nil] at hasked
    exact absurd ⟨hasked, nofun⟩ hlate

theorem Path.delayed (hκ : s.protocol = .mutex .fifo) (hc : c.Valid) (hb : b.Regular c)
    (h : Delayed s p r done [] b) (g : Path s b j f)
    (hj : ∀ e ∈ j.events, ¬ s.policy.Dismisses p r e.event) : Delayed s p r done j.events f := by
  induction g with
  | refl => exact h
  | snoc g hm ih =>
    rw [events_snoc] at hj ⊢
    refine (ih fun e he => hj e (List.mem_append_left _ he)).move hκ (hb.path hc g) hm ?_
    exact fun e he => hj ⟨_, e⟩ (List.mem_append_right _ (mem_within.2 ⟨rfl, he⟩))

/-- What a latecomer gets, it gets as soon as it asks for it, and while nobody has the resource. -/
theorem Delayed.gained {k : Nat} (h : Delayed s p r (done ++ [⟨u, .blocked p r⟩]) later a)
    (hreg : a.Regular c) (hm : Move s a l b) (hl : .acquired q r k ∈ l)
    (hlate : Latecomer q r (done ++ [⟨u, .blocked p r⟩]) later) :
    ¬ Asked q r (done ++ [⟨u, .blocked p r⟩] ++ later) ∧ Gap r later := by
  have hfree := free_of_gained hreg hm hl
  refine ⟨fun hasked => ?_, h.gap.resolve_left fun hne => hne hfree⟩
  obtain ⟨-, d, due, hphase, -⟩ := hm.of_acquired hl
  rcases h.place with ⟨-, d', due', hturn⟩ | ⟨-, hbehind⟩
  · -- `p` itself is no latecomer
    rw [hphase] at hturn
    obtain ⟨-, rfl, -⟩ := Phase.requesting.inj hturn
    exact hlate ⟨Lately.snoc (.inr rfl), h.kept⟩
  · rcases hbehind q hasked hlate with ho | hsub
    · rw [hfree] at ho
      cases ho
    · exact not_running_of_line hreg.filed (hsub.subset (by simp)) (hreg.requests hphase).2.running

end Simulation

open Simulation

variable {c : Scenario} {s : Strategy}

/-- Where a resource goes to the one who has waited for it the longest, nobody is overtaken under
the policies that leave the CPU to a process until it is done.  Under the others a latecomer gets
the resource before a process that has been blocked, and has kept its place since, only with its
first request, which comes after a release and before anybody else has taken the resource. -/
theorem overtaken_only_in_gaps {run : Run} (hc : c.Valid) (hκ : s.protocol = .mutex .fifo)
    (hrun : simulate s c = .ok run) :
    (s = .fifo ∨ s = .shortestJob → ∀ p q r, ¬ Overtakes run.trace.events q p r) ∧
      ∀ done t p r later u q rest,
        run.trace.events = done ++ ⟨t, .blocked p r⟩ :: (later ++ ⟨u, .acquired q r⟩ :: rest) →
        (∀ e ∈ later, ¬ s.policy.Dismisses p r e.event) →
        Latecomer q r (done ++ [⟨t, .blocked p r⟩]) later →
        ¬ Asked q r (done ++ [⟨t, .blocked p r⟩] ++ later) ∧ Gap r later := by
  obtain ⟨j, b, g, hevents, -⟩ := path_of_simulate hc hrun
  rw [hevents]
  constructor
  · rintro hs p q r ⟨done, t, later, u, rest, hj, -⟩
    have hkeep : s.policy.retirement = .keep := by
      rcases hs with rfl | rfl
      · rfl
      · rfl
    exact (g.uncontended hkeep hc (t := t) (p := p) (r := r)).1 (by rw [hj]; simp)
  · intro done t p r later u q rest hj hlater hlate
    obtain ⟨a, f, i, o, k, n, tail, -, htail, ha, -, hm, hf⟩ := g.split_blocked hj
    obtain ⟨d, e, mid, x, last, rfl, -, hd, -, hgain, -⟩ := hf.split_acquired htail.symm
    have hto := ha.snoc hm
    have hjoined : Delayed s p r (done ++ [⟨t, .blocked p r⟩]) [] f :=
      delayed_blocked (ha.regular hc) (hto.waits hc) hm (List.mem_singleton_self _)
    have hdelayed := hd.delayed hκ hc (hto.regular hc) hjoined hlater
    exact hdelayed.gained ((hto.trans hd).regular hc) hgain (List.mem_singleton_self _) hlate

/-- The third process comes to the resource for the first time just when it has been released, and
the second, which was woken, has to wait again, behind the fourth. -/
def Scenario.overtaken : Scenario where
  jobs := [
    { pid := ⟨1⟩, name := "first", start := 0, lifespan := 3, priority := 1,
      holds := [{ resource := ⟨0⟩, since := 0, duration := 2 }] },
    { pid := ⟨2⟩, name := "second", start := 0, lifespan := 2, priority := 1,
      holds := [{ resource := ⟨0⟩, since := 0, duration := 1 }] },
    { pid := ⟨3⟩, name := "third", start := 0, lifespan := 4, priority := 1,
      holds := [{ resource := ⟨0⟩, since := 1, duration := 2 }] },
    { pid := ⟨4⟩, name := "fourth", start := 0, lifespan := 2, priority := 1,
      holds := [{ resource := ⟨0⟩, since := 0, duration := 1 }] }]
  resourceCount := 1
  limits := .standard
  maxTicks := 40
  audit := true

theorem overtaken_only_in_gaps_overtaken :
    ∃ run done t later u rest, simulate .roundRobin .overtaken = .ok run ∧
      run.trace.events =
        done ++ ⟨t, .blocked ⟨2⟩ ⟨0⟩⟩ :: (later ++ ⟨u, .acquired ⟨3⟩ ⟨0⟩⟩ :: rest) ∧
      (∀ e ∈ later, ¬ e.event.Asks ⟨2⟩ ⟨0⟩) ∧
      Latecomer ⟨3⟩ ⟨0⟩ (done ++ [⟨t, .blocked ⟨2⟩ ⟨0⟩⟩]) later ∧
      ¬ Asked ⟨3⟩ ⟨0⟩ (done ++ [⟨t, .blocked ⟨2⟩ ⟨0⟩⟩] ++ later) ∧ Gap ⟨0⟩ later := by
  have hsim : (simulate .roundRobin .overtaken).toOption.any (fun run =>
      decide (run.trace.events = run.trace.events.take 8 ++ ⟨1, .blocked ⟨2⟩ ⟨0⟩⟩ ::
          ((run.trace.events.drop 9).take 9 ++ ⟨3, .acquired ⟨3⟩ ⟨0⟩⟩ ::
            run.trace.events.drop 19) ∧
        (∀ e ∈ (run.trace.events.drop 9).take 9, ¬ e.event.Asks ⟨2⟩ ⟨0⟩) ∧
        ∀ e ∈ run.trace.events.take 8 ++ [⟨1, .blocked ⟨2⟩ ⟨0⟩⟩],
          ¬ e.event.Asks ⟨3⟩ ⟨0⟩)) = true := by
    decide
  obtain ⟨run, hrun, hsplit⟩ := Option.any_eq_true _ _ |>.1 hsim
  obtain ⟨hevents, hlater, hfirst⟩ := of_decide_eq_true hsplit
  have hrun := toOption_eq_some.1 hrun
  have hlate := latecomer_of_not_asks hfirst ((run.trace.events.drop 9).take 9)
  obtain ⟨-, hgap⟩ := overtaken_only_in_gaps (c := .overtaken) (by decide) rfl hrun
  exact ⟨run, _, 1, _, 3, _, hrun, hevents, hlater, hlate,
    hgap _ 1 ⟨2⟩ ⟨0⟩ _ 3 ⟨3⟩ _ hevents hlater hlate⟩

/-- `Overtakes` where `p` is blocked behind `i` events, at `t`, and `q` gets `r` behind `k` more, at
`u`, of which it has not asked before. -/
def OvertakesAt (es : List TraceEvent) (q p : Pid) (r : ResourceId) (t u i k : Nat) : Prop :=
  es = es.take i ++ ⟨t, .blocked p r⟩ ::
      ((es.drop (i + 1)).take k ++ ⟨u, .acquired q r⟩ :: es.drop (i + k + 2)) ∧
    (∀ e ∈ (es.drop (i + 1)).take k, e.event ≠ .acquired p r) ∧
    ∀ e ∈ es.take i ++ [⟨t, .blocked p r⟩], ¬ e.event.Asks q r

instance (es : List TraceEvent) (q p : Pid) (r : ResourceId) (t u i k : Nat) :
    Decidable (OvertakesAt es q p r t u i k) :=
  inferInstanceAs (Decidable (_ ∧ _ ∧ _))

theorem OvertakesAt.overtakes {es : List TraceEvent} {q p : Pid} {r : ResourceId} {t u i k : Nat}
    (h : OvertakesAt es q p r t u i k) : Overtakes es q p r :=
  ⟨_, t, _, u, _, h.1, h.2.1, latecomer_of_not_asks h.2.2 _⟩

/-- The third process is woken while the second, which was woken before, is ready, and has less
left to do. -/
def Scenario.outpaced : Scenario where
  jobs := [
    { pid := ⟨1⟩, name := "first", start := 0, lifespan := 6, priority := 1,
      holds := [{ resource := ⟨0⟩, since := 0, duration := 3 }] },
    { pid := ⟨2⟩, name := "second", start := 1, lifespan := 4, priority := 1,
      holds := [{ resource := ⟨0⟩, since := 0, duration := 1 }] },
    { pid := ⟨3⟩, name := "third", start := 2, lifespan := 1, priority := 1,
      holds := [{ resource := ⟨0⟩, since := 0, duration := 1 }] },
    { pid := ⟨4⟩, name := "fourth", start := 3, lifespan := 1, priority := 1,
      holds := [{ resource := ⟨0⟩, since := 0, duration := 1 }] }]
  resourceCount := 1
  limits := .standard
  maxTicks := 40
  audit := true

/-- A resource does not go to its requesters in the order of their requests: a latecomer gets it
with its first request, or is woken later and gets it all the same. -/
theorem grants_out_of_order :
    Scenario.overtaken.Valid ∧ Scenario.outpaced.Valid ∧
      (∃ run, simulate .roundRobin .overtaken = .ok run ∧
        Overtakes run.trace.events ⟨3⟩ ⟨2⟩ ⟨0⟩ ∧ Overtakes run.trace.events ⟨4⟩ ⟨2⟩ ⟨0⟩) ∧
      ∃ run, simulate .shortestRemaining .outpaced = .ok run ∧
        Overtakes run.trace.events ⟨3⟩ ⟨2⟩ ⟨0⟩ := by
  have hturns : (simulate .roundRobin .overtaken).toOption.any (fun run =>
      decide (OvertakesAt run.trace.events ⟨3⟩ ⟨2⟩ ⟨0⟩ 1 3 8 9 ∧
        OvertakesAt run.trace.events ⟨4⟩ ⟨2⟩ ⟨0⟩ 1 6 8 21)) = true := by
    decide
  have hleast : (simulate .shortestRemaining .outpaced).toOption.any (fun run =>
      decide (OvertakesAt run.trace.events ⟨3⟩ ⟨2⟩ ⟨0⟩ 1 4 6 17)) = true := by
    decide
  obtain ⟨run, hrun, hthird⟩ := Option.any_eq_true _ _ |>.1 hturns
  obtain ⟨hthird, hfourth⟩ := of_decide_eq_true hthird
  obtain ⟨run', hrun', hthird'⟩ := Option.any_eq_true _ _ |>.1 hleast
  exact ⟨by decide, by decide,
    ⟨run, toOption_eq_some.1 hrun, hthird.overtakes, hfourth.overtakes⟩,
    run', toOption_eq_some.1 hrun', (of_decide_eq_true hthird').overtakes⟩

end Uniprocessor
