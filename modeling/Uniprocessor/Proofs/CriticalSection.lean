import Uniprocessor.Proofs.Ceiling
import Uniprocessor.Proofs.Inversion
import Uniprocessor.Proofs.Lifespan
/-
  Critical sections under the ceiling protocol.

  The scenario is unnested and all base priorities lie below the maximum.  Then whoever owns
  something has the maximum priority and nobody else has it, so that the owner wins every decision
  until it gives the resource back.  `Moment.Guarded` is the invariant, `Guarded.move` the step and
  `Path.guarded` the run.  `Path.section` follows one critical section from its grant on.

  Proved: `critical_sections_undisturbed`.
-/

namespace Uniprocessor

namespace Simulation

variable {c : Scenario} {a b : Moment} {l : List Activity} {j : Journal} {m n : Machine}
variable {p q : Pid} {r t : ResourceId} {due : List ResourceId} {s : Strategy}

/-! ## What requests and decisions find -/

/-- Where nobody waits an owner could use the CPU. -/
theorem active_of_owner (hm : m.Filed) (hw : ∀ t, m.resources.waiters t = [])
    (ho : m.resources.owner? r = some q) : m.Active q := by
  refine (alive_of_owner hm ho).active_or_waiting.resolve_right fun hst => ?_
  obtain ⟨t, ht⟩ := (hm.mem_waiters q).2 hst
  rw [hw] at ht
  cases ht

/-! ## What a move does to owners -/

theorem owner_old_or_gained (hreg : a.Regular c) (hm : Move s a l b)
    (ho : b.machine.resources.owner? r = some p) :
    a.machine.resources.owner? r = some p ∨ ∃ k, .acquired p r k ∈ l := by
  rcases owner_move hreg hm r with ⟨-, heq⟩ | ⟨hes, -, hob⟩ | ⟨-, -, hob⟩
  · rw [heq] at ho
    exact .inl ho
  · rw [ho] at hob
    rw [← Option.some.inj hob] at hes
    exact .inr (acquired_mem_eventsOf.1 (hes ▸ List.mem_singleton_self _))
  · rw [ho] at hob
    cases hob

/-- Only a request that fails makes a process wait. -/
theorem waiters_move (hreg : a.Regular c) (hm : Move s a l b)
    (hl : ∀ o i k, .blocked q r o i k ∉ l) (hw : q ∈ b.machine.resources.waiters r) :
    q ∈ a.machine.resources.waiters r := by
  cases hm with
  | arrive _ hn =>
    obtain ⟨-, -, rfl⟩ := Machine.fork_eq_ok.1 hn
    exact hw
  | begin | remain | exit => exact hw
  | idle hn =>
    dsimp only at hw
    rwa [(Policy.schedule_decides hn).resources] at hw
  | dispatch hn =>
    dsimp only at hw
    rwa [(Policy.schedule_decides hn).resources] at hw
  | grant hn =>
    dsimp only at hw
    rwa [(hreg.phase.2.acquires hn).waiters_granted] at hw
  | block hn =>
    refine ((hreg.phase.2.acquires hn).mem_waiters_blocked hw).resolve_right ?_
    rintro ⟨rfl, rfl⟩
    exact hl _ _ _ (List.mem_singleton_self _)
  | run hn =>
    obtain ⟨_, -, -, -, rfl⟩ := Machine.grow_eq_ok.1 hn
    exact hw
  | release hn => exact (hreg.phase.releases hn).mem_waiters hw
  | close _ hn =>
    obtain ⟨-, rfl⟩ := Machine.advance_eq_ok.1 hn
    exact hw

/-! ## Guarded moments -/

/-- What a phase says of the owners of resources. -/
def Phase.Sole (m : Machine) : Phase → Prop
  | .requesting _ p _ | .releasing p _ => ∀ r q, m.resources.owner? r = some q → q = p
  | .closing false => ∀ r q, m.resources.owner? r ≠ some q
  | .arriving | .deciding | .closing true => True

/-- One process owns resources at the most, it has the maximum priority, and nobody waits. -/
structure Moment.Guarded (c : Scenario) (a : Moment) : Prop where
  regular : a.Regular c
  quiet : ∀ r, a.machine.resources.waiters r = []
  free : ∀ p x, a.machine.process? p = some x → (∀ r, a.machine.resources.owner? r ≠ some p) →
    x.priority = x.basePriority
  boosted : ∀ r p x, a.machine.resources.owner? r = some p → a.machine.process? p = some x →
    x.priority = c.limits.maxPriority
  alone : ∀ r t p q, a.machine.resources.owner? r = some p →
    a.machine.resources.owner? t = some q → p = q
  sole : a.phase.Sole a.machine

namespace Moment.Guarded

/-- No request meets a busy resource. -/
theorem not_blocked (h : a.Guarded c) (hm : Move s a l b) {o : Pid} {i k : Nat} :
    .blocked p r o i k ∉ l := by
  intro hl
  obtain ⟨-, d, due, hphase, hn⟩ := hm.of_blocked hl
  have hsole := h.sole
  rw [hphase] at hsole
  obtain ⟨ho, hne⟩ := ((h.regular.requests hphase).2.acquires hn).blocker
  exact hne (hsole r o ho)

/-- An owner wins every decision. -/
theorem sole_dispatch (hlow : ∀ j ∈ c.jobs, j.priority < c.limits.maxPriority)
    (h : a.Guarded c) (ha : a.phase = .deciding) {d : Decision}
    (hd : Policy.priority.Decides a.machine n d) (hnext : d.next = some p)
    (ho : n.resources.owner? r = some q) : q = p := by
  have hscripted := h.regular.scripted
  rw [ha] at hscripted
  have hfiled := h.regular.filed.decides hscripted.unfinished_running hd
  have hquiet : ∀ t, n.resources.waiters t = [] := fun t => by rw [hd.resources, h.quiet]
  have htop : (Phase.requesting d p []).Topmost n :=
    topmost_decides h.regular.filed hscripted.unfinished_running hd hnext
  obtain ⟨_, -, -, htop⟩ := htop
  have hle := htop q (active_of_owner hfiled hquiet ho)
  rw [priorityOf_decides hd, priorityOf_decides hd] at hle
  rw [hd.resources] at ho
  obtain ⟨y, hy⟩ := Machine.status?_ne_none.1 (h.regular.filed.owner_alive r q ho).1
  obtain ⟨z, hz⟩ := Machine.exists_record (Machine.running_of_decides hd hnext).2
  obtain ⟨x, hx, -⟩ := (Machine.follows_decides hd).of hz
  rw [priorityOf_of hy, priorityOf_of hx, h.boosted r q y ho hy] at hle
  -- what is picked is as urgent as the owner, which nobody but an owner is
  by_cases hp : ∃ t, a.machine.resources.owner? t = some p
  · obtain ⟨t, ht⟩ := hp
    exact h.alone r t q p ho ht
  · have hbase := h.free p x hx fun t ht => hp ⟨t, ht⟩
    obtain ⟨j, hj, -, -, hprio, -⟩ := (hscripted.plays p x hx).job
    have hlt := hlow j hj
    omega

theorem alone_move (h : a.Guarded c) (hm : Move s a l b) (r t : ResourceId) (p q : Pid)
    (hr : b.machine.resources.owner? r = some p) (ht : b.machine.resources.owner? t = some q) :
    p = q := by
  have asking : ∀ {u v k}, .acquired u v k ∈ l →
      (∃ d due, a.phase = .requesting d u due) ∧
        ∀ w z, a.machine.resources.owner? w = some z → z = u := by
    intro u v k hl
    obtain ⟨-, d, due, hphase, -⟩ := hm.of_acquired hl
    have hsole := h.sole
    rw [hphase] at hsole
    exact ⟨⟨d, _, hphase⟩, hsole⟩
  rcases owner_old_or_gained h.regular hm hr with hp | ⟨i, hp⟩ <;>
    rcases owner_old_or_gained h.regular hm ht with hq | ⟨k, hq⟩
  · exact h.alone r t p q hp hq
  · exact (asking hq).2 r p hp
  · exact ((asking hp).2 t q hq).symm
  · obtain ⟨d, due, hphase⟩ := (asking hp).1
    obtain ⟨e, due', hphase'⟩ := (asking hq).1
    rw [hphase] at hphase'
    exact (Phase.requesting.inj hphase').2.1

theorem sole_move (hc : c.Valid) (hlow : ∀ j ∈ c.jobs, j.priority < c.limits.maxPriority)
    (h : a.Guarded c) (hm : Move .priorityCeiling a l b) : b.phase.Sole b.machine := by
  have hreg := h.regular
  have hmove := hreg.move hc hm
  have howner := fun {r p} => owner_old_or_gained (r := r) (p := p) hreg hm
  cases hm with
  | arrive | begin | block | remain | exit | close => trivial
  | @idle m n _ _ _ hn hnext =>
    intro r q ho
    have hd := Policy.schedule_decides hn
    have hquiet : ∀ t, n.resources.waiters t = [] := fun t => by
      rw [hd.resources]
      exact h.quiet t
    exact Machine.not_active_of_idle hmove.filed hd hnext (active_of_owner hmove.filed hquiet ho)
  | dispatch hn hnext =>
    intro r q ho
    exact h.sole_dispatch hlow rfl (Policy.schedule_decides hn) hnext ho
  | grant hn =>
    intro r q ho
    rcases howner ho with ho | ⟨k, hl⟩
    · exact h.sole r q ho
    · cases List.mem_singleton.1 hl
      rfl
  | run hn =>
    intro r q ho
    obtain ⟨_, -, -, -, rfl⟩ := Machine.grow_eq_ok.1 hn
    exact h.sole r q ho
  | release hn =>
    intro r q ho
    refine h.sole r q ((howner ho).resolve_right ?_)
    rintro ⟨k, hl⟩
    simp [releaseEntries] at hl

theorem priority_move (hc : c.Valid) (hu : c.Unnested) (h : a.Guarded c)
    (hm : Move .priorityCeiling a l b) {y : ProcessRecord}
    (hy : b.machine.process? p = some y) :
    ((∀ r, b.machine.resources.owner? r ≠ some p) → y.priority = y.basePriority) ∧
      ∀ r, b.machine.resources.owner? r = some p → y.priority = c.limits.maxPriority := by
  have hreg := h.regular
  rcases ceiling_move hreg hm hy with ⟨hnew, hl, hp⟩ | ⟨x, hx, hbase, hstep⟩
  · refine ⟨fun _ => hp, fun r ho => ?_⟩
    rw [owns_quiet hreg hm hl] at ho
    exact absurd (by rw [Machine.status?, hnew]; rfl) (hreg.filed.owner_alive r p ho).1
  · rcases hstep with ⟨hl, hp⟩ | ⟨⟨e, he, t, k, rfl⟩, -, hp⟩ | ⟨⟨e, he, t, rfl⟩, hl, hp⟩
    · rw [hp, hbase]
      refine ⟨fun hfree => h.free p x hx fun r => ?_, fun r ho => h.boosted r p x ?_ hx⟩
      · rw [ne_eq, ← owns_quiet hreg hm hl]
        exact hfree r
      · rwa [owns_quiet hreg hm hl] at ho
    · exact ⟨fun hfree => absurd (owner_of_gained hreg hm he) (hfree t), fun _ _ => hp⟩
    · refine ⟨fun _ => hp, fun r ho => ?_⟩
      -- what is given up was all that the process owned
      exfalso
      rcases owner_old_or_gained hreg hm ho with hold | ⟨k, hgain⟩
      · obtain ⟨-, due, hphase⟩ := hm.of_released he
        obtain ⟨hscripted, hret⟩ := hreg.returns hphase
        rw [← eq_of_returns hc.sound hu hscripted hret hold, owner_of_given hreg hm he] at ho
        cases ho
      · exact hl _ hgain ⟨r, k, rfl⟩

theorem move (hc : c.Valid) (hu : c.Unnested)
    (hlow : ∀ j ∈ c.jobs, j.priority < c.limits.maxPriority) (h : a.Guarded c)
    (hm : Move .priorityCeiling a l b) : b.Guarded c where
  regular := h.regular.move hc hm
  quiet r := by
    refine List.eq_nil_iff_forall_not_mem.2 fun q hq => ?_
    have hold := waiters_move h.regular hm (fun _ _ _ => h.not_blocked hm) hq
    rw [h.quiet] at hold
    cases hold
  free p y hy hfree := (h.priority_move hc hu hm hy).1 hfree
  boosted r p y ho hy := (h.priority_move hc hu hm hy).2 r ho
  alone := h.alone_move hm
  sole := h.sole_move hc hlow hm

theorem opening (hc : c.Valid) : (opening c).moment.Guarded c where
  regular := regular_opening hc
  quiet _ := waiters_opening
  free p x hx := by cases hx
  boosted r p x _ hx := by cases hx
  alone r _ p _ ho := by
    obtain ⟨x, hx⟩ := Machine.status?_ne_none.1 ((regular_opening hc).filed.owner_alive r p ho).1
    cases hx
  sole := trivial

end Moment.Guarded

/-! ## One critical section -/

variable (hc : c.Valid) (hu : c.Unnested) (hlow : ∀ j ∈ c.jobs, j.priority < c.limits.maxPriority)

include hc hu hlow

theorem Moment.Guarded.path (h : a.Guarded c) (g : Path .priorityCeiling a j b) : b.Guarded c :=
  g.invariant (fun _ _ _ ha hm => ha.move hc hu hlow hm) h

/-- From a grant on the owner keeps the resource and runs in every tick, until it gives the
resource back. -/
theorem Path.section (ha : a.Guarded c) (hran : ¬ a.phase.Ran)
    (ho : a.machine.resources.owner? r = some p) (g : Path .priorityCeiling a j b)
    (hj : ∀ v, ⟨v, .released p r⟩ ∉ j.events) (v : Nat) (hle : a.machine.tick ≤ v)
    (hv : v < b.machine.tick ∨ v = b.machine.tick ∧ b.phase.Ran) :
    ∃ age, ⟨v, .ran p age⟩ ∈ j.events := by
  induction g with
  | refl =>
    rcases hv with hlt | ⟨-, hr⟩
    · omega
    · exact absurd hr hran
  | @snoc d e j l g hm ih =>
    rw [events_snoc] at hj ⊢
    have hd := ha.path hc hu hlow g
    have hold : ∀ v, ⟨v, .released p r⟩ ∉ j.events := fun v hv => hj v (List.mem_append_left _ hv)
    have hod := g.owner_kept hc ha.regular ho hold
    have hsole := hd.sole
    have before : v < d.machine.tick ∨ v = d.machine.tick ∧ d.phase.Ran →
        ∃ age, ⟨v, .ran p age⟩ ∈ j.events ++ within d.machine.tick (eventsOf l) := by
      intro hv
      obtain ⟨age, hmem⟩ := ih hold hv
      exact ⟨age, List.mem_append_left _ hmem⟩
    rcases time_move hm with ⟨-, ht, hiff⟩ | ⟨hes, ht, -, -⟩ | @⟨ran, -, ht, hphase, hb⟩
    · rw [ht, hiff] at hv
      exact before hv
    · rw [ht] at hv
      rcases hv with hlt | ⟨rfl, -⟩
      · exact before (.inl hlt)
      · obtain ⟨-, _, hphase, -⟩ := hm.of_ran (ran_mem_eventsOf.1 (hes ▸ List.mem_singleton_self _))
        rw [hphase] at hsole
        rw [hes, ← hsole r p hod]
        exact ⟨_, List.mem_append_right _ (mem_within.2 ⟨rfl, List.mem_singleton_self _⟩)⟩
    · -- an owner does not let a tick pass without running
      rw [hphase] at hsole
      cases ran with
      | false => exact absurd hod (hsole r p)
      | true =>
        refine before ?_
        rw [ht, hb] at hv
        rw [hphase]
        rcases hv with hlt | ⟨-, hr⟩
        · rcases Nat.lt_or_eq_of_le (Nat.le_of_lt_succ hlt) with hlt | heq
          · exact .inl hlt
          · exact .inr ⟨heq, trivial⟩
        · exact hr.elim

/-- Between a grant and the release that goes with it the owner runs in every tick. -/
theorem Path.ran_between {pre mid post : List TraceEvent} {u v w : Nat}
    (g : Path .priorityCeiling (opening c).moment j b)
    (hj : j.events = pre ++ ⟨u, .acquired p r⟩ :: (mid ++ ⟨v, .released p r⟩ :: post))
    (hmid : ∀ t, ⟨t, .released p r⟩ ∉ mid) (huw : u ≤ w) (hwv : w ≤ v) :
    ∃ age, ⟨w, .ran p age⟩ ∈ mid := by
  have guarded : ∀ {i a}, Path .priorityCeiling (opening c).moment i a → a.Guarded c :=
    fun g => (Moment.Guarded.opening hc).path hc hu hlow g
  obtain ⟨d, f, i, n, rest, -, hpost, hd, ht, hm, hrest⟩ := g.split_acquired hj
  have hgain := List.mem_singleton_self (Activity.acquired p r n)
  obtain ⟨-, e, due, -, hphase, hn⟩ := hm.of_acquired hgain
  have hf : f.Guarded c := (guarded hd).move hc hu hlow hm
  have hran : ¬ f.phase.Ran := by
    rw [hphase]
    exact id
  have hfu : f.machine.tick = u := by rw [(Strategy.steady_acquire hn).tick, ht]
  obtain ⟨d', f', i', l', x', k', rest', hx', hmid', -, hd', ht', hm', -⟩ :=
    hrest.split_event hpost.symm
  rw [Activity.event?_eq_released.1 hx'] at hm'
  obtain ⟨-, due', hphase'⟩ := hm'.of_released (List.mem_append_right _ List.mem_cons_self)
  have hsub : ∀ t, ⟨t, .released p r⟩ ∉ Journal.events i' := fun t hmem =>
    hmid t (hmid' ▸ List.mem_append_left _ hmem)
  have hran' : d'.phase.Ran := by
    rw [hphase']
    trivial
  have hlast : w < d'.machine.tick ∨ w = d'.machine.tick ∧ d'.phase.Ran := by
    rw [ht']
    exact (Nat.lt_or_eq_of_le hwv).imp_right fun heq => ⟨heq, hran'⟩
  obtain ⟨age, hmem⟩ := Path.section hc hu hlow hf hran
    (owner_of_gained (guarded hd).regular hm hgain) hd' hsub w (hfu ▸ huw) hlast
  exact ⟨age, hmid' ▸ List.mem_append_left _ hmem⟩

end Simulation

open Simulation

variable {c : Scenario}

/-- In an unnested scenario whose base priorities lie below the maximum the ceiling protocol lets
one process own resources at a time and blocks nobody, and from the tick of a grant to that of the
release the owner and no other process runs. -/
theorem critical_sections_undisturbed (hc : c.Valid) (hu : c.Unnested)
    (hlow : ∀ j ∈ c.jobs, j.priority < c.limits.maxPriority) :
    (∀ j a, Path .priorityCeiling (opening c).moment j a →
      ∀ r t p q, a.machine.resources.owner? r = some p →
        a.machine.resources.owner? t = some q → p = q) ∧
    ∀ run, simulate .priorityCeiling c = .ok run →
      (∀ t p r, ⟨t, .blocked p r⟩ ∉ run.trace.events) ∧
      ∀ pre mid post t u p r,
        run.trace.events = pre ++ ⟨t, .acquired p r⟩ :: mid ++ ⟨u, .released p r⟩ :: post →
        (∀ v, ⟨v, .released p r⟩ ∉ mid) →
        ∀ v, t ≤ v → v ≤ u → (∃ age, ⟨v, .ran p age⟩ ∈ mid) ∧
          ∀ q age, ⟨v, .ran q age⟩ ∈ run.trace.events → q = p := by
  have guarded : ∀ {j a}, Path .priorityCeiling (opening c).moment j a → a.Guarded c :=
    fun g => (Moment.Guarded.opening hc).path hc hu hlow g
  refine ⟨fun j a g => (guarded g).alone, fun run hrun => ?_⟩
  obtain ⟨j, b, hpath, hevents, -⟩ := path_of_simulate hc hrun
  rw [hevents]
  constructor
  · intro t p r hmem
    obtain ⟨d, f, i, l, hd, hm, he⟩ := hpath.exists_move hmem
    obtain ⟨x, hl, hx⟩ := mem_eventsOf.1 he
    obtain ⟨o, i, k, rfl⟩ := Activity.event?_eq_blocked.1 hx
    exact (guarded hd).not_blocked hm hl
  · intro pre mid post t u p r hj hmid v htv hvu
    have hsection : ∃ age, ⟨v, .ran p age⟩ ∈ mid :=
      hpath.ran_between hc hu hlow (by rw [hj, List.append_assoc]; rfl) hmid htv hvu
    refine ⟨hsection, fun q age hq => ?_⟩
    obtain ⟨age', hp⟩ := hsection
    have hp : ⟨v, .ran p age'⟩ ∈ j.events := by
      rw [hj]
      simp [hp]
    have heq := hpath.timed.unique hq hp ⟨q, age, rfl⟩ ⟨p, age', rfl⟩ rfl
    exact (Event.ran.inj (TraceEvent.mk.inj heq).2).1

theorem critical_sections_undisturbed_contended :
    ∃ run pre mid post, simulate .priorityCeiling .contended = .ok run ∧
      run.trace.events =
        pre ++ ⟨0, .acquired ⟨1⟩ ⟨0⟩⟩ :: mid ++ ⟨2, .released ⟨1⟩ ⟨0⟩⟩ :: post ∧
      (∀ t p r, ⟨t, .blocked p r⟩ ∉ run.trace.events) ∧
      ∀ v, 0 ≤ v → v ≤ 2 → (∃ age, ⟨v, .ran ⟨1⟩ age⟩ ∈ mid) ∧
        ∀ q age, ⟨v, .ran q age⟩ ∈ run.trace.events → q = ⟨1⟩ := by
  have hsim : (simulate .priorityCeiling .contended).toOption.any (fun run =>
      decide (run.trace.events = run.trace.events.take 2 ++ ⟨0, .acquired ⟨1⟩ ⟨0⟩⟩ ::
          (run.trace.events.drop 3).take 5 ++ ⟨2, .released ⟨1⟩ ⟨0⟩⟩ ::
            run.trace.events.drop 9 ∧
        ∀ e ∈ (run.trace.events.drop 3).take 5, e.event ≠ .released ⟨1⟩ ⟨0⟩)) = true := by
    decide
  obtain ⟨run, hrun, hsplit⟩ := Option.any_eq_true _ _ |>.1 hsim
  have hrun := toOption_eq_some.1 hrun
  obtain ⟨hevents, hmid⟩ := of_decide_eq_true hsplit
  obtain ⟨-, hall⟩ :=
    critical_sections_undisturbed (c := .contended) (by decide)
      (by unfold Scenario.Unnested; decide) (by decide)
  obtain ⟨hquiet, hsections⟩ := hall run hrun
  refine ⟨run, _, _, _, hrun, hevents, hquiet, fun v hv => ?_⟩
  exact hsections _ _ _ 0 2 ⟨1⟩ ⟨0⟩ hevents (fun t hmem => hmid _ hmem rfl) v hv

end Uniprocessor
