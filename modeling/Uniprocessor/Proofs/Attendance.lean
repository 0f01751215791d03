import Uniprocessor.Proofs.Timeline
import Uniprocessor.Proofs.Waiting
/-
  No wake-up is lost.

  A release wakes one waiter and does not hand the resource over: what was woken requests it again
  on its next turn, and may find it taken by then.  Still somebody answers for every wait-set
  (`Answers`): the owner of the resource, or, while nobody owns it, a process that was woken and is
  to request it next.  `Attended` says so of a machine, `Attended.move` is the step and
  `Path.attended` the run.

  What was woken goes on wanting the resource until it is put on the CPU (`wants_move`,
  `Path.wants_kept`).

  Main statement: `wake_ups_kept`.
-/

namespace Uniprocessor

namespace Simulation

variable {s : Strategy} {c : Scenario} {a b : Moment} {l : List Activity} {j : Journal}
variable {m n : Machine} {p o v : Pid} {r t : ResourceId} {due : List ResourceId}
variable {i k u : Option Pid} {π : Policy} {κ : Protocol}

/-! ## Who answers for a wait-set -/

/-- The process that is making its requests. -/
def Phase.asking : Phase → Option Pid
  | .requesting _ p _ => some p
  | .arriving | .deciding | .releasing _ _ | .closing _ => none

/-- `v` owns `r`, or nobody does and `v` was woken to request it next. -/
def Answers (m : Machine) (asking : Option Pid) (v : Pid) (r : ResourceId) : Prop :=
  m.resources.owner? r = some v ∨
    m.resources.owner? r = none ∧ m.Wants v r ∧ (m.status? v = some .ready ∨ asking = some v)

namespace Answers

theorem known (hm : m.Filed) (h : Answers m i v r) : ∃ x, m.process? v = some x := by
  rcases h with h | ⟨-, ⟨x, hx, -⟩, -⟩
  · exact Machine.status?_ne_none.1 (hm.owner_alive r v h).1
  · exact ⟨x, hx⟩

/-- Whoever answers for a resource goes on to while it has the same owner. -/
theorem mono (h : Answers m i v r) (ho : n.resources.owner? r = m.resources.owner? r)
    (hw : m.resources.owner? r = none → m.Wants v r →
      (m.status? v = some .ready ∨ i = some v) →
      n.Wants v r ∧ (n.status? v = some .ready ∨ k = some v)) : Answers n k v r := by
  rcases h with h | ⟨h, hwant, hs⟩
  · exact .inl (ho.trans h)
  · exact .inr ⟨ho.trans h, hw h hwant hs⟩

theorem enroll {j : Job} (h : Answers m none v r) (hm : m.Filed)
    (hj : m.process? j.pid = none) : Answers (m.enroll j) none v r := by
  have hne : j.pid ≠ v := by
    obtain ⟨x, hx⟩ := h.known hm
    rintro rfl
    rw [hj] at hx
    cases hx
  refine h.mono rfl fun _ hwant hs => ?_
  rw [Machine.status?_enroll, if_neg hne]
  exact ⟨hwant.enroll hj, hs⟩

theorem decides {d : Decision} (h : Answers m none v r) (hd : π.Decides m n d) :
    Answers n d.next v r := by
  refine h.mono (by rw [hd.resources]) fun _ hwant hs => ⟨hwant.decides hd, ?_⟩
  have hs := hs.resolve_right (by simp)
  exact (Machine.status?_decides hd hs (by simp)).imp_right And.right

/-- A grant of another resource takes nobody away. -/
theorem granted (h : Answers m (some p) v r) (hreq : Requests m p (t :: due))
    (ha : κ.Acquires m t p n .granted) (htr : t ≠ r) : Answers n (some p) v r := by
  refine h.mono (by rw [ha.owner?_granted, if_neg htr]) fun _ hwant hs => ?_
  -- `p` requests `t` first, so it is not `p` that was to request `r`
  have hne : v ≠ p := by
    rintro rfl
    exact htr (Option.some.inj (hreq.wants hwant))
  rw [Machine.status?_granted ha]
  exact ⟨hwant.granted ha hne, hs⟩

theorem blocked (h : Answers m (some p) v r) (hreq : Requests m p (t :: due))
    (ha : κ.Acquires m t p n (.blocked o)) : Answers n none v r := by
  refine h.mono ha.owner?_blocked fun hfree hwant hs => ?_
  have hne : p ≠ v := by
    rintro rfl
    rw [← Option.some.inj (hreq.wants hwant), ha.blocker.1] at hfree
    cases hfree
  rw [Machine.status?_blocked ha, if_neg hne]
  exact ⟨hwant.blocked ha, .inl (hs.resolve_right fun he => hne (Option.some.inj he))⟩

/-- A process that has nothing left to request was to request nothing. -/
theorem grows {age : Nat} (h : Answers m (some p) v r) (hreq : Requests m p []) :
    Answers (m.adjust p (.aged age)) none v r := by
  refine h.mono rfl fun _ hwant hs => ?_
  have hne : v ≠ p := by
    rintro rfl
    cases hreq.wants hwant
  rw [Machine.status?_adjust (f := .aged age) fun _ => rfl]
  exact ⟨hwant.adjust hne, .inl (hs.resolve_right fun he => hne (Option.some.inj he).symm)⟩

/-- A release of another resource takes nobody away. -/
theorem released (h : Answers m none v r) (hp : m.status? p = some .running)
    (hr : κ.Releases m t p n u) (htr : t ≠ r) : Answers n none v r := by
  refine h.mono (by rw [hr.owner?, if_neg htr]) fun _ hwant hs => ?_
  have hs := hs.resolve_right (by simp)
  have hne : v ≠ p := by
    rintro rfl
    rw [hp] at hs
    cases hs
  exact ⟨hwant.released hr hne, .inl (Machine.status?_released hr hs (by simp))⟩

/-- What a release wakes answers for the resource. -/
theorem woken (hm : m.Filed) (hwaits : Waits m) (hp : m.status? p = some .running)
    (hr : κ.Releases m r p n (some v)) : Answers n none v r := by
  have hmem := hr.mem_of_woken
  refine .inr ⟨?_, (hwaits r v hmem).released hr (hm.ne_of_waits hp hmem), .inl ?_⟩
  · rw [hr.owner?, if_pos rfl]
  · rw [Machine.status?_releases hr, if_pos rfl]

theorem finish (h : Answers m none v r) (hp : m.status? p = some .running) :
    Answers (m.adjust p (.turn .terminated)) none v r := by
  refine h.mono rfl fun _ hwant hs => ?_
  have hs := hs.resolve_right (by simp)
  refine ⟨hwant.turn, .inl ?_⟩
  rw [Machine.status?_turn, if_neg, hs]
  rintro rfl
  rw [hp] at hs
  cases hs

end Answers

/-! ## Attended wait-sets -/

/-- Somebody answers for every wait-set that has a member. -/
def Attended (m : Machine) (asking : Option Pid) : Prop :=
  ∀ r, m.resources.waiters r ≠ [] → ∃ v, Answers m asking v r

namespace Attended

theorem decides {d : Decision} (h : Attended m none) (hd : π.Decides m n d) :
    Attended n d.next := by
  intro r hw
  rw [hd.resources] at hw
  obtain ⟨v, hv⟩ := h r hw
  exact ⟨v, hv.decides hd⟩

theorem granted (h : Attended m (some p)) (hreq : Requests m p (t :: due))
    (ha : κ.Acquires m t p n .granted) : Attended n (some p) := by
  intro r hw
  by_cases htr : t = r
  · exact ⟨p, .inl (by rw [ha.owner?_granted, if_pos htr])⟩
  · rw [ha.waiters_granted] at hw
    obtain ⟨v, hv⟩ := h r hw
    exact ⟨v, hv.granted hreq ha htr⟩

/-- What blocks a process answers for it. -/
theorem blocked (h : Attended m (some p)) (hreq : Requests m p (t :: due))
    (ha : κ.Acquires m t p n (.blocked o)) : Attended n none := by
  intro r hw
  by_cases htr : t = r
  · exact ⟨o, .inl (by rw [ha.owner?_blocked, ← htr, ha.blocker.1])⟩
  · rw [ha.waiters_blocked, if_neg htr] at hw
    obtain ⟨v, hv⟩ := h r hw
    exact ⟨v, hv.blocked hreq ha⟩

/-- A release leaves waiters behind only where it wakes one. -/
theorem released (h : Attended m none) (hm : m.Filed) (hwaits : Waits m)
    (hp : m.status? p = some .running) (hr : κ.Releases m t p n u) : Attended n none := by
  intro r hw
  by_cases htr : t = r
  · subst htr
    cases u with
    | some v => exact ⟨v, .woken hm hwaits hp hr⟩
    | none =>
      cases hr with
      | quiet _ hnil =>
        rw [Protocol.waiters_freed, hnil] at hw
        exact absurd rfl hw
  · have hsame : n.resources.waiters r = m.resources.waiters r := by
      cases u with
      | some v => rw [hr.waiters_wake, if_neg htr]
      | none => exact hr.waiters_quiet
    rw [hsame] at hw
    obtain ⟨v, hv⟩ := h r hw
    exact ⟨v, hv.released hp hr htr⟩

theorem move (hreg : a.Regular c) (hwaits : Waits a.machine)
    (h : Attended a.machine a.phase.asking) (hm : Move s a l b) :
    Attended b.machine b.phase.asking := by
  cases hm with
  | arrive _ hn =>
    obtain ⟨hnew, -, rfl⟩ := Machine.fork_eq_ok.1 hn
    intro r hw
    obtain ⟨v, hv⟩ := h r hw
    exact ⟨v, hv.enroll hreg.filed hnew⟩
  | begin | remain => exact h
  | idle hn hnext =>
    have hd := h.decides (Policy.schedule_decides hn)
    rwa [hnext] at hd
  | dispatch hn hnext =>
    have hd := h.decides (Policy.schedule_decides hn)
    rwa [hnext] at hd
  | grant hn =>
    obtain ⟨-, hreq⟩ := hreg.phase
    exact h.granted hreq (hreq.acquires hn)
  | block hn =>
    obtain ⟨-, hreq⟩ := hreg.phase
    exact h.blocked hreq (hreq.acquires hn)
  | run hn =>
    obtain ⟨_, -, -, -, rfl⟩ := Machine.grow_eq_ok.1 hn
    obtain ⟨-, hreq⟩ := hreg.phase
    intro r hw
    obtain ⟨v, hv⟩ := h r hw
    exact ⟨v, hv.grows hreq⟩
  | release hn =>
    exact h.released hreg.filed hwaits hreg.phase.running (hreg.phase.releases hn)
  | exit =>
    intro r hw
    obtain ⟨v, hv⟩ := h r hw
    exact ⟨v, hv.finish hreg.phase.running⟩
  | close _ hn =>
    obtain ⟨-, rfl⟩ := Machine.advance_eq_ok.1 hn
    exact h

end Attended

theorem Path.waits (hc : c.Valid) (g : Path s (opening c).moment j b) : Waits b.machine := by
  have hall := g.invariant (P := fun a => a.Regular c ∧ Waits a.machine)
    (fun _ _ _ ha hm => ⟨ha.1.move hc hm, ha.2.move ha.1 hm⟩) ⟨regular_opening hc, waits_opening⟩
  exact hall.2

/-- Somebody answers for every wait-set at every moment of a run. -/
theorem Path.attended (hc : c.Valid) (g : Path s (opening c).moment j b) :
    Attended b.machine b.phase.asking := by
  induction g with
  | refl =>
    intro r hw
    exact absurd waiters_opening hw
  | snoc g hm ih => exact ih.move (g.regular hc) (g.waits hc) hm

/-! ## The next turn -/

/-- A process that is not on the CPU goes on wanting what it wants. -/
theorem wants_apart (hreg : a.Regular c) (hm : Move s a l b)
    (hp : a.machine.status? p ≠ some .running) (hw : a.machine.Wants p r) :
    b.machine.Wants p r := by
  have apart : ∀ {q}, a.machine.status? q = some .running → p ≠ q := by
    rintro q hq rfl
    exact hp hq
  cases hm with
  | arrive _ hn =>
    obtain ⟨hnew, -, rfl⟩ := Machine.fork_eq_ok.1 hn
    exact hw.enroll hnew
  | begin | remain => exact hw
  | idle hn => exact hw.decides (Policy.schedule_decides hn)
  | dispatch hn => exact hw.decides (Policy.schedule_decides hn)
  | grant hn =>
    obtain ⟨-, hreq⟩ := hreg.phase
    exact hw.granted (hreq.acquires hn) (apart hreq.running)
  | block hn => exact hw.blocked (hreg.phase.2.acquires hn)
  | run hn =>
    obtain ⟨_, -, -, -, rfl⟩ := Machine.grow_eq_ok.1 hn
    exact hw.adjust (apart hreg.phase.2.running)
  | release hn => exact hw.released (hreg.phase.releases hn) (apart hreg.phase.running)
  | exit => exact hw.turn
  | close _ hn =>
    obtain ⟨-, rfl⟩ := Machine.advance_eq_ok.1 hn
    exact hw

/-- A ready process stays ready until it is put on the CPU. -/
theorem ready_move (hreg : a.Regular c) (hm : Move s a l b)
    (hl : ∀ o d, .decided o d ∈ l → d.next ≠ some p) (hp : a.machine.status? p = some .ready) :
    b.machine.status? p = some .ready := by
  have apart : ∀ {q}, a.machine.status? q = some .running → q ≠ p := by
    rintro q hq rfl
    rw [hp] at hq
    cases hq
  have decided : ∀ {d n}, s.schedule a.machine = .ok (n, d) → d.next ≠ some p →
      n.status? p = some .ready := fun hn hnext =>
    (Machine.status?_decides (Policy.schedule_decides hn) hp (by simp)).resolve_right
      fun ⟨_, h⟩ => hnext h
  cases hm with
  | arrive _ hn =>
    obtain ⟨hnew, -, rfl⟩ := Machine.fork_eq_ok.1 hn
    rw [Machine.status?_enroll, if_neg, hp]
    rintro rfl
    obtain ⟨x, hx⟩ := Machine.exists_record hp
    rw [hnew] at hx
    cases hx
  | begin | remain => exact hp
  | idle hn => exact decided hn (hl _ _ (List.mem_singleton_self _))
  | dispatch hn => exact decided hn (hl _ _ (List.mem_singleton_self _))
  | grant hn => exact (Machine.status?_granted (hreg.phase.2.acquires hn)).trans hp
  | block hn =>
    obtain ⟨-, hreq⟩ := hreg.phase
    rw [Machine.status?_blocked (hreq.acquires hn), if_neg (apart hreq.running), hp]
  | run hn =>
    obtain ⟨_, -, -, -, rfl⟩ := Machine.grow_eq_ok.1 hn
    exact (Machine.status?_adjust (f := .aged _) fun _ => rfl).trans hp
  | release hn => exact Machine.status?_released (hreg.phase.releases hn) hp (by simp)
  | exit => rw [Machine.status?_turn, if_neg (apart hreg.phase.running), hp]
  | close _ hn =>
    obtain ⟨-, rfl⟩ := Machine.advance_eq_ok.1 hn
    exact hp

/-- A ready process goes on wanting what it wants until it is put on the CPU. -/
theorem wants_move (hreg : a.Regular c) (hm : Move s a l b)
    (hl : ∀ o d, .decided o d ∈ l → d.next ≠ some p) (hp : a.machine.status? p = some .ready)
    (hw : a.machine.Wants p r) : b.machine.status? p = some .ready ∧ b.machine.Wants p r :=
  ⟨ready_move hreg hm hl hp, wants_apart hreg hm (by simp [hp]) hw⟩

theorem Path.wants_kept (hc : c.Valid) (ha : a.Regular c) (g : Path s a j b)
    (hj : ∀ x ∈ j, ∀ o d, x.2 = .decided o d → d.next ≠ some p)
    (hp : a.machine.status? p = some .ready) (hw : a.machine.Wants p r) :
    b.machine.status? p = some .ready ∧ b.machine.Wants p r := by
  induction g with
  | refl => exact ⟨hp, hw⟩
  | @snoc d e j l g hm ih =>
    obtain ⟨hpd, hwd⟩ := ih fun x hx => hj x (List.mem_append_left _ hx)
    refine wants_move (ha.path hc g) hm (fun o d hl => ?_) hpd hwd
    exact hj _ (List.mem_append_right _ (List.mem_map_of_mem hl)) o d rfl

/-- A process that is put on the CPU is to request first what it wants. -/
theorem wants_requested {d : Decision} (hm : Move s a l b) (hl : .decided i d ∈ l)
    (hd : d.next = some p) (hw : a.machine.Wants p r) :
    ∃ due, b.phase = .requesting d p (r :: due) := by
  cases hm with
  | idle _ hnext =>
    cases List.mem_singleton.1 hl
    rw [hnext] at hd
    cases hd
  | dispatch hn hnext hdue =>
    cases List.mem_singleton.1 hl
    obtain rfl := Option.some.inj (hnext.symm.trans hd)
    obtain ⟨x, hx, hhead⟩ := hw.decides (Policy.schedule_decides hn)
    obtain ⟨y, hy, rfl⟩ := Scripted.requestsOf_eq_ok.1 hdue
    obtain rfl := Option.some.inj (hx.symm.trans hy)
    obtain ⟨rest, hrest⟩ := List.head?_eq_some_iff.1 hhead
    exact ⟨rest, by rw [hrest]⟩
  | release => simp [releaseEntries] at hl
  | close => rcases mem_closingEntries hl with he | ⟨_, _, _, he⟩ <;> cases he
  | arrive | begin | grant | block | run | remain | exit => simp [requestActivity] at hl

end Simulation

open Simulation

variable {c : Scenario}

/-- No wake-up is lost: if at the end of a tick processes wait for a resource that nobody owns, then
a member of the ready queue is to request it next, and does so as soon as a decision puts it on the
CPU, whatever happens before that. -/
theorem wake_ups_kept (s : Strategy) (hc : c.Valid) {k : Nat} {t : TickResult}
    (hk : tickAt s c k = some t) {r : ResourceId}
    (hfree : t.after.machine.resources.owner? r = none)
    (hw : t.after.machine.resources.waiters r ≠ []) :
    ∃ p ∈ t.after.machine.ready.pids, t.after.machine.status? p = some .ready ∧
      (∃ due, requestsOf t.after.machine p = .ok (r :: due)) ∧
      (t.exit = none → ∀ j a l b o d, Path s t.after.moment j a →
        (∀ x ∈ j, ∀ o d, x.2 = .decided o d → d.next ≠ some p) →
        Move s a l b → .decided o d ∈ l → d.next = some p →
        ∃ due, b.phase = .requesting d p (r :: due)) := by
  obtain ⟨g, ran, b, m, acts, -, -, -, hpath, hcloses⟩ := tickAt_closes hc hk
  obtain ⟨-, i, hi⟩ := hcloses.after
  rw [hi] at hfree hw ⊢
  obtain ⟨p, howns | ⟨-, hwants, hs⟩⟩ : ∃ p, Answers m none p r := hpath.attended hc r hw
  · rw [show m.resources.owner? r = none from hfree] at howns
    cases howns
  have hready := hs.resolve_right (by simp)
  obtain ⟨x, hx, hhead⟩ := hwants
  obtain ⟨due, hdue⟩ := List.head?_eq_some_iff.1 hhead
  refine ⟨p, ((hpath.regular hc).filed.mem_ready p).2 hready, hready,
    ⟨due, Scripted.requestsOf_eq_ok.2 ⟨x, hx, hdue⟩⟩, fun he j a l b o d hj hquiet hm hl hd => ?_⟩
  have hnext := (startAt_moment hc (startAt_succ.2 ⟨t, hk, he, rfl⟩)).2
  have hkept := hj.wants_kept hc (hnext.regular hc) hquiet (p := p) (r := r)
  rw [show t.after.moment.machine = _ from hi] at hkept
  exact wants_requested hm hl hd (hkept hready ⟨x, hx, hhead⟩).2

/-- Two processes wait for what a third one holds. -/
def Scenario.crowded : Scenario where
  jobs := [
    { pid := ⟨1⟩, name := "first", start := 0, lifespan := 3, priority := 1,
      holds := [{ resource := ⟨0⟩, since := 0, duration := 2 }] },
    { pid := ⟨2⟩, name := "second", start := 0, lifespan := 2, priority := 1,
      holds := [{ resource := ⟨0⟩, since := 0, duration := 1 }] },
    { pid := ⟨3⟩, name := "third", start := 0, lifespan := 2, priority := 1,
      holds := [{ resource := ⟨0⟩, since := 0, duration := 1 }] }]
  resourceCount := 1
  limits := .standard
  maxTicks := 20
  audit := true

theorem wake_ups_kept_crowded :
    ∃ t, tickAt .roundRobin .crowded 1 = some t ∧
      t.after.machine.resources.owner? ⟨0⟩ = none ∧
      t.after.machine.resources.waiters ⟨0⟩ ≠ [] ∧
      ∃ p ∈ t.after.machine.ready.pids, t.after.machine.status? p = some .ready ∧
        ∃ due, requestsOf t.after.machine p = .ok (⟨0⟩ :: due) := by
  obtain ⟨t, hk, hfree, hw⟩ := exists_tickAt (s := .roundRobin) (c := .crowded) (k := 1)
    (P := fun t => t.after.machine.resources.owner? ⟨0⟩ = none ∧
      t.after.machine.resources.waiters ⟨0⟩ ≠ []) (by decide)
  obtain ⟨p, hp, hready, hdue, -⟩ :=
    wake_ups_kept .roundRobin (c := .crowded) (by decide) hk hfree hw
  exact ⟨t, hk, hfree, hw, p, hp, hready, hdue⟩

end Uniprocessor
