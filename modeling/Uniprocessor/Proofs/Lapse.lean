import Uniprocessor.Proofs.Inheritance
/-
  When an owner can be less urgent than a process that waits for it.

  Inheritance is a single step that any release undoes: a release restores the base priority of
  the releaser, whatever else it owns, and a process that is raised while it waits does not raise
  the owner it waits for.  `Lapsed` says, in terms of the journal, that one of the two has
  happened to the wait of `w` for `r`.  At every moment of a run each waiter is backed or its
  inheritance has lapsed (`Path.backed_or_lapsed`).

  Proved: `inheritance_kept_unless_lapsed`, for the owner at the end of every tick; and
  `inheritance_lost`, which has one run for each of the two ways to lapse.
-/

namespace Uniprocessor

/-- The process `w` begins to wait for `r`. -/
def Activity.Awaits (w : Pid) (r : ResourceId) (e : Activity) : Prop :=
  ∃ o i k, e = .blocked w r o i k

namespace Journal

/-- `w` has been raised since it began to wait for `r` and since `r` was last released. -/
def Raised (j : Journal) (w : Pid) (r : ResourceId) : Prop :=
  j.Since (Activity.Raises w) fun e => e.Awaits w r ∨ ∃ p, e = .released p r

/-- `o` has given something up since it acquired `r` and since `w` began to wait for `r`. -/
def Lowered (j : Journal) (o w : Pid) (r : ResourceId) : Prop :=
  j.Since (Activity.GivesUp o) fun e => e.Awaits w r ∨ ∃ k, e = .acquired o r k

end Journal

namespace Simulation

variable {c : Scenario} {a b : Moment} {l : List Activity} {j : Journal} {p o w : Pid}
variable {r : ResourceId} {s : Strategy}

/-- The wait of `w` for `r` has seen `w` raised or the owner lowered. -/
def Lapsed (j : Journal) (m : Machine) (w : Pid) (r : ResourceId) : Prop :=
  j.Raised w r ∨ ∃ o, m.resources.owner? r = some o ∧ j.Lowered o w r

/-! ## What a move leaves alone -/

/-- A resource keeps its owner until it is released. -/
theorem owner?_move (hreg : a.Regular c) (hm : Move s a l b)
    (ho : a.machine.resources.owner? r = some o) (hfree : ∀ p, .released p r ∉ l) :
    b.machine.resources.owner? r = some o := by
  cases hm with
  | arrive _ hn =>
    obtain ⟨-, -, rfl⟩ := Machine.fork_eq_ok.1 hn
    exact ho
  | idle hn =>
    dsimp only
    rw [(Policy.schedule_decides hn).resources, ho]
  | dispatch hn =>
    dsimp only
    rw [(Policy.schedule_decides hn).resources, ho]
  | grant hn =>
    have ha := hreg.phase.2.acquires hn
    dsimp only
    rw [ha.owner?_granted, if_neg, ho]
    rintro rfl
    rw [ha.free] at ho
    cases ho
  | block hn =>
    dsimp only
    rw [(hreg.phase.2.acquires hn).owner?_blocked, ho]
  | run hn =>
    obtain ⟨_, -, -, -, rfl⟩ := Machine.grow_eq_ok.1 hn
    exact ho
  | @release _ _ _ p _ _ _ _ hn =>
    dsimp only
    rw [(hreg.phase.releases hn).owner?, if_neg, ho]
    rintro rfl
    exact hfree p (by simp [releaseEntries])
  | close _ hn =>
    obtain ⟨-, rfl⟩ := Machine.advance_eq_ok.1 hn
    exact ho
  | begin | remain | exit => exact ho

/-- A process that waits does not begin to. -/
theorem not_awaits_of_waits (hreg : a.Regular c) (hm : Move s a l b)
    (hw : w ∈ a.machine.resources.waiters r) : ∀ e ∈ l, ¬ e.Awaits w r := by
  rintro _ he ⟨o, i, k, rfl⟩
  obtain ⟨-, d, due, hphase, -⟩ := hm.of_blocked he
  exact hreg.filed.ne_of_waits (hreg.requests hphase).2.running hw rfl

/-- What is owned is not acquired. -/
theorem not_acquired_of_owner (hreg : a.Regular c) (hm : Move s a l b)
    (ho : a.machine.resources.owner? r = some o) : ∀ e ∈ l, ¬ ∃ k, e = .acquired p r k := by
  rintro _ he ⟨k, rfl⟩
  obtain ⟨-, d, due, hphase, -, hn⟩ := hm.of_acquired he
  rw [((hreg.requests hphase).2.acquires hn).free] at ho
  cases ho

/-! ## Waiters are backed unless inheritance has lapsed -/

section Move

variable (hreg : a.Regular c) (hm : Move s a l b) (hw : w ∈ a.machine.resources.waiters r)
variable (hfree : ∀ p, .released p r ∉ l)

include hreg hm hw hfree

/-- Nothing in the move starts the wait of `w` for `r` or the time of its owner anew. -/
theorem Lapsed.move (h : Lapsed j a.machine w r) :
    Lapsed (j ++ stamp a.machine.tick l) b.machine w r := by
  have hwait := not_awaits_of_waits hreg hm hw
  rcases h with h | ⟨o, ho, h⟩
  · refine .inl (h.append fun e he hmark => ?_)
    rcases hmark with hmark | ⟨p, rfl⟩
    · exact hwait e he hmark
    · exact hfree p he
  · refine .inr ⟨o, owner?_move hreg hm ho hfree, h.append fun e he hmark => ?_⟩
    rcases hmark with hmark | hmark
    · exact hwait e he hmark
    · exact not_acquired_of_owner hreg hm ho e he hmark

theorem lapsed_of_raises {e : Activity} (he : e ∈ l) (hr : e.Raises w) :
    Lapsed (j ++ stamp a.machine.tick l) b.machine w r := by
  refine .inl (Journal.since_of_mem he hr fun f hf hmark => ?_)
  rcases hmark with hmark | ⟨p, rfl⟩
  · exact not_awaits_of_waits hreg hm hw f hf hmark
  · exact hfree p hf

theorem lapsed_of_givesUp {e : Activity} (ho : a.machine.resources.owner? r = some o)
    (he : e ∈ l) (hg : e.GivesUp o) : Lapsed (j ++ stamp a.machine.tick l) b.machine w r := by
  refine .inr ⟨o, owner?_move hreg hm ho hfree, Journal.since_of_mem he hg fun f hf hmark => ?_⟩
  rcases hmark with hmark | hmark
  · exact not_awaits_of_waits hreg hm hw f hf hmark
  · exact not_acquired_of_owner hreg hm ho f hf hmark

end Move

/-- Every waiter is backed, or the inheritance that its wait brought has lapsed. -/
theorem Path.backed_or_lapsed (hc : c.Valid)
    (g : Path .priorityInheritance (opening c).moment j a) :
    ∀ r, ∀ w ∈ a.machine.resources.waiters r,
      Backed a.machine a.phase.asking r w ∨ Lapsed j a.machine w r := by
  induction g with
  | refl =>
    intro r w hw
    rw [waiters_opening] at hw
    cases hw
  | snoc g hm ih =>
    intro r w hw
    obtain ⟨hreg, hwaits, htop⟩ := g.orderly hc
    rcases backed_move hreg hwaits htop hm hw with hb | ⟨hwa, hfree, hb⟩
    · exact .inl hb
    · rcases ih r w hwa with h | h
      · rcases hb h with hb | ⟨o, ho, e, he, hg⟩ | ⟨e, he, hr⟩
        · exact .inl hb
        · exact .inr (lapsed_of_givesUp hreg hm hwa hfree ho he hg)
        · exact .inr (lapsed_of_raises hreg hm hwa hfree he hr)
      · exact .inr (h.move hreg hm hwa hfree)

end Simulation

open Simulation

variable {c : Scenario}

/-- At the end of every tick the owner of a resource is at least as urgent as any process that
waits for it, unless the owner has given something up since it acquired the resource and since that
wait began, or the waiter has been raised since then and since the resource was last released. -/
theorem inheritance_kept_unless_lapsed (hc : c.Valid) {k : Nat} {t : TickResult}
    (hk : tickAt .priorityInheritance c k = some t) {o w : Pid} {r : ResourceId}
    (ho : t.after.machine.resources.owner? r = some o)
    (hw : w ∈ t.after.machine.resources.waiters r) :
    priorityOf t.after.machine w ≤ priorityOf t.after.machine o ∨
      (historyAt .priorityInheritance c k).Lowered o w r ∨
      (historyAt .priorityInheritance c k).Raised w r := by
  obtain ⟨e, hpath, he, -⟩ := tickAt_moment hc hk
  rw [← he] at ho hw ⊢
  rcases hpath.backed_or_lapsed hc r w hw with hb | hr | ⟨q, hq, hl⟩
  · exact .inl (hb.owner ho)
  · exact .inr (.inr hr)
  · rw [ho] at hq
    rw [Option.some.inj hq]
    exact .inr (.inl hl)

theorem inheritance_kept_unless_lapsed_contended :
    ∃ t, tickAt .priorityInheritance .contended 1 = some t ∧
      t.after.machine.resources.owner? ⟨0⟩ = some ⟨1⟩ ∧
      ⟨2⟩ ∈ t.after.machine.resources.waiters ⟨0⟩ ∧
      (priorityOf t.after.machine ⟨2⟩ ≤ priorityOf t.after.machine ⟨1⟩ ∨
        (historyAt .priorityInheritance .contended 1).Lowered ⟨1⟩ ⟨2⟩ ⟨0⟩ ∨
        (historyAt .priorityInheritance .contended 1).Raised ⟨2⟩ ⟨0⟩) := by
  obtain ⟨t, hk, ho, hw⟩ := exists_tickAt (s := .priorityInheritance) (c := .contended) (k := 1)
    (P := fun t => t.after.machine.resources.owner? ⟨0⟩ = some ⟨1⟩ ∧
      ⟨2⟩ ∈ t.after.machine.resources.waiters ⟨0⟩) (by decide)
  exact ⟨t, hk, ho, hw, inheritance_kept_unless_lapsed (by decide) hk ho hw⟩

/-- A process gives up one of its two resources while a more urgent one waits for the other. -/
def Scenario.nested : Scenario where
  jobs := [
    { pid := ⟨1⟩, name := "low", start := 0, lifespan := 5, priority := 1,
      holds := [{ resource := ⟨0⟩, since := 0, duration := 4 },
        { resource := ⟨1⟩, since := 0, duration := 3 }] },
    { pid := ⟨2⟩, name := "high", start := 1, lifespan := 2, priority := 9,
      holds := [{ resource := ⟨0⟩, since := 0, duration := 1 }] }]
  resourceCount := 2
  limits := .standard
  maxTicks := 20
  audit := true

/-- A process that waits for a less urgent one is waited for by a more urgent one. -/
def Scenario.chained : Scenario where
  jobs := [
    { pid := ⟨1⟩, name := "low", start := 0, lifespan := 5, priority := 1,
      holds := [{ resource := ⟨0⟩, since := 0, duration := 4 }] },
    { pid := ⟨2⟩, name := "middle", start := 1, lifespan := 4, priority := 5,
      holds := [{ resource := ⟨1⟩, since := 0, duration := 3 },
        { resource := ⟨0⟩, since := 1, duration := 1 }] },
    { pid := ⟨3⟩, name := "high", start := 3, lifespan := 2, priority := 9,
      holds := [{ resource := ⟨1⟩, since := 0, duration := 1 }] }]
  resourceCount := 2
  limits := .standard
  maxTicks := 20
  audit := true

/-- At the end of the `k`-th tick `o` owns `r` and is less urgent than `w`, which waits for it. -/
def Inverted (c : Scenario) (k : Nat) (r : ResourceId) (o w : Pid) : Prop :=
  ∃ t, tickAt .priorityInheritance c k = some t ∧
    t.after.machine.resources.owner? r = some o ∧ w ∈ t.after.machine.resources.waiters r ∧
    priorityOf t.after.machine o < priorityOf t.after.machine w

/-- An owner can be less urgent than a process that waits for it, both because it has given
something up and because the waiter has been raised. -/
theorem inheritance_lost :
    (Scenario.nested.Valid ∧ Inverted .nested 2 ⟨0⟩ ⟨1⟩ ⟨2⟩) ∧
      Scenario.chained.Valid ∧ Inverted .chained 3 ⟨0⟩ ⟨1⟩ ⟨2⟩ :=
  ⟨⟨by decide, exists_tickAt (by decide)⟩, by decide, exists_tickAt (by decide)⟩

end Uniprocessor
