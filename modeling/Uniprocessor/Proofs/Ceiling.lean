import Uniprocessor.Proofs.Audit
import Uniprocessor.Proofs.Chronicle
import Uniprocessor.Proofs.Urgency
/-
  What the ceiling protocol does to the priority of a process.

  A grant sets it to the maximum and a release sets it back, each whatever it was and whatever
  else the process owns; nothing else changes it (`CeilingStep`, `ceiling_move`).  What a process
  has at any moment is therefore decided by which of the two came last (`Standing`,
  `Path.standing`).

  Proved: `ceiling_kept_unless_undone`, for every owner at the end of every tick; and
  `ceiling_missed`, which has one run in which an owner is below the maximum and one in which it is
  below its own base priority.
-/

namespace Uniprocessor

/-- The activity grants a resource to `p`. -/
def Activity.Gains (p : Pid) (e : Activity) : Prop := ∃ r k, e = .acquired p r k

namespace Simulation

variable {m n : Machine} {p q o : Pid} {r : ResourceId} {order : WakeOrder}

/-! ## Priorities under a ceiling -/

theorem priorityOf_promoted (ha : (Protocol.ceiling order).Acquires m r p n .granted) :
    priorityOf n q = if p = q then m.limits.maxPriority else priorityOf m q := by
  cases ha with
  | @granted x _ _ hx =>
    rw [priorityOf_congr (Machine.process?_own _ q r _)]
    split
    · next hpq =>
      subst hpq
      have hn : (m.adjust p ((Protocol.ceiling order).promote m.limits)).process? p =
          some ((Protocol.ceiling order).promote m.limits x) := by
        rw [Machine.process?_adjust, if_pos rfl, hx]
        rfl
      rw [priorityOf_of hn]
      rfl
    · next hpq => exact priorityOf_congr (by rw [Machine.process?_adjust, if_neg hpq])

/-- Nothing is lent under a ceiling. -/
theorem priorityOf_refused (ha : (Protocol.ceiling order).Acquires m r p n (.blocked o)) :
    priorityOf n q = priorityOf m q := by
  cases ha with
  | @blocked _ x =>
    rw [priorityOf_congr (Machine.process?_park _ p q r)]
    have hturn : ∀ k : Machine, priorityOf (k.adjust p (.turn .waiting)) q = priorityOf k q :=
      fun k => priorityOf_adjust fun _ => rfl
    rw [hturn]
    exact priorityOf_adjust fun _ => rfl

/-- A release takes the releaser back to its base priority. -/
theorem priority_released {w : Option Pid} {y : ProcessRecord}
    (hr : (Protocol.ceiling order).Releases m r p n w) (hy : n.process? p = some y) :
    y.priority = y.basePriority := by
  have hfree : ∀ z, ((Protocol.ceiling order).freed m r p).process? p = some z →
      z.priority = z.basePriority := by
    intro z hz
    rw [Protocol.process?_freed, if_pos rfl] at hz
    obtain ⟨x, -, rfl⟩ := Option.map_eq_some_iff.1 hz
    rfl
  cases hr with
  | quiet => exact hfree y hy
  | @wake v _ _ _ _ _ _ =>
    rw [Machine.process?_enqueue, Machine.process?_adjust, Machine.process?_unpark] at hy
    split at hy
    · obtain ⟨z, hz, rfl⟩ := Option.map_eq_some_iff.1 hy
      exact hfree z hz
    · exact hfree y hy

/-! ## Moves -/

/-- What a move does to the priority of `p`, whose record it turns from `x` into `y`. -/
inductive CeilingStep (limits : Limits) (p : Pid) (l : List Activity) (x y : ProcessRecord) : Prop
  | keep : (∀ e ∈ l, ¬ e.Gains p ∧ ¬ e.GivesUp p) → y.priority = x.priority →
      CeilingStep limits p l x y
  | raise : (∃ e ∈ l, e.Gains p) → (∀ e ∈ l, ¬ e.GivesUp p) → y.priority = limits.maxPriority →
      CeilingStep limits p l x y
  | restore : (∃ e ∈ l, e.GivesUp p) → (∀ e ∈ l, ¬ e.Gains p) → y.priority = y.basePriority →
      CeilingStep limits p l x y

variable {c : Scenario} {a b : Moment} {l : List Activity} {j : Journal} {x y : ProcessRecord}

/-- A process that a move finds keeps its base priority, and its priority moves as the ceiling
protocol has it; a process that arrives has its base priority. -/
theorem ceiling_move (hreg : a.Regular c) (hm : Move .priorityCeiling a l b)
    (hy : b.machine.process? p = some y) :
    (a.machine.process? p = none ∧ (∀ e ∈ l, ¬ e.Gains p ∧ ¬ e.GivesUp p) ∧
        y.priority = y.basePriority) ∨
      ∃ x, a.machine.process? p = some x ∧ y.basePriority = x.basePriority ∧
        CeilingStep c.limits p l x y := by
  -- a move that leaves the base priority alone is settled by the priorities before and after
  have old : a.machine.Follows b.machine →
      (∀ x, a.machine.process? p = some x → CeilingStep c.limits p l x y) →
      (a.machine.process? p = none ∧ (∀ e ∈ l, ¬ e.Gains p ∧ ¬ e.GivesUp p) ∧
        y.priority = y.basePriority) ∨
        ∃ x, a.machine.process? p = some x ∧ y.basePriority = x.basePriority ∧
          CeilingStep c.limits p l x y := by
    intro hf hstep
    obtain ⟨x, hx, s, k, rfl⟩ := hf.of hy
    exact .inr ⟨x, hx, rfl, hstep x hx⟩
  have same : (∀ e ∈ l, ¬ e.Gains p ∧ ¬ e.GivesUp p) →
      priorityOf b.machine p = priorityOf a.machine p →
      ∀ x, a.machine.process? p = some x → CeilingStep c.limits p l x y := by
    intro hl hp x hx
    rw [priorityOf_of hx, priorityOf_of hy] at hp
    exact .keep hl hp
  cases hm with
  | @arrive m _ _ k _ _ hn =>
    obtain ⟨hnew, -, rfl⟩ := Machine.fork_eq_ok.1 hn
    dsimp only at hy
    rw [Machine.process?_enroll] at hy
    split at hy
    · next hk =>
      cases hy
      exact .inl ⟨hk ▸ hnew, by simp [Activity.Gains, Activity.GivesUp], rfl⟩
    · exact .inr ⟨y, hy, rfl, .keep (by simp [Activity.Gains, Activity.GivesUp]) rfl⟩
  | begin | remain => exact old (.refl _) (same (by simp) rfl)
  | idle hn =>
    have hd := Policy.schedule_decides hn
    exact old (Machine.follows_decides hd)
      (same (by simp [Activity.Gains, Activity.GivesUp]) (priorityOf_decides hd))
  | dispatch hn =>
    have hd := Policy.schedule_decides hn
    exact old (Machine.follows_decides hd)
      (same (by simp [Activity.Gains, Activity.GivesUp]) (priorityOf_decides hd))
  | @grant m n _ _ q t _ _ hn =>
    have ha := hreg.phase.2.acquires hn
    have hp := priorityOf_promoted (q := p) ha
    refine old (Machine.follows_acquires ha) fun x hx => ?_
    dsimp only at hx hy
    by_cases hq : q = p
    · rw [if_pos hq, priorityOf_of hy, hreg.scripted.limits] at hp
      refine .raise ⟨_, List.mem_singleton_self _, t, priorityOf n q, by rw [← hq]; rfl⟩ ?_ hp
      simp [Activity.GivesUp, requestActivity]
    · rw [if_neg hq] at hp
      exact same (by simp [Activity.Gains, Activity.GivesUp, requestActivity, hq]) hp x hx
  | block hn =>
    have ha := hreg.phase.2.acquires hn
    exact old (Machine.follows_acquires ha)
      (same (by simp [Activity.Gains, Activity.GivesUp, requestActivity]) (priorityOf_refused ha))
  | @run m _ _ _ q _ _ _ _ hn =>
    obtain ⟨z, hz, -, rfl, rfl⟩ := Machine.grow_eq_ok.1 hn
    have hl : ∀ e ∈ [Activity.ran q (z.age + 1)], ¬ e.Gains p ∧ ¬ e.GivesUp p := by
      simp [Activity.Gains, Activity.GivesUp]
    dsimp only at hy
    rw [Machine.process?_adjust] at hy
    split at hy
    · obtain ⟨x, hx, rfl⟩ := Option.map_eq_some_iff.1 hy
      exact .inr ⟨x, hx, rfl, .keep hl rfl⟩
    · exact .inr ⟨y, hy, rfl, .keep hl rfl⟩
  | @release _ _ _ q t w _ _ hn =>
    have hr := hreg.phase.releases hn
    refine old (Machine.follows_releases hr) fun x hx => ?_
    by_cases hq : q = p
    · subst hq
      refine .restore ⟨.released q t, ?_, t, rfl⟩ ?_ (priority_released hr hy)
      · simp [releaseEntries]
      · simp [forall_mem_releaseEntries, Activity.Gains]
    · refine same ?_ (priorityOf_released hr (Ne.symm hq)) x hx
      simp [forall_mem_releaseEntries, Activity.Gains, Activity.GivesUp, hq]
  | exit =>
    exact old (Machine.follows_adjust fun x => x.alike_turn _)
      (same (by simp [Activity.Gains, Activity.GivesUp]) (priorityOf_adjust fun _ => rfl))
  | close _ hn =>
    obtain ⟨-, rfl⟩ := Machine.advance_eq_ok.1 hn
    refine old (.refl _) (same (fun e he => ?_) rfl)
    rcases mem_closingEntries he with rfl | ⟨_, _, _, rfl⟩ <;>
      simp [Activity.Gains, Activity.GivesUp]

/-! ## Runs -/

/-- How `p`, whose record is `x`, has come to its priority. -/
inductive Standing (c : Scenario) (j : Journal) (m : Machine) (p : Pid) (x : ProcessRecord) : Prop
  | fresh : x.priority = x.basePriority → (∀ r, m.resources.owner? r ≠ some p) → Standing c j m p x
  | raised : x.priority = c.limits.maxPriority →
      j.Since (Activity.Gains p) (Activity.GivesUp p) → Standing c j m p x
  | restored : x.priority = x.basePriority →
      j.Since (Activity.GivesUp p) (Activity.Gains p) → Standing c j m p x

/-- A process that neither gains nor gives up anything in a move owns what it owned. -/
theorem owns_quiet (hreg : a.Regular c) {s : Strategy} (hm : Move s a l b)
    (hl : ∀ e ∈ l, ¬ e.Gains p ∧ ¬ e.GivesUp p) :
    b.machine.resources.owner? r = some p ↔ a.machine.resources.owner? r = some p :=
  owns_move hreg hm (fun k hk => (hl _ hk).1 ⟨r, k, rfl⟩) fun hk => (hl _ hk).2 ⟨r, rfl⟩

theorem Path.standing (hc : c.Valid) (g : Path .priorityCeiling (opening c).moment j a) :
    ∀ p x, a.machine.process? p = some x → Standing c j a.machine p x := by
  induction g with
  | refl =>
    intro p x hx
    cases hx
  | @snoc a b j l g hm ih =>
    intro p y hy
    have hreg := g.regular hc
    rcases ceiling_move hreg hm hy with ⟨hnew, hl, hp⟩ | ⟨x, hx, hbase, hstep⟩
    · refine .fresh hp fun r ho => ?_
      rw [owns_quiet hreg hm hl] at ho
      exact (hreg.filed.owner_alive r p ho).1 (by rw [Machine.status?, hnew]; rfl)
    · cases hstep with
      | keep hl hp =>
        rcases ih p x hx with ⟨hx, ho⟩ | ⟨hx, hs⟩ | ⟨hx, hs⟩
        · exact .fresh (by rw [hp, hbase, hx]) fun r => by
            rw [ne_eq, owns_quiet hreg hm hl]
            exact ho r
        · exact .raised (by rw [hp, hx]) (hs.append fun e he => (hl e he).2)
        · exact .restored (by rw [hp, hbase, hx]) (hs.append fun e he => (hl e he).1)
      | raise hg hl hp =>
        obtain ⟨e, he, hgain⟩ := hg
        exact .raised hp (Journal.since_of_mem he hgain hl)
      | restore hg hl hp =>
        obtain ⟨e, he, hgive⟩ := hg
        exact .restored hp (Journal.since_of_mem he hgive hl)

end Simulation

open Simulation

variable {c : Scenario}

/-- At the end of every tick the owner of a resource has at least the maximum priority, unless its
base priority is below that and it has released something since it last acquired anything; and it
has at least its base priority, unless that is above the maximum and it has released nothing since
it last acquired anything. -/
theorem ceiling_kept_unless_undone (hc : c.Valid) {k : Nat} {t : TickResult}
    (hk : tickAt .priorityCeiling c k = some t) {p : Pid} {r : ResourceId}
    (ho : t.after.machine.resources.owner? r = some p) :
    ∃ x, t.after.machine.process? p = some x ∧
      (c.limits.maxPriority ≤ x.priority ∨ x.basePriority < c.limits.maxPriority ∧
        (historyAt .priorityCeiling c k).Since (Activity.GivesUp p) (Activity.Gains p)) ∧
      (x.basePriority ≤ x.priority ∨ c.limits.maxPriority < x.basePriority ∧
        (historyAt .priorityCeiling c k).Since (Activity.Gains p) (Activity.GivesUp p)) := by
  obtain ⟨e, hpath, he, -⟩ := tickAt_moment hc hk
  rw [← he] at ho ⊢
  obtain ⟨x, hx⟩ := Machine.status?_ne_none.1 ((hpath.regular hc).filed.owner_alive r p ho).1
  refine ⟨x, hx, ?_⟩
  rcases hpath.standing hc p x hx with ⟨-, hfree⟩ | ⟨hp, hs⟩ | ⟨hp, hs⟩
  · exact absurd ho (hfree r)
  · rw [hp]
    refine ⟨.inl (Nat.le_refl _), ?_⟩
    by_cases hle : x.basePriority ≤ c.limits.maxPriority
    · exact .inl hle
    · exact .inr ⟨Nat.lt_of_not_le hle, hs⟩
  · rw [hp]
    refine ⟨?_, .inl (Nat.le_refl _)⟩
    by_cases hle : c.limits.maxPriority ≤ x.basePriority
    · exact .inl hle
    · exact .inr ⟨Nat.lt_of_not_le hle, hs⟩

theorem ceiling_kept_unless_undone_contended :
    ∃ t x, tickAt .priorityCeiling .contended 1 = some t ∧
      t.after.machine.resources.owner? ⟨0⟩ = some ⟨1⟩ ∧ t.after.machine.process? ⟨1⟩ = some x ∧
      (Scenario.contended.limits.maxPriority ≤ x.priority ∨
        x.basePriority < Scenario.contended.limits.maxPriority ∧
          (historyAt .priorityCeiling .contended 1).Since (Activity.GivesUp ⟨1⟩)
            (Activity.Gains ⟨1⟩)) ∧
      (x.basePriority ≤ x.priority ∨ Scenario.contended.limits.maxPriority < x.basePriority ∧
        (historyAt .priorityCeiling .contended 1).Since (Activity.Gains ⟨1⟩)
          (Activity.GivesUp ⟨1⟩)) := by
  obtain ⟨t, hk, ho⟩ := exists_tickAt (s := .priorityCeiling) (c := .contended) (k := 1)
    (P := fun t => t.after.machine.resources.owner? ⟨0⟩ = some ⟨1⟩) (by decide)
  obtain ⟨x, hx, hmax, hbase⟩ := ceiling_kept_unless_undone (by decide) hk ho
  exact ⟨t, x, hk, ho, hx, hmax, hbase⟩

/-- One process with the whole machine to itself. -/
def Scenario.alone (priority : Nat) (holds : List Hold) : Scenario where
  jobs := [
    { pid := ⟨1⟩, name := "alone", start := 0, lifespan := 3, priority := priority,
      holds := holds }]
  resourceCount := 2
  limits := .standard
  maxTicks := 20
  audit := true

/-- An owner can have less than the maximum priority, because it has given up another resource, and
less than its own base priority, because that is above the maximum. -/
theorem ceiling_missed :
    (∃ c : Scenario, c = .alone 1 [⟨⟨0⟩, 0, 2⟩, ⟨⟨1⟩, 0, 1⟩] ∧ c.Valid ∧
      ∃ t, tickAt .priorityCeiling c 0 = some t ∧
        t.after.machine.resources.owner? ⟨0⟩ = some ⟨1⟩ ∧
        ∃ x, x ∈ t.after.machine.process? ⟨1⟩ ∧ x.priority < c.limits.maxPriority) ∧
    ∃ c : Scenario, c = .alone 150 [⟨⟨0⟩, 0, 2⟩] ∧ c.Valid ∧
      ∃ t, tickAt .priorityCeiling c 0 = some t ∧
        t.after.machine.resources.owner? ⟨0⟩ = some ⟨1⟩ ∧
        ∃ x, x ∈ t.after.machine.process? ⟨1⟩ ∧ x.priority < x.basePriority :=
  ⟨⟨_, rfl, by decide, exists_tickAt (by decide)⟩, _, rfl, by decide, exists_tickAt (by decide)⟩

end Uniprocessor
