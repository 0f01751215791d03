import Uniprocessor.Proofs.Aging
import Uniprocessor.Proofs.Kept
/-
  What aging adds.

  A process that is ready and not chosen gains one priority by every decision until it is at the
  cap (`climb_decides`), and nothing by what happens between decisions, in however few ticks
  these are made (`Path.climbed`).  A process that is requeued is back at its base when the aging
  of that decision starts (`requeued_at_base`).  So no priority is ever below the base, and none is
  above it and above the cap (`kept_between`).

  Main statement: `aging_exact`.
-/

namespace Uniprocessor

/-- The priority `q` after `n` times of aging. -/
def climbed (cap q n : Nat) : Nat := if cap ≤ q then q else min (q + n) cap

theorem climbed_zero (cap q : Nat) : climbed cap q 0 = q := by
  unfold climbed
  split <;> omega

theorem climbed_climbed (cap q i k : Nat) :
    climbed cap (climbed cap q i) k = climbed cap q (i + k) := by
  unfold climbed
  grind

namespace Simulation

variable {c : Scenario} {a b : Moment} {l : List Activity} {j : Journal} {m n k : Machine}
variable {p w : Pid} {x : ProcessRecord} {d : Decision}

/-! ## Waiting -/

theorem climbed_ageReady (hm : m.Filed) (hw : w ∈ m.ready.pids) :
    priorityOf m.ageReady w = climbed m.limits.agingCap (priorityOf m w) 1 := by
  rw [priorityOf_ageReady hm hw, climbed]
  grind

/-- A decision for another raises a ready process once. -/
theorem climb_decides (hm : m.Filed)
    (hd : ∀ p x, m.process? p = some x → x.status = .running → x.isDone = false)
    (hw : w ∈ m.ready.pids) (hdec : Policy.priorityAging.Decides m n d) (hne : d.next ≠ some w) :
    w ∈ n.ready.pids ∧ priorityOf n w = climbed m.limits.agingCap (priorityOf m w) 1 := by
  have hstays {k : Machine} (hr : Policy.priorityAging.Retires m k) : w ∈ k.ready.pids := by
    obtain ⟨tail, htail⟩ := hr.ready
    simp [htail, hw]
  cases hdec with
  | keep _ hkeep => cases hkeep
  | idle hr hempty =>
    have hmem := hstays hr
    rw [Policy.ready_ripen] at hempty
    simp [hempty] at hmem
  | @pick k v x hr _ _ _ =>
    -- another one leaves the queue, after `w` has been aged with the rest of it
    have hvw : v ≠ w := fun he => hne (congrArg some he)
    constructor
    · change w ∈ (Policy.priorityAging.ripen k).ready.pids.erase v
      rw [Policy.ready_ripen]
      exact (List.mem_erase_of_ne hvw.symm).2 (hstays hr)
    · have hrecord : priorityOf k w = priorityOf m w := priorityOf_congr (process?_retires hr hw)
      rw [← hrecord, ← hr.steady.limits, ← climbed_ageReady (hm.retires hd hr).1 (hstays hr)]
      refine priorityOf_congr ?_
      rw [Machine.process?_seat, Machine.process?_dequeue, Machine.process?_put, if_neg hvw]
      rfl

/-- What is ready and not chosen stays ready, and its priority climbs by the decisions alone. -/
theorem climb_move (hreg : a.Regular c) (hm : Move .priorityAging a l b)
    (hw : w ∈ a.machine.ready.pids) (hne : some w ∉ l.filterMap Activity.choice?) :
    w ∈ b.machine.ready.pids ∧ priorityOf b.machine w =
      climbed c.limits.agingCap (priorityOf a.machine w)
        (l.filterMap Activity.choice?).length := by
  rcases undisturbed_or_decides hreg hm hw with
    ⟨hl, ⟨tail, hready⟩, hprio, -⟩ | ⟨d, hl, hphase, hd⟩
  · rw [hl, List.length_nil, climbed_zero, hready]
    exact ⟨List.mem_append_left _ hw, hprio⟩
  · rw [hl, List.mem_singleton] at hne
    rw [hl, List.length_singleton, ← hreg.scripted.limits]
    exact climb_decides hreg.filed (unfinished_of_deciding hreg hphase) hw hd (Ne.symm hne)

theorem Path.climbed (hc : c.Valid) (ha : a.Regular c) (hw : w ∈ a.machine.ready.pids)
    (g : Path .priorityAging a j b) (hne : some w ∉ j.choices) :
    w ∈ b.machine.ready.pids ∧ priorityOf b.machine w =
      climbed c.limits.agingCap (priorityOf a.machine w) j.choices.length := by
  induction g with
  | refl => exact ⟨hw, (climbed_zero _ _).symm⟩
  | snoc g hm ih =>
    rw [choices_snoc, List.mem_append, not_or] at hne
    obtain ⟨hready, hprio⟩ := ih hne.1
    obtain ⟨hstays, hclimbs⟩ := climb_move (ha.path hc g) hm hready hne.2
    rw [choices_snoc, List.length_append, ← climbed_climbed, ← hprio]
    exact ⟨hstays, hclimbs⟩

/-! ## Requeueing -/

/-- What a decision requeues is at its base when the aging of that decision starts. -/
theorem requeued_at_base (hw : m.Works p) (hx : m.process? p = some x)
    (h : Strategy.priorityAging.schedule m = .ok (n, d)) :
    ∃ k l, Policy.priorityAging.retire m = .ok (k, none) ∧ p ∈ k.ready.pids ∧
      k.process? p = some (x.restorePriority.turn .ready) ∧
      Policy.ageAll k k.ready.pids = .ok l ∧ Policy.priorityAging.pick k = .ok (n, d) := by
  change Policy.priorityAging.schedule m = .ok (n, d) at h
  unfold Policy.schedule at h
  obtain ⟨⟨k, kept⟩, hk, hpick⟩ := bind_eq_ok.1 h
  rcases Policy.retire_cases hk with ⟨rfl, hret⟩ | ⟨_, _, _, _, hkeep⟩
  · have hage : ∃ l, Policy.ageAll k k.ready.pids = .ok l := by
      unfold Policy.pick at hpick
      obtain ⟨_, hprefer, -⟩ := bind_eq_ok.1 hpick
      obtain ⟨l, hl, -⟩ := bind_eq_ok.1 hprefer
      exact ⟨l, hl⟩
    obtain ⟨l, hl⟩ := hage
    cases hret with
    | leave hidle => exact absurd hw (hidle p)
    | @requeue q hq =>
      obtain rfl : q = p := Option.some.inj (hq.1.symm.trans hw.1)
      refine ⟨_, l, hk, by simp, ?_, hl, hpick⟩
      rw [Machine.process?_enqueue, Machine.process?_adjust, if_pos rfl, Machine.process?_adjust,
        if_pos rfl, hx]
      rfl
  · cases hkeep

/-! ## Bounds -/

/-- The priority is not below the base, and not above it and above the cap. -/
def Between (cap : Nat) (x : ProcessRecord) : Prop :=
  x.basePriority ≤ x.priority ∧ x.priority ≤ max x.basePriority cap

theorem kept_between (c : Scenario) : Kept .priorityAging c (Between c.limits.agingCap) where
  job j _ := ⟨Nat.le_refl _, Nat.le_max_left _ _⟩
  turn _ _ hx := hx
  aged _ _ hx := hx
  restore x _ := ⟨Nat.le_refl _, Nat.le_max_left _ _⟩
  bump _ x hx := by
    unfold Between Policy.bump at *
    grind
  promote _ hx := hx
  raise _ _ _ hy := hy

end Simulation

open Simulation

variable {c : Scenario}

/-- Aging is exact and bounded.  A ready process that none of the decisions of a stretch chooses is
still ready afterwards and has gained as many priorities as there were decisions, but none at the
cap or above; a running process that is requeued is back at its base when the aging of that
decision starts; and at every moment every priority is between the base and the greater of the
base and the cap.  The journal of a run is that of such a path: the decisions in it are made at
moments of the run, between any two of which who is not chosen climbs by as many decisions as the
journal has there. -/
theorem aging_exact (hc : c.Valid) :
    (∀ i a j b w, Path .priorityAging (opening c).moment i a → w ∈ a.machine.ready.pids →
      Path .priorityAging a j b → some w ∉ j.choices →
      w ∈ b.machine.ready.pids ∧ priorityOf b.machine w =
        if c.limits.agingCap ≤ priorityOf a.machine w then priorityOf a.machine w
        else min (priorityOf a.machine w + j.choices.length) c.limits.agingCap) ∧
    (∀ m p x n d, m.Works p → m.process? p = some x →
      Strategy.priorityAging.schedule m = .ok (n, d) →
      ∃ k l y, Policy.priorityAging.retire m = .ok (k, none) ∧
        Policy.ageAll k k.ready.pids = .ok l ∧ Policy.priorityAging.pick k = .ok (n, d) ∧
        p ∈ k.ready.pids ∧ k.process? p = some y ∧ y.priority = x.basePriority) ∧
    (∀ i a, Path .priorityAging (opening c).moment i a → a.machine.All fun x =>
      x.basePriority ≤ x.priority ∧ x.priority ≤ max x.basePriority c.limits.agingCap) ∧
    ∀ f, playAll .priorityAging c = .ok f →
      (∃ e, Path .priorityAging (opening c).moment f.journal e ∧ e.machine = f.machine) ∧
      ∀ i j k t o d t' o' d',
        f.journal = i ++ (t, .decided o d) :: (j ++ (t', .decided o' d') :: k) →
        ∃ a b e, Path .priorityAging (opening c).moment i a ∧
          Path .priorityAging a ((t, .decided o d) :: j) b ∧
          Path .priorityAging b ((t', .decided o' d') :: k) e ∧ e.machine = f.machine ∧
          (a.machine.tick = t ∧ ∃ n, Strategy.priorityAging.schedule a.machine = .ok (n, d)) ∧
          (b.machine.tick = t' ∧ ∃ n, Strategy.priorityAging.schedule b.machine = .ok (n, d')) ∧
          a.machine.All (Between c.limits.agingCap) ∧
          b.machine.All (Between c.limits.agingCap) ∧
          ∀ w ∈ a.machine.ready.pids, some w ∉ Journal.choices ((t, .decided o d) :: j) →
            w ∈ b.machine.ready.pids ∧ priorityOf b.machine w =
              climbed c.limits.agingCap (priorityOf a.machine w)
                (Journal.choices ((t, .decided o d) :: j)).length := by
  refine ⟨fun i a j b w hi hw g hne => g.climbed hc (hi.regular hc) hw hne,
    fun m p x n d hp hx h => ?_, fun i a hi => hi.kept hc (kept_between c), fun f hf => ?_⟩
  · obtain ⟨k, l, hretire, hready, hrecord, hage, hpick⟩ := requeued_at_base hp hx h
    exact ⟨k, l, _, hretire, hage, hpick, hready, hrecord, rfl⟩
  · obtain ⟨e, hpath, he⟩ := (ends_unbroken hc (regular_opening hc) (playAll_ends hf)).1
    refine ⟨⟨e, hpath, he⟩, fun i j k t o d t' o' d' hj => ?_⟩
    obtain ⟨a, ha, -, ht, -, hn, hrest⟩ := hpath.split_decided hj
    obtain ⟨b, hb, -, ht', -, hn', hlast⟩ := hrest.split_decided List.cons_append.symm
    have hab := ha.trans hb
    exact ⟨a, b, e, ha, hb, hlast, he, ⟨ht, hn⟩, ⟨ht', hn'⟩, ha.kept hc (kept_between c),
      hab.kept hc (kept_between c), fun w hw hne => hb.climbed hc (ha.regular hc) hw hne⟩

/-- Three processes arrive while a fourth one holds what the first of them needs; two of them are
above the cap on aging. -/
def Scenario.simmering : Scenario where
  jobs := [
    { pid := ⟨1⟩, name := "holder", start := 0, lifespan := 3, priority := 0,
      holds := [{ resource := ⟨0⟩, since := 0, duration := 2 }] },
    { pid := ⟨2⟩, name := "needy", start := 1, lifespan := 1, priority := 9,
      holds := [{ resource := ⟨0⟩, since := 0, duration := 1 }] },
    { pid := ⟨3⟩, name := "free", start := 1, lifespan := 2, priority := 9, holds := [] },
    { pid := ⟨4⟩, name := "meek", start := 1, lifespan := 1, priority := 1, holds := [] }]
  resourceCount := 1
  limits := { maxPriority := 10, agingCap := 5 }
  maxTicks := 20
  audit := true

/-- In one tick the needy process is chosen, blocks, and the free one is chosen: the meek one gains
two priorities, and the holder, which aging had raised to 1, starts again from 0.  By the tick in
which the meek one is chosen, who is neither needy nor free has seen three decisions. -/
theorem aging_exact_simmering :
    (∃ i a j b, Path .priorityAging (opening .simmering).moment i a ∧
      Path .priorityAging a j b ∧ j.choices = [some ⟨2⟩, some ⟨3⟩] ∧
      priorityOf a.machine ⟨4⟩ = 1 ∧ priorityOf b.machine ⟨4⟩ = 3 ∧
      priorityOf a.machine ⟨1⟩ = 1 ∧
      (∃ k l y, Policy.priorityAging.retire a.machine = .ok (k, none) ∧
        Policy.ageAll k k.ready.pids = .ok l ∧ ⟨1⟩ ∈ k.ready.pids ∧
        k.process? ⟨1⟩ = some y ∧ y.priority = 0) ∧
      b.machine.All fun x => x.basePriority ≤ x.priority ∧ x.priority ≤ max x.basePriority 5) ∧
    ∃ f i j k d d' a b, playAll .priorityAging .simmering = .ok f ∧
      f.journal =
        i ++ (1, .decided (some ⟨1⟩) d) :: (j ++ (3, .decided (some ⟨3⟩) d') :: k) ∧
      d.next = some ⟨2⟩ ∧ d'.next = some ⟨4⟩ ∧
      Path .priorityAging (opening .simmering).moment i a ∧
      Path .priorityAging a ((1, .decided (some ⟨1⟩) d) :: j) b ∧ b.machine.tick = 3 ∧
      b.machine.All (Between 5) ∧
      ∀ w ∈ a.machine.ready.pids, w ≠ ⟨2⟩ ∧ w ≠ ⟨3⟩ →
        w ∈ b.machine.ready.pids ∧ priorityOf b.machine w =
          climbed 5 (priorityOf a.machine w) 3 := by
  have hc : Scenario.simmering.Valid := by decide
  obtain ⟨hclimbs, hfalls, hbetween, hruns⟩ := aging_exact hc
  constructor
  · obtain ⟨g, hg, m, hm, ⟨n, acts, ran⟩, hn, hready, hcurrent, hholder, hmeek, hacts⟩ :
        ∃ g, startAt .priorityAging .simmering 1 = some g ∧
          ∃ m, (admitAll g.due g.machine).toOption = some m ∧
            ∃ r, (play .priorityAging m).toOption = some r ∧ ⟨4⟩ ∈ m.ready.pids ∧
              m.current = some ⟨1⟩ ∧
              m.process? ⟨1⟩ = some ⟨.running, 1, 3, 1, 0, [⟨⟨0⟩, 0, 2⟩]⟩ ∧
              priorityOf m ⟨4⟩ = 1 ∧
              r.2.1.filterMap Activity.choice? = [some ⟨2⟩, some ⟨3⟩] := by
      simpa only [Option.any_eq_true, decide_eq_true_eq] using
        show (startAt .priorityAging .simmering 1).any (fun g =>
          (admitAll g.due g.machine).toOption.any fun m =>
            (play .priorityAging m).toOption.any fun r => decide (⟨4⟩ ∈ m.ready.pids ∧
              m.current = some ⟨1⟩ ∧
              m.process? ⟨1⟩ = some ⟨.running, 1, 3, 1, 0, [⟨⟨0⟩, 0, 2⟩]⟩ ∧
              priorityOf m ⟨4⟩ = 1 ∧
              r.2.1.filterMap Activity.choice? = [some ⟨2⟩, some ⟨3⟩])) = true by
          decide
    obtain ⟨-, hadmit⟩ := admitDue_path (s := .priorityAging) (toOption_eq_some.1 hm)
    obtain ⟨-, hplay⟩ := play_path (b := m) (u := g.later) (toOption_eq_some.1 hn)
    have hpath := (startAt_moment hc hg).2.trans hadmit
    rw [← choices_stamp m.tick] at hacts
    have hclimbed := (hclimbs _ _ _ _ ⟨4⟩ hpath hready hplay (by rw [hacts]; decide)).2
    rw [hacts, hmeek] at hclimbed
    obtain ⟨n', d, hn'⟩ := (hpath.regular hc).filed.exists_schedule (π := .priorityAging)
    obtain ⟨k, l, y, hretire, hage, -, hqueued, hy, hbase⟩ :=
      hfalls m ⟨1⟩ _ n' d ⟨hcurrent, _, hholder, rfl, rfl⟩ hholder hn'
    exact ⟨_, _, _, _, hpath, hplay, hacts, hmeek, hclimbed, priorityOf_of hholder,
      ⟨k, l, y, hretire, hage, hqueued, hy, hbase⟩, hbetween _ _ (hpath.trans hplay)⟩
  · let d : Decision := .pick ⟨2⟩ ⟨.running, 0, 1, 9, 9, [⟨⟨0⟩, 0, 1⟩]⟩
    let d' : Decision := .pick ⟨4⟩ ⟨.running, 0, 1, 5, 1, []⟩
    have hplay : (playAll .priorityAging .simmering).toOption.any (fun f => decide (
        f.journal = f.journal.take 8 ++ (1, .decided (some ⟨1⟩) d) ::
          ((f.journal.drop 9).take 10 ++ (3, .decided (some ⟨3⟩) d') :: f.journal.drop 20) ∧
        Journal.choices ((1, .decided (some ⟨1⟩) d) :: (f.journal.drop 9).take 10) =
          [some ⟨2⟩, some ⟨3⟩, some ⟨3⟩])) = true := by decide
    obtain ⟨f, hf, hfound⟩ := Option.any_eq_true _ _ |>.1 hplay
    have hf := toOption_eq_some.1 hf
    obtain ⟨hj, hchoices⟩ := of_decide_eq_true hfound
    obtain ⟨a, b, e, ha, hb, -, -, -, ⟨ht, -⟩, -, hkept, hclimbed⟩ :=
      (hruns f hf).2 _ _ _ _ _ _ _ _ _ hj
    rw [hchoices] at hclimbed
    refine ⟨f, _, _, _, _, _, a, b, hf, hj, rfl, rfl, ha, hb, ht, hkept, fun w hw hne => ?_⟩
    exact hclimbed w hw (by simp [hne.1, hne.2])

end Uniprocessor
