import Mathlib.Data.Set.Defs
import Uniprocessor.Proofs.Regular
/-
  What a run keeps of the records of its processes.

  A record changes in a few ways only: its status and its age are set, it falls back to its base
  priority, it ages, it is promoted by what its process acquires, or it takes over the priority of
  another record.  A property that all jobs bring with them and that survives each of these
  (`Kept`) holds of every record at every moment of a run (`Path.kept`).
-/

namespace Uniprocessor

namespace Simulation

/-- Every job brings the property `P` with it, and no change of a record under `s` loses it. -/
structure Kept (s : Strategy) (c : Scenario) (P : ProcessRecord → Prop) : Prop where
  job : ∀ j ∈ c.jobs, P (.ofJob j)
  turn : ∀ t x, P x → P (x.turn t)
  aged : ∀ a x, P x → P (x.aged a)
  restore : ∀ x, P x → P x.restorePriority
  bump : s.policy = .priorityAging → ∀ x, P x → P (Policy.bump c.limits.agingCap x)
  promote : ∀ x, P x → P (s.protocol.promote c.limits x)
  raise : ∀ x y, P x → P y → P (s.protocol.raise x.priority y)

namespace Kept

variable {s : Strategy} {c : Scenario} {P : ProcessRecord → Prop} {a b : Moment}
variable {l : List Activity} {m n : Machine}

theorem reset (h : Kept s c P) {x : ProcessRecord} (hx : P x) : P (s.policy.reset x) := by
  unfold Policy.reset
  split
  · exact h.restore x hx
  · exact hx

theorem relax (h : Kept s c P) {x : ProcessRecord} (hx : P x) : P (s.protocol.relax x) := by
  cases s.protocol with
  | mutex _ => exact hx
  | ceiling _ | inheritance => exact h.restore x hx

theorem retires (h : Kept s c P) (hm : m.All P) (hr : s.policy.Retires m n) : n.All P :=
  hm.retires h.turn (fun _ => h.reset) hr

theorem ripen (h : Kept s c P) (hlimits : m.limits = c.limits) (hm : m.All P) :
    (s.policy.ripen m).All P := by
  by_cases hs : s.policy = .priorityAging
  · refine hm.ripen ?_
    rw [hlimits]
    exact h.bump hs
  · rwa [Policy.ripen_eq hs]

theorem decides (h : Kept s c P) (hlimits : m.limits = c.limits) (hm : m.All P) {d : Decision}
    (hd : s.policy.Decides m n d) : n.All P := by
  cases hd with
  | keep => exact hm
  | idle hr _ => exact h.ripen (hr.steady.limits.trans hlimits) (h.retires hm hr)
  | pick hr _ hx _ =>
    have hripe := h.ripen (hr.steady.limits.trans hlimits) (h.retires hm hr)
    exact hripe.put (h.turn _ _ (hripe _ _ hx))

theorem acquires (h : Kept s c P) (hlimits : m.limits = c.limits) (hm : m.All P)
    {r : ResourceId} {p : Pid} {reply : Reply} (ha : s.protocol.Acquires m r p n reply) :
    n.All P := by
  refine hm.acquires h.turn ?_ h.raise ha
  rw [hlimits]
  exact h.promote

theorem move (h : Kept s c P) (hreg : a.Regular c) (ha : a.machine.All P) (hm : Move s a l b) :
    b.machine.All P := by
  have hlimits := hreg.scripted.limits
  have hphase := hreg.phase
  cases hm with
  | @arrive m _ _ j _ _ hn =>
    obtain ⟨-, -, rfl⟩ := Machine.fork_eq_ok.1 hn
    intro p x hx
    change (m.enroll j).process? p = some x at hx
    rw [Machine.process?_enroll] at hx
    split at hx
    · cases hx
      exact h.job j (hreg.pending j List.mem_cons_self).1
    · exact ha p x hx
  | begin | remain => exact ha
  | idle hn => exact h.decides hlimits ha (Policy.schedule_decides hn)
  | dispatch hn => exact h.decides hlimits ha (Policy.schedule_decides hn)
  | grant hn => exact h.acquires hlimits ha (hphase.2.acquires hn)
  | block hn => exact h.acquires hlimits ha (hphase.2.acquires hn)
  | @run _ _ _ _ p _ _ _ _ hn =>
    obtain ⟨_, -, -, -, rfl⟩ := Machine.grow_eq_ok.1 hn
    exact ha.adjust fun x hx => h.aged _ x (ha p x hx)
  | release hn => exact ha.releases h.turn (fun _ => h.relax) (Returns.releases hphase hn)
  | @exit _ _ p => exact ha.adjust fun x hx => h.turn _ x (ha p x hx)
  | close _ hn =>
    obtain ⟨-, rfl⟩ := Machine.advance_eq_ok.1 hn
    exact ha

end Kept

variable {s : Strategy} {c : Scenario} {P : ProcessRecord → Prop} {a b : Moment} {j : Journal}

/-- What every job brings with it and no change loses holds of every record of a run. -/
theorem Path.kept (hc : c.Valid) (h : Kept s c P) (g : Path s (opening c).moment j a) :
    a.machine.All P := by
  induction g with
  | refl => exact fun p x hx => by cases hx
  | snoc g hm ih => exact h.move (g.regular hc) ih hm

/-- The machine that the end of a tick compares with is one of the run. -/
theorem Path.exists_before (g : Path s a j b) (ha : a.before = a.machine) :
    ∃ i d, Path s a i d ∧ d.machine = b.before := by
  induction g with
  | refl => exact ⟨[], a, .refl, ha.symm⟩
  | snoc g hm ih =>
    have hnext := g.snoc hm
    cases hm with
    | arrive | begin | close => exact ⟨_, _, hnext, rfl⟩
    | idle | dispatch | grant | block | run | release | remain | exit => exact ih

theorem Path.kept_before (hc : c.Valid) (h : Kept s c P) (g : Path s (opening c).moment j a) :
    a.before.All P := by
  obtain ⟨i, d, hd, hbefore⟩ := g.exists_before rfl
  rw [← hbefore]
  exact hd.kept hc h

/-- The priorities of the record are in `S`. -/
def Drawn (S : Set Nat) (x : ProcessRecord) : Prop := x.priority ∈ S ∧ x.basePriority ∈ S

/-- Priorities are drawn from those of the jobs and the maximum of a ceiling protocol. -/
theorem kept_drawn {S : Set Nat} (hs : s.policy ≠ .priorityAging)
    (hjobs : ∀ j ∈ c.jobs, j.priority ∈ S)
    (hmax : ∀ order, s.protocol = .ceiling order → c.limits.maxPriority ∈ S) :
    Kept s c (Drawn S) where
  job j hj := ⟨hjobs j hj, hjobs j hj⟩
  turn _ _ hx := hx
  aged _ _ hx := hx
  restore _ hx := ⟨hx.2, hx.2⟩
  bump haging := absurd haging hs
  promote x hx := by
    cases hκ : s.protocol with
    | mutex _ | inheritance => exact hx
    | ceiling order => exact ⟨hmax order hκ, hx.2⟩
  raise x y hx hy := by
    cases s.protocol with
    | mutex _ | ceiling _ => exact hy
    | inheritance =>
      change max y.priority x.priority ∈ S ∧ y.basePriority ∈ S
      rcases Nat.le_total y.priority x.priority with hle | hle
      · rw [Nat.max_eq_right hle]
        exact ⟨hx.1, hy.2⟩
      · rwa [Nat.max_eq_left hle]

end Simulation

end Uniprocessor
