import Uniprocessor.Proofs.Rules
/-
  Every policy is its reference definition.

  `Policy.outcome` says what a decision is without going through queues.  The candidates are the
  ready processes in their order and, where the policy is preemptive, the running one behind them.
  They are compared by the records with which they enter the decision, the running one reset and
  then all of them aged if that is the policy.  The first that none other beats is chosen.  It
  leaves the candidates and runs, the others are ready, and nothing else is touched.

  Main statement: `schedule_eq_outcome`, on every machine that passes the audit, knows the
  process on its CPU and has not let it run beyond its lifespan.
-/

namespace Uniprocessor

namespace PidMap

variable {α : Type}

/-- Replaces every value by what `f` makes of it. -/
def map (f : Pid → α → α) (m : PidMap α) : PidMap α := ⟨m.entries.map fun e => (e.1, f e.1 e.2)⟩

theorem get?_map (f : Pid → α → α) (m : PidMap α) (p : Pid) :
    (m.map f).get? p = (m.get? p).map (f p) := by
  obtain ⟨l⟩ := m
  simp only [map, get?]
  induction l with
  | nil => rfl
  | cons e l ih =>
    simp only [List.map_cons, find]
    split
    · next h => simp [h]
    · exact ih

theorem Sorted.map {m : PidMap α} (h : m.Sorted) (f : Pid → α → α) : (m.map f).Sorted :=
  List.pairwise_map.2 h

end PidMap

/-- The process that is running. -/
def Machine.runner? (m : Machine) : Option Pid :=
  m.current.filter fun p => m.status? p = some .running

/-- No running process has used up its lifespan. -/
def Machine.Unspent (m : Machine) : Prop :=
  ∀ p x, m.process? p = some x → x.status = .running → x.isDone = false

namespace Policy

/-! ## The reference -/

/-- Who can get the CPU; of equals the first does. -/
def candidates (π : Policy) (m : Machine) : List Pid :=
  m.ready.pids ++ if π.isPreemptive then m.runner?.toList else []

/-- The record with which a candidate enters the decision. -/
def entrant (π : Policy) (m : Machine) (p : Pid) (x : ProcessRecord) : ProcessRecord :=
  let y := if m.runner? = some p then π.reset x else x
  if π = .priorityAging then bump m.limits.agingCap y else y

/-- The candidate named `p` with its record. -/
def contender? (π : Policy) (m : Machine) (p : Pid) : Option (Pid × ProcessRecord) :=
  (m.process? p).map fun x => (p, π.entrant m p x)

/-- The candidates with their records. -/
def lineup (π : Policy) (m : Machine) : List (Pid × ProcessRecord) :=
  (π.candidates m).filterMap (π.contender? m)

instance (π : Policy) (x y : ProcessRecord) : Decidable (π.beats x y) := by
  cases π <;> unfold beats <;> infer_instance

/-- The first candidate that none other beats. -/
def choice? (π : Policy) (m : Machine) : Option (Pid × ProcessRecord) :=
  (π.lineup m).find? fun a => decide (∀ b ∈ π.lineup m, ¬ π.beats b.2 a.2)

/-- The record of `q` after the candidate `p` was chosen. -/
def settle (π : Policy) (m : Machine) (p q : Pid) (x : ProcessRecord) : ProcessRecord :=
  if q ∈ π.candidates m then (π.entrant m q x).turn (if q = p then .running else .ready) else x

/-- The machine after a decision, and the decision. -/
def outcome (π : Policy) (m : Machine) : Machine × Decision :=
  match if π.isPreemptive then none else m.runner? with
  | some p => (m, .keep p)
  | none =>
    match π.choice? m with
    | none => ({ m with current := none }, .idle)
    | some (p, x) =>
      ({ m with
        processes := m.processes.map (π.settle m p)
        ready := ⟨(π.candidates m).erase p⟩
        current := some p }, .pick p (x.turn .running))

variable {π : Policy} {m n k : Machine} {p q : Pid} {x y : ProcessRecord}

/-! ## What statuses do not matter to -/

theorem turn_of_status {s : Status} (h : x.status = s) : x.turn s = x := by
  cases h
  rfl

theorem bump_turn (cap : Nat) (s : Status) (x : ProcessRecord) :
    bump cap (x.turn s) = (bump cap x).turn s := by
  unfold bump ProcessRecord.turn
  split <;> rfl

theorem beats_turn (s t : Status) : π.beats (x.turn s) (y.turn t) ↔ π.beats x y := by
  cases π <;> rfl

theorem beats_irrefl (x : ProcessRecord) : ¬ π.beats x x := by
  cases π <;> simp [beats]

theorem beats_asymm (h : π.beats x y) : ¬ π.beats y x := by
  cases π <;> simp only [beats] at h ⊢ <;> omega

theorem beats_trans {z : ProcessRecord} (h : π.beats x y) (g : π.beats y z) : π.beats x z := by
  cases π <;> simp only [beats] at h g ⊢ <;> omega

/-- What beats another beats, or is beaten by, any third. -/
theorem beats_cotrans {z : ProcessRecord} (h : π.beats x z) : π.beats x y ∨ π.beats y z := by
  cases π <;> simp only [beats] at h ⊢ <;> omega

/-! ## Retiring -/

theorem runner?_eq_some :
    m.runner? = some p ↔ m.current = some p ∧ m.status? p = some .running := by
  simp [Machine.runner?, Option.filter_eq_some_iff]

theorem works_iff (hu : m.Unspent) : m.Works p ↔ m.runner? = some p := by
  rw [runner?_eq_some, Machine.status?_eq_some]
  exact and_congr_right fun _ => exists_congr fun x =>
    and_congr_right fun hx => and_iff_left_of_imp (hu p x hx)

theorem isPreemptive_iff : π.isPreemptive = true ↔ π.retirement ≠ .keep := by
  simp [isPreemptive]

/-- Once the current process has retired, the ready queue holds the candidates in their order. -/
theorem Retires.candidates (hu : m.Unspent) (h : π.Retires m n) :
    n.ready.pids = π.candidates m := by
  unfold Policy.candidates
  cases h with
  | leave hw =>
    have hnone : m.runner? = none :=
      Option.eq_none_iff_forall_ne_some.2 fun p hp => hw p ((works_iff hu).2 hp)
    simp [hnone]
  | requeue hw hret _ => simp [(works_iff hu).1 hw, isPreemptive_iff.2 hret]

theorem Retires.process? (hu : m.Unspent) (h : π.Retires m n) :
    n.process? q = (m.process? q).map fun x =>
      if m.runner? = some q then (π.reset x).turn .ready else x := by
  cases h with
  | leave hw =>
    have hnone : ∀ p, m.runner? ≠ some p := fun p hp => hw p ((works_iff hu).2 hp)
    simp [hnone]
  | @requeue p hw _ _ =>
    have hrun := (works_iff hu).1 hw
    by_cases hpq : p = q
    · subst hpq
      cases hx : m.process? p <;> simp [hx, hrun]
    · simp [hrun, hpq]

/-- A candidate is ready or running. -/
theorem status_of_candidate (hm : m.Filed) (hq : q ∈ π.candidates m) :
    m.status? q = some .ready ∨ m.runner? = some q := by
  unfold candidates at hq
  rcases List.mem_append.1 hq with hq | hq
  · exact .inl ((hm.mem_ready q).1 hq)
  · split at hq
    · exact .inr (Option.mem_toList.1 hq)
    · cases hq

/-- Who retires is a candidate. -/
theorem Retires.mem_candidates (hu : m.Unspent) (h : π.Retires m n) (hq : m.runner? = some q) :
    q ∈ π.candidates m := by
  cases h with
  | leave hw => exact absurd ((works_iff hu).2 hq) (hw q)
  | requeue _ hret _ => simp [Policy.candidates, isPreemptive_iff.2 hret, hq]

/-- A candidate comes out of retiring ready and in need of nothing but the aging. -/
theorem Retires.process?_candidate (hm : m.Filed) (hu : m.Unspent) (h : π.Retires m n) :
    n.process? q = (m.process? q).map fun x =>
      if q ∈ π.candidates m then (if m.runner? = some q then π.reset x else x).turn .ready
      else x := by
  rw [h.process? hu]
  cases hx : m.process? q with
  | none => rfl
  | some x =>
    simp only [Option.map_some, Option.some.injEq]
    by_cases hrun : m.runner? = some q
    · simp only [hrun, if_true, h.mem_candidates hu hrun]
    · simp only [hrun, if_false]
      split
      · next hq =>
        have hs := (status_of_candidate hm hq).resolve_right hrun
        rw [Machine.status?_of hx, Option.some.injEq] at hs
        exact (turn_of_status hs).symm
      · rfl

/-- A candidate enters the decision ready. -/
theorem process?_ripen_retires (hm : m.Filed) (hu : m.Unspent) (h : π.Retires m n) :
    (π.ripen n).process? q = (m.process? q).map fun x =>
      if q ∈ π.candidates m then (π.entrant m q x).turn .ready else x := by
  have hn : n.ready.pids.Nodup := (hm.retires hu h).1.ready_nodup
  have hold := h.process?_candidate (q := q) hm hu
  unfold ripen entrant
  by_cases hπ : π = .priorityAging
  · simp only [hπ, if_true] at *
    rw [Machine.process?_ageReady hn, h.candidates hu, h.steady.limits, hold]
    split
    · simp [Function.comp_def, bump_turn]
    · rfl
  · simp only [hπ, if_false]
    exact hold

/-! ## Choosing -/

theorem contender?_eq_some {a : Pid × ProcessRecord} (h : π.contender? m q = some a) :
    ∃ x, m.process? q = some x ∧ a = (q, π.entrant m q x) := by
  obtain ⟨x, hx, rfl⟩ := Option.map_eq_some_iff.1 h
  exact ⟨x, hx, rfl⟩

/-- The first best candidate is the first that none other beats. -/
theorem find?_of_firstBest {a : Pid × ProcessRecord} {l : List (Pid × ProcessRecord)}
    (h : FirstBest (fun b c => π.beats b.2 c.2) a l) :
    l.find? (fun b => decide (∀ c ∈ l, ¬ π.beats c.2 b.2)) = some a :=
  h.find?_eq_some (fun b => beats_irrefl b.2) fun _ _ => beats_asymm

theorem lineup_eq_nil (hm : m.Filed) : π.lineup m = [] ↔ π.candidates m = [] := by
  refine ⟨fun h => List.eq_nil_iff_forall_not_mem.2 fun q hq => ?_, fun h => ?_⟩
  · have hknown : ∃ x, m.process? q = some x := by
      rcases status_of_candidate hm hq with hs | hs
      · exact Machine.exists_record hs
      · exact Machine.exists_record (runner?_eq_some.1 hs).2
    obtain ⟨x, hx⟩ := hknown
    have hmem : (q, π.entrant m q x) ∈ π.lineup m :=
      List.mem_filterMap.2 ⟨q, hq, by rw [contender?, hx]; rfl⟩
    simp [h] at hmem
  · rw [lineup, h, List.filterMap_nil]

/-- Somebody is chosen unless there is no candidate. -/
theorem choice?_eq_none (hm : m.Filed) : π.choice? m = none ↔ π.candidates m = [] := by
  rw [← lineup_eq_nil hm, choice?]
  refine ⟨fun h => ?_, fun h => by rw [h]; rfl⟩
  cases hl : π.lineup m with
  | nil => rfl
  | cons a l =>
    have hbest := champion_split (fun b c => decide (π.beats b.2 c.2))
      (fun b c d => by simpa only [decide_eq_true_eq] using beats_trans)
      (fun b c d => by simpa only [decide_eq_true_eq] using beats_cotrans) a l
    simp only [decide_eq_true_eq, ← hl] at hbest
    rw [find?_of_firstBest hbest] at h
    cases h

/-- What is picked is the choice. -/
theorem choice?_of_firstBest (hm : m.Filed) (hu : m.Unspent) (h : π.Retires m n)
    (hp : FirstBest ((π.ripen n).Beats π.beats) p (π.candidates m)) (hx : m.process? p = some x) :
    π.choice? m = some (p, π.entrant m p x) := by
  obtain ⟨pre, post, hsplit, hpre, hpost⟩ := hp
  have hrecord : ∀ q ∈ π.candidates m, ∀ y, m.process? q = some y →
      (π.ripen n).process? q = some ((π.entrant m q y).turn .ready) := by
    intro q hq y hy
    rw [process?_ripen_retires hm hu h, hy, Option.map_some, if_pos hq]
  have hpx := hrecord p (by simp [hsplit]) x hx
  have hlineup : π.lineup m = pre.filterMap (π.contender? m) ++
      (p, π.entrant m p x) :: post.filterMap (π.contender? m) := by
    have hself : π.contender? m p = some (p, π.entrant m p x) := by rw [contender?, hx]; rfl
    rw [lineup, hsplit, List.filterMap_append, List.filterMap_cons_some hself]
  refine find?_of_firstBest ⟨_, _, hlineup, fun b hb => ?_, fun b hb => ?_⟩
  · obtain ⟨q, hq, hb⟩ := List.mem_filterMap.1 hb
    obtain ⟨y, hy, rfl⟩ := contender?_eq_some hb
    have hqy := hrecord q (by simp [hsplit, hq]) y hy
    exact (beats_turn _ _).1 ((Machine.beats_iff hpx hqy).1 (hpre q hq))
  · obtain ⟨q, hq, hb⟩ := List.mem_filterMap.1 hb
    obtain ⟨y, hy, rfl⟩ := contender?_eq_some hb
    have hqy := hrecord q (by simp [hsplit, hq]) y hy
    exact fun hbeats => hpost q hq ((Machine.beats_iff hqy hpx).2 ((beats_turn _ _).2 hbeats))

/-! ## Deciding -/

/-- Nobody keeps the CPU once the current process has retired. -/
theorem Retires.not_kept (hu : m.Unspent) (h : π.Retires m n) :
    (if π.isPreemptive then none else m.runner?) = none := by
  split
  · rfl
  · next hpre =>
    refine Option.eq_none_iff_forall_ne_some.2 fun q hq => ?_
    cases h with
    | leave hw => exact hw q ((works_iff hu).2 hq)
    | requeue _ hret _ => exact hpre (isPreemptive_iff.2 hret)

/-- What the records are after a pick. -/
theorem processes_of_pick (hm : m.Filed) (hu : m.Unspent) (h : π.Retires m n)
    (hx : (π.ripen n).process? p = some x) (hp : p ∈ π.candidates m) :
    ((π.ripen n).put p (x.turn .running)).processes = m.processes.map (π.settle m p) := by
  have hsorted : (π.ripen n).processes.Sorted := (hm.retires hu h).1.ripen.sorted
  refine PidMap.ext_of_get? (hsorted.adjust p _) (hm.sorted.map _) fun q => ?_
  rw [PidMap.get?_map]
  change ((π.ripen n).put p (x.turn .running)).process? q = (m.process? q).map _
  have hold := process?_ripen_retires (q := q) hm hu h
  rw [Machine.process?_put]
  split
  · next hpq =>
    subst hpq
    rw [hx] at hold
    obtain ⟨y, hy, hxy⟩ := Option.map_eq_some_iff.1 hold.symm
    rw [if_pos hp] at hxy
    simp [hx, hy, settle, hp, ← hxy, ProcessRecord.turn]
  · next hpq =>
    rw [hold]
    congr 1
    funext y
    simp [settle, Ne.symm hpq]

theorem outcome_of_decides {d : Decision} (hm : m.Filed) (hu : m.Unspent)
    (h : π.Decides m n d) : (n, d) = π.outcome m := by
  cases h with
  | @keep p hw hret =>
    have hpre : π.isPreemptive = false := by simp [isPreemptive, hret]
    simp [outcome, hpre, (works_iff hu).1 hw]
  | @idle k hk hempty =>
    have hnone : π.candidates m = [] := by rw [← hk.candidates hu, ← ready_ripen, hempty]
    have hsame : π.ripen k = m := by
      rw [ready_ripen] at hempty
      rw [ripen_of_empty hempty]
      -- a process that was requeued would be ready now
      cases hk with
      | leave => rfl
      | requeue => simp at hempty
    rw [outcome, hk.not_kept hu, (choice?_eq_none hm).2 hnone, hsame]
    rfl
  | @pick k p x hk hbest hx hs =>
    have hready : (π.ripen k).ready.pids = π.candidates m := by
      rw [ready_ripen, hk.candidates hu]
    rw [hready] at hbest
    have hentrant := (process?_ripen_retires hm hu hk).symm.trans hx
    obtain ⟨y, hy, hxy⟩ := Option.map_eq_some_iff.1 hentrant
    rw [if_pos hbest.mem] at hxy
    have hprocesses := processes_of_pick hm hu hk hx hbest.mem
    have hsteady : m.Steady (π.ripen k) := hk.steady.trans steady_ripen
    have hresources : (π.ripen k).resources = m.resources := resources_ripen.trans hk.resources
    rw [outcome, hk.not_kept hu, choice?_of_firstBest hm hu hk hbest hy]
    subst hxy
    refine Prod.ext ?_ rfl
    change Machine.mk ((π.ripen k).put p _).processes ⟨(π.ripen k).ready.pids.erase p⟩
        (π.ripen k).resources (some p) (π.ripen k).limits (π.ripen k).tick =
      Machine.mk (m.processes.map (π.settle m p)) ⟨(π.candidates m).erase p⟩
        m.resources (some p) m.limits m.tick
    rw [hprocesses, hready, hresources, hsteady.limits, hsteady.tick]

/-- On a machine that passes the audit a policy decides as its reference does, and this leaves the
CPU idle only for want of candidates. -/
theorem schedule_eq_outcome (π : Policy) (hsorted : m.processes.Sorted) (haudit : m.audit = .ok ())
    (hcurrent : ∀ p, m.current = some p → m.status? p ≠ none) (hu : m.Unspent) :
    π.schedule m = .ok (π.outcome m) ∧ (π.choice? m = none ↔ π.candidates m = []) := by
  obtain ⟨hunrepeated, hruled⟩ := Machine.ruled_of_audit hsorted haudit
  have hm : m.Filed := hruled.filed hsorted hunrepeated hcurrent
  obtain ⟨n, d, h⟩ := hm.exists_schedule (π := π)
  exact ⟨h.trans (congrArg _ (outcome_of_decides hm hu (schedule_decides h))), choice?_eq_none hm⟩

/-- The process on the CPU has been aged to the cap and falls back to 1; of those that are ready the
second is at the cap as well. -/
def boosted : Machine where
  processes := ⟨[
    (⟨1⟩, ⟨.running, 0, 2, 4, 1, []⟩), (⟨2⟩, ⟨.ready, 0, 2, 3, 3, []⟩),
    (⟨3⟩, ⟨.ready, 0, 2, 4, 0, []⟩)]⟩
  ready := ⟨[⟨2⟩, ⟨3⟩]⟩
  resources := .ofSize 1
  current := some ⟨1⟩
  limits := ⟨100, 4⟩
  tick := 7

/-- The process that was on the CPU goes to the tail with the priority 2, and of the two that are at
the cap now the first runs. -/
theorem schedule_eq_outcome_boosted :
    Policy.priorityAging.schedule boosted = .ok (Policy.priorityAging.outcome boosted) ∧
      (Policy.priorityAging.choice? boosted = none ↔
        Policy.priorityAging.candidates boosted = []) ∧
      Policy.priorityAging.outcome boosted = ({ boosted with
        processes := ⟨[
          (⟨1⟩, ⟨.ready, 0, 2, 2, 1, []⟩), (⟨2⟩, ⟨.running, 0, 2, 4, 3, []⟩),
          (⟨3⟩, ⟨.ready, 0, 2, 4, 0, []⟩)]⟩
        ready := ⟨[⟨3⟩, ⟨1⟩]⟩
        current := some ⟨2⟩ }, .pick ⟨2⟩ ⟨.running, 0, 2, 4, 3, []⟩) := by
  have hsorted : boosted.processes.Sorted := by
    unfold PidMap.Sorted
    decide
  have hall : ∀ e ∈ boosted.processes.entries,
      e.2.status = .running → e.2.isDone = false := by decide
  have h := schedule_eq_outcome .priorityAging hsorted rfl (fun p hp => by cases hp; nofun)
    fun p x hx => hall (p, x) ((PidMap.mem_entries hsorted).2 hx)
  exact ⟨h.1, h.2, rfl⟩

end Policy

end Uniprocessor
