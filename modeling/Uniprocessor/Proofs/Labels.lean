import Uniprocessor.Proofs.Correspondence
/-
  Pids and names are labels.

  A renaming of the pids of a scenario, one to one on them, extends to all pids
  (`Scenario.extend`), so that it gives rise to a translation (`relabeling`).  The run of the
  renamed scenario is the renamed run by `leaves_translate`.  That the extension does not matter is
  seen in the same way: if a trace named a pid that is not in the scenario, the translation that
  moves all those pids past it and leaves the others alone would not leave the trace alone
  (`pids_of_leaves`), although it leaves the scenario alone.

  Main statement: `pids_are_labels`.
-/

namespace Uniprocessor

/-! ## Renamed events -/

namespace Event

/-- The processes that an event names. -/
def pids : Event → List Pid
  | .switched prev next => prev.toList ++ next.toList
  | .idle => []
  | .forked p | .ran p _ | .acquired p _ | .blocked p _ | .released p _ | .woke p _
  | .priorityChanged p _ _ | .exited p => [p]

variable {φ ψ : Pid → Pid} {e : Event}

theorem pids_rename : (e.rename φ).pids = e.pids.map φ := by
  cases e with
  | switched prev next => cases prev <;> cases next <;> rfl
  | _ => rfl

/-- Renamings that agree on the pids of an event rename it alike. -/
theorem rename_congr (h : ∀ p ∈ e.pids, φ p = ψ p) : e.rename φ = e.rename ψ := by
  cases e with
  | switched prev next =>
    have hprev : prev.map φ = prev.map ψ :=
      Option.map_congr fun p hp => h p (List.mem_append_left _ (Option.mem_toList.2 hp))
    have hnext : next.map φ = next.map ψ :=
      Option.map_congr fun p hp => h p (List.mem_append_right _ (Option.mem_toList.2 hp))
    rw [rename, rename, hprev, hnext]
  | idle => rfl
  | forked p | ran p _ | acquired p _ | blocked p _ | released p _ | woke p _
  | priorityChanged p _ _ | exited p =>
    rw [rename, rename, h p List.mem_cons_self]

end Event

/-! ## Renamed scenarios -/

namespace Scenario

/-- The scenario with other pids and other names. -/
def rename (c : Scenario) (φ : Pid → Pid) (ν : Job → String) : Scenario :=
  { c with jobs := c.jobs.map fun j => { j with pid := φ j.pid, name := ν j } }

/-- The renaming of the scenario's pids, all others moved past `N`. -/
def extend (c : Scenario) (φ : Pid → Pid) (N : Nat) (p : Pid) : Pid :=
  if p ∈ c.jobs.map (·.pid) then φ p else ⟨N + p.val⟩

variable {c : Scenario} {φ : Pid → Pid} {N : Nat} {j : Job} {p : Pid}

theorem extend_pid (hj : j ∈ c.jobs) : c.extend φ N j.pid = φ j.pid :=
  if_pos (List.mem_map_of_mem hj)

theorem extend_injective (hφ : ∀ i ∈ c.jobs, ∀ j ∈ c.jobs, φ i.pid = φ j.pid → i.pid = j.pid)
    (hN : ∀ j ∈ c.jobs, (φ j.pid).val < N) : Function.Injective (c.extend φ N) := by
  -- a pid of the scenario and one that is moved past `N` do not meet
  have apart : ∀ j ∈ c.jobs, ∀ q : Pid, φ j.pid ≠ ⟨N + q.val⟩ := by
    intro j hj q heq
    have hlt := hN j hj
    rw [heq] at hlt
    exact absurd hlt (Nat.not_lt.2 (Nat.le_add_right _ _))
  intro p q h
  unfold extend at h
  split at h
  · next hp =>
    obtain ⟨i, hi, rfl⟩ := List.mem_map.1 hp
    split at h
    · next hq =>
      obtain ⟨j, hj, rfl⟩ := List.mem_map.1 hq
      exact hφ i hi j hj h
    · exact absurd h (apart i hi q)
  · split at h
    · next hq =>
      obtain ⟨j, hj, rfl⟩ := List.mem_map.1 hq
      exact absurd h.symm (apart j hj p)
    · have hval := congrArg Pid.val h
      exact congrArg Pid.mk (Nat.add_left_cancel hval)

/-- A renaming that keeps pids apart and within their word makes no flaw. -/
theorem Valid.rename (hc : c.Valid) (ν : Job → String)
    (hφ : ∀ i ∈ c.jobs, ∀ j ∈ c.jobs, φ i.pid = φ j.pid → i.pid = j.pid)
    (hrange : ∀ j ∈ c.jobs, (φ j.pid).val < pidBound) : (c.rename φ ν).Valid := by
  obtain ⟨hsound, hstop⟩ := flaw?_eq_none.1 hc.accepted
  have hmem : ∀ {P : Job → Prop},
      (∀ j ∈ c.jobs, P { j with pid := φ j.pid, name := ν j }) → ∀ k ∈ (c.rename φ ν).jobs, P k :=
    fun h => List.forall_mem_map.2 h
  have hpids : ((c.rename φ ν).jobs.map (·.pid)).Nodup := by
    show ((c.jobs.map fun j => { j with pid := φ j.pid, name := ν j }).map (·.pid)).Nodup
    rw [List.map_map]
    refine List.pairwise_map.2 (List.Pairwise.imp_of_mem ?_ (List.pairwise_map.1 hsound.pids))
    intro i j hi hj hne heq
    exact hne (hφ i hi j hj heq)
  refine ⟨⟨hmem fun j hj => ⟨hrange j hj, (hc.inRange.1 j hj).2⟩, hc.inRange.2⟩,
    flaw?_eq_none.2 ⟨⟨hsound.caps, hpids, hmem fun j hj => ?_⟩, hmem fun j hj => hstop j hj⟩⟩
  obtain ⟨hlives, hfits, hapart⟩ := hsound.jobs j hj
  exact ⟨hlives, hfits, hapart⟩

end Scenario

namespace Simulation

variable {s : Strategy} {c : Scenario} {φ : Pid → Pid} {ν : Job → String} {N : Nat} {t : Trace}
variable {p : Pid}

/-- Other pids and names, and the same priorities. -/
def relabeling (c : Scenario) (ν : Job → String) (h : Function.Injective (c.extend φ N)) :
    Translation where
  pid := c.extend φ N
  pid_injective := h
  name := ν
  grade := id
  agingCap := c.limits.agingCap

theorem relabeling_scenario (h : Function.Injective (c.extend φ N)) :
    (relabeling c ν h).scenario c = c.rename φ ν := by
  have hjobs : c.jobs.map (relabeling c ν h).job =
      c.jobs.map fun j => { j with pid := φ j.pid, name := ν j } := by
    refine List.map_congr_left fun j hj => ?_
    show { j with pid := c.extend φ N j.pid, name := ν j } = _
    rw [Scenario.extend_pid hj]
  exact congrArg (fun js => { c with jobs := js }) hjobs

theorem relabeling_event (h : Function.Injective (c.extend φ N)) (e : Event) :
    (relabeling c ν h).event e = e.rename (c.extend φ N) :=
  congrArg _ (Event.regrade_id e)

theorem relabeling_faithful (h : Function.Injective (c.extend φ N)) :
    (relabeling c ν h).Faithful s c Set.univ where
  ordered := fun _ _ _ _ hlt => hlt
  drawn :=
    have hall : ∀ x, Drawn Set.univ x := fun _ => ⟨trivial, trivial⟩
    ⟨fun _ _ => hall _, fun _ _ _ => hall _, fun _ _ _ => hall _, fun _ _ => hall _,
      fun _ _ _ => hall _, fun _ _ => hall _, fun _ _ _ _ => hall _⟩
  aging := fun _ => ⟨fun _ => rfl, rfl⟩

/-- The events of a trace name processes of the scenario only. -/
theorem pids_of_leaves (hc : c.Valid) (ht : Leaves s c t) {e : TraceEvent} (he : e ∈ t.events)
    (hp : p ∈ e.event.pids) : ∃ j ∈ c.jobs, j.pid = p := by
  refine List.mem_map.1 (Classical.byContradiction fun hstranger => ?_)
  -- the pids of the scenario stay, all others are moved past `p`
  let N := pidBound + p.val + 1
  have hN : ∀ j ∈ c.jobs, (id j.pid : Pid).val < N := by
    intro j hj
    have := (hc.inRange.1 j hj).1
    show j.pid.val < pidBound + p.val + 1
    omega
  let τ := relabeling (ν := Job.name) (φ := id) c (Scenario.extend_injective (fun _ _ _ _ h => h) hN)
  have hscenario : τ.scenario c = c := by
    rw [relabeling_scenario]
    exact congrArg (fun js => { c with jobs := js }) (List.map_id _)
  obtain ⟨u, u', hu, hu', hsame⟩ :=
    leaves_translate (τ := τ) hc (hscenario.symm ▸ hc) (relabeling_faithful _)
  rw [hscenario] at hu'
  obtain rfl := ht.unique hu
  obtain rfl := ht.unique hu'
  have hmoved : ∃ d : Event, e.event = d.rename (c.extend id N) := by
    by_cases hchange : e.event.isChange = true
    · have hmem : e.event ∈ (u'.eventsOn e.tick).filter Event.isChange := by
        refine List.mem_filter.2 ⟨List.mem_map.2 ⟨e, List.mem_filter.2 ⟨he, ?_⟩, rfl⟩, hchange⟩
        exact decide_eq_true rfl
      obtain ⟨d, -, hd⟩ := List.mem_map.1 ((hsame.changes e.tick).mem_iff.1 hmem)
      exact ⟨d, by rw [← hd, relabeling_event]⟩
    · have hmem : e ∈ u'.events.filter fun e => !e.event.isChange := by
        refine List.mem_filter.2 ⟨he, ?_⟩
        rw [Bool.eq_false_iff.2 hchange]
        rfl
      rw [hsame.told] at hmem
      obtain ⟨d, -, rfl⟩ := List.mem_map.1 hmem
      exact ⟨d.event, relabeling_event _ _⟩
  obtain ⟨d, hd⟩ := hmoved
  rw [hd, Event.pids_rename] at hp
  obtain ⟨q, -, hq⟩ := List.mem_map.1 hp
  unfold Scenario.extend at hq
  split at hq
  · next hknown =>
    rw [← hq] at hstranger
    exact hstranger hknown
  · have hval : N + q.val = p.val := congrArg Pid.val hq
    omega

end Simulation

open Simulation

variable {c : Scenario} {φ : Pid → Pid}

/-- Pids and names are labels: with other pids, one to one, and other names a valid scenario stays
valid, and under any strategy its run ends in the same way at the same time and leaves the renamed
events.  The changes of priority in a tick are the renamed ones as well, but may be told of in
another order, which is that of the pids. -/
theorem pids_are_labels (s : Strategy) (ν : Job → String) (hc : c.Valid)
    (hφ : ∀ i ∈ c.jobs, ∀ j ∈ c.jobs, φ i.pid = φ j.pid → i.pid = j.pid)
    (hrange : ∀ j ∈ c.jobs, (φ j.pid).val < pidBound) :
    (c.rename φ ν).Valid ∧ ∃ t t', Leaves s c t ∧ Leaves s (c.rename φ ν) t' ∧
      t'.endTick = t.endTick ∧ t'.exit = t.exit ∧
      (t'.events.filter fun e => !e.event.isChange) =
        (t.events.filter fun e => !e.event.isChange).map (TraceEvent.map (Event.rename φ)) ∧
      ∀ k, ((t'.eventsOn k).filter Event.isChange).Perm
        (((t.eventsOn k).filter Event.isChange).map (Event.rename φ)) := by
  have hvalid : (c.rename φ ν).Valid := hc.rename ν hφ hrange
  have hinjective := Scenario.extend_injective hφ hrange
  let τ := relabeling c ν hinjective
  have hscenario : τ.scenario c = c.rename φ ν := relabeling_scenario hinjective
  obtain ⟨t, t', ht, ht', hsame⟩ :=
    leaves_translate (s := s) (τ := τ) hc (hscenario.symm ▸ hvalid) (relabeling_faithful _)
  rw [hscenario] at ht'
  -- the events name pids of the scenario, which the translation renames as `φ` does
  have hevent : ∀ e ∈ t.events, τ.event e.event = e.event.rename φ := by
    intro e he
    rw [relabeling_event]
    refine Event.rename_congr fun p hp => ?_
    obtain ⟨j, hj, rfl⟩ := pids_of_leaves hc ht he hp
    exact Scenario.extend_pid hj
  refine ⟨hvalid, t, t', ht, ht', hsame.endTick, hsame.exit, ?_, fun k => ?_⟩
  · rw [hsame.told]
    refine List.map_congr_left fun e he => ?_
    exact congrArg (TraceEvent.mk e.tick) (hevent e (List.mem_filter.1 he).1)
  · have hmap : ((t.eventsOn k).filter Event.isChange).map τ.event =
        ((t.eventsOn k).filter Event.isChange).map (Event.rename φ) := by
      refine List.map_congr_left fun e he => ?_
      obtain ⟨d, hd, rfl⟩ := List.mem_map.1 (List.mem_filter.1 he).1
      exact hevent d (List.mem_filter.1 hd).1
    rw [← hmap]
    exact hsame.changes k

/-- With the pids of the two processes swapped, the first tick that changes both priorities tells of
them the other way round. -/
theorem pids_are_labels_swapped :
    ∃ t t', Leaves .priorityAging .contended t ∧
      Leaves .priorityAging (Scenario.contended.rename (fun p => ⟨3 - p.val⟩) (·.name ++ "er")) t' ∧
      (t.eventsOn 1).filter Event.isChange =
        [.priorityChanged ⟨1⟩ 2 3, .priorityChanged ⟨2⟩ 9 10] ∧
      (t'.eventsOn 1).filter Event.isChange =
        [.priorityChanged ⟨1⟩ 9 10, .priorityChanged ⟨2⟩ 2 3] ∧
      t'.endTick = t.endTick ∧
      (t'.events.filter fun e => !e.event.isChange) =
        (t.events.filter fun e => !e.event.isChange).map
          (TraceEvent.map (Event.rename fun p => ⟨3 - p.val⟩)) := by
  obtain ⟨-, t, t', ht, ht', hend, -, htold, -⟩ := pids_are_labels (c := .contended)
    (φ := fun p => ⟨3 - p.val⟩) .priorityAging (·.name ++ "er") (by decide) (by decide) (by decide)
  have hchanges := ht.of_any (fun t => (t.eventsOn 1).filter Event.isChange =
    [.priorityChanged ⟨1⟩ 2 3, .priorityChanged ⟨2⟩ 9 10]) (by decide)
  have hchanges' := ht'.of_any (fun t => (t.eventsOn 1).filter Event.isChange =
    [.priorityChanged ⟨1⟩ 9 10, .priorityChanged ⟨2⟩ 2 3]) (by decide)
  exact ⟨t, t', ht, ht', hchanges, hchanges', hend, htold⟩

end Uniprocessor
