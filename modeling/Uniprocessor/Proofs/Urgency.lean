import Uniprocessor.Proofs.Completion
/-
  Priorities while the most urgent process runs.

  Under a policy that picks by priority a decision changes no priority (`priorityOf_decides`), and
  the process that it puts on the CPU is at least as urgent as any that could be there
  (`topmost_decides`).  A release changes the priority of the releaser alone
  (`priorityOf_released`).
-/

namespace Uniprocessor

/-- The activity gives up a resource of `o`. -/
def Activity.GivesUp (o : Pid) (e : Activity) : Prop := ∃ r, e = .released o r

namespace Simulation

variable {m n : Machine} {p q : Pid} {x : ProcessRecord} {r : ResourceId}

theorem priorityOf_of (hx : m.process? p = some x) : priorityOf m p = x.priority := by
  rw [priorityOf, hx]

theorem priorityOf_congr (h : n.process? p = m.process? p) : priorityOf n p = priorityOf m p := by
  rw [priorityOf, h, priorityOf]

theorem priorityOf_adjust {f : ProcessRecord → ProcessRecord}
    (hf : ∀ x, (f x).priority = x.priority) : priorityOf (m.adjust p f) q = priorityOf m q := by
  by_cases hpq : p = q
  · cases hx : m.process? q with
    | none => simp [priorityOf, Machine.process?_adjust, hpq, hx]
    | some x => simp [priorityOf, Machine.process?_adjust, hpq, hx, hf]
  · exact priorityOf_congr (by rw [Machine.process?_adjust, if_neg hpq])

theorem priorityOf_retires (hm : Policy.priority.Retires m n) :
    priorityOf n q = priorityOf m q := by
  cases hm with
  | leave => rfl
  | requeue =>
    rw [show Policy.priority.reset = id from rfl, Machine.adjust_id]
    exact priorityOf_adjust (m := m) fun _ => rfl

/-- A decision without aging leaves all priorities as they are. -/
theorem priorityOf_decides {d : Decision} (hm : Policy.priority.Decides m n d) :
    priorityOf n q = priorityOf m q := by
  cases hm with
  | keep => rfl
  | @idle k hr _ => exact priorityOf_retires (m := m) (n := k) hr
  | @pick k p x hr _ hx _ =>
    rw [← priorityOf_retires hr]
    by_cases hpq : p = q
    · have hq : k.process? q = some x := hpq ▸ hx
      rw [priorityOf_of hq]
      exact priorityOf_of (x := x.turn .running) (by
        rw [Machine.process?_seat, Machine.process?_dequeue, Machine.process?_put, if_pos hpq]
        exact congrArg (Option.map _) hq)
    · refine priorityOf_congr ?_
      rw [Machine.process?_seat, Machine.process?_dequeue, Machine.process?_put, if_neg hpq]
      rfl

theorem priorityOf_freed {κ : Protocol} (hq : q ≠ p) :
    priorityOf (κ.freed m r p) q = priorityOf m q :=
  priorityOf_congr (by rw [Protocol.process?_freed, if_neg hq.symm])

/-- A release changes the priority of the releaser alone. -/
theorem priorityOf_released {κ : Protocol} {w : Option Pid} (hm : κ.Releases m r p n w)
    (hq : q ≠ p) : priorityOf n q = priorityOf m q := by
  rw [← priorityOf_freed (m := m) (κ := κ) (r := r) hq]
  cases hm with
  | quiet => rfl
  | wake => exact priorityOf_adjust fun _ => rfl

/-- None of the processes in a list is more urgent than the first best by priority. -/
theorem priorityOf_le_of_firstBest {l : List Pid}
    (h : FirstBest (m.Beats fun x y => y.priority < x.priority) p l)
    (hx : m.process? p = some x) (hq : q ∈ l) : priorityOf m q ≤ priorityOf m p := by
  rw [priorityOf_of hx]
  cases hy : m.process? q with
  | none => simp [priorityOf, hy]
  | some y =>
    rw [priorityOf_of hy]
    exact Machine.le_of_firstBest h hx q hq y hy

/-! ## The most urgent process runs -/

/-- The process on the CPU is at least as urgent as any that could be there, and has the
priority with which it was picked. -/
def Phase.Topmost (m : Machine) : Phase → Prop
  | .requesting d p _ => ∃ x, d = .pick p x ∧ x.priority = priorityOf m p ∧
      ∀ q, m.Active q → priorityOf m q ≤ priorityOf m p
  | .arriving | .deciding | .releasing _ _ | .closing _ => True

theorem topmost_decides (hm : m.Filed)
    (hd : ∀ p x, m.process? p = some x → x.status = .running → x.isDone = false) {d : Decision}
    {due : List ResourceId} (h : Policy.priority.Decides m n d) (hp : d.next = some p) :
    (Phase.requesting d p due).Topmost n := by
  have hkeep := fun q => priorityOf_decides (q := q) h
  cases h with
  | keep _ hk => cases hk
  | idle => cases hp
  | @pick k _ x hr hbest hx _ =>
    cases hp
    obtain ⟨hk, hidle⟩ := hm.retires hd hr
    refine ⟨x.turn .running, rfl, (priorityOf_of ?_).symm, fun q hq => ?_⟩
    · rw [Machine.process?_seat, Machine.process?_dequeue, Machine.process?_put, if_pos rfl, hx]
      rfl
    · by_cases hpq : p = q
      · subst hpq
        exact Nat.le_refl _
      · rw [hkeep, hkeep, ← priorityOf_retires hr, ← priorityOf_retires hr]
        refine priorityOf_le_of_firstBest (m := k) hbest hx ?_
        rw [Machine.Active, Machine.status?_seat, Machine.status?_dequeue, Machine.status?_put,
          if_neg hpq] at hq
        exact (hk.mem_ready q).2 (hq.resolve_right (hidle q))

end Simulation

end Uniprocessor
