import Uniprocessor.Proofs.Filing
/-
  What decisions, requests and releases do to the records of processes.

  `Machine.Follows`: they change nothing of a record but its status and its priority, so that
  every process stays where it is in its script.  `Machine.All`: a property of single records
  survives them if it survives what they do to one record.
-/

namespace Uniprocessor

/-- `y` is `x` but for what policies and protocols change. -/
def ProcessRecord.Alike (x y : ProcessRecord) : Prop :=
  ∃ s k, y = { x with status := s, priority := k }

namespace ProcessRecord

theorem Alike.refl (x : ProcessRecord) : x.Alike x := ⟨x.status, x.priority, rfl⟩

theorem Alike.trans {x y z : ProcessRecord} (h : x.Alike y) (g : y.Alike z) : x.Alike z := by
  obtain ⟨s, k, rfl⟩ := h
  obtain ⟨t, l, rfl⟩ := g
  exact ⟨t, l, rfl⟩

theorem alike_turn (x : ProcessRecord) (s : Status) : x.Alike (x.turn s) := ⟨s, x.priority, rfl⟩

theorem alike_restorePriority (x : ProcessRecord) : x.Alike x.restorePriority :=
  ⟨x.status, x.basePriority, rfl⟩

theorem alike_bump (x : ProcessRecord) (cap : Nat) : x.Alike (Policy.bump cap x) := by
  unfold Policy.bump
  split
  · exact ⟨x.status, x.priority + 1, rfl⟩
  · exact .refl x

theorem alike_reset (x : ProcessRecord) (π : Policy) : x.Alike (π.reset x) := by
  unfold Policy.reset
  split
  · exact x.alike_restorePriority
  · exact .refl x

theorem alike_promote (x : ProcessRecord) (κ : Protocol) (limits : Limits) :
    x.Alike (κ.promote limits x) := by
  cases κ with
  | mutex _ => exact .refl x
  | ceiling _ => exact ⟨x.status, limits.maxPriority, rfl⟩
  | inheritance => exact .refl x

theorem alike_raise (x : ProcessRecord) (κ : Protocol) (k : Nat) : x.Alike (κ.raise k x) := by
  cases κ with
  | mutex _ => exact .refl x
  | ceiling _ => exact .refl x
  | inheritance => exact ⟨x.status, max x.priority k, rfl⟩

theorem alike_relax (x : ProcessRecord) (κ : Protocol) : x.Alike (κ.relax x) := by
  cases κ with
  | mutex _ => exact .refl x
  | ceiling _ => exact x.alike_restorePriority
  | inheritance => exact x.alike_restorePriority

end ProcessRecord

namespace Machine

/-- The same processes with the same ages, in whatever status and of whatever priority. -/
def Follows (m n : Machine) : Prop :=
  ∀ p, Option.Rel ProcessRecord.Alike (m.process? p) (n.process? p)

/-- Every record has the property `P`. -/
def All (P : ProcessRecord → Prop) (m : Machine) : Prop := ∀ p x, m.process? p = some x → P x

variable {m n k : Machine} {p q : Pid} {r : ResourceId} {f : ProcessRecord → ProcessRecord}
variable {P : ProcessRecord → Prop} {π : Policy} {κ : Protocol} {d : Decision}

theorem Follows.refl (m : Machine) : m.Follows m := fun p => by
  cases m.process? p with
  | none => exact .none
  | some x => exact .some (.refl x)

theorem Follows.trans (h : m.Follows n) (g : n.Follows k) : m.Follows k := fun p => by
  have hp := h p
  have gp := g p
  revert hp gp
  generalize m.process? p = a
  generalize n.process? p = b
  generalize k.process? p = e
  rintro (hp | -) (gp | -)
  · exact .some (hp.trans gp)
  · exact .none

theorem follows_adjust (hf : ∀ x : ProcessRecord, x.Alike (f x)) :
    m.Follows (m.adjust p f) := fun q => by
  rw [process?_adjust]
  split
  · cases m.process? q with
    | none => exact .none
    | some x => exact .some (hf x)
  · exact Follows.refl m q

theorem follows_put {x y : ProcessRecord} (hx : m.process? p = some x) (hy : x.Alike y) :
    m.Follows (m.put p y) := fun q => by
  rw [process?_put]
  split
  · next hpq =>
    rw [← hpq, hx]
    exact .some hy
  · exact Follows.refl m q

theorem Follows.process?_eq_none (h : m.Follows n) : n.process? p = none ↔ m.process? p = none := by
  have hp := h p
  revert hp
  generalize m.process? p = a
  generalize n.process? p = b
  rintro (_ | _) <;> simp

/-- What has become of a process. -/
theorem Follows.to (h : m.Follows n) {x : ProcessRecord} (hx : m.process? p = some x) :
    ∃ y, n.process? p = some y ∧ x.Alike y := by
  have hp := h p
  rw [hx] at hp
  generalize hb : n.process? p = b at hp
  cases hp with
  | some hxy => exact ⟨_, rfl, hxy⟩

/-- What a process was before. -/
theorem Follows.of (h : m.Follows n) {y : ProcessRecord} (hy : n.process? p = some y) :
    ∃ x, m.process? p = some x ∧ x.Alike y := by
  have hp := h p
  rw [hy] at hp
  generalize ha : m.process? p = a at hp
  cases hp with
  | some hxy => exact ⟨_, rfl, hxy⟩

theorem All.adjust (h : m.All P) (hf : ∀ x, m.process? p = some x → P (f x)) :
    (m.adjust p f).All P := by
  intro q y hy
  rw [process?_adjust] at hy
  split at hy
  · next hpq =>
    obtain ⟨x, hx, rfl⟩ := Option.map_eq_some_iff.1 hy
    exact hf x (hpq ▸ hx)
  · exact h q y hy

theorem All.put (h : m.All P) {x : ProcessRecord} (hx : P x) : (m.put p x).All P :=
  All.adjust (f := fun _ => x) h fun _ _ => hx

/-! ## Decisions -/

theorem follows_ripen : m.Follows (π.ripen m) :=
  Policy.ripen_induction (P := fun n => m.Follows n) (.refl m) fun _ _ hn =>
    hn.trans (follows_adjust fun x => x.alike_bump _)

theorem follows_retires (h : π.Retires m n) : m.Follows n := by
  cases h with
  | leave => exact .refl m
  | requeue =>
    exact (follows_adjust fun x => x.alike_reset π).trans (follows_adjust fun x => x.alike_turn _)

theorem follows_decides (h : π.Decides m n d) : m.Follows n := by
  cases h with
  | keep => exact .refl m
  | idle hr _ => exact (follows_retires hr).trans follows_ripen
  | pick hr _ hx _ =>
    exact ((follows_retires hr).trans follows_ripen).trans
      (follows_put hx (ProcessRecord.alike_turn _ _))

theorem All.ripen (h : m.All P) (hb : ∀ x, P x → P (Policy.bump m.limits.agingCap x)) :
    (π.ripen m).All P :=
  Policy.ripen_induction h fun _ _ hn => hn.adjust fun x hx => hb x (hn _ x hx)

theorem All.retires (h : m.All P) (ht : ∀ s x, P x → P (x.turn s))
    (hr : ∀ x, P x → P (π.reset x)) (hm : π.Retires m n) : n.All P := by
  cases hm with
  | leave => exact h
  | @requeue p =>
    have hreset := h.adjust (p := p) fun x hx => hr x (h p x hx)
    exact hreset.adjust fun x hx => ht _ x (hreset p x hx)

theorem All.decides (h : m.All P) (ht : ∀ s x, P x → P (x.turn s))
    (hr : ∀ x, P x → P (π.reset x)) (hb : ∀ x, P x → P (Policy.bump m.limits.agingCap x))
    (hm : π.Decides m n d) : n.All P := by
  cases hm with
  | keep => exact h
  | idle hret _ =>
    have hk := h.retires ht hr hret
    rw [← hret.steady.limits] at hb
    exact hk.ripen hb
  | pick hret _ hx _ =>
    have hk := h.retires ht hr hret
    rw [← hret.steady.limits] at hb
    have hripe := hk.ripen (π := π) hb
    exact hripe.put (ht _ _ (hripe _ _ hx))

/-! ## Requests -/

theorem follows_acquires {reply : Reply} (h : κ.Acquires m r p n reply) : m.Follows n := by
  cases h with
  | granted => exact follows_adjust fun x => x.alike_promote κ _
  | blocked =>
    exact (follows_adjust fun x => x.alike_raise κ _).trans
      (follows_adjust fun x => x.alike_turn _)

theorem status?_blocked {o : Pid} (hm : κ.Acquires m r p n (.blocked o)) :
    n.status? q = if p = q then (m.status? q).map fun _ => .waiting else m.status? q := by
  cases hm with
  | blocked => rw [status?_park, status?_turn, status?_adjust (Protocol.raise_status _)]

theorem status?_granted (hm : κ.Acquires m r p n .granted) : n.status? q = m.status? q := by
  cases hm with
  | granted => rw [status?_own, status?_adjust (Protocol.promote_status _)]

theorem All.acquires {reply : Reply} (h : m.All P) (ht : ∀ s x, P x → P (x.turn s))
    (hp : ∀ x, P x → P (κ.promote m.limits x)) (hl : ∀ x y, P x → P y → P (κ.raise x.priority y))
    (hm : κ.Acquires m r p n reply) : n.All P := by
  cases hm with
  | granted => exact h.adjust fun x hx => hp x (h _ x hx)
  | @blocked o x _ _ hx _ _ =>
    have hraise := h.adjust (p := o) fun y hy => hl x y (h p x hx) (h o y hy)
    exact hraise.adjust fun y hy => ht _ y (hraise p y hy)

/-! ## Releases -/

theorem follows_freed : m.Follows (κ.freed m r p) :=
  follows_adjust (m := m.own r none) fun x => x.alike_relax κ

theorem follows_releases {o : Option Pid} (h : κ.Releases m r p n o) : m.Follows n := by
  cases h with
  | quiet => exact follows_freed
  | @wake w y =>
    have hf : m.Follows (κ.freed m r p) := follows_freed
    exact hf.trans (follows_adjust (m := (κ.freed m r p).unpark r w) fun x => x.alike_turn _)

theorem All.releases {o : Option Pid} (h : m.All P) (ht : ∀ s x, P x → P (x.turn s))
    (hl : ∀ x, P x → P (κ.relax x)) (hm : κ.Releases m r p n o) : n.All P := by
  have hfree : (κ.freed m r p).All P := All.adjust (m := m.own r none) h fun x hx => hl x (h _ x hx)
  cases hm with
  | quiet => exact hfree
  | @wake w y =>
    exact All.adjust (m := (κ.freed m r p).unpark r w) hfree fun x hx => ht _ x (hfree _ x hx)

/-! ## Statuses -/

/-- A decision changes the status of what was running and of what it picks. -/
theorem status?_decides {t : Status} (hm : π.Decides m n d) (hq : m.status? q = some t)
    (ht : t ≠ .running) : n.status? q = some t ∨ t = .ready ∧ d.next = some q := by
  have retires : ∀ {k : Machine}, π.Retires m k → k.status? q = some t := by
    intro k hr
    cases hr with
    | leave => exact hq
    | requeue hw =>
      obtain ⟨-, x, hx, hs, -⟩ := hw
      rw [status?_enqueue, status?_turn, status?_adjust Policy.reset_status, if_neg ?_, hq]
      rintro rfl
      rw [status?_of hx, hs, Option.some.injEq] at hq
      exact ht hq.symm
  cases hm with
  | keep => exact .inl hq
  | idle hr _ =>
    rw [status?_seat, status?_ripen]
    exact .inl (retires hr)
  | @pick k p x hr _ hx hs =>
    have hk := retires hr
    rw [← status?_ripen (π := π)] at hk
    by_cases hpq : p = q
    · rw [← hpq, status?_of hx, hs, Option.some.injEq] at hk
      exact .inr ⟨hk.symm, congrArg some hpq⟩
    · rw [status?_seat, status?_dequeue, status?_put, if_neg hpq]
      exact .inl hk

/-- A decision revives nobody. -/
theorem terminated_decides (hm : π.Decides m n d) (hq : m.status? q = some .terminated) :
    n.status? q = some .terminated :=
  (status?_decides hm hq (by simp)).resolve_right fun ⟨h, _⟩ => by cases h

theorem terminated_acquires {reply : Reply} (hm : κ.Acquires m r p n reply)
    (hp : m.status? p = some .running) (hq : m.status? q = some .terminated) :
    n.status? q = some .terminated := by
  cases reply with
  | granted => rw [status?_granted hm, hq]
  | blocked o =>
    rw [status?_blocked hm, if_neg ?_, hq]
    intro he
    rw [← he, hp] at hq
    cases hq

theorem status?_freed : (κ.freed m r p).status? q = m.status? q := by
  rw [Protocol.freed, status?_adjust Protocol.relax_status, status?_own]

/-- Whom a release wakes was waiting. -/
theorem status?_woken {w : Pid} (hm : κ.Releases m r p n (some w)) :
    m.status? w = some .waiting := by
  cases hm with
  | wake _ _ hy hs _ => rw [← status?_freed, status?_of hy, hs]

theorem status?_releases {o : Option Pid} (hm : κ.Releases m r p n o) :
    n.status? q = if o = some q then some .ready else m.status? q := by
  cases hm with
  | quiet => rw [status?_freed, if_neg (by simp)]
  | @wake w y _ _ hy _ _ =>
    rw [status?_enqueue, status?_turn, status?_unpark, status?_freed]
    simp only [Option.some.injEq]
    split
    · next hwq => rw [← hwq, ← status?_freed, status?_of hy, Option.map_some]
    · rfl

/-- A release moves nobody but a waiter. -/
theorem status?_released {o : Option Pid} {t : Status} (hm : κ.Releases m r p n o)
    (hq : m.status? q = some t) (ht : t ≠ .waiting) : n.status? q = some t := by
  rw [status?_releases hm, if_neg ?_, hq]
  rintro rfl
  rw [status?_woken hm, Option.some.injEq] at hq
  exact ht hq.symm

end Machine

end Uniprocessor
