import Uniprocessor.Proofs.Regular
/-
  What a blocked process waits for is the first resource that it lacks.

  `Machine.Wants` is the resource that a process will request first on its next turn.  Nothing that
  others do changes it (`Wants.follows` and the lemmas behind it).  `Waits` says that every member
  of a wait-set wants the resource of that set.
-/

namespace Uniprocessor

namespace Machine

open Simulation

/-- The first resource that `p` is to request at its age and does not own is `r`. -/
def Wants (m : Machine) (p : Pid) (r : ResourceId) : Prop :=
  ∃ x, m.process? p = some x ∧ (m.lacks p x).head? = some r

variable {m n : Machine} {p w : Pid} {r t : ResourceId} {π : Policy} {κ : Protocol}

theorem Wants.follows (h : m.Wants w r) (hf : m.Follows n)
    (ho : ∀ s, n.resources.owner? s = some w ↔ m.resources.owner? s = some w) : n.Wants w r := by
  obtain ⟨x, hx, hl⟩ := h
  obtain ⟨y, hy, hxy⟩ := hf.to hx
  exact ⟨y, hy, by rw [lacks_congr hxy ho, hl]⟩

theorem Wants.enroll {j : Job} (h : m.Wants w r) (hj : m.process? j.pid = none) :
    (m.enroll j).Wants w r := by
  obtain ⟨x, hx, hl⟩ := h
  refine ⟨x, ?_, hl⟩
  rw [process?_enroll, if_neg, hx]
  intro he
  rw [he, hx] at hj
  cases hj

/-- What happens to `p` alone leaves the wants of others as they are. -/
theorem Wants.adjust {f : ProcessRecord → ProcessRecord} (h : m.Wants w r) (hw : w ≠ p) :
    (m.adjust p f).Wants w r := by
  obtain ⟨x, hx, hl⟩ := h
  exact ⟨x, by rw [process?_adjust, if_neg hw.symm, hx], hl⟩

theorem Wants.turn {s : Status} (h : m.Wants w r) : (m.adjust p (.turn s)).Wants w r :=
  h.follows (follows_adjust fun x => x.alike_turn s) fun _ => Iff.rfl

theorem Wants.decides {d : Decision} (h : m.Wants w r) (hd : π.Decides m n d) : n.Wants w r :=
  h.follows (follows_decides hd) fun _ => by rw [hd.resources]

theorem Wants.granted (h : m.Wants w r) (ha : κ.Acquires m t p n .granted) (hw : w ≠ p) :
    n.Wants w r :=
  h.follows (follows_acquires ha) fun _ => ha.owner?_granted_iff hw

theorem Wants.blocked {o : Pid} (h : m.Wants w r) (ha : κ.Acquires m t p n (.blocked o)) :
    n.Wants w r :=
  h.follows (follows_acquires ha) fun _ => by rw [ha.owner?_blocked]

theorem Wants.released {o : Option Pid} (h : m.Wants w r) (hr : κ.Releases m t p n o)
    (hw : w ≠ p) : n.Wants w r :=
  h.follows (follows_releases hr) fun _ => hr.owner?_iff hw

end Machine

namespace Simulation

/-- Every waiter wants the resource that it waits for. -/
def Waits (m : Machine) : Prop := ∀ r w, w ∈ m.resources.waiters r → m.Wants w r

variable {s : Strategy} {c : Scenario} {a b : Moment} {l : List Activity} {m : Machine}
variable {p w : Pid} {r : ResourceId}

/-- The process on the CPU wants the first of what it is to request. -/
theorem Requests.wants {due : List ResourceId} (hq : Requests m p due) (h : m.Wants p r) :
    due.head? = some r := by
  obtain ⟨x, hx, hl⟩ := h
  rw [← hl, hq.due x hx]

theorem Waits.move (hreg : a.Regular c) (h : Waits a.machine) (hm : Move s a l b) :
    Waits b.machine := by
  intro r w hw
  have filed := hreg.filed
  cases hm with
  | arrive _ hn =>
    obtain ⟨hnew, -, rfl⟩ := Machine.fork_eq_ok.1 hn
    exact (h r w hw).enroll hnew
  | begin | remain => exact h r w hw
  | idle hn =>
    have hd := Policy.schedule_decides hn
    dsimp only at hw
    rw [hd.resources] at hw
    exact (h r w hw).decides hd
  | dispatch hn =>
    have hd := Policy.schedule_decides hn
    dsimp only at hw
    rw [hd.resources] at hw
    exact (h r w hw).decides hd
  | grant hn =>
    obtain ⟨-, hreq⟩ := hreg.phase
    have ha := hreq.acquires hn
    dsimp only at hw
    rw [ha.waiters_granted] at hw
    exact (h r w hw).granted ha (filed.ne_of_waits hreq.running hw)
  | block hn =>
    obtain ⟨-, hreq⟩ := hreg.phase
    have ha := hreq.acquires hn
    refine Machine.Wants.blocked ?_ ha
    rcases ha.mem_waiters_blocked hw with hw | ⟨rfl, rfl⟩
    · exact h r w hw
    · obtain ⟨x, hx⟩ := Machine.exists_record hreq.running
      exact ⟨x, hx, by rw [hreq.due x hx]; rfl⟩
  | run hn =>
    obtain ⟨y, hy, -, rfl, rfl⟩ := Machine.grow_eq_ok.1 hn
    obtain ⟨-, hreq⟩ := hreg.phase
    exact (h r w hw).adjust (filed.ne_of_waits hreq.running hw)
  | release hn =>
    have hr := hreg.phase.releases hn
    have hw := hr.mem_waiters hw
    exact (h r w hw).released hr (filed.ne_of_waits hreg.phase.running hw)
  | exit => exact (h r w hw).turn
  | close _ hn =>
    obtain ⟨-, rfl⟩ := Machine.advance_eq_ok.1 hn
    exact h r w hw

theorem waiters_opening : (opening c).moment.machine.resources.waiters r = [] :=
  ResourceTable.waiters_ofSize _ r

theorem waits_opening : Waits (opening c).moment.machine := by
  intro r w hw
  rw [waiters_opening] at hw
  cases hw

end Simulation

end Uniprocessor
