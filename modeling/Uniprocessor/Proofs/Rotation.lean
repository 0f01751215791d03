import Uniprocessor.Proofs.Backlog
import Uniprocessor.Proofs.Choice
/-
  Runs in which nobody holds anything, under policies that take the CPU away at every tick.

  Nothing is requested there and nothing is given back, so that nobody waits.  What is left of a
  state is the ready queue and the process that has the CPU (`Rota`).  A decision puts the process
  behind the queue and takes out the first of the line that none other beats.  A job that arrives
  joins the queue before that, in front of the process that has the CPU.

  `Rotates` is what a move can do to this, and `rotates_move` that every move does it.
-/

namespace Uniprocessor

/-- Who is ready, and who has the CPU. -/
structure Rota where
  ready : List Pid
  runner : Option Pid

/-- Those that a decision chooses from, in their order. -/
def Rota.line (v : Rota) : List Pid := v.ready ++ v.runner.toList

def Machine.rota (m : Machine) : Rota where
  ready := m.ready.pids
  runner := m.runner?

namespace Machine

variable {m : Machine} {p : Pid}

theorem Filed.runner?_eq_some (hm : m.Filed) : m.runner? = some p ↔ m.status? p = some .running :=
  Policy.runner?_eq_some.trans (and_iff_right_of_imp (hm.running p))

theorem Filed.rota_eq {ready : List Pid} {o : Option Pid} (hm : m.Filed)
    (hready : m.ready.pids = ready) (hrun : ∀ p, m.status? p = some .running ↔ o = some p) :
    m.rota = ⟨ready, o⟩ := by
  have hrunner : m.runner? = o :=
    Option.ext fun p => by rw [hm.runner?_eq_some, hrun]
  rw [rota, hready, hrunner]

/-- Nobody is in line twice. -/
theorem Filed.line_nodup (hm : m.Filed) : m.rota.line.Nodup := by
  refine List.nodup_append.2 ⟨hm.ready_nodup, ?_, fun p hp q hq => ?_⟩
  · cases h : m.rota.runner with
    | none => exact .nil
    | some p => exact List.nodup_singleton p
  · rintro rfl
    have hready := (hm.mem_ready p).1 hp
    rw [hm.runner?_eq_some.1 (Option.mem_toList.1 hq)] at hready
    cases hready

/-- Who is in line is known. -/
theorem Filed.known_of_line (hm : m.Filed) (hp : p ∈ m.rota.line) : m.process? p ≠ none := by
  rcases List.mem_append.1 hp with hp | hp
  · exact Option.ne_none_iff_exists'.2 (exists_record ((hm.mem_ready p).1 hp))
  · have hrun := hm.runner?_eq_some.1 (Option.mem_toList.1 hp)
    exact Option.ne_none_iff_exists'.2 (exists_record hrun)

theorem candidates_eq_line {π : Policy} (hπ : π.isPreemptive = true) :
    π.candidates m = m.rota.line := by
  rw [Policy.candidates, if_pos hπ]
  rfl

end Machine

namespace Policy

variable {π : Policy} {m n : Machine} {p : Pid}

/-- Where a process goes back as it is, retiring changes no comparison. -/
theorem Retires.beats (hπ : π.retirement = .requeue) (hu : m.Unspent) (h : π.Retires m n) :
    n.Beats π.beats = m.Beats π.beats := by
  have hreset : ∀ x, π.reset x = x := fun x => if_neg (by simp [hπ])
  have hrecord : ∀ q, ∃ st : ProcessRecord → Status,
      n.process? q = (m.process? q).map fun x => x.turn (st x) := by
    intro q
    by_cases hq : m.runner? = some q
    · exact ⟨fun _ => .ready, by simp [h.process? hu, hq, hreset]⟩
    · exact ⟨ProcessRecord.status, by
        simp only [h.process? hu, hq, if_false, turn_of_status]⟩
  funext q r
  obtain ⟨f, hf⟩ := hrecord q
  obtain ⟨g, hg⟩ := hrecord r
  refine propext ⟨?_, ?_⟩
  · rintro ⟨x, y, hx, hy, hxy⟩
    obtain ⟨x', hx', rfl⟩ := Option.map_eq_some_iff.1 (hf.symm.trans hx)
    obtain ⟨y', hy', rfl⟩ := Option.map_eq_some_iff.1 (hg.symm.trans hy)
    exact ⟨x', y', hx', hy', (beats_turn _ _).1 hxy⟩
  · rintro ⟨x, y, hx, hy, hxy⟩
    rw [hx] at hf
    rw [hy] at hg
    exact ⟨_, _, hf, hg, (beats_turn _ _).2 hxy⟩

/-- A decision takes out of the line the first that none other beats, if there is one. -/
theorem rota_of_decides {d : Decision} (hπ : π.retirement = .requeue) (hu : m.Unspent)
    (hd : π.Decides m n d) :
    m.rota.line = [] ∧ d.next = none ∧ n.rota = ⟨[], none⟩ ∨
      ∃ p, FirstBest (m.Beats π.beats) p m.rota.line ∧ d.next = some p ∧
        n.rota = ⟨m.rota.line.erase p, some p⟩ := by
  have hpre : π.isPreemptive = true := isPreemptive_iff.2 (by simp [hπ])
  have hripen (k : Machine) : π.ripen k = k := by
    refine ripen_eq ?_
    rintro rfl
    cases hπ
  have hline {k : Machine} (hk : π.Retires m k) : k.ready.pids = m.rota.line :=
    (hk.candidates hu).trans (Machine.candidates_eq_line hpre)
  have hrunning {p : Pid} (hp : d.next = some p) := Machine.running_of_decides hd hp
  cases hd with
  | keep _ hkeep =>
    rw [hπ] at hkeep
    cases hkeep
  | @idle k hk hempty =>
    rw [hripen] at hempty ⊢
    refine .inl ⟨hline hk ▸ hempty, rfl, ?_⟩
    change Rota.mk k.ready.pids none = _
    rw [hempty]
  | @pick k p x hk hbest hx hst =>
    rw [hripen, hline hk, hk.beats hπ hu] at hbest
    refine .inr ⟨p, hbest, rfl, ?_⟩
    rw [Machine.rota, runner?_eq_some.2 (hrunning rfl), ← hline hk]
    change Rota.mk ((π.ripen k).ready.pids.erase p) _ = _
    rw [hripen]

end Policy

namespace Simulation

variable {s : Strategy} {c : Scenario} {a b : Moment} {l : List Activity} {j : Journal}
variable {m n : Machine} {p q : Pid} {d : Decision} {due : List ResourceId} {π : Policy}

def Moment.rota (a : Moment) : Rota := a.machine.rota

/-- Who is to run. -/
def Phase.called : Phase → Option Pid
  | .requesting _ p _ => some p
  | .arriving | .deciding | .releasing _ _ | .closing _ => none

/-- What a move does where nothing is held, under a policy that takes the CPU away at every tick. -/
inductive Rotates (π : Policy) (a : Moment) (l : List Activity) (b : Moment) : Prop
  | arrive {k : Job} : l = [.forked k] → a.phase = .arriving → b.phase = .arriving →
      a.pending = k :: b.pending → k.start ≤ a.machine.tick → a.machine.process? k.pid = none →
      b.rota = { a.rota with ready := a.rota.ready ++ [k.pid] } → Rotates π a l b
  | begin : l = [] → a.phase = .arriving → b.phase = .deciding → b.pending = a.pending →
      (∀ k ∈ a.pending.head?, a.machine.tick < k.start) → b.rota = a.rota → Rotates π a l b
  | idle {o : Option Pid} {d : Decision} : l = [.decided o d] → a.phase = .deciding →
      b.phase = .closing false → a.rota.line = [] → b.rota = ⟨[], none⟩ → Rotates π a l b
  | pick {o : Option Pid} {d : Decision} {p : Pid} : l = [.decided o d] → a.phase = .deciding →
      b.phase = .requesting d p [] → FirstBest (a.machine.Beats π.beats) p a.rota.line →
      b.rota = ⟨a.rota.line.erase p, some p⟩ → Rotates π a l b
  | run {d : Decision} {p : Pid} {k : Nat} : l = [.ran p k] → a.phase = .requesting d p [] →
      b.phase = .releasing p [] → a.rota.runner = some p → b.rota = a.rota → Rotates π a l b
  | remain {p : Pid} : l = [] → a.phase = .releasing p [] → b.phase = .closing true →
      b.rota = a.rota → Rotates π a l b
  | exit {p : Pid} : l = [.exited p] → a.phase = .releasing p [] → b.phase = .closing true →
      a.rota.runner = some p → b.rota = { a.rota with runner := none } → Rotates π a l b
  | close {ran : Bool} {m n : Machine} : l = closingEntries ran m n → a.phase = .closing ran →
      b.phase = .arriving → b.pending = a.pending → b.machine.tick = a.machine.tick + 1 →
      b.rota = a.rota → Rotates π a l b

/-- Who has made its requests runs. -/
theorem Rotates.of_requesting (h : Rotates π a l b) (ha : a.phase = .requesting d p due) :
    a.rota.runner = some p ∧ b.rota = a.rota := by
  cases h with
  | run _ hphase _ hrunner hrota =>
    rw [ha] at hphase
    obtain rfl := (Phase.requesting.inj hphase).2.1
    exact ⟨hrunner, hrota⟩
  | arrive _ hphase | begin _ hphase | idle _ hphase | pick _ hphase | remain _ hphase
  | exit _ hphase | close _ hphase =>
    rw [ha] at hphase
    cases hphase

theorem Moment.Regular.holds_nothing (hbare : c.Bare) (hreg : a.Regular c) {x : ProcessRecord}
    (hx : a.machine.process? p = some x) : x.holds = [] := by
  obtain ⟨k, hk, -, -, -, hholds⟩ := (hreg.scripted.plays p x hx).job
  rw [← hholds, hbare k hk]

/-- Who holds nothing has nothing to request. -/
theorem Moment.Regular.nothing_to_request (hbare : c.Bare) (hreg : a.Regular c)
    (ha : a.phase = .requesting d p due) : due = [] := by
  obtain ⟨-, hreq⟩ := hreg.requests ha
  obtain ⟨x, hx⟩ := Machine.exists_record hreq.running
  refine List.eq_nil_iff_forall_not_mem.2 fun r hr => ?_
  obtain ⟨-, h, hh, -⟩ := hreq.asked hx hr
  rw [hreg.holds_nothing hbare hx] at hh
  cases hh

/-- Who holds nothing has nothing to give back. -/
theorem Moment.Regular.nothing_to_return (hbare : c.Bare) (hreg : a.Regular c)
    (ha : a.phase = .releasing p due) : due = [] := by
  obtain ⟨-, hret⟩ := hreg.returns ha
  obtain ⟨x, hx⟩ := Machine.exists_record hret.running
  refine List.eq_nil_iff_forall_not_mem.2 fun r hr => ?_
  obtain ⟨-, h, hh, -⟩ := hret.given x hx r hr
  rw [hreg.holds_nothing hbare hx] at hh
  cases hh

theorem rotates_move (hs : s.policy.retirement = .requeue) (hc : c.Valid) (hbare : c.Bare)
    (hreg : a.Regular c) (hm : Move s a l b) : Rotates s.policy a l b := by
  have hreg' := hreg.move hc hm
  have hrunner {p : Pid} (hp : a.machine.status? p = some .running) : a.rota.runner = some p :=
    hreg.filed.runner?_eq_some.2 hp
  -- where the ready queue and the running process stay, the rota does
  have same (hready : b.machine.ready.pids = a.machine.ready.pids)
      (hst : ∀ p, b.machine.status? p = a.machine.status? p) : b.rota = a.rota :=
    hreg'.filed.rota_eq hready fun p => by rw [hst, hreg.filed.runner?_eq_some]
  cases hm with
  | @arrive m _ _ k u hk hn =>
    obtain ⟨hnew, -, rfl⟩ := Machine.fork_eq_ok.1 hn
    refine .arrive rfl rfl rfl rfl hk hnew (hreg'.filed.rota_eq rfl fun p => ?_)
    change _ ↔ m.runner? = some p
    rw [hreg.filed.runner?_eq_some, Machine.status?_enroll]
    split
    · next hp => simp [Machine.status?, ← hp, hnew]
    · rfl
  | begin hu => exact .begin rfl rfl rfl rfl hu rfl
  | idle hn hnone =>
    rcases Policy.rota_of_decides hs hreg.scripted.unfinished_running
      (Policy.schedule_decides hn) with ⟨hempty, -, hrota⟩ | ⟨p, -, hp, -⟩
    · exact .idle rfl rfl rfl hempty hrota
    · rw [hnone] at hp
      cases hp
  | dispatch hn hnext =>
    obtain rfl := hreg'.nothing_to_request hbare rfl
    rcases Policy.rota_of_decides hs hreg.scripted.unfinished_running
      (Policy.schedule_decides hn) with ⟨-, hnone, -⟩ | ⟨p, hbest, hp, hrota⟩
    · rw [hnext] at hnone
      cases hnone
    · obtain rfl := Option.some.inj (hnext.symm.trans hp)
      exact .pick rfl rfl rfl hbest hrota
  | grant | block => cases hreg.nothing_to_request hbare rfl
  | run hn =>
    obtain ⟨y, -, -, -, rfl⟩ := Machine.grow_eq_ok.1 hn
    obtain rfl := hreg'.nothing_to_return hbare rfl
    refine .run rfl rfl rfl (hrunner hreg.phase.2.running) (same rfl fun p => ?_)
    exact Machine.status?_adjust fun _ => rfl
  | release => cases hreg.nothing_to_return hbare rfl
  | remain => exact .remain rfl rfl rfl rfl
  | @exit m _ p _ _ _ _ =>
    have hrun := hreg.phase.running
    refine .exit rfl rfl rfl (hrunner hrun) (hreg'.filed.rota_eq rfl fun q => ?_)
    rw [Machine.status?_turn]
    split
    · cases m.status? q <;> simp
    · next hpq =>
      simp only [reduceCtorEq, iff_false]
      exact fun hq => hpq (hreg.filed.running_unique hrun hq)
  | close _ hn =>
    obtain ⟨-, rfl⟩ := Machine.advance_eq_ok.1 hn
    exact .close rfl rfl rfl rfl rfl rfl

end Simulation

end Uniprocessor
