import Uniprocessor.Proofs.Course
import Uniprocessor.Proofs.Script
/-
  Every moment of a run of a valid scenario is regular.

  `Moment.Regular` collects what is known of a moment: its machine is filed and scripted, its
  phase agrees with the machine, and the jobs that are still to arrive are jobs of the scenario
  that the machine does not know yet.  `Regular.move` is the step, `Regular.path`
  and `Path.regular` are the run.
-/

namespace Uniprocessor

namespace Simulation

/-- The process that has run, with what it is to give back. -/
def Phase.back : Phase → Option (Pid × List ResourceId)
  | .releasing p due => some (p, due)
  | .arriving | .deciding | .requesting _ _ _ | .closing _ => none

/-- What a phase says of the process on the CPU. -/
def Phase.Fits (m : Machine) : Phase → Prop
  | .requesting d p due => d.next = some p ∧ Requests m p due
  | .releasing p due => Returns m p due
  | .arriving | .deciding | .closing _ => True

/-- What holds at every moment of a run of the scenario. -/
structure Moment.Regular (c : Scenario) (a : Moment) : Prop where
  filed : a.machine.Filed
  scripted : Scripted c a.phase.back a.machine
  phase : a.phase.Fits a.machine
  fresh : (a.pending.map (·.pid)).Nodup
  pending : ∀ j ∈ a.pending, j ∈ c.jobs ∧ a.machine.process? j.pid = none

variable {s : Strategy} {c : Scenario} {a b : Moment} {l : List Activity}

/-- While the process on the CPU makes its requests nobody has run yet. -/
theorem Moment.Regular.requests (h : a.Regular c) {d : Decision} {p : Pid} {due : List ResourceId}
    (ha : a.phase = .requesting d p due) :
    Scripted c none a.machine ∧ Requests a.machine p due := by
  have hscripted := h.scripted
  have hphase := h.phase
  rw [ha] at hscripted hphase
  exact ⟨hscripted, hphase.2⟩

/-- After that it is in the middle of giving back. -/
theorem Moment.Regular.returns (h : a.Regular c) {p : Pid} {due : List ResourceId}
    (ha : a.phase = .releasing p due) :
    Scripted c (some (p, due)) a.machine ∧ Returns a.machine p due := by
  have hscripted := h.scripted
  have hphase := h.phase
  rw [ha] at hscripted hphase
  exact ⟨hscripted, hphase⟩

/-- The call of the process on the CPU is a request of that process. -/
theorem Requests.acquires {m n : Machine} {p : Pid} {due : List ResourceId} {r : ResourceId}
    {reply : Reply} (hq : Requests m p due) (hn : s.acquire m r = .ok (n, reply)) :
    s.protocol.Acquires m r p n reply := by
  obtain ⟨q, hcur, hn⟩ := Strategy.acquire_eq_ok.1 hn
  rw [Option.some.inj (hq.current.symm.trans hcur)]
  exact Protocol.acquire_acquires hn

/-- The call of the process on the CPU is a release by that process. -/
theorem Returns.releases {m n : Machine} {p : Pid} {due : List ResourceId} {r : ResourceId}
    {o : Option Pid} (hq : Returns m p due) (hn : s.release m r = .ok (n, o)) :
    s.protocol.Releases m r p n o := by
  obtain ⟨q, hcur, hn⟩ := Strategy.release_eq_ok.1 hn
  rw [Option.some.inj (hq.current.symm.trans hcur)]
  exact Protocol.release_releases hn

/-- A release takes those whom it wakes out of the wait-set. -/
theorem waiters_released {κ : Protocol} {m n : Machine} {r : ResourceId} {p : Pid} {o : Option Pid}
    (hm : m.Filed) (hr : κ.Releases m r p n o) :
    n.resources.waiters r = (m.resources.waiters r).filter fun q => o ≠ some q := by
  cases o with
  | none =>
    rw [hr.waiters_quiet]
    exact (List.filter_eq_self.2 fun _ _ => rfl).symm
  | some w =>
    rw [hr.waiters_wake, if_pos rfl, (hm.waiters_nodup r).erase_eq_filter]
    refine List.filter_congr fun q _ => ?_
    by_cases hqw : q = w
    · simp [hqw]
    · simp [hqw, Ne.symm hqw]

/-- Who is found to have left the wait-set with a release is whom the release made ready. -/
theorem leaver?_eq {m n : Machine} {r : ResourceId} {o : Option Pid} (hm : m.Filed)
    (hn : s.release m r = .ok (n, o)) : leaver? m n r = o := by
  obtain ⟨p, -, hn⟩ := Strategy.release_eq_ok.1 hn
  have hr := Protocol.release_releases hn
  rw [leaver?, waiters_released hm hr]
  cases o with
  | none =>
    refine List.find?_eq_none.2 fun w hw => ?_
    simpa using hw
  | some w =>
    have hleft : ∃ v ∈ m.resources.waiters r, decide (v ∉ (m.resources.waiters r).filter
        fun q => some w ≠ some q) = true := ⟨w, hr.mem_of_woken, by simp⟩
    obtain ⟨v, hv⟩ := Option.isSome_iff_exists.1 (List.find?_isSome.2 hleft)
    have hmem := List.mem_of_find?_eq_some hv
    have hgone := List.find?_some hv
    rw [hv]
    simp_all

/-- What is pending stays so while the same processes go on. -/
theorem pending_follows {m n : Machine} {jobs : List Job}
    (h : ∀ j ∈ jobs, j ∈ c.jobs ∧ m.process? j.pid = none) (hf : m.Follows n) :
    ∀ j ∈ jobs, j ∈ c.jobs ∧ n.process? j.pid = none := fun j hj =>
  ⟨(h j hj).1, hf.process?_eq_none.2 (h j hj).2⟩

theorem Moment.Regular.move (hc : c.Valid) (h : a.Regular c) (hm : Move s a l b) :
    b.Regular c := by
  obtain ⟨filed, scripted, phase, fresh, pending⟩ := h
  cases hm with
  | arrive hj hn =>
    obtain ⟨hnew, -, rfl⟩ := Machine.fork_eq_ok.1 hn
    obtain ⟨hmem, hpending⟩ := List.forall_mem_cons.1 pending
    obtain ⟨hfirst, hfresh⟩ := List.nodup_cons.1 fresh
    have hscripted := scripted.enroll hc.sound hc.inRange filed hmem.1 hnew
    refine ⟨filed.enroll hnew, hscripted, trivial, hfresh, fun k hk => ⟨(hpending k hk).1, ?_⟩⟩
    change Machine.process? (Machine.enroll _ _) _ = none
    rw [Machine.process?_enroll, if_neg, (hpending k hk).2]
    exact fun he => hfirst (List.mem_map.2 ⟨k, hk, he.symm⟩)
  | begin => exact ⟨filed, scripted, trivial, fresh, pending⟩
  | idle hn =>
    have hd := Policy.schedule_decides hn
    exact ⟨filed.decides scripted.unfinished_running hd, scripted.decides hc.inRange hd, trivial,
      fresh, pending_follows pending (Machine.follows_decides hd)⟩
  | dispatch hn hp hdue =>
    have hd := Policy.schedule_decides hn
    have hfiled := filed.decides scripted.unfinished_running hd
    have hscripted := scripted.decides hc.inRange hd
    obtain ⟨hcur, hrun⟩ := Machine.running_of_decides hd hp
    exact ⟨hfiled, hscripted, ⟨hp, Scripted.requests hcur hrun hdue⟩, fresh,
      pending_follows pending (Machine.follows_decides hd)⟩
  | grant hn =>
    obtain ⟨hp, hreq⟩ := phase
    have ha := hreq.acquires hn
    obtain ⟨hscripted, hrequests⟩ := scripted.grants hc.sound hc.inRange hreq ha
    exact ⟨filed.acquires hreq.running ha, hscripted, ⟨hp, hrequests⟩, fresh,
      pending_follows pending (Machine.follows_acquires ha)⟩
  | block hn =>
    obtain ⟨-, hreq⟩ := phase
    have ha := hreq.acquires hn
    exact ⟨filed.acquires hreq.running ha, scripted.blocks hc.inRange hreq.running ha, trivial,
      fresh, pending_follows pending (Machine.follows_acquires ha)⟩
  | @run _ _ _ _ p _ _ _ _ hn hx hdue =>
    obtain ⟨y, hy, -, rfl, rfl⟩ := Machine.grow_eq_ok.1 hn
    obtain ⟨-, hreq⟩ := phase
    rw [Machine.process?_adjust, if_pos rfl, hy] at hx
    obtain rfl := Option.some.inj hx
    have hfiled := filed.adjust (p := p) (f := .aged (y.age + 1)) fun _ => rfl
    have hplays := (scripted.plays p y hy).grow (hreq.age_lt scripted hy)
    obtain ⟨_, hdue', hnodup, hiff⟩ := hplays.releasesDue hc.sound hc.inRange
    obtain rfl := Except.ok.inj (hdue.symm.trans hdue')
    obtain ⟨hscripted, hreturns⟩ := scripted.grows hc.sound hreq hy hiff hnodup
    refine ⟨hfiled, hscripted, hreturns, fresh, fun j hj => ⟨(pending j hj).1, ?_⟩⟩
    change Machine.process? (Machine.adjust _ _ _) _ = none
    rw [Machine.process?_adjust]
    split <;> simp [(pending j hj).2]
  | release hn =>
    have hr := phase.releases hn
    obtain ⟨hscripted, hreturns⟩ := scripted.releases hc.sound phase hr
    exact ⟨filed.releases hr, hscripted, hreturns, fresh,
      pending_follows pending (Machine.follows_releases hr)⟩
  | remain hx hd => exact ⟨filed, scripted.remain hx hd, trivial, fresh, pending⟩
  | exit hx hd =>
    exact ⟨filed.finish phase.running fun r => scripted.owns_nothing hc.sound hx hd,
      scripted.exit hc.sound hx hd, trivial, fresh,
      pending_follows pending (Machine.follows_adjust fun y => y.alike_turn _)⟩
  | close _ hn =>
    obtain ⟨-, rfl⟩ := Machine.advance_eq_ok.1 hn
    exact ⟨filed.pass, scripted.pass, trivial, fresh, pending⟩

theorem regular_opening (hc : c.Valid) : (opening c).moment.Regular c where
  filed := .start _ _
  scripted := .start c
  phase := trivial
  fresh := ((arrivals_perm c.jobs).map _).nodup_iff.2 hc.sound.pids
  pending _ hj := ⟨(arrivals_perm c.jobs).mem_iff.1 hj, rfl⟩

theorem Moment.Regular.path {j : Journal} (hc : c.Valid) (h : a.Regular c) (g : Path s a j b) :
    b.Regular c :=
  g.invariant (fun _ _ _ ha hm => ha.move hc hm) h

theorem Path.regular {j : Journal} (hc : c.Valid) (h : Path s (opening c).moment j b) :
    b.Regular c :=
  (regular_opening hc).path hc h

end Simulation

end Uniprocessor
