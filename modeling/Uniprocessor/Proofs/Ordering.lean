import Uniprocessor.Proofs.Stall
/-
  Requests in one order exclude deadlocks.

  In an ordered scenario a process that requests a resource owns only resources with smaller
  numbers.  As long as the holds begin at different ages that is said by the script.  The requests
  of one age are made in the order of the script, so that what a process lacks is the end of the
  list of what is due (`Machine.InOrder`).  `Sequenced` says so of a machine, `Sequenced.move` is
  the step and `Path.sequenced` the run.

  An owner therefore wants only resources with larger numbers (`Sequenced.lt`), and a waiter is
  held up by a waiter for a later resource.  There is no last one, but only so many resources: no
  tick is idle while a process is alive (`Path.none_alive`).
-/

namespace Uniprocessor

/-- Where a process requests a resource while it has another one, the number of the requested one
is the larger. -/
def Scenario.Ordered (c : Scenario) : Prop :=
  ∀ j ∈ c.jobs,
    (∀ a ∈ j.holds, ∀ b ∈ j.holds, a.since < b.since → b.since < a.stop →
      a.resource.val < b.resource.val) ∧
    j.holds.Pairwise fun a b => a.since = b.since → a.resource.val < b.resource.val

instance (c : Scenario) : Decidable c.Ordered := by
  unfold Scenario.Ordered
  infer_instance

namespace Machine

open Simulation

/-- What `p` owns of the resources that are due at its age comes before what it lacks. -/
def InOrder (m : Machine) (p : Pid) : Prop :=
  ∀ x, m.process? p = some x → m.lacks p x <:+ x.requestsDue

variable {m n : Machine} {p q : Pid} {r : ResourceId}

theorem InOrder.follows (h : m.InOrder p) (hf : m.Follows n)
    (ho : ∀ r, n.resources.owner? r = some p ↔ m.resources.owner? r = some p) : n.InOrder p := by
  intro y hy
  obtain ⟨x, hx, hxy⟩ := hf.of hy
  have hlacks := h x hx
  rw [← lacks_congr hxy ho] at hlacks
  obtain ⟨s, k, rfl⟩ := hxy
  exact hlacks

/-- What happens to another process is of no account. -/
theorem InOrder.adjust {f : ProcessRecord → ProcessRecord} (h : m.InOrder q) (hq : q ≠ p) :
    (m.adjust p f).InOrder q := by
  intro x hx
  rw [process?_adjust, if_neg hq.symm] at hx
  exact h x hx

/-- A process that owns nothing of what is due lacks all of it. -/
theorem inOrder_of_owns_none
    (h : ∀ x, m.process? p = some x → ∀ r ∈ x.requestsDue, m.resources.owner? r ≠ some p) :
    m.InOrder p := by
  intro x hx
  have hall : m.lacks p x = x.requestsDue :=
    List.filter_eq_self.2 fun r hr => decide_eq_true (h x hx r hr)
  rw [hall]

end Machine

namespace ProcessRecord

variable {c : Scenario} {p : Pid} {x : ProcessRecord}

/-- In an ordered scenario the resources due at one age are requested in increasing order. -/
theorem Plays.requestsDue_increasing (ho : c.Ordered) (hx : x.Plays c p) :
    x.requestsDue.Pairwise fun r t => r.val < t.val := by
  obtain ⟨j, hj, -, -, -, hh⟩ := hx.job
  have hpairs := (ho j hj).2
  rw [hh] at hpairs
  rw [requestsDue, List.pairwise_map]
  refine (hpairs.filter _).imp_of_mem fun ha hb hab => hab ?_
  rw [of_decide_eq_true (List.mem_filter.1 ha).2, of_decide_eq_true (List.mem_filter.1 hb).2]

end ProcessRecord

namespace Simulation

variable {s : Strategy} {c : Scenario} {a b : Moment} {l : List Activity} {j : Journal}
variable {m : Machine} {p q : Pid} {r t : ResourceId}

/-! ## The order of requests -/

/-- All processes are in order, but the one that has just run owns of what is due at its new age
what it is about to give back. -/
structure Sequenced (back : Option (Pid × List ResourceId)) (m : Machine) : Prop where
  others : ∀ p, (∀ due, back ≠ some (p, due)) → m.InOrder p
  anew : ∀ p due x, back = some (p, due) → m.process? p = some x →
    ∀ r ∈ x.requestsDue, m.resources.owner? r = some p → r ∈ due

namespace Sequenced

/-- Where nobody is about to give anything back everybody is in order. -/
theorem inOrder (h : Sequenced none m) (p : Pid) : m.InOrder p :=
  h.others p fun _ he => by cases he

theorem of_inOrder (h : ∀ p, m.InOrder p) : Sequenced none m :=
  ⟨fun p _ => h p, fun _ _ _ he => by cases he⟩

/-- A process that has given back everything is in order again. -/
theorem settled (h : Sequenced (some (p, [])) m) : Sequenced none m := by
  refine of_inOrder fun q => ?_
  by_cases hq : p = q
  · subst hq
    refine Machine.inOrder_of_owns_none fun x hx r hr ho => ?_
    exact List.not_mem_nil (h.anew p [] x rfl hx r hr ho)
  · refine h.others q fun due he => hq ?_
    exact (Prod.mk.inj (Option.some.inj he)).1

theorem decides {π : Policy} {d : Decision} {n : Machine} (h : Sequenced none m)
    (hd : π.Decides m n d) : Sequenced none n :=
  of_inOrder fun p => (h.inOrder p).follows (Machine.follows_decides hd) fun _ => by
    rw [hd.resources]

theorem move (hc : c.Valid) (hreg : a.Regular c) (h : Sequenced a.phase.back a.machine)
    (hm : Move s a l b) : Sequenced b.phase.back b.machine := by
  have hnext := hreg.move hc hm
  cases hm with
  | @arrive m _ _ k _ _ hn =>
    obtain ⟨hnew, -, rfl⟩ := Machine.fork_eq_ok.1 hn
    refine of_inOrder fun q => ?_
    by_cases hq : k.pid = q
    · refine Machine.inOrder_of_owns_none fun x hx r _ howns => ?_
      refine (hreg.filed.owner_alive r q howns).1 ?_
      rw [← hq, Machine.status?, hnew]
      rfl
    · intro x hx
      rw [Machine.process?_enroll, if_neg hq] at hx
      exact h.inOrder q x hx
  | begin => exact h
  | idle hn => exact h.decides (Policy.schedule_decides hn)
  | dispatch hn => exact h.decides (Policy.schedule_decides hn)
  | @grant _ _ _ _ p r due _ hn =>
    obtain ⟨hscripted, hreq⟩ := hreg.requests rfl
    have ha := hreq.acquires hn
    have hfollows := Machine.follows_acquires ha
    refine of_inOrder fun q => ?_
    by_cases hq : q = p
    · subst hq
      intro y hy
      obtain ⟨x, hx, hxy⟩ := hfollows.of hy
      have hlacks := hreq.due x hx
      have hsuffix := h.inOrder q x hx
      rw [Scripted.lacks_granted hc.sound (hscripted.plays q x hx) hxy hlacks ha]
      dsimp only at hsuffix
      rw [hlacks] at hsuffix
      obtain ⟨st, k, rfl⟩ := hxy
      exact (List.suffix_cons r due).trans hsuffix
    · exact (h.inOrder q).follows hfollows fun _ => ha.owner?_granted_iff hq
  | block hn =>
    have ha := hreg.phase.2.acquires hn
    refine of_inOrder fun q => (h.inOrder q).follows (Machine.follows_acquires ha) fun _ => ?_
    rw [ha.owner?_blocked]
  | @run _ _ _ _ p _ _ due _ hn hx hdue =>
    obtain ⟨_, -, -, -, rfl⟩ := Machine.grow_eq_ok.1 hn
    refine ⟨fun q hq => ?_, fun q _ y hback hy r hr howns => ?_⟩
    · exact (h.inOrder q).adjust fun he => hq due (he ▸ rfl)
    · cases hback
      obtain rfl := Option.some.inj (hx.symm.trans hy)
      have hplays := hnext.scripted.plays p _ hx
      obtain ⟨_, hdue', -, hiff⟩ := hplays.releasesDue hc.sound hc.inRange
      obtain rfl := Except.ok.inj (hdue.symm.trans hdue')
      obtain ⟨g, hg, rfl⟩ := List.mem_map.1 hr
      obtain ⟨hg, hsince⟩ := List.mem_filter.1 hg
      have hsince := of_decide_eq_true hsince
      -- the hold that begins now and the one from which the resource is owned touch at this age
      obtain ⟨k, hk, hres, hbegun, hstop⟩ := hnext.phase.begun _ hx _ howns
      have hlt := (hplays.fits hc.sound hg).since_lt
      refine (hiff _).2 ⟨k, hk, hres, ?_⟩
      rcases hplays.apart hc.sound hk hg hres with rfl | hap | hap <;> omega
  | @release _ _ _ p t o due _ hn =>
    have hret : Returns _ p (t :: due) := hreg.phase
    have hr := hret.releases hn
    have hfollows := Machine.follows_releases hr
    refine ⟨fun q hq => ?_, fun q _ y hback hy r hreqs howns => ?_⟩
    · have hqp : q ≠ p := fun he => hq due (he ▸ rfl)
      refine (h.others q fun due' he => ?_).follows hfollows fun _ => hr.owner?_iff hqp
      exact hqp (Prod.mk.inj (Option.some.inj he)).1.symm
    · cases hback
      dsimp only at howns
      rw [hr.owner?] at howns
      split at howns
      · cases howns
      · next hne =>
        obtain ⟨x, hx, hxy⟩ := hfollows.of hy
        obtain ⟨st, k, rfl⟩ := hxy
        have hmem := h.anew p _ x rfl hx r hreqs howns
        exact (List.mem_cons.1 hmem).resolve_left (Ne.symm hne)
  | remain => exact h.settled
  | exit =>
    refine of_inOrder fun q => (h.settled.inOrder q).follows ?_ fun _ => Iff.rfl
    exact Machine.follows_adjust fun x => x.alike_turn _
  | close _ hn =>
    obtain ⟨-, rfl⟩ := Machine.advance_eq_ok.1 hn
    exact of_inOrder h.inOrder

/-- An owner wants only later resources. -/
theorem lt (ho : c.Ordered) (hs : Scripted c none m) (h : Sequenced none m)
    (howns : m.resources.owner? t = some p) (hw : m.Wants p r) : t.val < r.val := by
  obtain ⟨x, hx, hhead⟩ := hw
  obtain ⟨rest, hlacks⟩ := List.head?_eq_some_iff.1 hhead
  have hplays := hs.plays p x hx
  obtain ⟨⟨g, hg, rfl, hsince⟩, -⟩ := mem_lacks.1 (List.mem_of_mem_head? hhead)
  obtain ⟨k, hk, rfl, hbegun, hstop⟩ :=
    (hs.owner t p x howns hx).resolve_left fun ⟨_, hd, _⟩ => by cases hd
  rcases Nat.lt_or_eq_of_le hbegun with hlt | heq
  · obtain ⟨j, hj, -, -, -, hh⟩ := hplays.job
    exact (ho j hj).1 k (hh ▸ hk) g (hh ▸ hg) (by omega) (by omega)
  · -- both are due at this age, and what is owned stands before what is lacked
    obtain ⟨pre, hpre⟩ := h.inOrder p x hx
    have hinc := hplays.requestsDue_increasing ho
    rw [← hpre] at hinc
    have hmem : k.resource ∈ pre ++ m.lacks p x := by
      rw [hpre]
      exact List.mem_map_of_mem (List.mem_filter.2 ⟨hk, decide_eq_true heq⟩)
    have howned := (List.mem_append.1 hmem).resolve_right fun hl => (mem_lacks.1 hl).2 howns
    exact (List.pairwise_append.1 hinc).2.2 _ howned _ (List.mem_of_mem_head? hhead)

end Sequenced

theorem Path.sequenced (hc : c.Valid) (g : Path s (opening c).moment j b) :
    Sequenced b.phase.back b.machine := by
  induction g with
  | refl => exact .of_inOrder fun p x hx => by cases hx
  | snoc g hm ih => exact ih.move hc (g.regular hc) hm

/-! ## No stall -/

/-- No tick of an ordered scenario is idle while a process is alive. -/
theorem Path.none_alive (hc : c.Valid) (ho : c.Ordered) (g : Path s (opening c).moment j b)
    (hb : b.phase = .closing false) : ¬ Alive b.machine p := by
  have hfiled := (g.regular hc).filed
  have hscripted := (g.regular hc).scripted
  have hsequenced := g.sequenced hc
  rw [hb] at hscripted hsequenced
  -- by induction on the number of resources from `r` on
  have hnone : ∀ k r, b.machine.resources.size ≤ r.val + k →
      ∀ w, w ∉ b.machine.resources.waiters r := by
    intro k
    induction k with
    | zero =>
      intro r hle w hw
      have := ResourceTable.mem_waiters_lt hw
      omega
    | succ k ih =>
      intro r hle w hw
      obtain ⟨q, howns, hwaiting⟩ := g.held_up hc hb hw
      obtain ⟨t, ht⟩ := (hfiled.mem_waiters q).2 hwaiting
      have hlt := hsequenced.lt ho hscripted howns (g.waits hc t q ht)
      exact ih t (by omega) q ht
  intro halive
  have hwaiting := halive.active_or_waiting.resolve_left (g.not_active hc hb)
  obtain ⟨r, hr⟩ := (hfiled.mem_waiters p).2 hwaiting
  exact hnone _ r (Nat.le_add_left _ _) p hr

end Simulation

end Uniprocessor
