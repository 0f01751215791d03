import Uniprocessor.Proofs.Inheritance
/-
  Priority inversion is bounded where processes hold one resource at a time.

  In an unnested scenario a process gives up the only resource that it owns, and whoever owns one
  waits for none (`not_waiting_of_owner`).  So neither of the two moves happens that could leave a
  waiter behind: every waiter is backed at every moment of a run (`Path.backed`).  Whoever backs it
  could use the CPU, and what runs is at least as urgent as all that could (`Path.urgent`).

  Main statement: `inversion_bounded`.
-/

namespace Uniprocessor

/-- No process holds two resources at one age. -/
def Scenario.Unnested (c : Scenario) : Prop := ∀ j ∈ c.jobs, j.holds.Pairwise Hold.Apart

namespace Simulation

variable {c : Scenario} {a b : Moment} {l : List Activity} {m n : Machine} {p o w : Pid}
variable {r s : ResourceId} {due : List ResourceId}

/-- Two holds of a process that share an age are the same. -/
theorem eq_of_unnested (hu : c.Unnested) {x : ProcessRecord} (hx : x.Plays c p) {g h : Hold}
    (hg : g ∈ x.holds) (hh : h ∈ x.holds) (hgh : ¬ g.Apart h) : g = h := by
  obtain ⟨j, hj, -, -, -, hs⟩ := hx.job
  have hap := hu j hj
  rw [hs] at hap
  exact (eq_or_of_pairwise (fun _ _ => Hold.Apart.symm) hap hg hh).resolve_right hgh

/-- A process that gives a resource up owns no other. -/
theorem eq_of_returns (hc : c.Sound) (hu : c.Unnested) {back : Option (Pid × List ResourceId)}
    (hm : Scripted c back m) (hret : Returns m p (s :: due))
    (ho : m.resources.owner? r = some p) : s = r := by
  obtain ⟨x, hx⟩ := Machine.exists_record hret.running
  have hplays := hm.plays p x hx
  obtain ⟨-, g, hg, rfl, hgs⟩ := hret.given x hx s List.mem_cons_self
  obtain ⟨h, hh, rfl, hsince, hstop⟩ := hret.begun x hx r ho
  have hlt := (hplays.fits hc hg).since_lt
  rw [eq_of_unnested hu hplays hg hh ?_]
  rintro (ha | ha) <;> omega

/-- Whoever owns a resource waits for none. -/
theorem not_waiting_of_owner (hc : c.Sound) (hu : c.Unnested) (hm : Scripted c none m)
    (hwaits : Waits m) (ho : m.resources.owner? s = some w) : w ∉ m.resources.waiters r := by
  intro hw
  obtain ⟨x, hx, hl⟩ := hwaits r w hw
  have hplays := hm.plays w x hx
  obtain ⟨⟨h, hh, rfl, hsince⟩, hne⟩ := mem_lacks.1 (List.mem_of_mem_head? hl)
  obtain ⟨g, hg, rfl, hcover⟩ := (hm.owner s w x ho hx).resolve_left fun ⟨_, hd, _⟩ => by cases hd
  have hlt := (hplays.fits hc hh).since_lt
  obtain ⟨hle, hstop⟩ := hcover
  rw [eq_of_unnested hu hplays hg hh ?_] at ho
  · exact hne ho
  · rintro (ha | ha) <;> omega

theorem backed_move_unnested (hc : c.Sound) (hu : c.Unnested) (h : a.Orderly c)
    (hm : Move .priorityInheritance a l b)
    (ha : ∀ r, ∀ w ∈ a.machine.resources.waiters r, Backed a.machine a.phase.asking r w) :
    ∀ r, ∀ w ∈ b.machine.resources.waiters r, Backed b.machine b.phase.asking r w := by
  intro r w hw
  obtain ⟨hreg, hwaits, htop⟩ := h
  rcases backed_move hreg hwaits htop hm hw with hb | ⟨hwa, hfree, hb⟩
  · exact hb
  · rcases hb (ha r w hwa) with hb | ⟨o, ho, _, hl, s, rfl⟩ | ⟨_, hl, p, s, i, k, rfl, hlt⟩
    · exact hb
    · obtain ⟨-, due, hphase⟩ := hm.of_released hl
      obtain ⟨hscripted, hret⟩ := hreg.returns hphase
      rw [eq_of_returns hc hu hscripted hret ho] at hl
      exact absurd hl (hfree o)
    · obtain ⟨-, d, due, hphase, hn⟩ := hm.of_blocked hl
      obtain ⟨hscripted, hreq⟩ := hreg.requests hphase
      have ho := (hreq.acquires hn).blocker.1
      exact absurd hwa (not_waiting_of_owner hc hu hscripted hwaits ho)

/-- Every waiter is backed. -/
theorem Path.backed {j : Journal} (hc : c.Valid) (hu : c.Unnested)
    (g : Path .priorityInheritance (opening c).moment j a)
    (hw : w ∈ a.machine.resources.waiters r) : Backed a.machine a.phase.asking r w := by
  have hall := g.invariant (P := fun a => a.Orderly c ∧
    ∀ r, ∀ w ∈ a.machine.resources.waiters r, Backed a.machine a.phase.asking r w)
    (fun a l b ha hm => ⟨ha.1.move hc hm, backed_move_unnested hc.sound hu ha.1 hm ha.2⟩)
    ⟨orderly_opening hc, fun r w hw => ?_⟩
  · exact hall.2 r w hw
  · rw [waiters_opening] at hw
    cases hw

/-- Whoever answers for a wait-set could use the CPU. -/
theorem Answers.active {v : Pid} {i : Option Pid} (hc : c.Sound) (hu : c.Unnested)
    (hm : m.Filed) (hs : Scripted c none m) (hwaits : Waits m)
    (hi : ∀ q, i = some q → m.status? q = some .running) (h : Answers m i v r) : m.Active v := by
  rcases h with h | ⟨-, -, h | h⟩
  · obtain ⟨hknown, hend⟩ := hm.owner_alive r v h
    obtain ⟨x, hx⟩ := Machine.status?_ne_none.1 hknown
    have hwait : m.status? v ≠ some .waiting := fun hst => by
      obtain ⟨t, ht⟩ := (hm.mem_waiters v).2 hst
      exact not_waiting_of_owner hc hu hs hwaits h ht
    rw [Machine.Active, Machine.status?_of hx]
    rw [Machine.status?_of hx] at hwait hend
    cases hst : x.status <;> simp [hst] at hwait hend ⊢
  · exact .inl h
  · exact .inr (hi v h)

/-- The process that is about to run is at least as urgent as every waiter. -/
theorem Path.urgent {j : Journal} {d : Decision} (hc : c.Valid) (hu : c.Unnested)
    (g : Path .priorityInheritance (opening c).moment j a) (ha : a.phase = .requesting d p due) :
    ∃ x, d = .pick p x ∧
      ∀ r, ∀ w ∈ a.machine.resources.waiters r, priorityOf a.machine w ≤ x.priority := by
  obtain ⟨hreg, hwaits, htop⟩ := g.orderly hc
  have hphase := hreg.phase
  have hscripted := hreg.scripted
  rw [ha] at hphase hscripted htop
  obtain ⟨x, hd, hx, htop⟩ := htop
  refine ⟨x, hd, fun r w hw => ?_⟩
  obtain ⟨v, hv, hle⟩ := g.backed hc hu hw
  rw [ha] at hv
  have hactive := hv.active hc.sound hu hreg.filed hscripted hwaits fun q hq => by
    rw [← Option.some.inj hq]
    exact hphase.2.running
  rw [hx]
  exact Nat.le_trans hle (htop v hactive)

/-- Without nesting inheritance is never lost: an owner is at least as urgent as every process
that waits for it. -/
theorem Path.owner_urgent {j : Journal} (hc : c.Valid) (hu : c.Unnested)
    (g : Path .priorityInheritance (opening c).moment j a)
    (ho : a.machine.resources.owner? r = some o) (hw : w ∈ a.machine.resources.waiters r) :
    priorityOf a.machine w ≤ priorityOf a.machine o :=
  (g.backed hc hu hw).owner ho

end Simulation

open Simulation

variable {c : Scenario}

/-- Priority inversion is bounded in unnested scenarios: at every moment at which a process runs,
the priority with which the last decision picked it is at least that of every process in a
wait-set; and every entry of a journal that says that a process ran comes from such a moment. -/
theorem inversion_bounded (hc : c.Valid) (hu : c.Unnested) :
    (∀ j a b p age, Path .priorityInheritance (opening c).moment j a →
      Move .priorityInheritance a [.ran p age] b →
      ∃ x, LastDecided j a.machine.tick (.pick p x) p ∧
        ∀ r, ∀ w ∈ a.machine.resources.waiters r, priorityOf a.machine w ≤ x.priority) ∧
    ∀ f, playAll .priorityInheritance c = .ok f →
      ∀ pre post t p age, f.journal = pre ++ (t, .ran p age) :: post →
      ∃ a b e, Path .priorityInheritance (opening c).moment pre a ∧
        Move .priorityInheritance a [.ran p age] b ∧ a.machine.tick = t ∧
        Path .priorityInheritance b post e ∧ e.machine = f.machine := by
  refine ⟨fun j a b p age g hm => ?_, fun f hf pre post t p age hj => ?_⟩
  · obtain ⟨-, d, ha, -⟩ := hm.of_ran (List.mem_singleton_self _)
    obtain ⟨x, rfl, hall⟩ := g.urgent hc hu ha
    exact ⟨x, g.lastDecided rfl ha, hall⟩
  · obtain ⟨⟨e, hpath, he⟩, -⟩ := ends_unbroken hc (regular_opening hc) (playAll_ends hf)
    obtain ⟨a, b, hpre, hm, ht, hpost⟩ := hpath.split_ran hj
    exact ⟨a, b, e, hpre, hm, ht, hpost, he⟩

theorem inversion_bounded_contended :
    ∃ f pre post a b e x, playAll .priorityInheritance .contended = .ok f ∧
      f.journal = pre ++ (1, .ran ⟨1⟩ 2) :: post ∧
      Path .priorityInheritance (opening .contended).moment pre a ∧
      Move .priorityInheritance a [.ran ⟨1⟩ 2] b ∧ Path .priorityInheritance b post e ∧
      LastDecided pre a.machine.tick (.pick ⟨1⟩ x) ⟨1⟩ ∧
      ∀ r, ∀ w ∈ a.machine.resources.waiters r, priorityOf a.machine w ≤ x.priority := by
  obtain ⟨hpicked, hran⟩ :=
    inversion_bounded (c := .contended) (by decide) (by unfold Scenario.Unnested; decide)
  have hplay : (playAll .priorityInheritance .contended).toOption.any
      (fun f => decide ((1, .ran ⟨1⟩ 2) ∈ f.journal)) = true := by decide
  obtain ⟨f, hf, hmem⟩ := Option.any_eq_true _ _ |>.1 hplay
  have hf := toOption_eq_some.1 hf
  obtain ⟨pre, post, hj⟩ := List.append_of_mem (of_decide_eq_true hmem)
  obtain ⟨a, b, e, hpre, hm, -, hpost, -⟩ := hran f hf pre post 1 ⟨1⟩ 2 hj
  obtain ⟨x, hlast, hall⟩ := hpicked pre a b ⟨1⟩ 2 hpre hm
  exact ⟨f, pre, post, a, b, e, x, hf, hj, hpre, hm, hpost, hlast, hall⟩

end Uniprocessor
