import Uniprocessor.Proofs.Completion
import Uniprocessor.Proofs.Rules
/-
  The audit passes at the end of every tick.

  What a run reaches is filed, and the audit of a filed machine finds nothing.  A tick therefore
  always ends at a moment of the run (`tickAt_moment`), and a run does not depend on whether it
  is audited (`step_audit`, `advance_audit`).
-/

namespace Uniprocessor

namespace Simulation

variable {s : Strategy} {c : Scenario}

/-! ## The audit of a run -/

/-- A tick ends at a moment of the run. -/
theorem step_moment (hc : c.Valid) {audit : Bool} {g : Progress} {r : TickResult}
    (hg : g.moment.Regular c) (h : step s audit g = .ok r) :
    ∃ e, Path s g.moment (stamp g.machine.tick r.done) e ∧ e.machine = r.after.machine ∧
      (r.exit = none → e = r.after.moment ∧ r.after.machine.tick = g.machine.tick + 1) := by
  obtain ⟨ran, b, m, acts, ht, path, hcloses⟩ := step_path h
  cases hcloses with
  | ended => exact ⟨_, path, rfl, fun he => by cases he⟩
  | broken _ _ hv =>
    rw [(hg.path hc path).filed.audit_eq_ok] at hv
    cases hv
  | next hover _ hn =>
    have hclose := path.snoc (.close hover hn)
    obtain ⟨-, rfl⟩ := Machine.advance_eq_ok.1 hn
    dsimp only at hclose
    rw [ht] at hclose
    refine ⟨_, ?_, rfl, fun _ => ⟨rfl, congrArg (· + 1) ht⟩⟩
    rw [stamp, List.map_append]
    exact hclose

theorem tickAt_moment (hc : c.Valid) {k : Nat} {r : TickResult} (h : tickAt s c k = some r) :
    ∃ e, Path s (opening c).moment (historyAt s c k) e ∧ e.machine = r.after.machine ∧
      (r.exit = none → e = r.after.moment ∧ r.after.machine.tick = k + 1) := by
  induction k generalizing r with
  | zero =>
    obtain ⟨e, hpath, hrest⟩ := step_moment hc (regular_opening hc) (toOption_eq_some.1 h)
    exact ⟨e, by rw [historyAt, h]; exact hpath, hrest⟩
  | succ k ih =>
    have hr := h
    obtain ⟨q, hq, h⟩ := Option.bind_eq_some_iff.1 h
    split at h
    · next he =>
      obtain ⟨e, hpath, -, hnext⟩ := ih hq
      obtain ⟨rfl, ht⟩ := hnext he
      obtain ⟨f, hpath', hmachine, hlast⟩ :=
        step_moment hc (hpath.regular hc) (toOption_eq_some.1 h)
      rw [ht] at hpath' hlast
      refine ⟨f, ?_, hmachine, hlast⟩
      rw [historyAt, hr]
      exact hpath.trans hpath'
    · cases h

/-- A run ends because all is done or at the tick limit. -/
theorem ends_unbroken {audit : Bool} {a : Moment} {j : Journal} {m : Machine} {e : Exit}
    (hc : c.Valid) (ha : a.Regular c) (h : Ends s audit a j m e) :
    (∃ b, Path s a j b ∧ b.machine = m) ∧ (e = .normal ∨ e = .tickLimit m.tick) := by
  cases h with
  | limit g => exact ⟨⟨_, g, rfl⟩, .inr rfl⟩
  | normal g _ => exact ⟨⟨_, g, rfl⟩, .inl rfl⟩
  | broken g _ hv =>
    rw [(ha.path hc g).filed.audit_eq_ok] at hv
    cases hv

/-- A tick does not depend on whether it is audited. -/
theorem step_audit (hc : c.Valid) {g : Progress} (h : g.moment.Regular c) (audit : Bool) :
    step s audit g = step s false g := by
  simp only [step]
  change (admitAll g.due g.machine >>= _) = (admitAll g.due g.machine >>= _)
  cases hm : admitAll g.due g.machine with
  | error _ => rfl
  | ok m =>
    simp only [ok_bind]
    cases hn : play s m with
    | error _ => rfl
    | ok r =>
      obtain ⟨n, acts, ran⟩ := r
      have hreg := (h.path hc (admitDue_path (s := s) hm).2).path hc (play_path hn).2
      have hok : (if audit = true then n.audit else .ok ()) = .ok () := by
        rw [hreg.filed.audit_eq_ok, ite_self]
      simp only [ok_bind, hok]
      rfl

theorem advance_audit (hc : c.Valid) {ticks : Nat} {g : Progress}
    {journal : Array (Nat × Activity)} (h : g.moment.Regular c) (audit : Bool) :
    advance s audit ticks g journal = advance s false ticks g journal := by
  induction ticks generalizing g journal with
  | zero => rfl
  | succ ticks ih =>
    simp only [advance, step_audit hc h audit]
    cases hr : step s false g with
    | error _ => rfl
    | ok r =>
      obtain ⟨e, hpath, -, hnext⟩ := step_moment hc h hr
      simp only [ok_bind]
      cases he : r.exit with
      | some _ => rfl
      | none =>
        obtain ⟨rfl, -⟩ := hnext he
        exact ih (h.path hc hpath)

theorem playAll_audit (hc : c.Valid) (audit : Bool) :
    playAll s { c with audit := audit } = advance s false c.maxTicks (opening c) #[] :=
  advance_audit hc (regular_opening hc) audit

end Simulation

open Simulation

variable {c : Scenario}

theorem simulate_audit (s : Strategy) (hr : c.InRange) (audit : Bool) :
    simulate s { c with audit := audit } = simulate s { c with audit := false } := by
  have hflaw : ∀ b, ({ c with audit := b } : Scenario).flaw? = c.flaw? := fun _ => rfl
  simp only [simulate, hflaw]
  cases hf : c.flaw? with
  | error _ => rfl
  | ok o =>
    cases o with
    | some f => rfl
    | none =>
      simp only [ok_bind, playAll_audit ⟨hr, hf⟩]
      rfl

/-- The exit of a run that gets past its checks is that of its ticks. -/
theorem exit_of_simulate {s : Strategy} {run : Run} (h : simulate s c = .ok run) :
    (∃ f, run.trace.exit = .invalidScenario f) ∨
      c.flaw? = .ok none ∧ ∃ f, playAll s c = .ok f ∧ run = ⟨traceOf c f, logOf s c f⟩ := by
  simp only [simulate, bind_eq_ok] at h
  obtain ⟨o, ho, h⟩ := h
  cases o with
  | some f =>
    cases h
    exact .inl ⟨f, rfl⟩
  | none =>
    simp only [bind_eq_ok, Machine.allocate_eq_ok] at h
    obtain ⟨_, ⟨-, rfl⟩, h⟩ := h
    have hlimits : s.checkLimits (.start c.resourceCount c.limits) = .ok () :=
      if_pos (Scenario.flaw?_eq_none.1 ho).1.caps
    simp only [hlimits, bind_eq_ok, pure_eq_ok] at h
    obtain ⟨f, hf, rfl⟩ := h
    exact .inr ⟨ho, f, hf, rfl⟩

/-- The audit passes after every tick of a scenario without flaws; no run ends because a rule is
broken or because the strategy refuses the priority bounds; and a run is the same with the audit
and without. -/
theorem audit_passes (s : Strategy) (hr : c.InRange) :
    (c.flaw? = .ok none →
      ∀ k r, tickAt s c k = some r → r.after.machine.audit = .ok ()) ∧
    (∀ run, simulate s c = .ok run →
      (∀ v, run.trace.exit ≠ .ruleBroken v) ∧ ∀ e, run.trace.exit ≠ .limitsRefused e) ∧
    simulate s { c with audit := true } = simulate s { c with audit := false } := by
  refine ⟨fun hf k r hk => ?_, fun run h => ?_, simulate_audit s hr true⟩
  · have hc : c.Valid := ⟨hr, hf⟩
    obtain ⟨e, hpath, he, -⟩ := tickAt_moment hc hk
    rw [← he]
    exact (hpath.regular hc).filed.audit_eq_ok
  · rcases exit_of_simulate h with ⟨f, hf⟩ | ⟨hf, f, hplay, rfl⟩
    · simp [hf]
    · have hc : c.Valid := ⟨hr, hf⟩
      obtain ⟨-, he⟩ := ends_unbroken hc (regular_opening hc) (playAll_ends hplay)
      change (∀ v, f.exit ≠ _) ∧ ∀ e, f.exit ≠ _
      rcases he with he | he <;> simp [he]

theorem audit_passes_contended :
    (∃ r, tickAt .priorityInheritance .contended 2 = some r ∧
      r.after.machine.audit = .ok ()) ∧
    (∀ run, simulate .priorityInheritance .contended = .ok run →
      (∀ v, run.trace.exit ≠ .ruleBroken v) ∧ ∀ e, run.trace.exit ≠ .limitsRefused e) ∧
    simulate .priorityInheritance { Scenario.contended with audit := true } =
      simulate .priorityInheritance { Scenario.contended with audit := false } := by
  obtain ⟨hticks, hruns, hsame⟩ :=
    audit_passes (c := .contended) .priorityInheritance (by decide)
  obtain ⟨r, hr⟩ : ∃ r, tickAt .priorityInheritance .contended 2 = some r :=
    Option.isSome_iff_exists.1 (by decide)
  exact ⟨⟨r, hr, hticks rfl 2 r hr⟩, hruns, hsame⟩

end Uniprocessor
