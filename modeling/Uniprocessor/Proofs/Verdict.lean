import Uniprocessor.Proofs.Acceptance
/-
  The verdict on a scenario: accepted, refused, or none at all.

  The check computes the end of a hold in a word.  A hold that ends beyond every word has no place
  in any lifespan, but the check does not get as far as refusing it: the sum is a fault.  The holds
  of a job are tried in order and the jobs one after the other, so this happens exactly when such
  a hold is reached before the first flaw (`Scenario.Overruns`).  Two holds are only compared once
  the ends of all holds of their job are known to fit, so that a comparison is never a fault.

  Main statement: `check_verdict`, which of the three comes out.  That the third does come out is
  `check_overflows`.
-/

namespace Uniprocessor

theorem exists_split_cons {α : Type} {P Q : α → Prop} {a : α} {l : List α} :
    (∃ front x back, a :: l = front ++ x :: back ∧ (∀ y ∈ front, P y) ∧ Q x) ↔
      Q a ∨ P a ∧ ∃ front x back, l = front ++ x :: back ∧ (∀ y ∈ front, P y) ∧ Q x := by
  constructor
  · rintro ⟨front, x, back, hsplit, hfront, hx⟩
    cases front with
    | nil =>
      obtain ⟨rfl, -⟩ := List.cons.inj hsplit
      exact .inl hx
    | cons b front =>
      obtain ⟨rfl, hl⟩ := List.cons.inj hsplit
      obtain ⟨hb, hfront⟩ := List.forall_mem_cons.1 hfront
      exact .inr ⟨hb, front, x, back, hl, hfront, hx⟩
  · rintro (ha | ⟨ha, front, x, back, rfl, hfront, hx⟩)
    · exact ⟨[], a, l, rfl, by simp, ha⟩
    · exact ⟨a :: front, x, back, rfl, List.forall_mem_cons.2 ⟨ha, hfront⟩, hx⟩

/-- A hold that passes the tests that come before its end is computed, and that ends beyond every
word. -/
structure Hold.Overruns (h : Hold) (count : Nat) : Prop where
  inTable : h.resource.val < count
  lasts : 0 < h.duration
  beyond : tickBound ≤ h.stop

/-- The check of a job gets to a hold that overruns. -/
def Job.Overruns (j : Job) (count : Nat) : Prop :=
  0 < j.lifespan ∧ ∃ front h back, j.holds = front ++ h :: back ∧
    (∀ x ∈ front, x.Fits j.lifespan count) ∧ h.Overruns count

/-- The check of a scenario gets to a job that overruns. -/
def Scenario.Overruns (c : Scenario) : Prop :=
  c.limits.agingCap ≤ c.limits.maxPriority ∧ ∃ front j back, c.jobs = front ++ j :: back ∧
    ((front ++ [j]).map (·.pid)).Nodup ∧ (∀ k ∈ front, k.Sound c.resourceCount) ∧
      j.Overruns c.resourceCount

/-! ## Holds -/

theorem Hold.releaseAge_eq_error {h : Hold} {f : Fault} :
    h.releaseAge = .error f ↔ f = .sumOverflow ∧ tickBound ≤ h.stop := by
  unfold Hold.releaseAge addTicks Hold.stop
  split <;> simp only [Except.error.injEq, reduceCtorEq, false_iff] <;> grind

theorem Hold.overlapsAny_ne_error {a : Hold} {l : List Hold} {f : Fault} (ha : a.stop < tickBound)
    (hl : ∀ b ∈ l, b.stop < tickBound) : a.overlapsAny l ≠ .error f := by
  induction l with
  | nil => simp [Hold.overlapsAny]
  | cons b l ih =>
    obtain ⟨hb, hl⟩ := List.forall_mem_cons.1 hl
    simp only [Hold.overlapsAny, Hold.overlaps_eq_ok ha hb, ok_bind]
    split
    · simp [pure, Except.pure]
    · exact ih hl

namespace Job

variable {j : Job} {count : Nat} {l : List Hold} {f : Fault}

theorem overlapFlaw?_ne_error (hl : ∀ h ∈ l, h.stop < tickBound) : j.overlapFlaw? l ≠ .error f := by
  induction l with
  | nil => simp [overlapFlaw?]
  | cons h l ih =>
    obtain ⟨hh, hl⟩ := List.forall_mem_cons.1 hl
    simp only [overlapFlaw?, ne_eq, bind_eq_error, not_or, not_exists, not_and]
    refine ⟨Hold.overlapsAny_ne_error hh hl, fun b _ => ?_⟩
    split
    · simp [pure, Except.pure]
    · exact ih hl

/-- The first hold that does not fit overruns. -/
theorem holdFlaw?_eq_error (hj : j.lifespan < tickBound) :
    j.holdFlaw? count l = .error f ↔ f = .sumOverflow ∧ ∃ front h back, l = front ++ h :: back ∧
      (∀ x ∈ front, x.Fits j.lifespan count) ∧ h.Overruns count := by
  induction l with
  | nil => simp [holdFlaw?]
  | cons h l ih =>
    rw [exists_split_cons (P := fun x : Hold => x.Fits j.lifespan count), holdFlaw?]
    split
    · next hr =>
      refine iff_of_false (by simp) ?_
      rintro ⟨-, ho | ⟨hf, -⟩⟩
      · exact absurd ho.inTable (Nat.not_lt.2 hr)
      · exact absurd hf.inTable (Nat.not_lt.2 hr)
    split
    · next hd =>
      refine iff_of_false (by simp) ?_
      rintro ⟨-, ho | ⟨hf, -⟩⟩
      · exact absurd hd (Nat.pos_iff_ne_zero.1 ho.lasts)
      · exact absurd hd (Nat.pos_iff_ne_zero.1 hf.lasts)
    · next hr hd =>
      simp only [bind_eq_error, Hold.releaseAge_eq_error, Hold.releaseAge_eq_ok]
      constructor
      · rintro (⟨hf, hb⟩ | ⟨_, ⟨-, rfl⟩, hrest⟩)
        · exact ⟨hf, .inl ⟨Nat.not_le.1 hr, Nat.pos_of_ne_zero hd, hb⟩⟩
        · split at hrest
          · cases hrest
          · next hl =>
            obtain ⟨hf, hsplit⟩ := ih.1 hrest
            exact ⟨hf, .inr ⟨⟨Nat.not_le.1 hr, Nat.pos_of_ne_zero hd, Nat.not_lt.1 hl⟩, hsplit⟩⟩
      · rintro ⟨hf, ho | ⟨hfits, hsplit⟩⟩
        · exact .inl ⟨hf, ho.beyond⟩
        · refine .inr ⟨_, ⟨Nat.lt_of_le_of_lt hfits.ends hj, rfl⟩, ?_⟩
          rw [if_neg (Nat.not_lt.2 hfits.ends)]
          exact ih.2 ⟨hf, hsplit⟩

theorem flaw?_eq_error (hj : j.lifespan < tickBound) :
    j.flaw? count = .error f ↔ f = .sumOverflow ∧ j.Overruns count := by
  unfold flaw?
  split
  · next h0 => simp [Overruns, h0]
  · next h0 =>
    simp only [Overruns, Nat.pos_of_ne_zero h0, true_and, ← holdFlaw?_eq_error hj, bind_eq_error]
    refine or_iff_left ?_
    rintro ⟨o, ho, h⟩
    cases o with
    | some g => cases h
    | none => exact overlapFlaw?_ne_error (fun x hx => (holdFlaw?_eq_none.1 ho x hx).2) h

end Job

namespace Scenario

variable {c : Scenario}

/-! ## Scenarios -/

/-- The first job that is not sound, or whose name is taken, has a name of its own and overruns. -/
theorem jobsFlaw?_eq_error {count : Nat} {seen : List Pid} {l : List Job} {f : Fault}
    (hl : ∀ j ∈ l, j.lifespan < tickBound) :
    jobsFlaw? count seen l = .error f ↔ f = .sumOverflow ∧ ∃ front j back, l = front ++ j :: back ∧
      ((front ++ [j]).map (·.pid)).Nodup ∧ (∀ k ∈ front ++ [j], k.pid ∉ seen) ∧
        (∀ k ∈ front, k.Sound count) ∧ j.Overruns count := by
  induction l generalizing seen with
  | nil => simp [jobsFlaw?]
  | cons k l ih =>
    obtain ⟨hk, hl⟩ := List.forall_mem_cons.1 hl
    rw [jobsFlaw?]
    split
    · next hs =>
      refine iff_of_false (by simp) ?_
      rintro ⟨-, front, j, back, hsplit, -, hseen, -⟩
      have hmem : k ∈ front ++ [j] := by
        cases front with
        | nil => exact List.mem_singleton.2 (List.cons.inj hsplit).1
        | cons b front => exact List.mem_cons.2 (.inl (List.cons.inj hsplit).1)
      exact absurd hs (hseen k hmem)
    · next hs =>
      simp only [bind_eq_error, Job.flaw?_eq_error hk]
      constructor
      · rintro (⟨hf, ho⟩ | ⟨o, ho, hrest⟩)
        · exact ⟨hf, [], k, l, rfl, by simp, by simpa using hs, by simp, ho⟩
        · cases o with
          | some g => cases hrest
          | none =>
            obtain ⟨hf, front, j, back, rfl, hnd, hseen, hsound, ho'⟩ := (ih hl).1 hrest
            refine ⟨hf, k :: front, j, back, rfl, ?_, ?_, ?_, ho'⟩
            · rw [List.cons_append, List.map_cons, List.nodup_cons]
              refine ⟨fun hmem => ?_, hnd⟩
              obtain ⟨x, hx, hxk⟩ := List.mem_map.1 hmem
              exact hseen x hx (hxk ▸ List.mem_cons_self)
            · refine List.forall_mem_cons.2 ⟨hs, fun x hx hmem => hseen x hx ?_⟩
              exact List.mem_cons_of_mem _ hmem
            · exact List.forall_mem_cons.2 ⟨(Job.flaw?_eq_none.1 ho).1, hsound⟩
      · rintro ⟨hf, front, j, back, hsplit, hnd, hseen, hsound, ho⟩
        cases front with
        | nil =>
          obtain ⟨rfl, -⟩ := List.cons.inj hsplit
          exact .inl ⟨hf, ho⟩
        | cons b front =>
          obtain ⟨rfl, rfl⟩ := List.cons.inj hsplit
          obtain ⟨hb, hsound⟩ := List.forall_mem_cons.1 hsound
          obtain ⟨hbf, hnd⟩ := List.nodup_cons.1 hnd
          have hend : ∀ h ∈ k.holds, h.stop < tickBound := fun h hh =>
            Nat.lt_of_le_of_lt (hb.fits h hh).ends hk
          refine .inr ⟨none, Job.flaw?_eq_none.2 ⟨hb, hend⟩, (ih hl).2
            ⟨hf, front, j, back, rfl, hnd, fun x hx hmem => ?_, hsound, ho⟩⟩
          rcases List.mem_cons.1 hmem with hxk | hmem
          · exact hbf (List.mem_map.2 ⟨x, hx, hxk⟩)
          · exact hseen x (List.mem_cons_of_mem _ hx) hmem

theorem flaw?_eq_error {f : Fault} (hc : c.InRange) :
    c.flaw? = .error f ↔ f = .sumOverflow ∧ c.Overruns := by
  unfold flaw? Overruns
  split
  · next hcap => simp [Nat.not_le.2 hcap]
  · next hcap =>
    simp [jobsFlaw?_eq_error fun j hj => (hc.1 j hj).2.2.1, Nat.not_lt.1 hcap]

/-- In range, no hold of a sound scenario ends beyond every word. -/
theorem flaw?_eq_none_iff (hc : c.InRange) : c.flaw? = .ok none ↔ c.Sound := by
  rw [flaw?_eq_none]
  refine and_iff_left_of_imp fun hs j hj h hh => ?_
  exact Nat.lt_of_le_of_lt ((hs.jobs j hj).fits h hh).ends (hc.1 j hj).2.2.1

end Scenario

/-- A scenario is accepted when it is sound, there is no verdict when a hold that overruns is
reached before a flaw, and it is refused otherwise. -/
theorem check_verdict {c : Scenario} (hc : c.InRange) :
    (c.flaw? = .ok none ↔ c.Sound) ∧ (c.flaw? = .error .sumOverflow ↔ c.Overruns) ∧
      ((∃ f, c.flaw? = .ok (some f)) ↔ ¬ c.Sound ∧ ¬ c.Overruns) := by
  have haccept := Scenario.flaw?_eq_none_iff hc
  have hfault (f : Fault) := Scenario.flaw?_eq_error (f := f) hc
  refine ⟨haccept, by simp [hfault], ?_⟩
  rw [← haccept]
  cases hv : c.flaw? with
  | error f =>
    have ho := ((hfault f).1 hv).2
    simp [ho]
  | ok o =>
    have ho : ¬ c.Overruns := fun ho => by simp [(hfault _).2 ⟨rfl, ho⟩] at hv
    cases o <;> simp [ho]

/-- The only hold begins at the last age that fits a word. -/
def Scenario.unending : Scenario where
  jobs := [
    { pid := ⟨1⟩, name := "only", start := 0, lifespan := 5, priority := 0,
      holds := [{ resource := ⟨0⟩, since := tickBound - 1, duration := 1 }] }]
  resourceCount := 1
  limits := .standard
  maxTicks := 20
  audit := true

theorem check_verdict_unending :
    Scenario.unending.InRange ∧ Scenario.unending.flaw? = .error .sumOverflow ∧
      Scenario.unending.Overruns :=
  have hrange : Scenario.unending.InRange := by decide
  ⟨hrange, rfl, (check_verdict hrange).2.1.1 rfl⟩

/-- There is a scenario whose numbers all fit their words and on which the check gives no verdict,
although its hold does not end in time. -/
theorem check_overflows :
    Scenario.unending.InRange ∧ ¬ Scenario.unending.Sound ∧
      ¬ ∃ r, Scenario.unending.flaw? = .ok r := by
  refine ⟨by decide, fun hs => ?_, nofun⟩
  exact absurd ((hs.jobs _ List.mem_cons_self).fits _ List.mem_cons_self).ends (by decide)

end Uniprocessor
