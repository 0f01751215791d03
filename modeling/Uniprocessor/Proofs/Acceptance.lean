import Uniprocessor.Proofs.Edit
import Uniprocessor.Scenario
/-
  What the check of a scenario promises about its jobs.

  * `Job.Sound` and `Scenario.Sound` say without arithmetic on words what a job and a scenario
    have to be like to be played.
  * `Scenario.flaw?_eq_none`: the check finds no flaw exactly in a sound scenario whose holds end
    within the words that ticks are stored in.
  * `Scenario.Valid`: the numbers fit their words and the check finds no flaw.
-/

namespace Uniprocessor

/-- Two holds that share no age. -/
def Hold.Apart (a b : Hold) : Prop := a.stop ≤ b.since ∨ b.stop ≤ a.since

instance (a b : Hold) : Decidable (a.Apart b) := by unfold Hold.Apart; infer_instance

/-- A hold that a process of this lifespan can play on a table of `count` resources. -/
structure Hold.Fits (h : Hold) (lifespan count : Nat) : Prop where
  inTable : h.resource.val < count
  lasts : 0 < h.duration
  ends : h.stop ≤ lifespan

theorem Hold.Fits.since_lt {h : Hold} {lifespan count : Nat} (hf : h.Fits lifespan count) :
    h.since < h.stop := by
  have := hf.lasts
  simp only [Hold.stop]
  omega

/-- A job that can be played on a table of `count` resources. -/
structure Job.Sound (j : Job) (count : Nat) : Prop where
  lives : 0 < j.lifespan
  fits : ∀ h ∈ j.holds, h.Fits j.lifespan count
  /-- Two holds of one resource share no age. -/
  apart : j.holds.Pairwise fun a b => a.resource = b.resource → a.Apart b

/-- A scenario that can be played. -/
structure Scenario.Sound (c : Scenario) : Prop where
  caps : c.limits.agingCap ≤ c.limits.maxPriority
  pids : (c.jobs.map (·.pid)).Nodup
  jobs : ∀ j ∈ c.jobs, j.Sound c.resourceCount

/-! ## Holds -/

theorem Hold.overlaps_eq_ok {a b : Hold} (ha : a.stop < tickBound) (hb : b.stop < tickBound) :
    a.overlaps b = .ok (decide (a.resource = b.resource ∧ ¬ a.Apart b)) := by
  unfold Hold.overlaps
  split
  · next h => simp [h]
  · next h =>
    simp only [ne_eq, Decidable.not_not] at h
    simp only [Hold.releaseAge_eq_ok.2 ⟨hb, rfl⟩, Hold.releaseAge_eq_ok.2 ⟨ha, rfl⟩, ok_bind]
    split
    · next hs => simp [Hold.Apart, hs, pure, Except.pure]
    · next hs =>
      simp only [pure, Except.pure, Except.ok.injEq, decide_eq_decide, h, true_and, Hold.Apart]
      omega

theorem Hold.overlapsAny_eq_false {a : Hold} {l : List Hold} (ha : a.stop < tickBound)
    (hl : ∀ b ∈ l, b.stop < tickBound) :
    a.overlapsAny l = .ok false ↔ ∀ b ∈ l, a.resource = b.resource → a.Apart b := by
  induction l with
  | nil => simp [Hold.overlapsAny]
  | cons b l ih =>
    obtain ⟨hb, hl⟩ := List.forall_mem_cons.1 hl
    simp only [Hold.overlapsAny, Hold.overlaps_eq_ok ha hb, ok_bind, List.forall_mem_cons]
    by_cases h : a.resource = b.resource ∧ ¬ a.Apart b
    · simp only [decide_eq_true h, if_true, pure_eq_ok, Bool.true_eq_false, false_iff]
      exact fun hn => h.2 (hn.1 h.1)
    · have hab : a.resource = b.resource → a.Apart b := fun hr =>
        Decidable.not_not.1 fun hn => h ⟨hr, hn⟩
      simp only [decide_eq_false h, Bool.false_eq_true, if_false, ih hl, and_iff_right hab]

namespace Job

variable {j : Job} {count : Nat} {l : List Hold}

/-! ## Jobs -/

theorem holdFlaw?_eq_none :
    j.holdFlaw? count l = .ok none ↔
      ∀ h ∈ l, h.Fits j.lifespan count ∧ h.stop < tickBound := by
  induction l with
  | nil => simp [holdFlaw?]
  | cons h l ih =>
    simp only [holdFlaw?, List.forall_mem_cons]
    split
    · next hr =>
      simp only [Except.ok.injEq, reduceCtorEq, false_iff]
      exact fun hf => Nat.not_lt.2 hr hf.1.1.inTable
    · split
      · next hd =>
        simp only [Except.ok.injEq, reduceCtorEq, false_iff]
        exact fun hf => Nat.lt_irrefl 0 (hd ▸ hf.1.1.lasts)
      · next hr hd =>
        simp only [bind_eq_ok, Hold.releaseAge_eq_ok]
        constructor
        · rintro ⟨_, ⟨hb, rfl⟩, hrest⟩
          split at hrest
          · cases hrest
          · next hl => exact ⟨⟨⟨by omega, by omega, by omega⟩, hb⟩, ih.1 hrest⟩
        · rintro ⟨⟨hf, hb⟩, hl⟩
          exact ⟨_, ⟨hb, rfl⟩, by rw [if_neg (Nat.not_lt.2 hf.ends)]; exact ih.2 hl⟩

theorem overlapFlaw?_eq_none (hl : ∀ h ∈ l, h.stop < tickBound) :
    j.overlapFlaw? l = .ok none ↔
      l.Pairwise fun a b => a.resource = b.resource → a.Apart b := by
  induction l with
  | nil => simp [overlapFlaw?]
  | cons h l ih =>
    obtain ⟨hh, hl⟩ := List.forall_mem_cons.1 hl
    simp only [overlapFlaw?, bind_eq_ok, List.pairwise_cons, ← Hold.overlapsAny_eq_false hh hl,
      ← ih hl]
    constructor
    · rintro ⟨b, hb, hrest⟩
      cases b with
      | false => exact ⟨hb, hrest⟩
      | true => cases hrest
    · rintro ⟨hb, hrest⟩
      exact ⟨false, hb, hrest⟩

theorem flaw?_eq_none :
    j.flaw? count = .ok none ↔ j.Sound count ∧ ∀ h ∈ j.holds, h.stop < tickBound := by
  unfold flaw?
  split
  · next h0 =>
    simp only [Except.ok.injEq, reduceCtorEq, false_iff]
    exact fun h => Nat.lt_irrefl 0 (h0 ▸ h.1.lives)
  · next h0 =>
    simp only [bind_eq_ok]
    constructor
    · rintro ⟨o, ho, h⟩
      cases o with
      | some f => cases h
      | none =>
        have hf := holdFlaw?_eq_none.1 ho
        have hb := fun x hx => (hf x hx).2
        exact ⟨⟨by omega, fun x hx => (hf x hx).1, (overlapFlaw?_eq_none hb).1 h⟩, hb⟩
    · rintro ⟨hs, hb⟩
      exact ⟨none, holdFlaw?_eq_none.2 fun x hx => ⟨hs.fits x hx, hb x hx⟩,
        (overlapFlaw?_eq_none hb).2 hs.apart⟩

end Job

namespace Scenario

variable {c : Scenario}

/-! ## Scenarios -/

theorem jobsFlaw?_eq_none {count : Nat} {seen : List Pid} {l : List Job} :
    jobsFlaw? count seen l = .ok none ↔ (l.map (·.pid)).Nodup ∧ (∀ j ∈ l, j.pid ∉ seen) ∧
      ∀ j ∈ l, j.Sound count ∧ ∀ h ∈ j.holds, h.stop < tickBound := by
  induction l generalizing seen with
  | nil => simp [jobsFlaw?]
  | cons j l ih =>
    simp only [jobsFlaw?, List.map_cons, List.nodup_cons, List.forall_mem_cons]
    split
    · next hs =>
      simp only [Except.ok.injEq, reduceCtorEq, false_iff]
      exact fun h => h.2.1.1 hs
    · next hs =>
      simp only [bind_eq_ok, ← Job.flaw?_eq_none]
      constructor
      · rintro ⟨o, ho, h⟩
        cases o with
        | some f => cases h
        | none =>
          simp only [ih, List.mem_cons, not_or, ← Job.flaw?_eq_none] at h
          obtain ⟨hd, hn, hj⟩ := h
          refine ⟨⟨?_, hd⟩, ⟨hs, fun k hk => (hn k hk).2⟩, ho, hj⟩
          intro hmem
          obtain ⟨k, hk, hkj⟩ := List.mem_map.1 hmem
          exact (hn k hk).1 hkj
      · rintro ⟨⟨hj, hd⟩, ⟨-, hn⟩, ho, hl⟩
        refine ⟨none, ho, ih.2 ⟨hd, fun k hk => ?_, fun k hk => Job.flaw?_eq_none.1 (hl k hk)⟩⟩
        simp only [List.mem_cons, not_or]
        exact ⟨fun hkj => hj (List.mem_map.2 ⟨k, hk, hkj⟩), hn k hk⟩

theorem flaw?_eq_none :
    c.flaw? = .ok none ↔ c.Sound ∧ ∀ j ∈ c.jobs, ∀ h ∈ j.holds, h.stop < tickBound := by
  unfold flaw?
  split
  · next hcap =>
    simp only [Except.ok.injEq, reduceCtorEq, false_iff]
    exact fun h => Nat.not_lt.2 h.1.caps hcap
  · next hcap =>
    rw [jobsFlaw?_eq_none]
    constructor
    · rintro ⟨hd, -, hj⟩
      exact ⟨⟨by omega, hd, fun j h => (hj j h).1⟩, fun j h => (hj j h).2⟩
    · rintro ⟨hs, hb⟩
      exact ⟨hs.pids, by simp, fun j h => ⟨hs.jobs j h, hb j h⟩⟩

/-- A scenario whose numbers fit their words and that is not refused. -/
structure Valid (c : Scenario) : Prop where
  inRange : c.InRange
  accepted : c.flaw? = .ok none

theorem Valid.sound (h : c.Valid) : c.Sound := (flaw?_eq_none.1 h.accepted).1

instance (c : Scenario) : Decidable c.Valid :=
  decidable_of_iff (c.InRange ∧ c.flaw?.toOption = some none) <| by
    have h : c.flaw?.toOption = some none ↔ c.flaw? = .ok none := by
      cases c.flaw? <;> simp [Except.toOption]
    rw [h]
    exact ⟨fun h => ⟨h.1, h.2⟩, fun h => ⟨h.1, h.2⟩⟩

end Scenario

end Uniprocessor
