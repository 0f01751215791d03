import Uniprocessor.Proofs.Verdict
import Uniprocessor.Scenario.Builder
/-
  The pids that a builder gives out by itself.

  A builder keeps the pid behind the greatest so far (`Builder.Counted`), whatever the calls and
  their order.  The count does not leave its word: behind the last pid comes the last pid once
  more.  The pid that is given next is therefore new exactly as long as the last pid is not taken,
  and a builder that numbers on after that names two processes alike.

  Main statement: `automatic_pid_fresh_until_last`.  That the last pid is in fact given out a
  second time, and the scenario refused for it, is `last_pid_given_twice`.
-/

namespace Uniprocessor

/-! ## The greatest of some pids -/

/-- The greatest of the pids; 0 if there are none. -/
def greatest : List Pid → Nat
  | [] => 0
  | p :: l => max p.val (greatest l)

theorem lt_greatest {l : List Pid} {n : Nat} : n < greatest l ↔ ∃ p ∈ l, n < p.val := by
  induction l with
  | nil => simp [greatest]
  | cons p l ih =>
    have hmax : n < max p.val (greatest l) ↔ n < p.val ∨ n < greatest l := by omega
    simp [greatest, hmax, ih]

theorem le_greatest {l : List Pid} {p : Pid} (hp : p ∈ l) : p.val ≤ greatest l := by
  refine Nat.le_of_not_lt fun hlt => ?_
  have hself := lt_greatest.2 ⟨p, hp, hlt⟩
  omega

theorem greatest_lt {l : List Pid} (hl : ∀ p ∈ l, p.val < pidBound) : greatest l < pidBound := by
  refine Nat.lt_of_not_le fun hle => ?_
  have hbeyond : pidBound - 1 < greatest l := by
    unfold pidBound at *
    omega
  obtain ⟨p, hp, hlt⟩ := lt_greatest.1 hbeyond
  have hword := hl p hp
  omega

theorem greatest_append (l k : List Pid) : greatest (l ++ k) = max (greatest l) (greatest k) := by
  induction l with
  | nil => simp [greatest]
  | cons p l ih => simp only [List.cons_append, greatest, ih, Nat.max_assoc]

/-- The last pid that fits a word. -/
def Pid.last : Pid := ⟨pidBound - 1⟩

theorem Pid.val_last : Pid.last.val = pidBound - 1 := rfl

/-- Among pids that fit their word, the last one is the only one that is not below it. -/
theorem last_mem_iff {l : List Pid} (hl : ∀ p ∈ l, p.val < pidBound) :
    Pid.last ∈ l ↔ pidBound - 1 ≤ greatest l := by
  constructor
  · intro hmem
    exact le_greatest hmem
  · intro hle
    have hbeyond : pidBound - 2 < greatest l := by
      unfold pidBound at *
      omega
    obtain ⟨p, hp, hlt⟩ := lt_greatest.1 hbeyond
    have hlast : p = Pid.last := by
      apply Pid.ext
      have hword := hl p hp
      rw [Pid.val_last]
      omega
    exact hlast ▸ hp

namespace Builder

/-! ## Calls -/

/-- The calls that a builder takes. -/
inductive Step where
  | process (job : Job)
  | addProcess (name : String) (lifespan priority : Nat)
  | resources (n : Nat)
  | maxTicks (n : Nat)
  | maxPriority (n : Nat)
  | agingCap (n : Nat)
  | audit (on : Bool)

/-- The builder after a call. -/
def apply (b : Builder) : Step → Builder
  | .process job => b.addJob job
  | .addProcess name lifespan priority => b.addProcess name lifespan priority
  | .resources n => b.setResourceCount n
  | .maxTicks n => b.setMaxTicks n
  | .maxPriority n => b.setMaxPriority n
  | .agingCap n => b.setAgingCap n
  | .audit on => b.setAudit on

/-- The builder after some calls. -/
def applyAll (b : Builder) (steps : List Step) : Builder := steps.foldl apply b

theorem applyAll_cons (b : Builder) (s : Step) (steps : List Step) :
    b.applyAll (s :: steps) = (b.apply s).applyAll steps := rfl

/-- The pid that a call brings with it. -/
def Step.pid? : Step → Option Pid
  | .process job => some job.pid
  | _ => none

/-- Whether a call leaves the pid to the builder. -/
def Step.automatic : Step → Bool
  | .addProcess .. => true
  | _ => false

/-- The pids of the jobs so far. -/
def pids (b : Builder) : List Pid := b.jobs.map (·.pid)

/-- The jobs fit their words, and the next pid is behind the greatest so far, unless that is the
last. -/
structure Counted (b : Builder) : Prop where
  inRange : ∀ p ∈ b.pids, p.val < pidBound
  next : b.nextPid.val = min (greatest b.pids + 1) (pidBound - 1)

variable {b : Builder}

@[simp] theorem pids_addJob (j : Job) : (b.addJob j).pids = b.pids ++ [j.pid] := by
  simp [pids, addJob]

@[simp] theorem pids_addProcess (name : String) (lifespan priority : Nat) :
    (b.addProcess name lifespan priority).pids = b.pids ++ [b.nextPid] := pids_addJob _

/-- A call that is not about a process leaves the pids alone, and the next one. -/
theorem apply_setting {s : Step} (hp : s.pid? = none) (ha : s.automatic = false) :
    (b.apply s).pids = b.pids ∧ (b.apply s).nextPid = b.nextPid := by
  cases s with
  | process job => exact absurd hp (by simp [Step.pid?])
  | addProcess name lifespan priority => exact absurd ha (by simp [Step.automatic])
  | resources n => exact ⟨rfl, rfl⟩
  | maxTicks n => exact ⟨rfl, rfl⟩
  | maxPriority n => exact ⟨rfl, rfl⟩
  | agingCap n => exact ⟨rfl, rfl⟩
  | audit on => exact ⟨rfl, rfl⟩

/-! ## The count -/

theorem counted_start (env : Environment) : (start env).value.Counted :=
  ⟨by simp [pids, start], rfl⟩

namespace Counted

theorem addJob (hb : b.Counted) {j : Job} (hj : j.pid.val < pidBound) : (b.addJob j).Counted := by
  refine ⟨?_, ?_⟩
  · intro p hp
    rw [pids_addJob, List.mem_append, List.mem_singleton] at hp
    exact hp.elim (hb.inRange p) (fun h => h ▸ hj)
  · have hnext := hb.next
    have htop : greatest (b.addJob j).pids = max (greatest b.pids) j.pid.val := by
      simp [greatest_append, greatest]
    rw [htop]
    unfold Builder.addJob pidAfter
    dsimp only
    split
    · dsimp only
      omega
    · omega

theorem nextPid_lt (hb : b.Counted) : b.nextPid.val < pidBound := by
  have hnext := hb.next
  unfold pidBound at *
  omega

theorem apply (hb : b.Counted) {s : Step} (hs : ∀ p ∈ s.pid?, p.val < pidBound) :
    (b.apply s).Counted := by
  cases s with
  | process job => exact hb.addJob (hs _ rfl)
  | addProcess name lifespan priority => exact hb.addJob hb.nextPid_lt
  | resources n => exact ⟨hb.inRange, hb.next⟩
  | maxTicks n => exact ⟨hb.inRange, hb.next⟩
  | maxPriority n => exact ⟨hb.inRange, hb.next⟩
  | agingCap n => exact ⟨hb.inRange, hb.next⟩
  | audit on => exact ⟨hb.inRange, hb.next⟩

theorem applyAll (hb : b.Counted) {steps : List Step}
    (hs : ∀ p ∈ steps.filterMap Step.pid?, p.val < pidBound) : (b.applyAll steps).Counted := by
  induction steps generalizing b with
  | nil => exact hb
  | cons s steps ih =>
    have hhead : ∀ p ∈ s.pid?, p.val < pidBound := by
      intro p hp
      exact hs p (List.mem_filterMap.2 ⟨s, List.mem_cons_self, hp⟩)
    refine ih (hb.apply hhead) ?_
    intro p hp
    obtain ⟨a, ha, hap⟩ := List.mem_filterMap.1 hp
    exact hs p (List.mem_filterMap.2 ⟨a, List.mem_cons_of_mem _ ha, hap⟩)

/-- The next pid is taken exactly if the last one is. -/
theorem nextPid_mem_iff (hb : b.Counted) : b.nextPid ∈ b.pids ↔ Pid.last ∈ b.pids := by
  have hnext := hb.next
  have hlast (hle : pidBound - 1 ≤ greatest b.pids) : b.nextPid = Pid.last := by
    apply Pid.ext
    rw [Pid.val_last]
    omega
  constructor
  · intro hmem
    have htop := le_greatest hmem
    exact hlast (by omega) ▸ hmem
  · intro hmem
    exact hlast (le_greatest hmem) ▸ hmem

/-- Numbering on from different pids gives different pids until the word is exhausted. -/
theorem pids_nodup_iff (hb : b.Counted) {steps : List Step} (hs : ∀ s ∈ steps, s.pid? = none) :
    (b.applyAll steps).pids.Nodup ↔
      b.pids.Nodup ∧ greatest b.pids + steps.countP Step.automatic < pidBound := by
  induction steps generalizing b with
  | nil =>
    have htop := greatest_lt hb.inRange
    simp [Builder.applyAll, htop]
  | cons s steps ih =>
    obtain ⟨hhead, htail⟩ := List.forall_mem_cons.1 hs
    have hstep := ih (hb.apply (s := s) (by simp [hhead])) htail
    rw [applyAll_cons, hstep, List.countP_cons]
    cases ha : s.automatic with
    | false =>
      rw [(apply_setting hhead ha).1]
      simp
    | true =>
      have hpids : (b.apply s).pids = b.pids ++ [b.nextPid] := by
        cases s with
        | addProcess name lifespan priority => exact pids_addProcess ..
        | _ => cases ha
      have hfresh : b.nextPid ∉ b.pids ↔ greatest b.pids < pidBound - 1 := by
        rw [hb.nextPid_mem_iff, last_mem_iff hb.inRange, Nat.not_le]
      have hnodup : (b.pids ++ [b.nextPid]).Nodup ↔ b.pids.Nodup ∧ b.nextPid ∉ b.pids := by
        rw [(List.perm_append_singleton _ _).nodup_iff, List.nodup_cons, and_comm]
      have hnext := hb.next
      rw [hpids, hnodup, hfresh, greatest_append, and_assoc, and_congr_right_iff]
      intro _
      simp only [greatest, Nat.max_zero, hnext, if_true]
      unfold pidBound
      omega

end Counted

/-- Without automatic numbers the pids are those that the calls bring. -/
theorem pids_applyAll {steps : List Step} (hs : ∀ s ∈ steps, s.automatic = false) :
    (b.applyAll steps).pids = b.pids ++ steps.filterMap Step.pid? := by
  induction steps generalizing b with
  | nil => simp [applyAll]
  | cons s steps ih =>
    obtain ⟨hhead, htail⟩ := List.forall_mem_cons.1 hs
    rw [applyAll_cons, ih htail]
    cases hp : s.pid? with
    | none => rw [(apply_setting hp hhead).1, List.filterMap_cons_none hp]
    | some p =>
      have hpids : (b.apply s).pids = b.pids ++ [p] := by
        cases s with
        | process job => exact Option.some.inj hp ▸ pids_addJob job
        | _ => cases hp
      rw [hpids, List.filterMap_cons_some hp, List.append_assoc, List.singleton_append]

end Builder

/-! ## The check -/

namespace Job

variable {j : Job} {count : Nat} {l : List Hold} {p : Pid}

theorem holdFlaw?_ne_duplicatePid : j.holdFlaw? count l ≠ .ok (some (.duplicatePid p)) := by
  induction l with
  | nil => simp [holdFlaw?]
  | cons h l ih =>
    unfold holdFlaw?
    split
    · simp
    split
    · simp
    intro heq
    obtain ⟨stop, -, hrest⟩ := bind_eq_ok.1 heq
    split at hrest
    · simp [pure_eq_ok] at hrest
    · exact ih hrest

theorem overlapFlaw?_ne_duplicatePid : j.overlapFlaw? l ≠ .ok (some (.duplicatePid p)) := by
  induction l with
  | nil => simp [overlapFlaw?]
  | cons h l ih =>
    unfold overlapFlaw?
    intro heq
    obtain ⟨o, -, hrest⟩ := bind_eq_ok.1 heq
    split at hrest
    · simp [pure_eq_ok] at hrest
    · exact ih hrest

theorem flaw?_ne_duplicatePid : j.flaw? count ≠ .ok (some (.duplicatePid p)) := by
  unfold flaw?
  split
  · simp
  intro heq
  obtain ⟨o, ho, hrest⟩ := bind_eq_ok.1 heq
  cases o with
  | none => exact overlapFlaw?_ne_duplicatePid hrest
  | some f =>
    have hf : f = .duplicatePid p := by simpa [pure_eq_ok] using hrest
    exact holdFlaw?_ne_duplicatePid (hf ▸ ho)

end Job

namespace Scenario

theorem jobsFlaw?_ne_duplicatePid {count : Nat} {seen : List Pid} {l : List Job} {p : Pid}
    (hnodup : (l.map (·.pid)).Nodup) (hseen : ∀ j ∈ l, j.pid ∉ seen) :
    jobsFlaw? count seen l ≠ .ok (some (.duplicatePid p)) := by
  induction l generalizing seen with
  | nil => simp [jobsFlaw?]
  | cons j l ih =>
    obtain ⟨hj, hl⟩ := List.forall_mem_cons.1 hseen
    rw [List.map_cons, List.nodup_cons] at hnodup
    unfold jobsFlaw?
    rw [if_neg hj]
    intro heq
    obtain ⟨o, ho, hrest⟩ := bind_eq_ok.1 heq
    cases o with
    | some f =>
      have hf : f = .duplicatePid p := by simpa [pure_eq_ok] using hrest
      exact Job.flaw?_ne_duplicatePid (hf ▸ ho)
    | none =>
      refine ih hnodup.2 ?_ hrest
      intro k hk hmem
      rcases List.mem_cons.1 hmem with hkj | hmem
      · exact hnodup.1 (List.mem_map.2 ⟨k, hk, hkj⟩)
      · exact hl k hk hmem

theorem flaw?_ne_duplicatePid {c : Scenario} {p : Pid} (hc : (c.jobs.map (·.pid)).Nodup) :
    c.flaw? ≠ .ok (some (.duplicatePid p)) := by
  unfold flaw?
  split
  · simp
  · exact jobsFlaw?_ne_duplicatePid hc (by simp)

end Scenario

/-! ## Numbering -/

/-- After any calls, the pid that the builder would give next is new exactly if the last pid that
fits a word is not taken.  Different pids followed by automatic ones stay different exactly as
long as there is room for all of them behind the greatest; then the scenario is not refused for a
pid that is defined twice, and otherwise it is not accepted. -/
theorem automatic_pid_fresh_until_last (env : Environment) :
    (∀ steps : List Builder.Step,
      (∀ p ∈ steps.filterMap Builder.Step.pid?, p.val < pidBound) →
      let b := (Builder.start env).value.applyAll steps
      (∀ name lifespan priority,
        (b.addProcess name lifespan priority).pids = b.pids ++ [b.nextPid]) ∧
        (b.nextPid ∉ b.pids ↔ Pid.last ∉ b.pids)) ∧
    ∀ explicit automatic : List Builder.Step,
      (∀ s ∈ explicit, s.automatic = false) → (∀ s ∈ automatic, s.pid? = none) →
      (∀ p ∈ explicit.filterMap Builder.Step.pid?, p.val < pidBound) →
      (explicit.filterMap Builder.Step.pid?).Nodup →
      let b := (Builder.start env).value.applyAll (explicit ++ automatic)
      let room := greatest (explicit.filterMap Builder.Step.pid?) +
        automatic.countP Builder.Step.automatic < pidBound
      (b.pids.Nodup ↔ room) ∧ (room → ∀ p, b.build.flaw? ≠ .ok (some (.duplicatePid p))) ∧
        (¬ room → b.build.flaw? ≠ .ok none) := by
  refine ⟨?_, ?_⟩
  · intro steps hwords b
    have hcounted : b.Counted := (Builder.counted_start env).applyAll hwords
    exact ⟨fun _ _ _ => Builder.pids_addProcess .., not_congr hcounted.nextPid_mem_iff⟩
  · intro explicit automatic hexplicit hautomatic hwords hnodup b room
    have hcounted := (Builder.counted_start env).applyAll hwords
    have hpids : ((Builder.start env).value.applyAll explicit).pids =
        explicit.filterMap Builder.Step.pid? := Builder.pids_applyAll hexplicit
    have hfold : b = ((Builder.start env).value.applyAll explicit).applyAll automatic :=
      List.foldl_append
    have hroom : b.pids.Nodup ↔ room := by
      rw [hfold, hcounted.pids_nodup_iff hautomatic, hpids]
      exact and_iff_right hnodup
    refine ⟨hroom, ?_, ?_⟩
    · intro hr p
      exact Scenario.flaw?_ne_duplicatePid (hroom.2 hr)
    · intro hr haccepted
      exact hr (hroom.1 (Scenario.flaw?_eq_none.1 haccepted).1.pids)

/-- The settings and a process with a pid of its own. -/
def Builder.explicitSteps : List Builder.Step :=
  [.resources 2,
    .process ⟨⟨7⟩, "own", 3, 2, 1, []⟩,
    .maxPriority 10]

/-- Two processes that are numbered. -/
def Builder.automaticSteps : List Builder.Step :=
  [.addProcess "next" 1 1, .audit false, .addProcess "behind" 2 1]

theorem automatic_pid_fresh_until_last_mixed :
    let b := (Builder.start .empty).value.applyAll (Builder.explicitSteps ++ Builder.automaticSteps)
    b.pids = [⟨7⟩, ⟨8⟩, ⟨9⟩] ∧ b.nextPid ∉ b.pids ∧ b.pids.Nodup ∧
      ∀ p, b.build.flaw? ≠ .ok (some (.duplicatePid p)) := by
  have hgeneral := automatic_pid_fresh_until_last .empty
  have hfresh := (hgeneral.1 (Builder.explicitSteps ++ Builder.automaticSteps) (by decide)).2
  have hnumbered := hgeneral.2 Builder.explicitSteps Builder.automaticSteps (by decide)
    (by decide) (by decide) (by decide)
  exact ⟨by decide, hfresh.2 (by decide), hnumbered.1.2 (by decide), hnumbered.2.1 (by decide)⟩

/-- A process that takes the last pid, and one that is numbered behind it. -/
def Builder.exhaustingSteps : List Builder.Step :=
  [.process ⟨.last, "last", 0, 1, 1, []⟩, .addProcess "next" 1 1]

/-- The one pid that was taken is given out again, and the scenario is refused for it. -/
theorem last_pid_given_twice :
    let b := (Builder.start .empty).value.applyAll Builder.exhaustingSteps
    b.pids = [.last, .last] ∧ b.build.flaw? = .ok (some (.duplicatePid .last)) :=
  ⟨by decide, rfl⟩

end Uniprocessor
