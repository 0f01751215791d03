import Uniprocessor.Proofs.Aging
import Uniprocessor.Proofs.Rotation
/-
  A tick tries no process twice.

  A tick makes a scheduling decision, and decides again when the process on the CPU has blocked;
  nothing counts these attempts.  Their measure is the number of processes that could use the CPU:
  nothing that happens in an attempt adds to them, and the process that blocks is none of them any
  more (`attempt_active`).  When the jobs of the tick have arrived they are the ready processes and
  the running one (`Machine.activeCount_eq`).

  `Retries` follows the attempts that end with a blocked process.  The bound on attempts that a
  tick is played with is never met, and any other bound above their number gives the same tick
  (`Retries.settle`).

  Main statement: `retries_end`.
-/

namespace Uniprocessor

/-- Those that could use the CPU are ready or running. -/
theorem Machine.activeCount_eq {m : Machine} (hm : m.Filed) :
    m.activeCount = m.ready.size + m.runner?.toList.length := by
  have hmem (q : Pid) : q ∈ m.processes.pids.filter (fun p => decide (m.Active p)) ↔
      q ∈ m.ready.pids ++ m.runner?.toList := by
    rw [List.mem_filter, List.mem_append, Option.mem_toList, hm.mem_ready,
      hm.runner?_eq_some, decide_eq_true_iff]
    refine and_iff_right_of_imp fun hactive => ?_
    have hknown : ∃ x, m.process? q = some x := hactive.elim exists_record exists_record
    obtain ⟨x, hx⟩ := hknown
    exact mem_pids hx
  have hperm := (List.perm_ext_iff_of_nodup (hm.sorted.nodup_pids.filter _) hm.line_nodup).2 hmem
  calc m.activeCount = (m.processes.pids.filter fun p => decide (m.Active p)).length :=
        List.countP_eq_length_filter
    _ = (m.ready.pids ++ m.runner?.toList).length := hperm.length_eq
    _ = m.ready.size + m.runner?.toList.length := List.length_append

namespace Simulation

/-- Attempts that end with a blocked process, from one machine to another, each with the process
and the machine that it leaves. -/
inductive Retries (s : Strategy) : Machine → List (Pid × Machine) → Machine → Prop
  | none {m : Machine} : Retries s m [] m
  | retry {m n k : Machine} {acts : List Activity} {p : Pid} {l : List (Pid × Machine)} :
      attempt s m = .ok (n, acts, .blocked p) → Retries s n l k → Retries s m ((p, n) :: l) k

variable {s : Strategy} {c : Scenario} {m n k b : Machine} {u : List Job} {p : Pid}
variable {due : List ResourceId} {acts : List Activity} {turn : Turn} {l : List (Pid × Machine)}

/-! ## Decisions in the journal -/

theorem request_choices {all : Bool} (h : request s p due m = .ok (n, acts, all)) :
    acts.filterMap Activity.choice? = [] := by
  induction due generalizing m acts with
  | nil =>
    cases h
    rfl
  | cons r due ih =>
    simp only [request, bind_eq_ok] at h
    obtain ⟨⟨k, reply⟩, -, h⟩ := h
    cases reply with
    | granted =>
      simp only [Reply.isGranted, if_true, bind_eq_ok, pure_eq_ok, Prod.mk.injEq] at h
      obtain ⟨⟨_, rest, _⟩, hrest, rfl, rfl, rfl⟩ := h
      exact (List.filterMap_cons_none rfl).trans (ih hrest)
    | blocked o =>
      simp only [Reply.isGranted, Bool.false_eq_true, if_false, pure_eq_ok, Prod.mk.injEq] at h
      obtain ⟨-, rfl, -⟩ := h
      rfl

/-- An attempt makes one decision. -/
theorem attempt_choices (h : attempt s m = .ok (n, acts, turn)) :
    acts.filterMap Activity.choice? = [turn.pid?] := by
  simp only [attempt, bind_eq_ok] at h
  obtain ⟨⟨k, d⟩, -, h⟩ := h
  cases hnext : d.next with
  | none =>
    simp only [hnext, pure_eq_ok, Prod.mk.injEq] at h
    obtain ⟨-, rfl, rfl⟩ := h
    simp [Activity.choice?, hnext, Turn.pid?]
  | some p =>
    simp only [hnext, bind_eq_ok, pure_eq_ok, Prod.mk.injEq] at h
    obtain ⟨due, -, ⟨_, rest, all⟩, hrest, -, rfl, rfl⟩ := h
    have hturn : (if all = true then Turn.served p else .blocked p).pid? = some p := by
      cases all <;> rfl
    rw [hturn, List.filterMap_cons_some (b := some p) (by simp [Activity.choice?, hnext]),
      request_choices hrest]

theorem giveBack_choices (h : giveBack s p due m = .ok (n, acts)) :
    acts.filterMap Activity.choice? = [] := by
  induction due generalizing m acts with
  | nil =>
    cases h
    rfl
  | cons r due ih =>
    simp only [giveBack, bind_eq_ok, pure_eq_ok, Prod.mk.injEq] at h
    obtain ⟨⟨k, o⟩, -, ⟨_, rest⟩, hrest, rfl, rfl⟩ := h
    rw [List.filterMap_append, choices_released, ih hrest]
    rfl

theorem runOn_choices (h : runOn s p m = .ok (n, acts)) :
    acts.filterMap Activity.choice? = [] := by
  simp only [runOn, bind_eq_ok] at h
  obtain ⟨⟨k, age⟩, -, x, -, due, -, ⟨k', rest⟩, hrest, y, -, h⟩ := h
  have hback := giveBack_choices hrest
  split at h
  · simp only [bind_eq_ok, pure_eq_ok, Prod.mk.injEq] at h
    obtain ⟨_, -, -, rfl⟩ := h
    rw [List.filterMap_append, List.filterMap_cons_none rfl, hback]
    rfl
  · simp only [pure_eq_ok, Prod.mk.injEq] at h
    obtain ⟨-, rfl⟩ := h
    rw [List.filterMap_cons_none rfl, hback]

theorem play_choices {first : List Activity} {runner : Option Pid} {ran : Bool}
    (hs : settle s (attemptLimit m) m = .ok (k, first, runner)) (h : play s m = .ok (n, acts, ran)) :
    acts.filterMap Activity.choice? = first.filterMap Activity.choice? := by
  simp only [play, hs, ok_bind] at h
  cases runner with
  | none =>
    cases h
    rfl
  | some p =>
    simp only [bind_eq_ok, pure_eq_ok, Prod.mk.injEq] at h
    obtain ⟨⟨_, rest⟩, hrest, -, rfl, -⟩ := h
    rw [List.filterMap_append, runOn_choices hrest, List.append_nil]

theorem Closes.choices {audit ran : Bool} {r : TickResult} (h : Closes audit ran b m u acts r) :
    r.done.filterMap Activity.choice? = acts.filterMap Activity.choice? := by
  have hclosing : (closingEntries ran b m).filterMap Activity.choice? = [] := by
    refine List.filterMap_eq_nil_iff.2 fun e he => ?_
    rcases mem_closingEntries he with rfl | ⟨_, _, _, rfl⟩ <;> rfl
  cases h with
  | ended => rfl
  | broken => rw [List.filterMap_append, hclosing, List.append_nil]
  | next => rw [List.filterMap_append, hclosing, List.append_nil]

/-- A tick makes the decisions of its attempts and no other. -/
theorem step_choices {audit : Bool} {g : Progress} {r : TickResult} {first : List Activity}
    {runner : Option Pid} (h : step s audit g = .ok r) (hm : admitAll g.due g.machine = .ok m)
    (hs : settle s (attemptLimit m) m = .ok (k, first, runner)) :
    r.done.filterMap Activity.choice? = first.filterMap Activity.choice? := by
  obtain ⟨m', n, played, ran, hm', hplay, hcloses⟩ := step_play h
  rw [hm, Except.ok.injEq] at hm'
  subst hm'
  have harrivals : (g.due.map Activity.forked).filterMap Activity.choice? = [] := by
    rw [List.filterMap_map]
    exact List.filterMap_eq_nil_iff.2 fun _ _ => rfl
  rw [hcloses.choices, List.filterMap_append, harrivals, List.nil_append, play_choices hs hplay]

/-! ## All attempts of a tick -/

namespace Retries

/-- Who blocked was one of those that could use the CPU, and is none of them any more. -/
theorem active (hc : c.Valid) (h : Moment.Regular c ⟨.deciding, m, b, u⟩) (hr : Retries s m l k) :
    (∀ e ∈ l, m.Active e.1) ∧ ∀ q, k.Active q → m.Active q ∧ q ∉ l.map (·.1) := by
  induction hr with
  | none => exact ⟨nofun, fun q hq => ⟨hq, nofun⟩⟩
  | @retry m n k acts p l hn _ ih =>
    obtain ⟨-, hkept, hpicked, hblocked⟩ := attempt_active hc h hn
    obtain ⟨hbefore, hafter⟩ := ih (attempt_regular hc h hn).1
    refine ⟨List.forall_mem_cons.2 ⟨hpicked p rfl, fun e he => hkept _ (hbefore e he)⟩, ?_⟩
    intro q hq
    obtain ⟨hactive, hother⟩ := hafter q hq
    refine ⟨hkept q hactive, fun hmem => ?_⟩
    rcases List.mem_cons.1 hmem with rfl | hmem
    · exact (hblocked _ rfl).1 hactive
    · exact hother hmem

theorem regular (hc : c.Valid) (h : Moment.Regular c ⟨.deciding, m, b, u⟩)
    (hr : Retries s m l k) :
    Moment.Regular c ⟨.deciding, k, b, u⟩ ∧ l.length + k.activeCount ≤ m.activeCount := by
  induction hr with
  | none => exact ⟨h, Nat.le_of_eq (Nat.zero_add _)⟩
  | retry hn _ ih =>
    obtain ⟨hreg, hlt⟩ := attempt_regular hc h hn
    obtain ⟨hend, hle⟩ := ih hreg
    refine ⟨hend, ?_⟩
    rw [List.length_cons]
    omega

/-- Each attempt leaves its process in a wait-set. -/
theorem waiting (hc : c.Valid) (h : Moment.Regular c ⟨.deciding, m, b, u⟩)
    (hr : Retries s m l k) : ∀ e ∈ l, ∃ r, e.1 ∈ e.2.resources.waiters r := by
  induction hr with
  | none => exact nofun
  | retry hn _ ih =>
    have hwaits := (attempt_active hc h hn).2.2.2 _ rfl
    exact List.forall_mem_cons.2 ⟨hwaits.2, ih (attempt_regular hc h hn).1⟩

/-- Nobody blocks twice. -/
theorem nodup (hc : c.Valid) (h : Moment.Regular c ⟨.deciding, m, b, u⟩)
    (hr : Retries s m l k) : (l.map (·.1)).Nodup := by
  induction hr with
  | none => exact .nil
  | @retry m n k acts p l hn hrest ih =>
    have hreg := (attempt_regular hc h hn).1
    refine List.nodup_cons.2 ⟨fun hmem => ?_, ih hreg⟩
    obtain ⟨e, he, hep⟩ := List.mem_map.1 hmem
    have hactive := (hrest.active hc hreg).1 e he
    rw [hep] at hactive
    exact ((attempt_active hc h hn).2.2.2 p rfl).1 hactive

/-- The last attempt picks none of those that have blocked. -/
theorem nodup_picked (hc : c.Valid) (h : Moment.Regular c ⟨.deciding, m, b, u⟩)
    (hr : Retries s m l k) (hn : attempt s k = .ok (n, acts, turn)) :
    (l.map (·.1) ++ turn.pid?.toList).Nodup := by
  refine List.nodup_append.2 ⟨hr.nodup hc h, ?_, ?_⟩
  · cases turn.pid? with
    | none => exact .nil
    | some p => exact List.nodup_singleton p
  · intro p hp q hq hpq
    have hpicked := (attempt_active hc (hr.regular hc h).1 hn).2.2.1
    have hactive := hpicked q (Option.mem_toList.1 hq)
    exact ((hr.active hc h).2 q hactive).2 (hpq ▸ hp)

theorem length_le (hc : c.Valid) (h : Moment.Regular c ⟨.deciding, m, b, u⟩)
    (hr : Retries s m l k) : l.length ≤ m.activeCount :=
  Nat.le_trans (Nat.le_add_right _ _) (hr.regular hc h).2

/-- Any bound above the number of retries gives the same tick. -/
theorem settle (hr : Retries s m l k) (hn : attempt s k = .ok (n, acts, turn))
    (hturn : ∀ p, turn ≠ .blocked p) :
    ∃ done, (∀ limit, l.length < limit → settle s limit m = .ok (n, done, turn.pid?)) ∧
      done.filterMap Activity.choice? = l.map (fun e => some e.1) ++ [turn.pid?] := by
  induction hr with
  | none =>
    refine ⟨acts, fun limit hlimit => ?_, attempt_choices hn⟩
    obtain ⟨i, rfl⟩ : ∃ i, limit = i + 1 := ⟨limit - 1, by rw [List.length_nil] at hlimit; omega⟩
    simp only [Simulation.settle, hn, ok_bind]
    cases turn with
    | idle => rfl
    | served p => rfl
    | blocked p => exact absurd rfl (hturn p)
  | @retry m n' k first p l hfirst _ ih =>
    obtain ⟨done, hsettle, hchoices⟩ := ih hn
    refine ⟨first ++ done, fun limit hlimit => ?_, ?_⟩
    · rw [List.length_cons] at hlimit
      obtain ⟨i, rfl⟩ : ∃ i, limit = i + 1 := ⟨limit - 1, by omega⟩
      simp only [Simulation.settle, hfirst, ok_bind, hsettle i (by omega)]
      rfl
    · rw [List.filterMap_append, attempt_choices hfirst, hchoices]
      rfl

end Retries

/-- The attempts of a tick come to an end. -/
theorem exists_retries (s : Strategy) (hc : c.Valid)
    (h : Moment.Regular c ⟨.deciding, m, b, u⟩) :
    ∃ l k n acts turn, Retries s m l k ∧ attempt s k = .ok (n, acts, turn) ∧
      ∀ p, turn ≠ .blocked p := by
  induction hcount : m.activeCount using Nat.strongRecOn generalizing m with
  | ind i ih =>
    obtain ⟨n, acts, turn, hn⟩ := exists_attempt (s := s) hc h
    cases turn with
    | idle => exact ⟨[], m, n, acts, .idle, .none, hn, nofun⟩
    | served p => exact ⟨[], m, n, acts, .served p, .none, hn, nofun⟩
    | blocked p =>
      obtain ⟨hreg, hlt⟩ := attempt_regular hc h hn
      obtain ⟨l, k, n', acts', turn, hr, hlast, hturn⟩ := ih _ (hcount ▸ hlt) hreg rfl
      exact ⟨(p, n) :: l, k, n', acts', turn, .retry hn hr, hlast, hturn⟩

end Simulation

open Simulation

/-- Every tick of a run is played to its end.  Its decisions are the attempts that end with a
blocked process, which then waits for a resource, and one more; there are at most as many of the
former as processes are ready or running when the jobs of the tick have arrived, and no process is
put on the CPU by two of them.  The attempts do not depend on a bound on their number. -/
theorem retries_end (s : Strategy) {c : Scenario} (hc : c.Valid) {t : Nat} {g : Progress}
    (hg : startAt s c t = some g) (ht : t < c.maxTicks) :
    ∃ m r, admitAll g.due g.machine = .ok m ∧ tickAt s c t = some r ∧
      ∃ l k n acts turn, Retries s m l k ∧ attempt s k = .ok (n, acts, turn) ∧
        (∀ p, turn ≠ .blocked p) ∧
        r.done.filterMap Activity.choice? = l.map (fun e => some e.1) ++ [turn.pid?] ∧
        (r.done.filterMap Activity.choice?).length ≤
          m.ready.size + m.runner?.toList.length + 1 ∧
        (l.map (·.1) ++ turn.pid?.toList).Nodup ∧
        (∀ e ∈ l, ∃ r, e.1 ∈ e.2.resources.waiters r) ∧
        ∃ done, ∀ limit, l.length < limit → settle s limit m = .ok (n, done, turn.pid?) := by
  obtain ⟨htick, hpath⟩ := startAt_moment hc hg
  have hg' := hpath.regular hc
  obtain ⟨r, hr⟩ : ∃ r, step s c.audit g = .ok r := by
    refine exists_step hc hg' ?_
    have hword := hc.inRange.2.2.1
    omega
  obtain ⟨m, -, -, -, hm, -, -⟩ := step_play hr
  have hreg := hg'.path hc (admitDue_path (s := s) hm).2
  obtain ⟨l, k, n, acts, turn, hretries, hlast, hturn⟩ := exists_retries s hc hreg
  obtain ⟨done, hsettle, hchoices⟩ := hretries.settle hlast hturn
  have hlength := hretries.length_le hc hreg
  have hwithin : l.length < attemptLimit m :=
    Nat.lt_succ_of_le (Nat.le_trans hlength m.activeCount_le_size)
  have hdecisions := (step_choices hr hm (hsettle _ hwithin)).trans hchoices
  refine ⟨m, r, hm, tickAt_eq_some.2 ⟨g, hg, hr⟩, l, k, n, acts, turn, hretries, hlast, hturn,
    hdecisions, ?_, hretries.nodup_picked hc hreg hlast, hretries.waiting hc hreg, done, hsettle⟩
  have hcontenders : m.activeCount = _ := Machine.activeCount_eq hreg.filed
  rw [hdecisions, List.length_append, List.length_map, List.length_singleton]
  omega

/-- In the tick in which the second process arrives it is tried and blocks, and then the first one
runs on. -/
theorem retries_end_contended :
    ∃ g m l k n acts done, startAt .priorityInheritance .contended 1 = some g ∧
      admitAll g.due g.machine = .ok m ∧ Retries .priorityInheritance m l k ∧
      l.map (·.1) = [⟨2⟩] ∧ (∀ e ∈ l, ∃ r, e.1 ∈ e.2.resources.waiters r) ∧
      attempt .priorityInheritance k = .ok (n, acts, .served ⟨1⟩) ∧
      ∀ limit, 1 < limit → settle .priorityInheritance limit m = .ok (n, done, some ⟨1⟩) := by
  obtain ⟨g, hg⟩ : ∃ g, startAt .priorityInheritance .contended 1 = some g :=
    Option.isSome_iff_exists.1 (by decide)
  obtain ⟨r, hr, hpicks⟩ := exists_tickAt (s := .priorityInheritance) (c := .contended) (k := 1)
    (P := fun r => r.done.filterMap Activity.choice? = [some ⟨2⟩, some ⟨1⟩]) (by decide)
  obtain ⟨m, r', hm, hr', l, k, n, acts, turn, hretries, hlast, hturn, hchoices, -, -, hwaits,
    done, hsettle⟩ := retries_end .priorityInheritance (c := .contended) (by decide) hg (by decide)
  rw [hr, Option.some.injEq] at hr'
  rw [← hr', hpicks] at hchoices
  change [some (Pid.mk 2)] ++ [some (Pid.mk 1)] = _ at hchoices
  obtain ⟨hl, hp⟩ := List.append_inj' hchoices rfl
  have hnames : l.map (·.1) = [⟨2⟩] := by
    have hsome : (l.map (·.1)).map some = [⟨2⟩].map some := by
      rw [List.map_map]
      exact hl.symm
    exact (List.map_inj_right fun _ _ => Option.some.inj).1 hsome
  have hone : l.length = 1 := by
    have hlength := congrArg List.length hnames
    rwa [List.length_map] at hlength
  have hserved : turn = .served ⟨1⟩ := by
    have hpid : some ⟨1⟩ = turn.pid? := (List.cons.inj hp).1
    cases turn with
    | idle => cases hpid
    | served p =>
      cases hpid
      rfl
    | blocked p => exact absurd rfl (hturn p)
  rw [hone] at hsettle
  rw [hserved] at hlast hsettle
  exact ⟨g, m, l, k, n, acts, done, hg, hm, hretries, hnames, hwaits, hlast, hsettle⟩

end Uniprocessor
