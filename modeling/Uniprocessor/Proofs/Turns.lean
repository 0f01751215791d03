import Uniprocessor.Proofs.Annals
/-
  The turns of a run.

  Every tick has one turn: the move in which a process runs or, where none does, the move that
  calls the tick idle.  `Moment.turns` counts the turns that have been taken; a move raises it by
  one if it is a turn, and else leaves it alone (`turns_move`, `Settled.turn`).

  `turnAt` is the machine at the turn of a tick, when the attempts are over, and `turnsBefore` are
  these machines for the first ticks of a run.  `tick_turn` cuts the path of a tick at its turn.
-/

namespace Uniprocessor

namespace Simulation

variable {s : Strategy} {c : Scenario} {a b : Moment} {l : List Activity} {j : Journal}
variable {r : TickResult} {k : Nat} {m : Machine} {runner : Option Pid} {φ : Phase}

/-- One if the turn of the tick has been taken. -/
def Phase.turns : Phase → Nat
  | .releasing _ _ | .closing true => 1
  | .arriving | .deciding | .requesting _ _ _ | .closing false => 0

/-- The number of turns that have been taken. -/
def Moment.turns (a : Moment) : Nat := a.machine.tick + a.phase.turns

theorem Phase.turns_of_ran (h : φ.Ran) : φ.turns = 1 := by
  cases φ with
  | closing ran =>
    cases ran with
    | true => rfl
    | false => exact h.elim
  | releasing => rfl
  | arriving | deciding | requesting => exact h.elim

theorem Phase.turns_of_not_ran (h : ¬ φ.Ran) : φ.turns = 0 := by
  cases φ with
  | closing ran =>
    cases ran with
    | true => exact absurd trivial h
    | false => rfl
  | releasing => exact absurd trivial h
  | arriving | deciding | requesting => rfl

theorem turns_move (hm : Move s a l b) : b.turns = a.turns ∨ b.turns = a.turns + 1 := by
  unfold Moment.turns
  rcases time_move hm with ⟨-, ht, hran⟩ | ⟨-, ht, hna, hb⟩ | @⟨ran, -, ht, ha, hb⟩
  · left
    by_cases h : a.phase.Ran
    · rw [ht, Phase.turns_of_ran h, Phase.turns_of_ran (hran.2 h)]
    · rw [ht, Phase.turns_of_not_ran h, Phase.turns_of_not_ran (mt hran.1 h)]
  · rw [ht, Phase.turns_of_not_ran hna, Phase.turns_of_ran hb]
    exact .inr rfl
  · rw [ht, ha, hb]
    cases ran with
    | true => exact .inl rfl
    | false => exact .inr rfl

theorem turns_le_move (hm : Move s a l b) : a.turns ≤ b.turns := by
  rcases turns_move hm with h | h <;> omega

theorem Path.turns_le (g : Path s a j b) : a.turns ≤ b.turns :=
  g.invariant (P := fun b => a.turns ≤ b.turns)
    (fun _ _ _ ha hm => Nat.le_trans ha (turns_le_move hm)) (Nat.le_refl _)

theorem Settled.turns (h : Settled runner φ) : φ.turns = 0 := by
  cases h <;> rfl

/-- What follows when the attempts are over is the turn. -/
theorem Settled.turn (h : Settled runner a.phase) (hm : Move s a l b) : b.turns = a.turns + 1 := by
  unfold Moment.turns
  cases hm with
  | run hn =>
    obtain ⟨_, -, -, -, rfl⟩ := Machine.grow_eq_ok.1 hn
    rfl
  | close _ hn =>
    obtain ⟨-, rfl⟩ := Machine.advance_eq_ok.1 hn
    cases h
    rfl
  | arrive | begin | idle | dispatch | grant | block | release | remain | exit => cases h

/-- The turn is in the trace. -/
theorem Settled.recorded (h : Settled runner a.phase) (hm : Move s a l b) :
    (∃ p n, runner = some p ∧ .ran p n ∈ eventsOf l) ∨ runner = none ∧ .idle ∈ eventsOf l := by
  cases hm with
  | run =>
    cases h
    exact .inl ⟨_, _, rfl, List.mem_singleton_self _⟩
  | close =>
    cases h
    exact .inr ⟨rfl, idle_mem_events_closing.2 rfl⟩
  | arrive | begin | idle | dispatch | grant | block | release | remain | exit => cases h

/-- When the attempts are over, what they have left on the CPU is what runs. -/
theorem Settled.running (h : Settled runner a.phase) (hreg : a.Regular c)
    (hidle : a.phase = .closing false → a.machine.current = none) (p : Pid) :
    a.machine.status? p = some .running ↔ runner = some p := by
  obtain ⟨φ, m, before, u⟩ := a
  cases h with
  | idle =>
    refine iff_of_false (fun hp => ?_) (by simp)
    have hseat := hreg.filed.running p hp
    rw [hidle rfl] at hseat
    cases hseat
  | @served d q hq =>
    have hrun := hreg.phase.2.running
    rw [Option.some.injEq]
    constructor
    · exact hreg.filed.running_unique hrun
    · rintro rfl
      exact hrun

/-- Where nothing runs nothing is on the CPU. -/
theorem Path.unseated (g : Path s (opening c).moment j b) (hb : b.phase = .closing false) :
    b.machine.current = none := by
  cases g with
  | refl => cases hb
  | snoc _ hm =>
    cases hm with
    | idle hn hnext => exact (current_decides (Policy.schedule_decides hn)).trans hnext
    | arrive | begin | dispatch | grant | block | run | release | remain | exit | close => cases hb

/-- The machine at the turn of the `k`-th tick: the jobs have arrived, the attempts are over, and
the process that they have left on the CPU is to run. -/
def turnAt (s : Strategy) (c : Scenario) (k : Nat) : Option Machine := do
  let g ← startAt s c k
  let m ← (admitAll g.due g.machine).toOption
  let (n, _, _) ← (settle s (attemptLimit m) m).toOption
  return n

/-- The machines at the turns of the first `k` ticks. -/
def turnsBefore (s : Strategy) (c : Scenario) (k : Nat) : List Machine :=
  (List.range k).filterMap (turnAt s c)

theorem turnsBefore_succ (h : turnAt s c k = some m) :
    turnsBefore s c (k + 1) = turnsBefore s c k ++ [m] := by
  rw [turnsBefore, List.range_succ, List.filterMap_append, List.filterMap_cons_some h]
  rfl

/-- A tick behind which the run goes on has a turn, between moves that are none. -/
theorem tick_turn (hc : c.Valid) (hk : tickAt s c k = some r) (he : r.exit = none) :
    ∃ g a l b i j runner, startAt s c k = some g ∧ turnAt s c k = some a.machine ∧
      Settled runner a.phase ∧ a.machine.tick = k ∧ Path s g.moment i a ∧ Move s a l b ∧
      Path s b j r.after.moment ∧ stamp k r.done = i ++ stamp k l ++ j := by
  obtain ⟨g, hg, hstep⟩ := tickAt_eq_some.1 hk
  obtain ⟨htick, -⟩ := startAt_moment hc hg
  obtain ⟨m, n, acts, ran, hm, hn, hcloses⟩ := step_play hstep
  obtain ⟨htm, hadmit⟩ := admitDue_path (s := s) hm
  obtain ⟨q, first, rest, runner, φ, hq, rfl, htq, htn, hφ, hfirst, hrest⟩ :=
    play_settle (b := m) (u := g.later) hn
  have hturn : turnAt s c k = some q := by
    simp only [turnAt, hg, hm, hq, Except.toOption, Option.bind_eq_bind, Option.bind_some,
      Option.pure_def]
  rw [htm, htick] at htq htn hfirst hrest
  rw [htick] at hadmit
  cases hcloses with
  | ended | broken => cases he
  | next hover _ hadvance =>
    have hend := hrest.snoc (.close hover hadvance)
    rcases hend.uncons with ⟨hsame, -⟩ | ⟨l, b, j, hmove, hpath, hj⟩
    · cases congrArg Moment.phase hsame
      cases hφ
    · refine ⟨g, _, l, b, _, j, runner, hg, hturn, hφ, htq, hadmit.trans hfirst, hmove, hpath, ?_⟩
      dsimp only at hj ⊢
      rw [htn, htq] at hj
      simp only [stamp, List.map_append, List.append_assoc] at hj ⊢
      rw [hj]

/-- Every tick before the end of a run has a turn: the process that runs at it runs in this tick, or
nothing runs and the tick is called idle. -/
theorem turn_recorded (hc : c.Valid) {run : Run} (hrun : simulate s c = .ok run)
    (hk : k < run.trace.endTick) :
    ∃ m, turnAt s c k = some m ∧
      ((∃ p n, m.status? p = some .running ∧ ⟨k, .ran p n⟩ ∈ run.trace.events) ∨
        (∀ p, m.status? p ≠ some .running) ∧ ⟨k, .idle⟩ ∈ run.trace.events) := by
  obtain ⟨hle, q, hq⟩ := simulate_end hc hrun
  obtain ⟨r, hr, he⟩ := startAt_before hq hk
  obtain ⟨g, a, l, b, i, j, runner, hg, hturn, hsettled, -, hi, hm, -, hdone⟩ := tick_turn hc hr he
  have hpath := (startAt_moment hc hg).2.trans hi
  have hrunning := hsettled.running (hpath.regular hc) hpath.unseated
  have hmem : ∀ {e : Event}, e ∈ eventsOf l → ⟨k, e⟩ ∈ run.trace.events := by
    intro e he
    refine (mem_trace hc hrun).2 ⟨Nat.lt_of_lt_of_le hk hle, r, hr, ?_⟩
    have hevents := congrArg Journal.events hdone
    rw [events_append, events_append, events_stamp, events_stamp] at hevents
    have he' : ⟨k, e⟩ ∈ within k (eventsOf r.done) := by
      rw [hevents]
      exact List.mem_append_left _ (List.mem_append_right _ (mem_within.2 ⟨rfl, he⟩))
    exact (mem_within.1 he').2
  refine ⟨a.machine, hturn, ?_⟩
  rcases hsettled.recorded hm with ⟨p, n, hp, hran⟩ | ⟨hnone, hidle⟩
  · exact .inl ⟨p, n, (hrunning p).2 hp, hmem hran⟩
  · refine .inr ⟨fun p hp => ?_, hmem hidle⟩
    rw [hrunning, hnone] at hp
    cases hp

end Simulation

end Uniprocessor
