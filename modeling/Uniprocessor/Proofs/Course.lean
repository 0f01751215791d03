import Uniprocessor.Proofs.Decision
import Uniprocessor.Proofs.Handover
import Uniprocessor.Simulation
/-
  The course of a run, one move at a time.

  A moment is a machine with what the tick is in the middle of (`Phase`).  `Move` is the relation
  between a moment and the next one, labelled with what it writes into the journal, and `Path` is
  a sequence of moves with the journal that it leaves.  `Path.invariant` carries what every move
  keeps along a path.

  The functions that play a run are paths: `settle_path`, `runOn_path`, `play_path`, `step_path`
  for one tick and `playAll_ends` for a whole run.
-/

namespace Uniprocessor

namespace Strategy

variable {s : Strategy} {m n : Machine} {r : ResourceId}

theorem caller_eq_ok {call : ResourceCall} {p : Pid} :
    caller m call = .ok p ↔ m.current = some p := by
  unfold caller
  cases m.current <;> simp

theorem acquire_eq_ok {reply : Reply} :
    s.acquire m r = .ok (n, reply) ↔
      ∃ p, m.current = some p ∧ s.protocol.acquire m r p = .ok (n, reply) := by
  simp only [acquire, bind_eq_ok, caller_eq_ok]

theorem release_eq_ok {o : Option Pid} :
    s.release m r = .ok (n, o) ↔
      ∃ p, m.current = some p ∧ s.protocol.release m r p = .ok (n, o) := by
  simp only [release, bind_eq_ok, caller_eq_ok]

theorem steady_schedule {d : Decision} (h : s.schedule m = .ok (n, d)) : m.Steady n :=
  (Policy.schedule_decides h).steady

theorem steady_acquire {reply : Reply} (h : s.acquire m r = .ok (n, reply)) : m.Steady n := by
  obtain ⟨p, -, h⟩ := acquire_eq_ok.1 h
  exact (Protocol.acquire_acquires h).steady

theorem steady_release {o : Option Pid} (h : s.release m r = .ok (n, o)) : m.Steady n := by
  obtain ⟨p, -, h⟩ := release_eq_ok.1 h
  exact (Protocol.release_releases h).steady

end Strategy

namespace Simulation

/-- What a tick is in the middle of. -/
inductive Phase where
  /-- Jobs may arrive. -/
  | arriving
  /-- A scheduling decision is to be made. -/
  | deciding
  /-- The process that the decision put on the CPU is to request `due`. -/
  | requesting (decision : Decision) (pid : Pid) (due : List ResourceId)
  /-- The process has run and is to give `due` back. -/
  | releasing (pid : Pid) (due : List ResourceId)
  /-- Nothing is left to do but to let the time pass. -/
  | closing (ran : Bool)

/-- A state of a run within a tick. -/
structure Moment where
  phase : Phase
  machine : Machine
  /-- The machine as it was when the last job had arrived. -/
  before : Machine
  /-- The jobs that are still to arrive, the earliest first. -/
  pending : List Job

/-- The moment between two ticks. -/
def Progress.moment (g : Progress) : Moment := ⟨.arriving, g.machine, g.machine, g.pending⟩

/-- What the end of a tick writes into the journal. -/
def closingEntries (ran : Bool) (m n : Machine) : List Activity :=
  (if ran then [] else [Activity.idle]) ++ priorityChanges m n

/-- Nothing runs, nothing is to arrive and nothing is alive. -/
def Over (ran : Bool) (pending : List Job) (m : Machine) : Prop :=
  ran = false ∧ pending = [] ∧ m.liveCount = 0

/-- One move of a run, with what it writes into the journal. -/
inductive Move (s : Strategy) : Moment → List Activity → Moment → Prop
  | arrive {m n b : Machine} {j : Job} {u : List Job} : j.start ≤ m.tick → m.fork j = .ok n →
      Move s ⟨.arriving, m, b, j :: u⟩ [.forked j] ⟨.arriving, n, n, u⟩
  | begin {m b : Machine} {u : List Job} : (∀ j ∈ u.head?, m.tick < j.start) →
      Move s ⟨.arriving, m, b, u⟩ [] ⟨.deciding, m, m, u⟩
  | idle {m n b : Machine} {d : Decision} {u : List Job} : s.schedule m = .ok (n, d) →
      d.next = none →
      Move s ⟨.deciding, m, b, u⟩ [.decided m.current d] ⟨.closing false, n, b, u⟩
  | dispatch {m n b : Machine} {d : Decision} {p : Pid} {due : List ResourceId}
      {u : List Job} : s.schedule m = .ok (n, d) → d.next = some p → requestsOf n p = .ok due →
      Move s ⟨.deciding, m, b, u⟩ [.decided m.current d] ⟨.requesting d p due, n, b, u⟩
  | grant {m n b : Machine} {d : Decision} {p : Pid} {r : ResourceId} {due : List ResourceId}
      {u : List Job} : s.acquire m r = .ok (n, .granted) →
      Move s ⟨.requesting d p (r :: due), m, b, u⟩ [requestActivity m n p r .granted]
        ⟨.requesting d p due, n, b, u⟩
  | block {m n b : Machine} {d : Decision} {p o : Pid} {r : ResourceId} {due : List ResourceId}
      {u : List Job} : s.acquire m r = .ok (n, .blocked o) →
      Move s ⟨.requesting d p (r :: due), m, b, u⟩ [requestActivity m n p r (.blocked o)]
        ⟨.deciding, n, b, u⟩
  | run {m n b : Machine} {d : Decision} {p : Pid} {age : Nat} {x : ProcessRecord}
      {due : List ResourceId} {u : List Job} : m.grow p = .ok (n, age) →
      n.process? p = some x → x.releasesDue = .ok due →
      Move s ⟨.requesting d p [], m, b, u⟩ [.ran p age] ⟨.releasing p due, n, b, u⟩
  | release {m n b : Machine} {p : Pid} {r : ResourceId} {o : Option Pid} {due : List ResourceId}
      {u : List Job} : s.release m r = .ok (n, o) →
      Move s ⟨.releasing p (r :: due), m, b, u⟩ (releaseEntries p r o (leaver? m n r))
        ⟨.releasing p due, n, b, u⟩
  | remain {m b : Machine} {p : Pid} {x : ProcessRecord} {u : List Job} :
      m.process? p = some x → x.isDone = false →
      Move s ⟨.releasing p [], m, b, u⟩ [] ⟨.closing true, m, b, u⟩
  | exit {m b : Machine} {p : Pid} {x : ProcessRecord} {u : List Job} :
      m.process? p = some x → x.isDone = true →
      Move s ⟨.releasing p [], m, b, u⟩ [.exited p]
        ⟨.closing true, m.adjust p (.turn .terminated), b, u⟩
  | close {m n b : Machine} {ran : Bool} {u : List Job} : ¬ Over ran u m →
      m.advance = .ok n →
      Move s ⟨.closing ran, m, b, u⟩ (closingEntries ran b m) ⟨.arriving, n, n, u⟩

/-- Activities with the tick in which they happen. -/
def stamp (tick : Nat) (l : List Activity) : Journal := l.map fun a => (tick, a)

/-- A sequence of moves with the journal that it leaves. -/
inductive Path (s : Strategy) (a : Moment) : Journal → Moment → Prop
  | refl : Path s a [] a
  | snoc {b e : Moment} {j : Journal} {l : List Activity} : Path s a j b → Move s b l e →
      Path s a (j ++ stamp b.machine.tick l) e

variable {s : Strategy}

/-- What every move keeps, a path keeps. -/
theorem Path.invariant {P : Moment → Prop} {a b : Moment} {j : Journal} (h : Path s a j b)
    (step : ∀ a l b, P a → Move s a l b → P b) (ha : P a) : P b := by
  induction h with
  | refl => exact ha
  | snoc _ hm ih => exact step _ _ _ ih hm

theorem Path.trans {a b e : Moment} {i j : Journal} (h : Path s a i b) (g : Path s b j e) :
    Path s a (i ++ j) e := by
  induction g with
  | refl => rwa [List.append_nil]
  | snoc _ hm ih =>
    rw [← List.append_assoc]
    exact ih.snoc hm

theorem Move.path {a b : Moment} {l : List Activity} (h : Move s a l b) :
    Path s a (stamp a.machine.tick l) b :=
  Path.refl.snoc h

/-- A move in front of a path within the same tick. -/
theorem Move.cons {a b e : Moment} {l k : List Activity} (h : Move s a l b)
    (ht : b.machine.tick = a.machine.tick) (g : Path s b (stamp b.machine.tick k) e) :
    Path s a (stamp a.machine.tick (l ++ k)) e := by
  rw [stamp, List.map_append]
  rw [ht] at g
  exact h.path.trans g

/-- A path that goes anywhere starts with a move. -/
theorem Path.uncons {a b : Moment} {j : Journal} (h : Path s a j b) :
    a = b ∧ j = [] ∨
      ∃ l e i, Move s a l e ∧ Path s e i b ∧ j = stamp a.machine.tick l ++ i := by
  induction h with
  | refl => exact .inl ⟨rfl, rfl⟩
  | snoc _ hm ih =>
    right
    rcases ih with ⟨rfl, rfl⟩ | ⟨l, e, i, hfirst, hrest, rfl⟩
    · exact ⟨_, _, [], hm, .refl, (List.append_nil _).symm⟩
    · exact ⟨l, e, _, hfirst, hrest.snoc hm, List.append_assoc _ _ _⟩

theorem mem_priorityChanges {m n : Machine} {e : Activity} (h : e ∈ priorityChanges m n) :
    ∃ p i k, e = .priorityChanged p i k := by
  simp only [priorityChanges, List.mem_filterMap] at h
  obtain ⟨⟨p, x⟩, -, hx⟩ := h
  cases hy : m.process? p with
  | none => simp [hy] at hx
  | some y =>
    simp only [hy, Option.ite_none_left_eq_some, Option.some.injEq] at hx
    exact ⟨_, _, _, hx.2.symm⟩

theorem mem_closingEntries {ran : Bool} {m n : Machine} {e : Activity}
    (h : e ∈ closingEntries ran m n) : e = .idle ∨ ∃ p i k, e = .priorityChanged p i k := by
  rcases List.mem_append.1 h with h | h
  · cases ran with
    | true => cases h
    | false => exact .inl (List.mem_singleton.1 h)
  · exact .inr (mem_priorityChanges h)

theorem forall_mem_releaseEntries {p : Pid} {r : ResourceId} {o w : Option Pid}
    {P : Activity → Prop} : (∀ e ∈ releaseEntries p r o w, P e) ↔
      P (.released p r) ∧ (∀ v ∈ o, P (.promoted v r)) ∧ ∀ v ∈ w, P (.woke v r) := by
  cases o <;> cases w <;> simp [releaseEntries]

/-- A process runs, in a move of its own, when it has nothing left to request; it is then to give
back what is due at its new age. -/
theorem Move.of_ran {a b : Moment} {l : List Activity} {p : Pid} {age : Nat} (h : Move s a l b)
    (hl : .ran p age ∈ l) : l = [.ran p age] ∧ ∃ d, a.phase = .requesting d p [] ∧
      ∃ due x, b.phase = .releasing p due ∧ b.machine.process? p = some x ∧
        x.releasesDue = .ok due := by
  cases h with
  | @run _ _ _ d _ _ _ _ _ _ hx hdue =>
    cases List.mem_singleton.1 hl
    exact ⟨rfl, d, rfl, _, _, rfl, hx, hdue⟩
  | release => simp [releaseEntries] at hl
  | close => rcases mem_closingEntries hl with he | ⟨_, _, _, he⟩ <;> cases he
  | arrive | begin | idle | dispatch | grant | block | remain | exit =>
    simp [requestActivity] at hl

/-- What is released is the first that the process on the CPU is to give back. -/
theorem Move.of_released {a b : Moment} {l : List Activity} {p : Pid} {r : ResourceId}
    (h : Move s a l b) (hl : .released p r ∈ l) :
    (∃ o, l = releaseEntries p r o (leaver? a.machine b.machine r)) ∧
      ∃ due, a.phase = .releasing p (r :: due) := by
  cases h with
  | @release _ _ _ q t o due _ _ =>
    have he : p = q ∧ r = t := by simpa [releaseEntries] using hl
    obtain ⟨rfl, rfl⟩ := he
    exact ⟨⟨o, rfl⟩, due, rfl⟩
  | close => rcases mem_closingEntries hl with he | ⟨_, _, _, he⟩ <;> cases he
  | arrive | begin | idle | dispatch | grant | block | run | remain | exit =>
    simp [requestActivity] at hl

/-- What a process acquires is the first that it is to request. -/
theorem Move.of_acquired {a b : Moment} {l : List Activity} {p : Pid} {r : ResourceId}
    {k : Nat} (h : Move s a l b) (hl : .acquired p r k ∈ l) :
    l = [.acquired p r k] ∧ ∃ d due, a.phase = .requesting d p (r :: due) ∧
      b.phase = .requesting d p due ∧ s.acquire a.machine r = .ok (b.machine, .granted) := by
  cases h with
  | @grant _ _ _ d _ _ due _ hn =>
    cases List.mem_singleton.1 hl
    exact ⟨rfl, d, due, rfl, rfl, hn⟩
  | release => simp [releaseEntries] at hl
  | close => rcases mem_closingEntries hl with he | ⟨_, _, _, he⟩ <;> cases he
  | arrive | begin | idle | dispatch | block | run | remain | exit =>
    simp [requestActivity] at hl

/-- What a process blocks on is the first that it is to request. -/
theorem Move.of_blocked {a b : Moment} {l : List Activity} {p o : Pid} {r : ResourceId}
    {i k : Nat} (h : Move s a l b) (hl : .blocked p r o i k ∈ l) :
    l = [.blocked p r o i k] ∧ ∃ d due, a.phase = .requesting d p (r :: due) ∧
      s.acquire a.machine r = .ok (b.machine, .blocked o) := by
  cases h with
  | @block _ _ _ d _ _ _ due _ hn =>
    cases List.mem_singleton.1 hl
    exact ⟨rfl, d, due, rfl, hn⟩
  | release => simp [releaseEntries] at hl
  | close => rcases mem_closingEntries hl with he | ⟨_, _, _, he⟩ <;> cases he
  | arrive | begin | idle | dispatch | grant | run | remain | exit =>
    simp [requestActivity] at hl

/-- A process ends when it has given everything back and its lifespan is used up. -/
theorem Move.of_exited {a b : Moment} {l : List Activity} {p : Pid} (hm : Move s a l b)
    (hl : .exited p ∈ l) :
    l = [.exited p] ∧ a.phase = .releasing p [] ∧ b.phase = .closing true ∧
      b.machine = a.machine.adjust p (.turn .terminated) ∧
      ∃ x, a.machine.process? p = some x ∧ x.isDone = true := by
  cases hm with
  | exit hx hd =>
    cases List.mem_singleton.1 hl
    exact ⟨rfl, rfl, rfl, rfl, _, hx, hd⟩
  | release => simp [releaseEntries] at hl
  | close => rcases mem_closingEntries hl with he | ⟨_, _, _, he⟩ <;> cases he
  | arrive | begin | idle | dispatch | grant | block | run | remain =>
    simp [requestActivity] at hl

/-- The time passes where something is left to do. -/
theorem Move.of_closing {a b : Moment} {l : List Activity} {ran : Bool} (h : Move s a l b)
    (ha : a.phase = .closing ran) : ¬ Over ran a.pending a.machine := by
  cases h with
  | close hover =>
    cases ha
    exact hover
  | arrive | begin | idle | dispatch | grant | block | run | release | remain | exit => cases ha

/-- A tick is called idle at its end. -/
theorem Move.tick_of_idle {a b : Moment} {l : List Activity} (h : Move s a l b) (hl : .idle ∈ l) :
    b.machine.tick = a.machine.tick + 1 := by
  cases h with
  | close _ hn =>
    obtain ⟨-, rfl⟩ := Machine.advance_eq_ok.1 hn
    rfl
  | release => simp [releaseEntries] at hl
  | arrive | begin | idle | dispatch | grant | block | run | remain | exit =>
    simp [requestActivity] at hl

/-- A path goes through the move that wrote an entry of its journal. -/
theorem Path.split {a b : Moment} {j pre post : Journal} {t : Nat} {e : Activity}
    (h : Path s a j b) (hj : j = pre ++ (t, e) :: post) :
    ∃ d f i l k rest, pre = i ++ stamp t l ∧ post = stamp t k ++ rest ∧ Path s a i d ∧
      d.machine.tick = t ∧ Move s d (l ++ e :: k) f ∧ Path s f rest b := by
  induction h generalizing post with
  | refl => simp at hj
  | @snoc d f j l g hm ih =>
    have last : ∀ {i : Journal}, stamp d.machine.tick l = i ++ (t, e) :: post →
        ∃ l₁ l₂, l = l₁ ++ e :: l₂ ∧ i = stamp t l₁ ∧ post = stamp t l₂ ∧
          d.machine.tick = t := by
      intro i hi
      obtain ⟨l₁, l₂, rfl, rfl, htail⟩ := List.map_eq_append_iff.1 hi
      obtain ⟨e', l₂, rfl, he, rfl⟩ := List.map_eq_cons_iff.1 htail
      obtain ⟨rfl, rfl⟩ := Prod.mk.inj he
      exact ⟨l₁, l₂, rfl, rfl, rfl, rfl⟩
    rcases List.append_eq_append_iff.1 hj with ⟨i, rfl, hi⟩ | ⟨i, rfl, hi⟩
    · obtain ⟨l₁, l₂, rfl, rfl, rfl, ht⟩ := last hi
      exact ⟨d, f, j, l₁, l₂, [], rfl, by simp, g, ht, hm, .refl⟩
    · cases i with
      | nil =>
        obtain ⟨l₁, l₂, rfl, hnil, rfl, ht⟩ := last (i := []) hi.symm
        obtain rfl : l₁ = [] := List.map_eq_nil_iff.1 hnil.symm
        rw [List.append_nil] at g
        exact ⟨d, f, pre, [], l₂, [], by simp [stamp], by simp, g, ht, hm, .refl⟩
      | cons g' i =>
        obtain ⟨rfl, rfl⟩ := List.cons.inj hi
        obtain ⟨d', f', i', l₁, l₂, rest, hpre, hpost, hpath, ht, hmove, hrest⟩ := ih rfl
        refine ⟨d', f', i', l₁, l₂, _, hpre, ?_, hpath, ht, hmove, hrest.snoc hm⟩
        rw [hpost]
        exact List.append_assoc _ _ _

theorem eq_nil_of_append_singleton {α : Type} {l k : List α} {x y : α} (h : l ++ x :: k = [y]) :
    l = [] ∧ k = [] := by
  have hlen := congrArg List.length h
  simp only [List.length_append, List.length_cons, List.length_nil] at hlen
  exact ⟨List.eq_nil_of_length_eq_zero (by omega), List.eq_nil_of_length_eq_zero (by omega)⟩

/-- Where a journal says that a process ran, the path goes through the move in which it did. -/
theorem Path.split_ran {a b : Moment} {j pre post : Journal} {t : Nat} {p : Pid} {age : Nat}
    (h : Path s a j b) (hj : j = pre ++ (t, .ran p age) :: post) :
    ∃ d e, Path s a pre d ∧ Move s d [.ran p age] e ∧ d.machine.tick = t ∧ Path s e post b := by
  obtain ⟨d, e, i, l, k, rest, rfl, rfl, hi, ht, hm, hrest⟩ := h.split hj
  have hmem : Activity.ran p age ∈ l ++ .ran p age :: k :=
    List.mem_append_right _ List.mem_cons_self
  obtain ⟨hl, -⟩ := hm.of_ran hmem
  obtain ⟨rfl, rfl⟩ := eq_nil_of_append_singleton hl
  refine ⟨d, e, ?_, hm, ht, ?_⟩
  · simpa [stamp] using hi
  · simpa [stamp] using hrest

/-- The last decision in the journal is `d`, made in the tick `t`, and only grants to `p` follow. -/
def LastDecided (j : Journal) (t : Nat) (d : Decision) (p : Pid) : Prop :=
  ∃ i prev k, j = i ++ (t, .decided prev d) :: k ∧ ∀ e ∈ k, ∃ r n, e = (t, .acquired p r n)

/-- Behind the decision that put a process on the CPU the journal holds nothing but grants. -/
theorem Path.lastDecided {a b : Moment} {j : Journal} {d : Decision} {p : Pid}
    {due : List ResourceId} (h : Path s a j b) (ha : a.phase = .arriving)
    (hb : b.phase = .requesting d p due) : LastDecided j b.machine.tick d p := by
  induction h generalizing due with
  | refl =>
    rw [ha] at hb
    cases hb
  | @snoc _ _ j _ _ hm ih =>
    cases hm with
    | dispatch hn =>
      cases hb
      rw [← (Strategy.steady_schedule hn).tick]
      exact ⟨j, _, [], rfl, by simp⟩
    | grant hn =>
      cases hb
      obtain ⟨i, prev, k, rfl, hk⟩ := ih rfl
      dsimp only at hk ⊢
      rw [(Strategy.steady_acquire hn).tick]
      refine ⟨i, prev, k ++ stamp _ [_], by rw [List.append_assoc, List.cons_append], ?_⟩
      intro e he
      rcases List.mem_append.1 he with he | he
      · exact hk e he
      · exact ⟨_, _, List.mem_singleton.1 he⟩
    | arrive | begin | idle | block | run | release | remain | exit | close => cases hb

/-! ## Ticks as paths -/

section Tick

variable {m n b : Machine} {u : List Job}

theorem admitAll_path {due : List Job} (h : admitAll due m = .ok n)
    (hd : ∀ j ∈ due, j.start ≤ m.tick) :
    n.tick = m.tick ∧
      Path s ⟨.arriving, m, m, due ++ u⟩ (stamp m.tick (due.map .forked))
        ⟨.arriving, n, n, u⟩ := by
  induction due generalizing m with
  | nil =>
    cases h
    exact ⟨rfl, .refl⟩
  | cons j due ih =>
    simp only [admitAll, bind_eq_ok] at h
    obtain ⟨k, hk, h⟩ := h
    obtain ⟨hj, hd⟩ := List.forall_mem_cons.1 hd
    have ht : k.tick = m.tick := by
      obtain ⟨-, -, rfl⟩ := Machine.fork_eq_ok.1 hk
      rfl
    obtain ⟨hn, g⟩ := ih h (by rwa [ht])
    exact ⟨hn.trans ht, (Move.arrive hj hk).cons ht g⟩

theorem request_path {d : Decision} {p : Pid} {due : List ResourceId} {acts : List Activity}
    {all : Bool} (h : request s p due m = .ok (n, acts, all)) :
    n.tick = m.tick ∧
      Path s ⟨.requesting d p due, m, b, u⟩ (stamp m.tick acts)
        ⟨if all then .requesting d p [] else .deciding, n, b, u⟩ := by
  induction due generalizing m acts with
  | nil =>
    simp only [request, Except.ok.injEq, Prod.mk.injEq] at h
    obtain ⟨rfl, rfl, rfl⟩ := h
    exact ⟨rfl, .refl⟩
  | cons r due ih =>
    simp only [request, bind_eq_ok] at h
    obtain ⟨⟨k, reply⟩, hk, h⟩ := h
    have ht := (Strategy.steady_acquire hk).tick
    cases reply with
    | granted =>
      simp only [Reply.isGranted, if_true, bind_eq_ok, pure_eq_ok, Prod.mk.injEq] at h
      obtain ⟨⟨_, rest, all'⟩, hrest, rfl, rfl, rfl⟩ := h
      obtain ⟨hn, g⟩ := ih hrest
      exact ⟨hn.trans ht, (Move.grant hk).cons ht g⟩
    | blocked o =>
      simp only [Reply.isGranted, Bool.false_eq_true, if_false, pure_eq_ok, Prod.mk.injEq] at h
      obtain ⟨rfl, rfl, rfl⟩ := h
      exact ⟨ht, (Move.block hk).path⟩

/-- Where an attempt ends. -/
inductive Turned : Turn → Phase → Prop
  | idle : Turned .idle (.closing false)
  | served {d : Decision} {p : Pid} : d.next = some p → Turned (.served p) (.requesting d p [])
  | blocked {p : Pid} : Turned (.blocked p) .deciding

theorem attempt_path {acts : List Activity} {turn : Turn}
    (h : attempt s m = .ok (n, acts, turn)) :
    n.tick = m.tick ∧ ∃ φ, Turned turn φ ∧
      Path s ⟨.deciding, m, b, u⟩ (stamp m.tick acts) ⟨φ, n, b, u⟩ := by
  simp only [attempt, bind_eq_ok] at h
  obtain ⟨⟨k, d⟩, hd, h⟩ := h
  have ht := (Strategy.steady_schedule hd).tick
  split at h
  · next hnone =>
    simp only [pure_eq_ok, Prod.mk.injEq] at h
    obtain ⟨rfl, rfl, rfl⟩ := h
    exact ⟨ht, _, .idle, (Move.idle hd hnone).path⟩
  · next p hp =>
    simp only [bind_eq_ok, pure_eq_ok, Prod.mk.injEq] at h
    obtain ⟨due, hdue, ⟨_, rest, all⟩, hrest, rfl, rfl, rfl⟩ := h
    obtain ⟨hn, g⟩ := request_path (d := d) (b := b) (u := u) hrest
    refine ⟨hn.trans ht, _, ?_, (Move.dispatch hd hp hdue).cons ht g⟩
    cases all with
    | true => exact .served hp
    | false => exact .blocked

/-- Where the attempts of a tick end. -/
inductive Settled : Option Pid → Phase → Prop
  | idle : Settled none (.closing false)
  | served {d : Decision} {p : Pid} : d.next = some p → Settled (some p) (.requesting d p [])

theorem settle_path {limit : Nat} {acts : List Activity} {runner : Option Pid}
    (h : settle s limit m = .ok (n, acts, runner)) :
    n.tick = m.tick ∧ ∃ φ, Settled runner φ ∧
      Path s ⟨.deciding, m, b, u⟩ (stamp m.tick acts) ⟨φ, n, b, u⟩ := by
  induction limit generalizing m acts with
  | zero => cases h
  | succ limit ih =>
    simp only [settle, bind_eq_ok] at h
    obtain ⟨⟨k, first, turn⟩, hfirst, h⟩ := h
    obtain ⟨ht, φ, hφ, g⟩ := attempt_path (b := b) (u := u) hfirst
    cases hφ with
    | idle =>
      simp only [pure_eq_ok, Prod.mk.injEq] at h
      obtain ⟨rfl, rfl, rfl⟩ := h
      exact ⟨ht, _, .idle, g⟩
    | served hp =>
      simp only [pure_eq_ok, Prod.mk.injEq] at h
      obtain ⟨rfl, rfl, rfl⟩ := h
      exact ⟨ht, _, .served hp, g⟩
    | blocked =>
      simp only [bind_eq_ok, pure_eq_ok, Prod.mk.injEq] at h
      obtain ⟨⟨_, rest, _⟩, hrest, rfl, rfl, rfl⟩ := h
      obtain ⟨hn, φ, hφ, g'⟩ := ih hrest
      refine ⟨hn.trans ht, φ, hφ, ?_⟩
      rw [stamp, List.map_append]
      rw [ht] at g'
      exact g.trans g'

theorem giveBack_path {p : Pid} {due : List ResourceId} {acts : List Activity}
    (h : giveBack s p due m = .ok (n, acts)) :
    n.tick = m.tick ∧
      Path s ⟨.releasing p due, m, b, u⟩ (stamp m.tick acts) ⟨.releasing p [], n, b, u⟩ := by
  induction due generalizing m acts with
  | nil =>
    simp only [giveBack, Except.ok.injEq, Prod.mk.injEq] at h
    obtain ⟨rfl, rfl⟩ := h
    exact ⟨rfl, .refl⟩
  | cons r due ih =>
    simp only [giveBack, bind_eq_ok, pure_eq_ok, Prod.mk.injEq] at h
    obtain ⟨⟨k, o⟩, hk, ⟨_, rest⟩, hrest, rfl, rfl⟩ := h
    have ht := (Strategy.steady_release hk).tick
    obtain ⟨hn, g⟩ := ih hrest
    exact ⟨hn.trans ht, (Move.release hk).cons ht g⟩

theorem runOn_path {d : Decision} {p : Pid} {acts : List Activity}
    (h : runOn s p m = .ok (n, acts)) :
    n.tick = m.tick ∧
      Path s ⟨.requesting d p [], m, b, u⟩ (stamp m.tick acts) ⟨.closing true, n, b, u⟩ := by
  simp only [runOn, bind_eq_ok, Machine.process_eq_ok] at h
  obtain ⟨⟨k, age⟩, hk, x, hx, due, hdue, ⟨l, rest⟩, hl, y, hy, h⟩ := h
  have ht : k.tick = m.tick := by
    obtain ⟨_, -, -, -, rfl⟩ := Machine.grow_eq_ok.1 hk
    rfl
  obtain ⟨htl, g⟩ := giveBack_path (b := b) (u := u) hl
  have g := (Move.run (d := d) hk hx hdue).cons ht g
  cases hd : y.isDone with
  | true =>
    simp only [hd, if_true, bind_eq_ok, Machine.update_eq_adjust, pure_eq_ok, Prod.mk.injEq] at h
    obtain ⟨_, ⟨-, rfl⟩, rfl, rfl⟩ := h
    refine ⟨htl.trans ht, ?_⟩
    have e := (Move.exit (s := s) (b := b) (u := u) hy hd).path
    rw [htl.trans ht] at e
    rw [stamp, List.map_append]
    exact g.trans e
  | false =>
    simp only [hd, Bool.false_eq_true, if_false, pure_eq_ok, Prod.mk.injEq] at h
    obtain ⟨rfl, rfl⟩ := h
    refine ⟨htl.trans ht, ?_⟩
    have e := (Move.remain (s := s) (b := b) (u := u) hy hd).path
    simpa [stamp] using g.trans e

/-- The part of a tick behind the admissions: the attempts, and the run of the process that they
leave on the CPU. -/
theorem play_settle {acts : List Activity} {ran : Bool} (h : play s m = .ok (n, acts, ran)) :
    ∃ k first rest runner φ, settle s (attemptLimit m) m = .ok (k, first, runner) ∧
      acts = first ++ rest ∧ k.tick = m.tick ∧ n.tick = m.tick ∧ Settled runner φ ∧
      Path s ⟨.deciding, m, b, u⟩ (stamp m.tick first) ⟨φ, k, b, u⟩ ∧
      Path s ⟨φ, k, b, u⟩ (stamp m.tick rest) ⟨.closing ran, n, b, u⟩ := by
  simp only [play, bind_eq_ok] at h
  obtain ⟨⟨k, first, runner⟩, hk, h⟩ := h
  obtain ⟨htk, φ, hφ, g⟩ := settle_path (b := b) (u := u) hk
  cases hφ with
  | idle =>
    simp only [pure_eq_ok, Prod.mk.injEq] at h
    obtain ⟨rfl, rfl, rfl⟩ := h
    exact ⟨k, first, [], none, _, hk, (List.append_nil _).symm, htk, htk, .idle, g, .refl⟩
  | @served d p hp =>
    simp only [bind_eq_ok, pure_eq_ok, Prod.mk.injEq] at h
    obtain ⟨⟨_, rest⟩, hrest, rfl, rfl, rfl⟩ := h
    obtain ⟨htn, g'⟩ := runOn_path (d := d) (b := b) (u := u) hrest
    rw [htk] at htn g'
    exact ⟨k, first, rest, some p, _, hk, rfl, htk, htn, .served hp, g, g'⟩

theorem play_path {acts : List Activity} {ran : Bool} (h : play s m = .ok (n, acts, ran)) :
    n.tick = m.tick ∧
      Path s ⟨.deciding, m, b, u⟩ (stamp m.tick acts) ⟨.closing ran, n, b, u⟩ := by
  obtain ⟨k, first, rest, runner, φ, -, rfl, -, ht, -, g, g'⟩ := play_settle (b := b) (u := u) h
  refine ⟨ht, ?_⟩
  rw [stamp, List.map_append]
  exact g.trans g'

end Tick

/-- What a tick comes to once nothing is left to do in it. -/
inductive Closes (audit ran : Bool) (b m : Machine) (u : List Job) (acts : List Activity) :
    TickResult → Prop
  | ended : Over ran u m → Closes audit ran b m u acts ⟨⟨m, u⟩, acts, some .normal⟩
  | broken {v : Violation} : ¬ Over ran u m → audit = true → m.audit = .error v →
      Closes audit ran b m u acts
        ⟨⟨m, u⟩, acts ++ closingEntries ran b m, some (.ruleBroken v)⟩
  | next {n : Machine} : ¬ Over ran u m → (audit = true → m.audit = .ok ()) →
      m.advance = .ok n →
      Closes audit ran b m u acts ⟨⟨n, u⟩, acts ++ closingEntries ran b m, none⟩

theorem over_iff {ran : Bool} {u : List Job} {m : Machine} :
    (!ran && u.isEmpty && m.liveCount == 0) = true ↔ Over ran u m := by
  cases ran <;> simp [Over]

/-- The jobs that arrive in the next tick. -/
def Progress.due (g : Progress) : List Job :=
  g.pending.takeWhile fun j => decide (j.start ≤ g.machine.tick)

/-- The jobs that arrive later. -/
def Progress.later (g : Progress) : List Job :=
  g.pending.dropWhile fun j => decide (j.start ≤ g.machine.tick)

theorem Progress.start_le {g : Progress} {j : Job} (hj : j ∈ g.due) : j.start ≤ g.machine.tick := by
  simpa using List.all_eq_true.1 List.all_takeWhile j hj

theorem Progress.due_append_later (g : Progress) : g.due ++ g.later = g.pending :=
  List.takeWhile_append_dropWhile

/-- A tick up to its first decision. -/
theorem admitDue_path {g : Progress} {m : Machine} (hm : admitAll g.due g.machine = .ok m) :
    m.tick = g.machine.tick ∧
      Path s g.moment (stamp g.machine.tick (g.due.map .forked)) ⟨.deciding, m, m, g.later⟩ := by
  obtain ⟨ht, path⟩ := admitAll_path (s := s) (u := g.later) hm fun _ => g.start_le
  rw [g.due_append_later] at path
  have hlater : ∀ j ∈ g.later.head?, m.tick < j.start := by
    intro j hj
    have := List.head?_dropWhile_not (fun j : Job => decide (j.start ≤ g.machine.tick)) g.pending
    rw [← Progress.later, Option.mem_def.1 hj] at this
    simpa [ht] using this
  have := path.snoc (.begin (b := m) hlater)
  exact ⟨ht, by rwa [show stamp m.tick [] = [] from rfl, List.append_nil] at this⟩

/-- A tick lets jobs arrive, plays and closes. -/
theorem step_play {audit : Bool} {g : Progress} {r : TickResult} (h : step s audit g = .ok r) :
    ∃ m n acts ran, admitAll g.due g.machine = .ok m ∧ play s m = .ok (n, acts, ran) ∧
      Closes audit ran m n g.later (g.due.map .forked ++ acts) r := by
  simp only [step, bind_eq_ok] at h
  obtain ⟨m, hm, ⟨n, acts, ran⟩, hn, h⟩ := h
  refine ⟨m, n, acts, ran, hm, hn, ?_⟩
  split at h
  · next hover =>
    cases h
    exact .ended (over_iff.1 hover)
  · next hover =>
    have hover := fun ho => hover (over_iff.2 ho)
    rw [List.append_assoc] at h
    split at h
    · next v hv =>
      cases h
      cases audit with
      | true => exact .broken hover rfl hv
      | false => cases hv
    · next hv =>
      simp only [bind_eq_ok, pure_eq_ok] at h
      obtain ⟨k, hk, rfl⟩ := h
      exact .next hover (fun ha => by simpa [ha] using hv) hk

theorem step_path {audit : Bool} {g : Progress} {r : TickResult} (h : step s audit g = .ok r) :
    ∃ ran b m acts, m.tick = g.machine.tick ∧
      Path s g.moment (stamp g.machine.tick acts) ⟨.closing ran, m, b, g.later⟩ ∧
      Closes audit ran b m g.later acts r := by
  obtain ⟨m, n, acts, ran, hm, hn, hcloses⟩ := step_play h
  obtain ⟨htm, gm⟩ := admitDue_path (s := s) hm
  obtain ⟨htn, gn⟩ := play_path (b := m) (u := g.later) hn
  refine ⟨ran, m, n, _, htn.trans htm, ?_, hcloses⟩
  rw [stamp, List.map_append]
  rw [htm] at gn
  exact gm.trans gn

/-! ## Runs as paths -/

/-- What the `k`-th tick of a run comes to; a run has no more ticks behind its exit. -/
def tickAt (s : Strategy) (c : Scenario) : Nat → Option TickResult
  | 0 => (step s c.audit (opening c)).toOption
  | k + 1 => (tickAt s c k).bind fun r =>
    if r.exit = none then (step s c.audit r.after).toOption else none

theorem toOption_eq_some {α : Type} {x : Except Fault α} {a : α} :
    x.toOption = some a ↔ x = .ok a := by
  cases x <;> simp [Except.toOption]

/-- What can be evaluated of an answer. -/
theorem of_toOption_any {α : Type} {x : Except Fault α} {a : α} {P : α → Prop} [DecidablePred P]
    (hx : x = .ok a) (h : x.toOption.any (fun a => decide (P a)) = true) : P a := by
  rw [toOption_eq_some.2 hx] at h
  exact of_decide_eq_true h

/-- What can be evaluated at the end of a tick. -/
theorem exists_tickAt {c : Scenario} {k : Nat} {P : TickResult → Prop} [DecidablePred P]
    (h : (tickAt s c k).any (fun r => decide (P r)) = true) : ∃ r, tickAt s c k = some r ∧ P r := by
  simpa only [Option.any_eq_true, decide_eq_true_eq] using h

/-- What a run has written by the end of its `k`-th tick. -/
def historyAt (s : Strategy) (c : Scenario) : Nat → Journal
  | 0 => ((tickAt s c 0).map fun r => stamp 0 r.done).getD []
  | k + 1 => historyAt s c k ++ ((tickAt s c (k + 1)).map fun r => stamp (k + 1) r.done).getD []

/-- How a run ends that starts at a moment, with the journal that it writes. -/
inductive Ends (s : Strategy) (audit : Bool) (a : Moment) : Journal → Machine → Exit → Prop
  | limit {j : Journal} {m : Machine} {u : List Job} :
      Path s a j ⟨.arriving, m, m, u⟩ → Ends s audit a j m (.tickLimit m.tick)
  | normal {j : Journal} {ran : Bool} {m b : Machine} {u : List Job} :
      Path s a j ⟨.closing ran, m, b, u⟩ → Over ran u m → Ends s audit a j m .normal
  | broken {j : Journal} {ran : Bool} {m b : Machine} {u : List Job} {v : Violation} :
      Path s a j ⟨.closing ran, m, b, u⟩ → audit = true → m.audit = .error v →
      Ends s audit a (j ++ stamp m.tick (closingEntries ran b m)) m (.ruleBroken v)

theorem Ends.after {audit : Bool} {a b : Moment} {i j : Journal} {m : Machine} {e : Exit}
    (g : Path s a i b) (h : Ends s audit b j m e) : Ends s audit a (i ++ j) m e := by
  cases h with
  | limit k => exact .limit (g.trans k)
  | normal k ho => exact .normal (g.trans k) ho
  | broken k ha hv =>
    rw [← List.append_assoc]
    exact .broken (g.trans k) ha hv

theorem advance_ends {audit : Bool} {ticks : Nat} {g : Progress}
    {journal : Array (Nat × Activity)} {f : Finished}
    (h : advance s audit ticks g journal = .ok f) :
    ∃ j, f.journal = journal.toList ++ j ∧ Ends s audit g.moment j f.machine f.exit := by
  induction ticks generalizing g journal with
  | zero =>
    cases h
    exact ⟨[], (List.append_nil _).symm, .limit .refl⟩
  | succ ticks ih =>
    simp only [advance, bind_eq_ok] at h
    obtain ⟨r, hr, h⟩ := h
    obtain ⟨ran, b, m, acts, ht, path, hc⟩ := step_path hr
    have hdone : (journal ++ r.done.map fun a => (g.machine.tick, a)).toList =
        journal.toList ++ stamp g.machine.tick r.done := by simp [stamp]
    cases hc with
    | ended hover =>
      cases h
      exact ⟨_, hdone, .normal path hover⟩
    | broken hover ha hv =>
      cases h
      refine ⟨_, hdone, ?_⟩
      rw [stamp, List.map_append]
      have := Ends.broken path ha hv
      rwa [ht] at this
    | next hover ha hn =>
      obtain ⟨j, hj, he⟩ := ih h
      have g' := path.snoc (.close hover hn)
      refine ⟨_, ?_, he.after g'⟩
      rw [hj, hdone, stamp, List.map_append, ht]
      simp [stamp]

theorem playAll_ends {c : Scenario} {f : Finished} (h : playAll s c = .ok f) :
    Ends s c.audit (opening c).moment f.journal f.machine f.exit := by
  obtain ⟨j, hj, he⟩ := advance_ends h
  rw [hj]
  exact he

end Simulation

/-! ## Marks in a journal -/

/-- Something with `P` is in the journal, and nothing with `Q` behind it. -/
def Journal.Since (P Q : Activity → Prop) (j : Journal) : Prop :=
  ∃ i e k, j = i ++ e :: k ∧ P e.2 ∧ ∀ f ∈ k, ¬ Q f.2

namespace Journal

variable {P Q : Activity → Prop} {j : Journal} {l : List Activity} {t : Nat}

theorem Since.append (h : j.Since P Q) (hl : ∀ e ∈ l, ¬ Q e) :
    Since P Q (j ++ Simulation.stamp t l) := by
  obtain ⟨i, e, k, rfl, he, hk⟩ := h
  refine ⟨i, e, k ++ Simulation.stamp t l, by simp, he, fun f hf => ?_⟩
  rcases List.mem_append.1 hf with hf | hf
  · exact hk f hf
  · obtain ⟨g, hg, rfl⟩ := List.mem_map.1 hf
    exact hl g hg

theorem since_of_mem {e : Activity} (he : e ∈ l) (hp : P e) (hl : ∀ e ∈ l, ¬ Q e) :
    Since P Q (j ++ Simulation.stamp t l) := by
  obtain ⟨i, k, rfl⟩ := List.append_of_mem he
  refine ⟨j ++ Simulation.stamp t i, (t, e), Simulation.stamp t k, by simp [Simulation.stamp], hp,
    fun f hf => ?_⟩
  obtain ⟨g, hg, rfl⟩ := List.mem_map.1 hf
  exact hl g (by simp [hg])

end Journal

end Uniprocessor
