import Mathlib.Data.List.Perm.Subperm
import Uniprocessor.Proofs.Ledger
/-
  The end of a tally.

  Behind its events a tally is closed: the waits that are not over are counted up to the end of the
  run (`closeBlocked_ok`), the time in the ready queue is what is left of a lifetime (`finish_eq`),
  and the distributions take in one process behind the other, which they have room for as long as
  the processes times the ticks fit a word (`Distribution.Bounded`, `addProcesses_ok`).

  A tally that agrees with the machines at the turns can be closed, and what is left of a lifetime
  is the number of turns at which the process was ready (`Whole`, `Ledger.close`).
-/

namespace Uniprocessor

namespace PidMap

variable {α : Type} {m : PidMap α} {p : Pid}

theorem find_eq_none {l : List (Pid × α)} (h : p ∉ l.map (·.1)) : find p l = none := by
  induction l with
  | nil => rfl
  | cons e l ih =>
    rw [List.map_cons, List.mem_cons, not_or] at h
    rw [find, if_neg (Ne.symm h.1)]
    exact ih h.2

theorem Sorted.nodup (h : m.Sorted) : (m.entries.map (·.1)).Nodup :=
  List.pairwise_map.2 (h.imp fun hlt heq => absurd (heq ▸ hlt) (Nat.lt_irrefl _))

/-- A map is not longer than a list that holds its keys. -/
theorem Sorted.length_le (h : m.Sorted) {pids : List Pid}
    (hpids : ∀ p v, m.get? p = some v → p ∈ pids) : m.entries.length ≤ pids.length := by
  have hsubset : m.entries.map (·.1) ⊆ pids := by
    intro p hp
    obtain ⟨⟨_, v⟩, hmem, rfl⟩ := List.mem_map.1 hp
    exact hpids _ v ((mem_entries h).1 hmem)
  have hle := (List.subperm_of_subset h.nodup hsubset).length_le
  rwa [List.length_map] at hle

end PidMap

/-! ## Distributions -/

namespace Distribution

variable {d : Distribution} {b v w : Nat}

/-- The sum is at most `b`, and the squares are no more than the square of the sum. -/
structure Bounded (d : Distribution) (b : Nat) : Prop where
  sum : d.sum ≤ b
  squares : d.sumOfSquares ≤ d.sum * d.sum

theorem Bounded.mono (h : d.Bounded b) (hb : b ≤ w) : d.Bounded w :=
  ⟨Nat.le_trans h.sum hb, h.squares⟩

/-- There is room for a value as long as the sum fits its word. -/
theorem Bounded.add (h : d.Bounded b) (hv : v ≤ w) (hw : b + w < tickBound) :
    ∃ d', d.add v = .ok d' ∧ d'.Bounded (b + w) := by
  have hsum : d.sum + v ≤ b + w := Nat.add_le_add h.sum hv
  have hlt : d.sum + v < tickBound := Nat.lt_of_le_of_lt hsum hw
  have hsquares := squares_le v h.squares
  exact ⟨d.next v, by rw [add_eq, if_pos ⟨hlt, squares_lt hsquares hlt⟩], hsum, hsquares⟩

theorem Bounded.addAll_option {o : Option Nat} (h : d.Bounded b) (ho : ∀ v ∈ o, v ≤ w)
    (hw : b + w < tickBound) : ∃ d', addAll o.toList d = .ok d' ∧ d'.Bounded (b + w) := by
  cases o with
  | none => exact ⟨d, rfl, h.mono (Nat.le_add_right b w)⟩
  | some v =>
    obtain ⟨d', hd', hbounded⟩ := h.add (ho v rfl) hw
    refine ⟨d', ?_, hbounded⟩
    rw [Option.toList_some, addAll, hd']
    rfl

end Distribution

/-! ## Whole lifetimes -/

/-- The tick behind the last one of a lifetime, if the run ends with the tick `n`. -/
def Lifetime.stop (n : Nat) (l : Lifetime) : Nat := (l.exit.map (· + 1)).getD n

variable {ms : List Machine} {p q : Pid} {l : Lifetime} {st : Status} {since : Option Nat} {n : Nat}

theorem Lifetime.stop_of_exit {e : Nat} (h : l.exit = some e) : l.stop n = e + 1 := by
  rw [stop, h]
  rfl

theorem Lifetime.stop_of_none (h : l.exit = none) : l.stop n = n := by
  rw [stop, h]
  rfl

/-- A lifetime with all its waits counted. -/
structure Whole (ms : List Machine) (p : Pid) (l : Lifetime) : Prop where
  ran : l.ran = census p .running ms
  blocked : l.blocked = census p .waiting ms
  response : ∀ r, l.firstRun = some r → l.arrival ≤ r ∧ r < ms.length
  span : l.arrival + spent p ms = l.stop ms.length
  stop : l.stop ms.length ≤ ms.length

/-- At the end of a run the waits that are not over are counted. -/
theorem Lived.whole (h : Lived ms p st l since) :
    Whole ms p { l with blocked := l.blocked + (since.map (ms.length - ·)).getD 0 } where
  ran := h.ran
  blocked := by
    cases since with
    | none => exact (h.awake rfl).2
    | some t =>
      obtain ⟨-, hle, hblocked⟩ := h.asleep t rfl
      rw [Option.map_some, Option.getD_some]
      dsimp only
      omega
  response := h.response
  span := by
    change l.arrival + _ = l.stop _
    by_cases hst : st = .terminated
    · obtain ⟨e, hexit, hsum, -⟩ := h.ended hst
      rw [hsum, Lifetime.stop_of_exit hexit]
    · obtain ⟨hexit, hsum⟩ := h.alive hst
      rw [hsum, Lifetime.stop_of_none hexit]
  stop := by
    change l.stop _ ≤ _
    by_cases hst : st = .terminated
    · obtain ⟨e, hexit, -, hlt⟩ := h.ended hst
      rwa [Lifetime.stop_of_exit hexit]
    · exact Nat.le_of_eq (Lifetime.stop_of_none (h.alive hst).1)

namespace Lifetimes

/-- The time in the ready queue is what is left. -/
theorem finish_eq {w : Nat} (hspan : l.arrival + (l.ran + l.blocked + w) = l.stop n)
    (hn : l.stop n < tickBound) : finish n l = .ok { l with readyWait := w } := by
  have hsum : addTicks l.ran l.blocked = .ok (l.ran + l.blocked) := addTicks_eq_ok.2 ⟨by omega, rfl⟩
  have hleft : l.stop n - l.arrival - (l.ran + l.blocked) = w := by omega
  unfold finish
  cases he : l.exit with
  | none =>
    rw [Lifetime.stop_of_none he] at hleft
    simp only [hsum, pure_bind, ok_bind, hleft]
    rfl
  | some e =>
    rw [Lifetime.stop_of_exit he] at hleft hn hspan
    simp only [hsum, addTicks_eq_ok.2 ⟨hn, rfl⟩,
      subTicks_eq_ok.2 ⟨show l.arrival ≤ e + 1 by omega, rfl⟩, ok_bind, hleft]
    rfl

/-- The distributions hold the values of at most `i` processes. -/
structure Roomy (S : Lifetimes) (i : Nat) : Prop where
  turnaround : S.turnaround.Bounded (i * S.endTick)
  response : S.response.Bounded (i * S.endTick)
  readyWait : S.readyWait.Bounded (i * S.endTick)

theorem roomy_start (n : Nat) : (start n).Roomy 0 where
  turnaround := ⟨Nat.zero_le _, Nat.le_refl _⟩
  response := ⟨Nat.zero_le _, Nat.le_refl _⟩
  readyWait := ⟨Nat.zero_le _, Nat.le_refl _⟩

variable {S : Lifetimes} {i : Nat} {entries : List (Pid × Lifetime)}

theorem addProcess_ok (h : S.Roomy i) (hend : S.endTick = ms.length) (hl : Whole ms p l)
    (hroom : (i + 1) * S.endTick < tickBound) :
    ∃ S', S.addProcess p l = .ok S' ∧ S'.endTick = S.endTick ∧
      S'.processes = S.processes.insert p { l with readyWait := census p .ready ms } ∧
      S'.Roomy (i + 1) := by
  obtain ⟨hran, hblocked, hresponse, hspan, hstop⟩ := hl
  rw [← hend] at hresponse hspan hstop
  rw [Nat.add_one_mul] at hroom
  have hbound : l.stop S.endTick < tickBound := by omega
  have hspent : l.arrival + (l.ran + l.blocked + census p .ready ms) = l.stop S.endTick := by
    rw [hran, hblocked, ← hspan, spent]
  have hfinish := finish_eq hspent hbound
  have hturnaround : ∀ v ∈ l.turnaround, v ≤ S.endTick := by
    intro v hv
    obtain ⟨e, he, rfl⟩ := Option.map_eq_some_iff.1 hv
    rw [Lifetime.stop_of_exit he] at hstop
    omega
  obtain ⟨d₁, hd₁, hb₁⟩ := h.turnaround.addAll_option hturnaround hroom
  have hready : census p .ready ms ≤ S.endTick := by omega
  obtain ⟨d₃, hd₃, hb₃⟩ := h.readyWait.add hready hroom
  have hkeep : ({ l with readyWait := census p .ready ms } : Lifetime).turnaround =
      l.turnaround := rfl
  have hadd : ∃ d, d.Bounded (i * S.endTick + S.endTick) ∧ S.addProcess p l = .ok { S with
      processes := S.processes.insert p { l with readyWait := census p .ready ms }
      turnaround := d₁
      response := d
      readyWait := d₃ } := by
    simp only [addProcess, hfinish, ok_bind, hkeep, hd₁, hd₃]
    cases hr : l.firstRun with
    | none => exact ⟨S.response, h.response.mono (Nat.le_add_right _ _), rfl⟩
    | some r =>
      obtain ⟨hle, hlt⟩ := hresponse r hr
      have hwait : r - l.arrival ≤ S.endTick := by omega
      obtain ⟨d, hd, hb⟩ := h.response.add hwait hroom
      refine ⟨d, hb, ?_⟩
      simp only [subTicks_eq_ok.2 ⟨hle, rfl⟩, ok_bind, hd]
      rfl
  obtain ⟨d₂, hb₂, hd₂⟩ := hadd
  rw [← Nat.add_one_mul] at hb₁ hb₂ hb₃
  exact ⟨_, hd₂, rfl, rfl, hb₁, hb₂, hb₃⟩

/-- Taking in processes fills in their time in the ready queue. -/
theorem addProcesses_ok (h : S.Roomy i) (hend : S.endTick = ms.length)
    (hall : ∀ e ∈ entries, Whole ms e.1 e.2) (hpids : (entries.map (·.1)).Nodup)
    (hroom : (i + entries.length) * S.endTick < tickBound) :
    ∃ S', addProcesses entries S = .ok S' ∧
      ∀ p, S'.processes.get? p = ((PidMap.find p entries).map fun l =>
        { l with readyWait := census p .ready ms }).or (S.processes.get? p) := by
  induction entries generalizing S i with
  | nil => exact ⟨S, rfl, fun p => rfl⟩
  | cons e entries ih =>
    obtain ⟨p, l⟩ := e
    obtain ⟨hl, hall⟩ := List.forall_mem_cons.1 hall
    obtain ⟨hp, hpids⟩ := List.nodup_cons.1 hpids
    have hlength : i + (entries.length + 1) = i + 1 + entries.length := by omega
    rw [List.length_cons, hlength] at hroom
    have hone : (i + 1) * S.endTick < tickBound :=
      Nat.lt_of_le_of_lt (Nat.mul_le_mul_right _ (Nat.le_add_right _ _)) hroom
    obtain ⟨S₁, hS₁, hend₁, hprocesses, hroomy⟩ := addProcess_ok h hend hl hone
    obtain ⟨S', hS', hget⟩ := ih hroomy (hend₁.trans hend) hall hpids (hend₁ ▸ hroom)
    refine ⟨S', by rw [addProcesses, hS₁]; exact hS', fun q => ?_⟩
    rw [hget, hprocesses, PidMap.get?_insert, PidMap.find]
    split
    · next hpq =>
      rw [← hpq, PidMap.find_eq_none hp]
      rfl
    · rfl

/-- The waits that are not over are counted up to the end of the run. -/
theorem closeBlocked_ok {waits : List (Pid × Nat)} {ps : PidMap Lifetime} (hps : ps.Sorted)
    (hpids : (waits.map (·.1)).Nodup)
    (hroom : ∀ e ∈ waits, ∀ l, ps.get? e.1 = some l → l.blocked + (n - e.2) < tickBound) :
    ∃ ps', closeBlocked n waits ps = .ok ps' ∧ ps'.Sorted ∧ ∀ p, ps'.get? p =
      (ps.get? p).map fun l =>
        { l with blocked := l.blocked + ((PidMap.find p waits).map (n - ·)).getD 0 } := by
  induction waits generalizing ps with
  | nil =>
    refine ⟨ps, rfl, hps, fun p => ?_⟩
    cases ps.get? p <;> rfl
  | cons e waits ih =>
    obtain ⟨p, u⟩ := e
    obtain ⟨hp, hpids⟩ := List.nodup_cons.1 hpids
    obtain ⟨hu, hroom⟩ := List.forall_mem_cons.1 hroom
    have hfind := PidMap.find_eq_none hp
    cases hx : ps.get? p with
    | none =>
      obtain ⟨ps', hps', hsorted, hget⟩ := ih hps hpids hroom
      refine ⟨ps', by rw [closeBlocked, hx]; exact hps', hsorted, fun q => ?_⟩
      rw [hget, PidMap.find]
      split
      · next hpq => rw [← hpq, hx]; rfl
      · rfl
    | some x =>
      have hx' := hu x hx
      have hroom' : ∀ e ∈ waits, ∀ l, (ps.adjust p fun l =>
          { l with blocked := x.blocked + (n - u) }).get? e.1 = some l →
          l.blocked + (n - e.2) < tickBound := by
        intro e he l hl
        have hne : p ≠ e.1 := fun heq => hp (List.mem_map.2 ⟨e, he, heq.symm⟩)
        rw [PidMap.get?_adjust, if_neg hne] at hl
        exact hroom e he l hl
      obtain ⟨ps', hps', hsorted, hget⟩ := ih (hps.adjust _ _) hpids hroom'
      refine ⟨ps', ?_, hsorted, fun q => ?_⟩
      · rw [closeBlocked, hx]
        simp only [addTicks_eq_ok.2 ⟨hx', rfl⟩, ok_bind]
        exact hps'
      · rw [hget, PidMap.get?_adjust, PidMap.find]
        split
        · next hpq =>
          subst hpq
          rw [hx, hfind]
          rfl
        · rfl

end Lifetimes

namespace Simulation

open Lifetimes

variable {T : Tally} {m : Machine}

theorem Ledger.lived (h : Ledger ms T m) (hl : T.processes.get? p = some l) :
    ∃ st, m.status? p = some st ∧ Lived ms p st l (T.blockedSince.get? p) := by
  have hp := h.booked p
  rw [hl] at hp
  generalize m.status? p = o at hp
  cases hp with
  | known hlived => exact ⟨_, rfl, hlived⟩

/-- No wait begins behind the turns so far. -/
theorem Ledger.since_le (h : Ledger ms T m) {e : Pid × Nat} (he : e ∈ T.blockedSince.entries) :
    e.2 ≤ ms.length := by
  have hu := (PidMap.mem_entries h.waits).1 he
  have hp := h.booked e.1
  rw [hu] at hp
  generalize m.status? e.1 = o at hp
  generalize T.processes.get? e.1 = x at hp
  cases hp with
  | known hlived => exact (hlived.asleep _ rfl).2.1

/-- A tally that agrees with the turns can be closed. -/
theorem Ledger.close (h : Ledger ms T m) {pids : List Pid}
    (hpids : ∀ p, m.status? p ≠ none → p ∈ pids)
    (hbound : ms.length < tickBound) (hroom : pids.length * ms.length < tickBound) :
    ∃ ps L, closeBlocked ms.length T.blockedSince.entries T.processes = .ok ps ∧
      addProcesses ps.entries (start ms.length) = .ok L ∧
      ∀ p l, T.processes.get? p = some l → ∃ x, L.processes.get? p = some x ∧
        x.arrival = l.arrival ∧ x.exit = l.exit ∧ x.readyWait = census p .ready ms ∧
        Whole ms p x := by
  have hwaits : ∀ e ∈ T.blockedSince.entries, ∀ l, T.processes.get? e.1 = some l →
      l.blocked + (ms.length - e.2) < tickBound := by
    rintro ⟨p, u⟩ he l hl
    obtain ⟨st, -, hlived⟩ := h.lived hl
    obtain ⟨-, hle, hblocked⟩ := hlived.asleep u ((PidMap.mem_entries h.waits).1 he)
    have hcensus := census_le p .waiting ms
    dsimp only at hblocked ⊢
    omega
  obtain ⟨ps, hps, hsorted, hget⟩ := closeBlocked_ok h.processes h.waits.nodup hwaits
  have hwhole : ∀ p l, ps.get? p = some l →
      Whole ms p l ∧ m.status? p ≠ none := by
    intro p l hl
    rw [hget] at hl
    obtain ⟨x, hx, rfl⟩ := Option.map_eq_some_iff.1 hl
    obtain ⟨st, hst, hlived⟩ := h.lived hx
    exact ⟨hlived.whole, by simp [hst]⟩
  have hlength : ps.entries.length ≤ pids.length :=
    hsorted.length_le fun p l hl => hpids p (hwhole p l hl).2
  have hroom' : (0 + ps.entries.length) * ms.length < tickBound := by
    rw [Nat.zero_add]
    exact Nat.lt_of_le_of_lt (Nat.mul_le_mul_right _ hlength) hroom
  obtain ⟨L, hL, hprocesses⟩ := addProcesses_ok (roomy_start ms.length) rfl
    (fun e he => (hwhole e.1 e.2 ((PidMap.mem_entries hsorted).1 he)).1) hsorted.nodup hroom'
  refine ⟨ps, L, hps, hL, fun p l hl => ?_⟩
  have hx := hget p
  rw [hl, Option.map_some] at hx
  obtain ⟨x, hx, harrival, hexit⟩ : ∃ x, ps.get? p = some x ∧ x.arrival = l.arrival ∧
      x.exit = l.exit := ⟨_, hx, rfl, rfl⟩
  obtain ⟨hran, hblocked, hresponse, hspan, hstop⟩ := (hwhole p x hx).1
  refine ⟨{ x with readyWait := census p .ready ms }, ?_, harrival, hexit, rfl,
    hran, hblocked, hresponse, hspan, hstop⟩
  rw [hprocesses, ← PidMap.get?, hx]
  rfl

end Simulation

end Uniprocessor
