import Uniprocessor.Proofs.Boosts
import Uniprocessor.Proofs.Level
/-
  Inheritance acts through contention only.

  Priority scheduling and priority scheduling with inheritance decide alike and wake alike.  They
  differ in what a request does to the holder that refuses it, and in what a release does to a
  raised priority.  Under priority scheduling nobody is ever raised (`kept_base`), so that at a
  moment of its run at which no request is refused the two do the same (`agree_of_base`).

  As long as no request has failed the one run can therefore follow the other (`Path.followed`), and
  it can follow it through the first request that fails (`first_refusal_kept`), since what
  inheritance does there shows in no event.  What has happened on a path before the tick limit has
  happened in the run (`Path.events_initial`).

  Main statement: `inheritance_acts_through_contention`.
-/

namespace Uniprocessor

/-- Whether a request has failed. -/
def Event.isRefusal : Event → Bool
  | .blocked _ _ => true
  | _ => false

/-- No request has failed. -/
def Uncontended (es : List TraceEvent) : Prop := ∀ e ∈ es, e.event.isRefusal = false

instance (es : List TraceEvent) : Decidable (Uncontended es) :=
  inferInstanceAs (Decidable (∀ e ∈ es, e.event.isRefusal = false))

theorem Event.isRefusal_iff {e : Event} : e.isRefusal = true ↔ ∃ p r, e = .blocked p r := by
  cases e <;> simp [isRefusal]

theorem uncontended_append {es fs : List TraceEvent} :
    Uncontended (es ++ fs) ↔ Uncontended es ∧ Uncontended fs := List.forall_mem_append

/-- Where a request has failed there is a first one. -/
theorem exists_first_refusal {es : List TraceEvent} (h : ¬ Uncontended es) :
    ∃ front t p r rest, es = front ++ ⟨t, .blocked p r⟩ :: rest ∧ Uncontended front := by
  cases hfind : es.find? (·.event.isRefusal) with
  | none => exact absurd (fun e he => by simpa using List.find?_eq_none.1 hfind e he) h
  | some e =>
    obtain ⟨he, front, rest, hes, hfront⟩ := List.find?_eq_some_iff_append.1 hfind
    obtain ⟨p, r, hevent⟩ := Event.isRefusal_iff.1 he
    obtain ⟨t, event⟩ := e
    obtain rfl := hevent
    exact ⟨front, t, p, r, rest, hes, fun f hf => by simpa using hfront f hf⟩

theorem not_prefix_of_uncontended {es front : List TraceEvent} {e : TraceEvent}
    (he : e.event.isRefusal = true) (h : Uncontended es) : ¬ front ++ [e] <+: es := by
  intro hinitial
  have hnone := h e (hinitial.subset (List.mem_append_right _ (List.mem_singleton_self e)))
  rw [he] at hnone
  cases hnone

/-- There is one first failure. -/
theorem first_refusal_unique {es front front' : List TraceEvent} {e e' : TraceEvent}
    (he : e.event.isRefusal = true) (he' : e'.event.isRefusal = true) (hf : Uncontended front)
    (hf' : Uncontended front') (h : front ++ [e] <+: es) (h' : front' ++ [e'] <+: es) :
    front ++ [e] = front' ++ [e'] := by
  rcases List.prefix_or_prefix_of_prefix h h' with hle | hle
  · exact (List.prefix_concat_iff.1 hle).resolve_right (not_prefix_of_uncontended he hf')
  · exact ((List.prefix_concat_iff.1 hle).resolve_right (not_prefix_of_uncontended he' hf)).symm

namespace Protocol

variable {κ μ : Protocol} {m n : Machine} {r : ResourceId} {p : Pid}

/-- Where everybody has its base priority releases differ in the order of waking at most. -/
theorem Releases.of_base {o : Option Pid} (hm : m.Filed) (h : m.All ProcessRecord.AtBase)
    (hκ : μ.wakeOrder = κ.wakeOrder) (hr : κ.Releases m r p n o) : μ.Releases m r p n o := by
  have hsize := ResourceTable.owner?_lt hr.owned
  refine hr.congr ?_ fun v w => by rw [hκ]
  rw [freed_base hm h hsize, freed_base hm h hsize]

/-- A request that fails under one protocol fails under every other. -/
theorem Acquires.blocked_under {o : Pid} (μ : Protocol) (hm : m.Filed)
    (h : κ.Acquires m r p n (.blocked o)) : ∃ n', μ.Acquires m r p n' (.blocked o) := by
  cases h with
  | blocked ho hne hx _ hw =>
    have hknown := Machine.status?_ne_none.1 (hm.owner_alive r o ho).1
    exact ⟨_, .blocked ho hne hx (fun _ => hknown) hw⟩

end Protocol

namespace Simulation

variable {c : Scenario} {s : Strategy} {a b d e : Moment} {i j : Journal} {l : List Activity}

/-- Where no request is refused priority scheduling does as it does with inheritance. -/
theorem agree_of_base (hm : a.machine.Filed) (h : a.machine.All ProcessRecord.AtBase)
    (hfree : ∀ d p r due n o, a.phase = .requesting d p (r :: due) →
      ¬ (Protocol.mutex .priority).Acquires a.machine r p n (.blocked o)) :
    a.Agree .priority .priorityInheritance where
  decide _ d _ hd := ⟨d, hd, rfl⟩
  acquire d p r due n reply hphase ha := by
    cases ha with
    | granted hr ho hx => exact .granted (κ := .inheritance) hr ho hx
    | blocked ho hne hx hk hw =>
      exact absurd (.blocked ho hne hx hk hw) (hfree d p r due _ _ hphase)
  release _ _ _ _ _ _ hr :=
    Protocol.Releases.of_base (κ := .mutex .priority) (μ := .inheritance) hm h rfl hr

theorem Path.at_base (hc : c.Valid) (g : Path .priority (opening c).moment j a) :
    a.machine.All ProcessRecord.AtBase :=
  g.kept hc (kept_base (by decide) rfl)

/-- A request that is refused is a move, which takes no time. -/
theorem exists_refusal {decision : Decision} {p o : Pid} {r : ResourceId} {due : List ResourceId}
    {n : Machine} (hphase : a.phase = .requesting decision p (r :: due))
    (hcur : a.machine.current = some p)
    (h : s.protocol.Acquires a.machine r p n (.blocked o)) :
    ∃ x y b, Move s a [.blocked p r o x y] b ∧ b.machine.tick = a.machine.tick := by
  obtain ⟨φ, m, before, u⟩ := a
  obtain rfl := hphase
  have hn : s.acquire m r = .ok (n, .blocked o) :=
    Strategy.acquire_eq_ok.2 ⟨p, hcur, Protocol.acquire_of_acquires h⟩
  exact ⟨_, _, _, .block hn, h.steady.tick⟩

theorem Phase.Alike.of_requesting {φ φ' : Phase} {decision : Decision} {p : Pid}
    {due : List ResourceId} (h : φ.Alike φ') (hφ : φ = .requesting decision p due) :
    ∃ decision', φ' = .requesting decision' p due := by
  cases h with
  | refl => exact ⟨_, hφ⟩
  | requesting =>
    obtain ⟨-, rfl, rfl⟩ := Phase.requesting.inj hφ
    exact ⟨_, rfl⟩

/-- Until a request fails, the run with inheritance follows the one without. -/
theorem Path.followed (hc : c.Valid) (g : Path .priority (opening c).moment j a)
    (hj : Uncontended j.events) :
    ∃ k a', Path .priorityInheritance (opening c).moment k a' ∧ a.Alike a' ∧
      k.events = j.events := by
  refine Path.refl.answered hc g fun k d l e rest hd hm hrest hsplit => ?_
  have hreg := hd.regular hc
  refine agree_of_base hreg.filed (hd.at_base hc) fun _ p r due n o hphase hblocked => ?_
  -- the path would go on with the refusal
  obtain ⟨x, y, f, hm', -⟩ :=
    exists_refusal (s := .priority) hphase (hreg.requests hphase).2.current hblocked
  obtain ⟨rfl, -⟩ := hm.unique hm'
  rw [hsplit, events_append, events_append, events_stamp] at hj
  have hmove := (uncontended_append.1 (uncontended_append.1 hj).2).1
  cases hmove ⟨d.machine.tick, .blocked p r⟩ (mem_within.2 ⟨rfl, List.mem_singleton_self _⟩)

/-- Where no request fails before the tick limit the strategies do the same. -/
theorem agree_of_uncontended {t : Trace} (hc : c.Valid) (ht : Leaves .priority c t)
    (hfree : Uncontended t.events) : AgreeInTime .priority .priorityInheritance c := by
  intro j a g hlt
  have hreg := g.regular hc
  refine agree_of_base hreg.filed (g.at_base hc) fun _ p r due n o hphase hblocked => ?_
  obtain ⟨x, y, b, hm, htick⟩ :=
    exists_refusal (s := .priority) hphase (hreg.requests hphase).2.current hblocked
  have hinitial := (g.snoc hm).events_initial hc ht (htick ▸ hlt)
  rw [events_snoc] at hinitial
  exact not_prefix_of_uncontended rfl hfree hinitial

/-- The first failure of a run without inheritance is one of the run with it. -/
theorem first_refusal_kept {t u : Trace} {front : List TraceEvent} {k : Nat} {p : Pid}
    {r : ResourceId} (hc : c.Valid) (ht : Leaves .priority c t)
    (hu : Leaves .priorityInheritance c u) (hf : Uncontended front)
    (h : front ++ [⟨k, .blocked p r⟩] <+: t.events) :
    front ++ [⟨k, .blocked p r⟩] <+: u.events := by
  obtain ⟨⟨f, hplay, rfl⟩, -⟩ := ht
  obtain ⟨e, ge, -, hbefore⟩ := exists_last hc hplay
  obtain ⟨rest, hrest⟩ := h
  have hevents : f.journal.events = front ++ ⟨k, .blocked p r⟩ :: rest := by
    rw [List.append_cons]
    exact hrest.symm
  have hlt : k < c.maxTicks := hbefore ⟨k, .blocked p r⟩ (by simp [hevents])
  obtain ⟨d, d', i, o, x, y, tail, rfl, -, hd, rfl, hm, -⟩ := ge.split_blocked hevents
  obtain ⟨j, a, ga, halike, hsame⟩ := hd.followed hc hf
  -- the other run asks for the same, and is refused as well
  obtain ⟨-, decision, due, hphase, hn⟩ := hm.of_blocked (List.mem_singleton_self _)
  have hreg := hd.regular hc
  have hreq := (hreg.requests hphase).2
  obtain ⟨n, hblocked⟩ := (hreq.acquires hn).blocked_under .inheritance hreg.filed
  obtain ⟨decision', hphase'⟩ := halike.phase.of_requesting hphase
  rw [← halike.machine] at hblocked hlt ⊢
  obtain ⟨x', y', b, hm', htick⟩ := exists_refusal (s := .priorityInheritance) hphase'
    (halike.machine ▸ hreq.current) hblocked
  have hinitial := (ga.snoc hm').events_initial hc hu (htick ▸ hlt)
  rwa [events_snoc, hsame] at hinitial

end Simulation

open Simulation

variable {c : Scenario}

/-- Inheritance acts through contention only.  Where no request fails under priority scheduling, it
leaves the same trace with inheritance as without; and where one fails, the two traces are the same
up to the first failure, and have this failure in common. -/
theorem inheritance_acts_through_contention (hc : c.Valid) :
    ∃ t u, Leaves .priority c t ∧ Leaves .priorityInheritance c u ∧
      (Uncontended t.events → u = t) ∧
      ∀ front k p r, Uncontended front →
        (front ++ [⟨k, .blocked p r⟩] <+: t.events ↔
          front ++ [⟨k, .blocked p r⟩] <+: u.events) := by
  obtain ⟨t, ht⟩ := exists_leaves .priority hc
  obtain ⟨u, hu⟩ := exists_leaves .priorityInheritance hc
  have hsame : Uncontended t.events → u = t := fun hfree =>
    (leaves_of_agreeInTime hc (agree_of_uncontended hc ht hfree) ht).unique hu
  refine ⟨t, u, ht, hu, hsame, fun front k p r hf => ⟨first_refusal_kept hc ht hu hf, fun h => ?_⟩⟩
  by_cases hfree : Uncontended t.events
  · rwa [hsame hfree] at h
  · -- the first failure without inheritance is the first one with it
    obtain ⟨front', k', p', r', rest, ht', hf'⟩ := exists_first_refusal hfree
    have hfirst : front' ++ [⟨k', .blocked p' r'⟩] <+: t.events :=
      ⟨rest, by rw [ht', List.append_assoc]; rfl⟩
    rw [first_refusal_unique rfl rfl hf hf' h (first_refusal_kept hc ht hu hf' hfirst)]
    exact hfirst

/-- Two processes that need different resources. -/
def Scenario.polite : Scenario where
  jobs := [
    { pid := ⟨1⟩, name := "low", start := 0, lifespan := 4, priority := 1,
      holds := [{ resource := ⟨0⟩, since := 0, duration := 3 }] },
    { pid := ⟨2⟩, name := "high", start := 1, lifespan := 2, priority := 9,
      holds := [{ resource := ⟨1⟩, since := 0, duration := 1 }] }]
  resourceCount := 2
  limits := .standard
  maxTicks := 20
  audit := true

/-- The more urgent process is refused the resource in the second tick, in which it raises the
holder; without it nobody is refused, and nobody raised. -/
theorem inheritance_acts_through_contention_contended :
    (∃ t u front, Leaves .priority .contended t ∧ Leaves .priorityInheritance .contended u ∧
      front ++ [⟨1, .blocked ⟨2⟩ ⟨0⟩⟩] <+: t.events ∧
      front ++ [⟨1, .blocked ⟨2⟩ ⟨0⟩⟩] <+: u.events ∧
      ⟨1, .priorityChanged ⟨1⟩ 1 9⟩ ∈ u.events ∧ ⟨1, .priorityChanged ⟨1⟩ 1 9⟩ ∉ t.events) ∧
    ∃ t, Leaves .priority .polite t ∧ Leaves .priorityInheritance .polite t ∧
      ⟨1, .acquired ⟨2⟩ ⟨1⟩⟩ ∈ t.events := by
  obtain ⟨t, u, ht, hu, -, hfirst⟩ :=
    inheritance_acts_through_contention (c := .contended) (by decide)
  obtain ⟨hsplit, hfree, hstill⟩ := ht.of_any (fun t =>
    t.events = t.events.take 6 ++ [⟨1, .blocked ⟨2⟩ ⟨0⟩⟩] ++ t.events.drop 7 ∧
      Uncontended (t.events.take 6) ∧ ⟨1, .priorityChanged ⟨1⟩ 1 9⟩ ∉ t.events) (by decide)
  have hraised := hu.of_any (fun u => ⟨1, .priorityChanged ⟨1⟩ 1 9⟩ ∈ u.events) (by decide)
  have hinitial : t.events.take 6 ++ [⟨1, .blocked ⟨2⟩ ⟨0⟩⟩] <+: t.events := ⟨_, hsplit.symm⟩
  obtain ⟨t', u', ht', hu', hsame, -⟩ :=
    inheritance_acts_through_contention (c := .polite) (by decide)
  obtain ⟨hfree', hgain⟩ := ht'.of_any (fun t =>
    Uncontended t.events ∧ ⟨1, .acquired ⟨2⟩ ⟨1⟩⟩ ∈ t.events) (by decide)
  exact ⟨⟨t, u, _, ht, hu, hinitial, (hfirst _ 1 ⟨2⟩ ⟨0⟩ hfree).1 hinitial, hraised, hstill⟩,
    t', ht', hsame hfree' ▸ hu', hgain⟩

end Uniprocessor
