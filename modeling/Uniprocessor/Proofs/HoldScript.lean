import Mathlib.Data.List.Sort
import Uniprocessor.Proofs.Ages
/-
  The hold script is played faithfully and exclusively.

  `Scenario.script` is what a process is to do with a resource: its holds of it, the earliest
  first.  `usesFrom` reads off a trace what the process does with it: each grant and each release,
  with the age at which it happens.  `Played` is the invariant that ties the two.  The process is
  either between two holds of its script or within one of them, and its uses so far are those of
  the holds before.  `Played.move` is the step and `Path.played` the run.

  Proved: `holds_played`.
-/

namespace Uniprocessor

/-- What a process does with a resource, and at which age. -/
inductive Use where
  | taken (age : Nat)
  | given (age : Nat)
  deriving DecidableEq

/-- The uses that a hold asks for. -/
def Hold.uses (h : Hold) : List Use := [.taken h.since, .given h.stop]

/-- The hold that begins first comes first. -/
def Hold.Sooner (a b : Hold) : Prop := a.since ≤ b.since

instance : DecidableRel Hold.Sooner := fun a b => inferInstanceAs (Decidable (a.since ≤ b.since))

instance : Std.Total Hold.Sooner := ⟨fun a b => Nat.le_total a.since b.since⟩

instance : IsTrans Hold Hold.Sooner := ⟨fun _ _ _ => Nat.le_trans⟩

/-- The holds of the process named `p`. -/
def Scenario.holdsOf (c : Scenario) (p : Pid) : List Hold :=
  (c.jobs.filter fun j => j.pid = p).flatMap (·.holds)

/-- The holds of `p` that are of `r`, the earliest first. -/
def Scenario.script (c : Scenario) (p : Pid) (r : ResourceId) : List Hold :=
  ((c.holdsOf p).filter fun h => h.resource = r).insertionSort Hold.Sooner

/-- What an event says of the use that `p` makes of `r` at the age `n`. -/
def Event.use? (p : Pid) (r : ResourceId) (n : Nat) : Event → Option Use
  | .acquired q t => if q = p ∧ t = r then some (.taken n) else none
  | .released q t => if q = p ∧ t = r then some (.given n) else none
  | _ => none

/-- The uses that `p` makes of `r` in `es`, if its age is `n` before. -/
def usesFrom (p : Pid) (r : ResourceId) : Nat → List TraceEvent → List Use
  | _, [] => []
  | n, e :: es => (e.event.use? p r n).toList ++ usesFrom p r (ageAfter p n [e]) es

/-- The owner of `r` behind an event, if it was `o` before. -/
def Event.ownerAfter (r : ResourceId) (o : Option Pid) : Event → Option Pid
  | .acquired p t => if t = r then some p else o
  | .released _ t => if t = r then none else o
  | _ => o

/-- The owner of `r` behind `es`. -/
def ownerAfter (r : ResourceId) (es : List TraceEvent) : Option Pid :=
  (es.map (·.event)).foldl (Event.ownerAfter r) none

variable {p q : Pid} {r : ResourceId} {n : Nat} {es fs : List TraceEvent} {c : Scenario}

/-! ## Scripts -/

/-- A job is the only one of its pid. -/
theorem Scenario.filter_pid (hc : c.Sound) {j : Job} (hj : j ∈ c.jobs) :
    (c.jobs.filter fun k => k.pid = j.pid) = [j] := by
  have hpids : c.jobs.Pairwise fun a b => a.pid ≠ b.pid := List.pairwise_map.1 hc.pids
  obtain ⟨pre, post, hjobs⟩ := List.append_of_mem hj
  rw [hjobs] at hpids ⊢
  obtain ⟨-, hpost, hpre⟩ := List.pairwise_append.1 hpids
  have hfront : (pre.filter fun k => k.pid = j.pid) = [] := by
    refine List.filter_eq_nil_iff.2 fun k hk => ?_
    simpa using hpre k hk j List.mem_cons_self
  have hback : (post.filter fun k => k.pid = j.pid) = [] := by
    refine List.filter_eq_nil_iff.2 fun k hk => ?_
    simpa using Ne.symm ((List.pairwise_cons.1 hpost).1 k hk)
  rw [List.filter_append, List.filter_cons_of_pos (by simp), hfront, hback]
  rfl

theorem Scenario.holdsOf_job (hc : c.Sound) {j : Job} (hj : j ∈ c.jobs) :
    c.holdsOf j.pid = j.holds := by
  rw [holdsOf, filter_pid hc hj, List.flatMap_singleton]

theorem Scenario.job_of_holdsOf {h : Hold} (hh : h ∈ c.holdsOf p) :
    ∃ j ∈ c.jobs, j.pid = p ∧ h ∈ j.holds := by
  obtain ⟨j, hj, hh⟩ := List.mem_flatMap.1 hh
  obtain ⟨hj, hp⟩ := List.mem_filter.1 hj
  exact ⟨j, hj, of_decide_eq_true hp, hh⟩

theorem Scenario.mem_script {h : Hold} :
    h ∈ c.script p r ↔ h ∈ c.holdsOf p ∧ h.resource = r := by
  rw [script, List.mem_insertionSort, List.mem_filter, decide_eq_true_eq]

theorem Scenario.mem_script_of_eq {done rest : List Hold} {h : Hold}
    (hs : c.script p r = done ++ h :: rest) : h ∈ c.script p r ∧ h.resource = r := by
  have hh : h ∈ c.script p r := hs ▸ List.mem_append_right _ List.mem_cons_self
  exact ⟨hh, (mem_script.1 hh).2⟩

theorem Scenario.since_lt_stop (hc : c.Sound) {h : Hold} (hh : h ∈ c.script p r) :
    h.since < h.stop := by
  obtain ⟨j, hj, -, hmem⟩ := job_of_holdsOf (mem_script.1 hh).1
  exact ((hc.jobs j hj).fits h hmem).since_lt

/-- Two holds of a script share no age. -/
theorem Scenario.script_apart (hc : c.Sound) : (c.script p r).Pairwise Hold.Apart := by
  have hholds : (c.holdsOf p).Pairwise fun a b => a.resource = b.resource → a.Apart b := by
    cases hp : c.holdsOf p with
    | nil => exact .nil
    | cons h l =>
      obtain ⟨j, hj, rfl, -⟩ := job_of_holdsOf (hp ▸ List.mem_cons_self)
      rw [← hp, holdsOf_job hc hj]
      exact (hc.jobs j hj).apart
  have hfilter : ((c.holdsOf p).filter fun h => h.resource = r).Pairwise Hold.Apart := by
    refine (hholds.filter _).imp_of_mem fun ha hb hab => hab ?_
    rw [of_decide_eq_true (List.mem_filter.1 ha).2, of_decide_eq_true (List.mem_filter.1 hb).2]
  exact (List.perm_insertionSort Hold.Sooner _).symm.pairwise hfilter Hold.Apart.symm

/-- Each hold of a script ends before the next one begins. -/
theorem Scenario.script_ordered (hc : c.Sound) :
    (c.script p r).Pairwise fun a b => a.stop ≤ b.since := by
  have hsorted : (c.script p r).Pairwise Hold.Sooner := List.pairwise_insertionSort Hold.Sooner _
  refine (hsorted.and (script_apart hc)).imp_of_mem fun ha hb hab => ?_
  have hlt := since_lt_stop hc ha
  have hlt' := since_lt_stop hc hb
  obtain ⟨hle, hap⟩ := hab
  unfold Hold.Sooner at hle
  unfold Hold.Apart at hap
  omega

/-- Two holds of a script with an age in common are the same. -/
theorem Scenario.script_unique (hc : c.Sound) {h k : Hold} (hh : h ∈ c.script p r)
    (hk : k ∈ c.script p r) (hap : ¬ h.Apart k) : h = k :=
  (eq_or_of_pairwise (fun _ _ => Hold.Apart.symm) (script_apart hc) hh hk).resolve_right hap

/-- The hold that begins now is the first of those that are to come. -/
theorem Scenario.script_next (hc : c.Sound) {done rest : List Hold} {g : Hold}
    (hs : c.script p r = done ++ rest) (hpast : ∀ h ∈ done, h.stop ≤ n)
    (hfuture : ∀ h ∈ rest, n ≤ h.since) (hg : g ∈ c.script p r) (hn : g.since = n) :
    ∃ later, rest = g :: later := by
  have hlt := since_lt_stop hc hg
  have hrest : g ∈ rest := by
    rw [hs] at hg
    refine (List.mem_append.1 hg).resolve_left fun hg => ?_
    have hstop := hpast g hg
    omega
  obtain ⟨pre, later, rfl⟩ := List.append_of_mem hrest
  have hordered := script_ordered (p := p) (r := r) hc
  rw [hs] at hordered
  obtain ⟨-, -, hearlier⟩ := List.pairwise_append.1 (List.pairwise_append.1 hordered).2.1
  -- what is to begin before `g` would be over by now
  have hpre : pre = [] := by
    refine List.eq_nil_iff_forall_not_mem.2 fun h hh => ?_
    have hle := hfuture h (List.mem_append_left _ hh)
    have hstop := hearlier h hh g List.mem_cons_self
    have hlt : h.since < h.stop := since_lt_stop (p := p) (r := r) hc (by simp [hs, hh])
    omega
  exact ⟨later, by rw [hpre, List.nil_append]⟩

/-- A grant and the release behind it are the two uses of one hold. -/
theorem hold_of_uses {pre post : List Use} {hs : List Hold} {k : Nat}
    (h : pre ++ .taken n :: .given k :: post <+: hs.flatMap Hold.uses) :
    ∃ g ∈ hs, g.since = n ∧ g.stop = k := by
  induction hs generalizing pre with
  | nil =>
    have hnil := List.prefix_nil.1 h
    simp at hnil
  | cons g hs ih =>
    rw [List.flatMap_cons, Hold.uses] at h
    match pre with
    | [] =>
      obtain ⟨hn, h⟩ := List.cons_prefix_cons.1 h
      obtain ⟨hk, -⟩ := List.cons_prefix_cons.1 h
      exact ⟨g, List.mem_cons_self, (Use.taken.inj hn).symm, (Use.given.inj hk).symm⟩
    | [u] =>
      obtain ⟨-, h⟩ := List.cons_prefix_cons.1 h
      obtain ⟨hn, -⟩ := List.cons_prefix_cons.1 h
      cases hn
    | u :: v :: pre =>
      obtain ⟨-, h⟩ := List.cons_prefix_cons.1 h
      obtain ⟨-, h⟩ := List.cons_prefix_cons.1 h
      obtain ⟨g', hg, hgn⟩ := ih h
      exact ⟨g', List.mem_cons_of_mem _ hg, hgn⟩

/-! ## Uses in traces -/

theorem usesFrom_append :
    usesFrom p r n (es ++ fs) = usesFrom p r n es ++ usesFrom p r (ageAfter p n es) fs := by
  induction es generalizing n with
  | nil => rfl
  | cons e es ih =>
    have hage : ageAfter p n ([e] ++ es) = ageAfter p (ageAfter p n [e]) es := ageAfter_append
    rw [List.singleton_append] at hage
    rw [List.cons_append, usesFrom, usesFrom, ih, List.append_assoc, hage]

theorem usesFrom_acquired {t : Nat} :
    usesFrom p r n (⟨t, .acquired p r⟩ :: es) = .taken n :: usesFrom p r n es := by
  have huse : Event.use? p r n (.acquired p r) = some (.taken n) := if_pos ⟨rfl, rfl⟩
  rw [usesFrom, huse]
  rfl

theorem usesFrom_released {t : Nat} :
    usesFrom p r n (⟨t, .released p r⟩ :: es) = .given n :: usesFrom p r n es := by
  have huse : Event.use? p r n (.released p r) = some (.given n) := if_pos ⟨rfl, rfl⟩
  rw [usesFrom, huse]
  rfl

/-- Events that neither grant nor release `r` to `p` do not show in its uses. -/
theorem usesFrom_eq_nil (h : ∀ e ∈ es, e.event ≠ .acquired p r ∧ e.event ≠ .released p r) :
    usesFrom p r n es = [] := by
  induction es generalizing n with
  | nil => rfl
  | cons e es ih =>
    obtain ⟨⟨hgain, hgive⟩, hes⟩ := List.forall_mem_cons.1 h
    have huse : e.event.use? p r n = none := by
      cases he : e.event with
      | acquired q t => simpa [Event.use?, he] using hgain
      | released q t => simpa [Event.use?, he] using hgive
      | _ => rfl
    rw [usesFrom, huse, ih hes]
    rfl

/-- Events that neither grant nor release `r` do not change its owner. -/
theorem foldl_ownerAfter {o : Option Pid} {es : List Event}
    (h : ∀ e ∈ es, ∀ p, e ≠ .acquired p r ∧ e ≠ .released p r) :
    es.foldl (Event.ownerAfter r) o = o := by
  induction es with
  | nil => rfl
  | cons e es ih =>
    obtain ⟨he, hes⟩ := List.forall_mem_cons.1 h
    have hkeep : Event.ownerAfter r o e = o := by
      cases e with
      | acquired q t => exact if_neg fun htr : t = r => (he q).1 (by rw [htr])
      | released q t => exact if_neg fun htr : t = r => (he q).2 (by rw [htr])
      | _ => rfl
    rw [List.foldl_cons, hkeep, ih hes]

namespace Simulation

variable {s : Strategy} {a b : Moment} {l : List Activity} {j : Journal} {us : List Use}
variable {t k : Nat} {h : Hold} {due : List ResourceId}

/-! ## Owners in runs -/

/-- The owner that the trace of a run says is the owner. -/
theorem Path.ownerAfter_events (hc : c.Valid) (g : Path s (opening c).moment j b) :
    ownerAfter r j.events = b.machine.resources.owner? r := by
  induction g with
  | refl => exact (ResourceTable.owner?_ofSize _ _).symm
  | @snoc d e j l g hm ih =>
    have hevents : (within d.machine.tick (eventsOf l)).map (·.event) = eventsOf l := by
      rw [within, List.map_map]
      exact List.map_id _
    rw [ownerAfter] at ih
    rw [events_snoc, ownerAfter, List.map_append, List.foldl_append, ih, hevents]
    rcases owner_move (g.regular hc) hm r with ⟨hkeep, ho⟩ | ⟨hes, -, ho⟩ | @⟨q, w, hes, -, ho⟩
    · rw [ho, foldl_ownerAfter hkeep]
    · rw [hes, ho]
      exact if_pos rfl
    · rw [hes, ho]
      have hfree : Event.ownerAfter r (d.machine.resources.owner? r) (.released q r) = none :=
        if_pos rfl
      rw [List.foldl_cons, hfree]
      cases w <;> rfl

/-- What the record of a process says of its holds. -/
theorem holds_of_record (hc : c.Sound) {back : Option (Pid × List ResourceId)} {m : Machine}
    {x : ProcessRecord} (hs : Scripted c back m) (hx : m.process? p = some x) :
    x.holds = c.holdsOf p := by
  obtain ⟨j, hj, rfl, -, -, hholds⟩ := (hs.plays p x hx).job
  rw [Scenario.holdsOf_job hc hj, hholds]

/-! ## What a process is about to give back -/

/-- What is due stays due until it is given back. -/
theorem Move.back_kept (hm : Move s a l b) (ha : a.phase.back = some (p, due)) (hr : r ∈ due)
    (hl : .released p r ∉ l) : ∃ due', b.phase.back = some (p, due') ∧ r ∈ due' := by
  cases hm with
  | @release _ _ _ q t o _ _ _ =>
    obtain ⟨rfl, rfl⟩ := Prod.mk.inj (Option.some.inj ha)
    have hne : r ≠ t := by
      rintro rfl
      cases o <;> exact hl List.mem_cons_self
    exact ⟨_, rfl, (List.mem_cons.1 hr).resolve_left hne⟩
  | remain | exit =>
    obtain ⟨rfl, rfl⟩ := Prod.mk.inj (Option.some.inj ha)
    cases hr
  | arrive | begin | idle | dispatch | grant | block | run | close => cases ha

/-- Nothing gets due but by running. -/
theorem Move.back_old (hm : Move s a l b) (hb : b.phase.back = some (p, due))
    (hl : ∀ n, .ran p n ∉ l) : ∃ due', a.phase.back = some (p, due') := by
  cases hm with
  | run =>
    obtain ⟨rfl, -⟩ := Prod.mk.inj (Option.some.inj hb)
    exact absurd (List.mem_singleton_self _) (hl _)
  | release =>
    obtain ⟨rfl, -⟩ := Prod.mk.inj (Option.some.inj hb)
    exact ⟨_, rfl⟩
  | arrive | begin | idle | dispatch | grant | block | remain | exit | close => cases hb

/-- A process that has run is to give back what its holds end with at its new age. -/
theorem back_of_ran (hc : c.Valid) (hreg : a.Regular c) (hm : Move s a l b) (hl : .ran p n ∈ l)
    (hh : h ∈ c.holdsOf p) (hstop : h.stop = n) :
    ∃ due, b.phase.back = some (p, due) ∧ h.resource ∈ due := by
  obtain ⟨-, d, -, due, x, hphase, hx, hdue⟩ := hm.of_ran hl
  obtain ⟨-, hage⟩ := ageOf_ran hm hl
  have hscripted := (hreg.move hc hm).scripted
  obtain ⟨due', hdue', -, hiff⟩ := (hscripted.plays p x hx).releasesDue hc.sound hc.inRange
  obtain rfl := Except.ok.inj (hdue.symm.trans hdue')
  rw [Machine.ageOf_of hx, ← hstop] at hage
  rw [← holds_of_record hc.sound hscripted hx] at hh
  exact ⟨due, by rw [hphase]; rfl, (hiff _).2 ⟨h, hh, rfl, hage.symm⟩⟩

/-! ## The script in play -/

/-- The process `p` is within its hold `h`: it has not reached the end, or is about to give the
resource back. -/
structure Amid (a : Moment) (p : Pid) (h : Hold) : Prop where
  owned : a.machine.resources.owner? h.resource = some p
  begun : h.since ≤ a.machine.ageOf p
  fresh : a.machine.ageOf p = h.since → ∀ due, a.phase.back ≠ some (p, due)
  lasts : a.machine.ageOf p ≤ h.stop
  ends : a.machine.ageOf p = h.stop → ∃ due, a.phase.back = some (p, due) ∧ h.resource ∈ due

/-- How far `p` is in its script for `r` when it has made the uses `us`. -/
inductive Played (c : Scenario) (p : Pid) (r : ResourceId) (us : List Use) (a : Moment) : Prop
  | between {done rest : List Hold} : c.script p r = done ++ rest → us = done.flatMap Hold.uses →
      a.machine.resources.owner? r ≠ some p → (∀ h ∈ done, h.stop ≤ a.machine.ageOf p) →
      (∀ h ∈ rest, a.machine.ageOf p ≤ h.since) → Played c p r us a
  | amid {done rest : List Hold} {h : Hold} : c.script p r = done ++ h :: rest →
      us = done.flatMap Hold.uses ++ [.taken h.since] → Amid a p h → Played c p r us a

theorem Amid.stay (hreg : a.Regular c) (hm : Move s a l b) (hran : ∀ n, .ran p n ∉ l)
    (hgain : ∀ k, .acquired p h.resource k ∉ l) (hgive : .released p h.resource ∉ l)
    (ha : Amid a p h) : Amid b p h where
  owned := (owns_move hreg hm hgain hgive).2 ha.owned
  begun := by
    rw [ageOf_move hm hran]
    exact ha.begun
  fresh hage due hb := by
    rw [ageOf_move hm hran] at hage
    obtain ⟨due', hback⟩ := hm.back_old hb hran
    exact ha.fresh hage due' hback
  lasts := by
    rw [ageOf_move hm hran]
    exact ha.lasts
  ends hage := by
    rw [ageOf_move hm hran] at hage
    obtain ⟨due, hback, hr⟩ := ha.ends hage
    exact hm.back_kept hback hr hgive

theorem owns_ran (hreg : a.Regular c) (hm : Move s a l b) (hl : .ran q n ∈ l) :
    b.machine.resources.owner? r = some p ↔ a.machine.resources.owner? r = some p := by
  obtain ⟨rfl, -⟩ := hm.of_ran hl
  exact owns_move hreg hm (by simp) (by simp)

/-- A process grows older within a hold. -/
theorem Amid.grow (hc : c.Valid) (hreg : a.Regular c) (hm : Move s a l b) (hl : .ran p n ∈ l)
    (hh : h ∈ c.script p r) (ha : Amid a p h) : Amid b p h := by
  obtain ⟨-, d, hphase, -⟩ := hm.of_ran hl
  obtain ⟨hn, hage⟩ := ageOf_ran hm hl
  have hbegun := ha.begun
  have hlasts := ha.lasts
  have hends : a.machine.ageOf p ≠ h.stop := fun hstop => by
    obtain ⟨_, hback, -⟩ := ha.ends hstop
    rw [hphase] at hback
    cases hback
  refine ⟨(owns_ran hreg hm hl).2 ha.owned, by omega, by omega, by omega, fun hstop => ?_⟩
  exact back_of_ran hc hreg hm hl (Scenario.mem_script.1 hh).1 (hstop.symm.trans hage)

/-- A process that is to hold `r` from now on takes it for the next hold of its script. -/
theorem Played.take (hc : c.Valid) (hreg : a.Regular c) (hm : Move s a l b)
    (hl : .acquired p r k ∈ l) (h : Played c p r us a) :
    Played c p r (us ++ [.taken (a.machine.ageOf p)]) b := by
  obtain ⟨hsingle, d, due, hphase, hphase', hn⟩ := hm.of_acquired hl
  have hran : ∀ n, .ran p n ∉ l := fun n hran => by
    rw [hsingle] at hran
    cases List.mem_singleton.1 hran
  have hage : b.machine.ageOf p = a.machine.ageOf p := ageOf_move hm hran
  obtain ⟨hscripted, hreq⟩ := hreg.requests hphase
  obtain ⟨x, hx⟩ := Machine.exists_record hreq.running
  obtain ⟨hfree, g, hg, hgr, hsince⟩ := hreq.asked hx List.mem_cons_self
  rw [holds_of_record hc.sound hscripted hx] at hg
  rw [← Machine.ageOf_of hx] at hsince
  have hscript : g ∈ c.script p r := Scenario.mem_script.2 ⟨hg, hgr⟩
  have hlt := Scenario.since_lt_stop hc.sound hscript
  rcases h with @⟨done, rest, hdone, hus, -, hpast, hfuture⟩ | ⟨hdone, -, ham⟩
  · obtain ⟨later, rfl⟩ := Scenario.script_next hc.sound hdone hpast hfuture hscript hsince
    refine .amid hdone ?_ ⟨?_, ?_, ?_, ?_, ?_⟩
    · rw [hus, hsince]
    · rw [hgr]
      exact owner_of_gained hreg hm hl
    · omega
    · intro _ due' hback
      rw [hphase'] at hback
      cases hback
    · omega
    · omega
  · obtain ⟨-, hr⟩ := Scenario.mem_script_of_eq hdone
    have howned := ham.owned
    rw [hr] at howned
    exact absurd howned hfree

/-- A process gives `r` back at the end of the hold that it is within. -/
theorem Played.give (hc : c.Valid) (hreg : a.Regular c) (hm : Move s a l b)
    (hl : .released p r ∈ l) (h : Played c p r us a) :
    Played c p r (us ++ [.given (a.machine.ageOf p)]) b := by
  obtain ⟨⟨o, hentries⟩, due, hphase⟩ := hm.of_released hl
  have hran : ∀ n, .ran p n ∉ l := fun n => by
    rw [hentries]
    simp [releaseEntries]
  have hage : b.machine.ageOf p = a.machine.ageOf p := ageOf_move hm hran
  obtain ⟨hscripted, hret⟩ := hreg.returns hphase
  obtain ⟨x, hx⟩ := Machine.exists_record hret.running
  obtain ⟨howned, g, hg, hgr, hstop⟩ := hret.given x hx r List.mem_cons_self
  rw [holds_of_record hc.sound hscripted hx] at hg
  rw [← Machine.ageOf_of hx] at hstop
  rcases h with ⟨-, -, hfree, -, -⟩ | @⟨done, rest, h, hdone, hus, ham⟩
  · exact absurd howned hfree
  · have hbegun := ham.begun
    have hlasts := ham.lasts
    have hfresh : a.machine.ageOf p ≠ h.since := fun heq => ham.fresh heq (r :: due) (by
      rw [hphase]
      rfl)
    have hg : g ∈ c.script p r := Scenario.mem_script.2 ⟨hg, hgr⟩
    obtain ⟨hh, -⟩ := Scenario.mem_script_of_eq hdone
    have hlt := Scenario.since_lt_stop hc.sound hg
    -- the hold that ends now and the one that `p` is within have the last tick in common
    obtain rfl : h = g := by
      refine Scenario.script_unique hc.sound hh hg fun hap => ?_
      unfold Hold.Apart at hap
      omega
    have hordered := Scenario.script_ordered (c := c) (p := p) (r := r) hc.sound
    rw [hdone] at hordered
    obtain ⟨-, hlater, hearlier⟩ := List.pairwise_append.1 hordered
    have hsplit : c.script p r = (done ++ [h]) ++ rest := by
      rw [hdone, List.append_assoc]
      rfl
    refine .between hsplit ?_ ?_ ?_ ?_
    · rw [hus, List.flatMap_append, List.append_assoc, ← hstop]
      rfl
    · rw [owner_of_given hreg hm hl]
      simp
    · intro k hk
      rw [hage]
      rcases List.mem_append.1 hk with hk | hk
      · have hle := hearlier k hk h List.mem_cons_self
        omega
      · rw [List.mem_singleton.1 hk]
        omega
    · intro k hk
      rw [hage, ← hstop]
      exact (List.pairwise_cons.1 hlater).1 k hk

/-- A tick of CPU time takes no process past the beginning of a hold of `r` without `r`. -/
theorem Played.grow (hc : c.Valid) (hreg : a.Regular c) (hm : Move s a l b)
    (hl : .ran p n ∈ l) (h : Played c p r us a) : Played c p r us b := by
  obtain ⟨-, d, hphase, -⟩ := hm.of_ran hl
  obtain ⟨hn, hage⟩ := ageOf_ran hm hl
  obtain ⟨hscripted, hreq⟩ := hreg.requests hphase
  obtain ⟨x, hx⟩ := Machine.exists_record hreq.running
  rcases h with @⟨done, rest, hdone, hus, hfree, hpast, hfuture⟩ | ⟨hdone, hus, ham⟩
  · refine .between hdone hus ?_ ?_ ?_
    · rwa [ne_eq, owns_ran hreg hm hl]
    · intro h hh
      have hle := hpast h hh
      omega
    · intro h hh
      have hle := hfuture h hh
      obtain ⟨hmem, hr⟩ := Scenario.mem_script.1 (hdone ▸ List.mem_append_right _ hh)
      rw [← holds_of_record hc.sound hscripted hx] at hmem
      -- a process that runs has got all that it is to hold from its present age on
      have hne : h.since ≠ a.machine.ageOf p := fun heq => by
        rw [Machine.ageOf_of hx] at heq
        have ho := (hreq.rest hx hmem heq).resolve_right List.not_mem_nil
        rw [hr] at ho
        exact hfree ho
      omega
  · obtain ⟨hh, -⟩ := Scenario.mem_script_of_eq hdone
    exact .amid hdone hus (ham.grow hc hreg hm hl hh)

theorem Played.stay (hreg : a.Regular c) (hm : Move s a l b) (hran : ∀ n, .ran p n ∉ l)
    (hgain : ∀ k, .acquired p r k ∉ l) (hgive : .released p r ∉ l) (h : Played c p r us a) :
    Played c p r us b := by
  have hage : b.machine.ageOf p = a.machine.ageOf p := ageOf_move hm hran
  rcases h with ⟨hdone, hus, hfree, hpast, hfuture⟩ | ⟨hdone, hus, ham⟩
  · refine .between hdone hus ?_ ?_ ?_
    · rw [ne_eq, owns_move hreg hm hgain hgive]
      exact hfree
    · rwa [hage]
    · rwa [hage]
  · obtain ⟨-, rfl⟩ := Scenario.mem_script_of_eq hdone
    exact .amid hdone hus (ham.stay hreg hm hran hgain hgive)

theorem Played.move (hc : c.Valid) (hreg : a.Regular c) (hm : Move s a l b)
    (h : Played c p r us a) :
    Played c p r (us ++ usesFrom p r (a.machine.ageOf p) (within t (eventsOf l))) b := by
  by_cases hgain : ∃ k, .acquired p r k ∈ l
  · obtain ⟨k, hl⟩ := hgain
    obtain ⟨rfl, -⟩ := hm.of_acquired hl
    have huse : usesFrom p r (a.machine.ageOf p) (within t (eventsOf [.acquired p r k])) =
        [.taken (a.machine.ageOf p)] := usesFrom_acquired
    rw [huse]
    exact h.take hc hreg hm hl
  by_cases hgive : .released p r ∈ l
  · obtain ⟨⟨o, rfl⟩, -⟩ := hm.of_released hgive
    have huse : usesFrom p r (a.machine.ageOf p)
        (within t (eventsOf (releaseEntries p r o (leaver? a.machine b.machine r)))) =
        [.given (a.machine.ageOf p)] := by
      rw [events_released]
      refine usesFrom_released.trans (congrArg _ (usesFrom_eq_nil ?_))
      cases leaver? a.machine b.machine r with
      | none => nofun
      | some w =>
        intro e he
        rw [List.mem_singleton.1 he]
        simp
    rw [huse]
    exact h.give hc hreg hm hgive
  have huse : usesFrom p r (a.machine.ageOf p) (within t (eventsOf l)) = [] := by
    refine usesFrom_eq_nil fun e he => ⟨fun heq => ?_, fun heq => ?_⟩
    · exact hgain (acquired_mem_eventsOf.1 (heq ▸ (mem_within.1 he).2))
    · exact hgive (released_mem_eventsOf.1 (heq ▸ (mem_within.1 he).2))
  rw [huse, List.append_nil]
  by_cases hran : ∃ n, .ran p n ∈ l
  · obtain ⟨n, hl⟩ := hran
    exact h.grow hc hreg hm hl
  · exact h.stay hreg hm (not_exists.1 hran) (not_exists.1 hgain) hgive

/-- At every moment of a run every process is somewhere in its script for every resource. -/
theorem Path.played (hc : c.Valid) (g : Path s (opening c).moment j b) (p : Pid) (r : ResourceId) :
    Played c p r (usesFrom p r 0 j.events) b := by
  induction g with
  | refl =>
    have hfree : (opening c).moment.machine.resources.owner? r = none :=
      ResourceTable.owner?_ofSize _ _
    refine .between (List.nil_append _).symm rfl ?_ (fun h hh => absurd hh List.not_mem_nil) ?_
    · rw [hfree]
      simp
    · intro h hh
      rw [ageOf_opening]
      exact Nat.zero_le _
  | @snoc d e j l g hm ih =>
    rw [events_snoc, usesFrom_append, g.ageAfter_run]
    exact ih.move hc (g.regular hc) hm

/-! ## What the trace shows -/

/-- Between two grants of a resource it is released. -/
theorem Path.released_between (hc : c.Valid) {pre mid post : List TraceEvent} {u : Nat}
    (g : Path s (opening c).moment j b)
    (hj : j.events = pre ++ ⟨t, .acquired p r⟩ :: (mid ++ ⟨u, .acquired q r⟩ :: post)) :
    ∃ v, ⟨v, .released p r⟩ ∈ mid := by
  obtain ⟨d, f, i, k, rest, -, hpost, hd, -, hm, hrest⟩ := g.split_acquired hj
  have hf : f.Regular c := (hd.regular hc).move hc hm
  have ho : f.machine.resources.owner? r = some p :=
    owner_of_gained (hd.regular hc) hm (List.mem_singleton_self _)
  obtain ⟨d', f', i', k', rest', hmid, -, hd', -, hm', -⟩ := hrest.split_acquired hpost.symm
  refine Classical.byContradiction fun hno => ?_
  rw [hmid] at hno
  have ho' := Path.owner_kept hc hf hd' ho (not_exists.1 hno)
  rw [free_of_gained (hf.path hc hd') hm' (List.mem_singleton_self _)] at ho'
  cases ho'

/-- The uses so far are the first of those that the script asks for. -/
theorem Played.uses_of_script (h : Played c p r us a) :
    us <+: (c.script p r).flatMap Hold.uses := by
  rcases h with ⟨hdone, hus, -⟩ | @⟨done, rest, h, hdone, hus, -⟩
  · rw [hdone, hus, List.flatMap_append]
    exact List.prefix_append _ _
  · rw [hdone, hus, List.flatMap_append, List.flatMap_cons, Hold.uses]
    exact (List.prefix_append_right_inj _).2 (List.prefix_append [Use.taken h.since] _)

/-- When a run ends normally all scripts have been played to their ends. -/
theorem Path.all_played {ran : Bool} (hc : c.Valid) (g : Path s (opening c).moment j b)
    (hover : Over ran b.pending b.machine) (p : Pid) (r : ResourceId) :
    usesFrom p r 0 j.events = (c.script p r).flatMap Hold.uses := by
  have ended : ∀ h ∈ c.script p r, ∃ k ∈ c.jobs, k.pid = p ∧ h.stop ≤ k.lifespan ∧
      b.machine.status? p = some .terminated := by
    intro h hh
    obtain ⟨k, hk, rfl, hmem⟩ := Scenario.job_of_holdsOf (Scenario.mem_script.1 hh).1
    exact ⟨k, hk, rfl, ((hc.sound.jobs k hk).fits h hmem).ends, g.all_terminated hc hover hk⟩
  rcases g.played hc p r with @⟨done, rest, hdone, hus, -, -, hfuture⟩ | ⟨hdone, -, ham⟩
  · cases rest with
    | nil => rw [hus, hdone, List.append_nil]
    | cons h rest =>
      -- a hold that is still to come would begin when the lifespan is over
      obtain ⟨hh, -⟩ := Scenario.mem_script_of_eq hdone
      obtain ⟨k, hk, rfl, hstop, hend⟩ := ended h hh
      have hage := g.age_terminated hc hk hend
      have hle := hfuture h List.mem_cons_self
      have hlt := Scenario.since_lt_stop hc.sound hh
      omega
  · obtain ⟨hh, -⟩ := Scenario.mem_script_of_eq hdone
    obtain ⟨k, hk, rfl, -, hend⟩ := ended _ hh
    exact absurd hend ((g.regular hc).filed.owner_alive _ _ ham.owned).2

/-- A process releases in the tick in which it has run. -/
theorem Path.ran_before {pre post : List TraceEvent} (g : Path s (opening c).moment j b)
    (hj : j.events = pre ++ ⟨t, .released p r⟩ :: post) :
    ⟨t, .ran p (ageAfter p 0 pre)⟩ ∈ pre := by
  obtain ⟨d, f, i, l, x, k, rest, hx, hpre, -, hd, rfl, hm, -, hage⟩ := g.split_age hj
  obtain rfl := Activity.event?_eq_released.1 hx
  obtain ⟨-, due, hphase⟩ := hm.of_released (List.mem_append_right _ List.mem_cons_self)
  rw [hage, hpre]
  exact List.mem_append_left _ (hd.ran_now hphase)

/-- A grant and the next release are those of one hold. -/
theorem Path.hold_between (hc : c.Valid) {pre mid post : List TraceEvent} {u : Nat}
    (g : Path s (opening c).moment j b)
    (hj : j.events = pre ++ ⟨t, .acquired p r⟩ :: (mid ++ ⟨u, .released p r⟩ :: post))
    (hmid : ∀ v, ⟨v, .released p r⟩ ∉ mid) :
    ∃ h ∈ c.script p r, ageAfter p 0 pre = h.since ∧ ⟨u, .ran p h.stop⟩ ∈ mid ∧
      (mid.countP fun e => Trace.isRunOf p e.event) = h.duration := by
  have hage : ageAfter p 0 (pre ++ ⟨t, .acquired p r⟩ :: mid) = ageAfter p (ageAfter p 0 pre) mid :=
    ageAfter_append
  have huses := (g.played hc p r).uses_of_script
  have hnone : usesFrom p r (ageAfter p 0 pre) mid = [] := by
    refine usesFrom_eq_nil fun ⟨v, e⟩ he => ⟨?_, ?_⟩
    · rintro rfl
      obtain ⟨first, second, rfl⟩ := List.append_of_mem he
      rw [List.append_assoc, List.cons_append] at hj
      obtain ⟨w, hw⟩ := g.released_between hc hj
      exact hmid w (List.mem_append_left _ hw)
    · rintro rfl
      exact hmid v he
  have hcut : usesFrom p r 0 j.events = usesFrom p r 0 pre ++ .taken (ageAfter p 0 pre) ::
      .given (ageAfter p (ageAfter p 0 pre) mid) ::
        usesFrom p r (ageAfter p (ageAfter p 0 pre) mid) post := by
    rw [hj, usesFrom_append, usesFrom_acquired, usesFrom_append, hnone, List.nil_append,
      usesFrom_released]
  rw [hcut] at huses
  obtain ⟨h, hh, hsince, hstop⟩ := hold_of_uses huses
  have hlt := Scenario.since_lt_stop hc.sound hh
  rw [← hage] at hstop
  have hj' : j.events = (pre ++ ⟨t, .acquired p r⟩ :: mid) ++ ⟨u, .released p r⟩ :: post := by
    rw [hj, List.append_assoc]
    rfl
  refine ⟨h, hh, hsince.symm, ?_, ?_⟩
  · have hran := g.ran_before hj'
    rw [← hstop] at hran
    refine (List.mem_cons.1 ((List.mem_append.1 hran).resolve_left fun hold => ?_)).resolve_left ?_
    · -- the age at the release lies behind all ages before the grant
      have hmem := mem_agesOf.2 ⟨u, hold⟩
      rw [g.agesOf_pre hj, ← hsince, List.mem_range'_1] at hmem
      omega
    · simp
  · have hpre := congrArg List.length (g.agesOf_pre hj p)
    have hmid := congrArg List.length (g.agesOf_pre hj' p)
    rw [List.length_range', ← hsince, length_agesOf] at hpre
    rw [List.length_range', ← hstop, length_agesOf, List.countP_append, List.countP_cons,
      if_neg (by simp [Trace.isRunOf])] at hmid
    unfold Hold.stop at hmid
    omega

/-- A process that gets to the end of a hold releases in the same tick. -/
theorem Path.released_of_ran (hc : c.Valid) (g : Path s (opening c).moment j b)
    (hh : h ∈ c.script p r) (hr : ⟨t, .ran p h.stop⟩ ∈ j.events) :
    ⟨t, .released p r⟩ ∈ j.events ∨
      b.machine.tick = t ∧ ∃ due, b.phase.back = some (p, due) ∧ r ∈ due := by
  obtain ⟨hmem, hres⟩ := Scenario.mem_script.1 hh
  induction g with
  | refl => cases hr
  | @snoc d e j l g hm ih =>
    rw [events_snoc] at hr ⊢
    rcases List.mem_append.1 hr with hr | hr
    · rcases ih hr with hdone | ⟨ht, due, hback, hdue⟩
      · exact .inl (List.mem_append_left _ hdone)
      · by_cases hl : .released p r ∈ l
        · exact .inl (List.mem_append_right _ (mem_within.2 ⟨ht.symm, released_mem_eventsOf.2 hl⟩))
        · refine .inr ⟨?_, hm.back_kept hback hdue hl⟩
          rcases time_move hm with ⟨-, htick, -⟩ | ⟨-, htick, -, -⟩ | ⟨-, -, hphase, -⟩
          · exact htick.trans ht
          · exact htick.trans ht
          · -- time does not pass while something is to be given back
            rw [hphase] at hback
            cases hback
    · obtain ⟨ht, hran⟩ := mem_within.1 hr
      have hl := ran_mem_eventsOf.1 hran
      obtain ⟨due, hback, hdue⟩ := back_of_ran hc (g.regular hc) hm hl hmem rfl
      rw [hres] at hdue
      exact .inr ⟨(tick_of_ran hm hl).trans ht.symm, due, hback, hdue⟩

/-- A process runs with what it is in the middle of holding. -/
theorem Path.owned_at_run (hc : c.Valid) {pre post : List TraceEvent}
    (g : Path s (opening c).moment j b) (hj : j.events = pre ++ ⟨t, .ran p n⟩ :: post)
    (hh : h ∈ c.holdsOf p) (hsince : h.since < n) (hstop : n ≤ h.stop) :
    ownerAfter h.resource pre = some p := by
  obtain ⟨d, f, i, rest, rfl, -, hd, -, hm, -⟩ := g.split_run hj
  have hl := List.mem_singleton_self (Activity.ran p n)
  obtain ⟨-, e, hphase, -⟩ := hm.of_ran hl
  obtain ⟨hn, -⟩ := ageOf_ran hm hl
  have hreg := hd.regular hc
  obtain ⟨hscripted, hreq⟩ := hreg.requests hphase
  obtain ⟨x, hx⟩ := Machine.exists_record hreq.running
  rw [← holds_of_record hc.sound hscripted hx] at hh
  rw [Machine.ageOf_of hx] at hn
  rw [hd.ownerAfter_events hc]
  exact hreq.owns hscripted hx hh ⟨by omega, by omega⟩

end Simulation

open Simulation

/-- Every run plays the hold scripts of its processes faithfully and exclusively.  Between a grant
and the next one of the same resource the resource is released.  The uses that a process makes of a
resource are those that its script asks for, one by one, and all of them if the run ends normally.
Each hold lasts for its ticks of CPU time, and the resource is given back in the tick in which the
process gets to the end of the hold, and in no other.  While a process is in the middle of a hold it
does not run without the resource. -/
theorem holds_played (s : Strategy) (hc : c.Valid) {run : Run} (hrun : simulate s c = .ok run) :
    (∀ pre mid post t u p q r,
      run.trace.events = pre ++ ⟨t, .acquired p r⟩ :: mid ++ ⟨u, .acquired q r⟩ :: post →
      ∃ v, ⟨v, .released p r⟩ ∈ mid) ∧
    (∀ p r, usesFrom p r 0 run.trace.events <+: (c.script p r).flatMap Hold.uses ∧
      (run.trace.exit = .normal →
        usesFrom p r 0 run.trace.events = (c.script p r).flatMap Hold.uses)) ∧
    (∀ pre mid post t u p r,
      run.trace.events = pre ++ ⟨t, .acquired p r⟩ :: mid ++ ⟨u, .released p r⟩ :: post →
      (∀ v, ⟨v, .released p r⟩ ∉ mid) →
      ∃ h ∈ c.script p r, ageAfter p 0 pre = h.since ∧ ⟨u, .ran p h.stop⟩ ∈ mid ∧
        (mid.countP fun e => Trace.isRunOf p e.event) = h.duration) ∧
    (∀ p r, ∀ h ∈ c.script p r, ∀ t, ⟨t, .ran p h.stop⟩ ∈ run.trace.events →
      ⟨t, .released p r⟩ ∈ run.trace.events) ∧
    ∀ pre post t p age, run.trace.events = pre ++ ⟨t, .ran p age⟩ :: post →
      ∀ h ∈ c.holdsOf p, h.since < age → age ≤ h.stop → ownerAfter h.resource pre = some p := by
  obtain ⟨j, b, g, hevents, hback, hnormal⟩ := path_of_simulate hc hrun
  rw [hevents]
  refine ⟨?_, fun p r => ⟨(g.played hc p r).uses_of_script, fun hexit => ?_⟩, ?_, ?_, ?_⟩
  · intro pre mid post t u p q r hj
    rw [List.append_assoc, List.cons_append] at hj
    exact g.released_between hc hj
  · obtain ⟨ran, hover⟩ := hnormal hexit
    exact g.all_played hc hover p r
  · intro pre mid post t u p r hj hmid
    rw [List.append_assoc, List.cons_append] at hj
    exact g.hold_between hc hj hmid
  · intro p r h hh t hran
    refine (g.released_of_ran hc hh hran).resolve_right ?_
    intro ⟨_, due, hdue, _⟩
    rw [hback] at hdue
    cases hdue
  · intro pre post t p age hj h hh hsince hstop
    exact g.owned_at_run hc hj hh hsince hstop

theorem holds_played_contended :
    ∃ run, simulate .priorityCeiling .contended = .ok run ∧ run.trace.exit = .normal ∧
      usesFrom ⟨1⟩ ⟨0⟩ 0 run.trace.events = [.taken 0, .given 3] ∧
      (∀ pre mid post t u q,
        run.trace.events = pre ++ ⟨t, .acquired ⟨1⟩ ⟨0⟩⟩ :: mid ++ ⟨u, .acquired q ⟨0⟩⟩ :: post →
        ∃ v, ⟨v, .released ⟨1⟩ ⟨0⟩⟩ ∈ mid) ∧
      ∀ pre post t, run.trace.events = pre ++ ⟨t, .ran ⟨1⟩ 2⟩ :: post →
        ownerAfter ⟨0⟩ pre = some ⟨1⟩ := by
  have hsim : (simulate .priorityCeiling .contended).toOption.any (fun run =>
      decide (run.trace.exit = .normal)) = true := by
    decide
  obtain ⟨run, hrun, hexit⟩ := Option.any_eq_true _ _ |>.1 hsim
  have hrun := toOption_eq_some.1 hrun
  have hexit := of_decide_eq_true hexit
  obtain ⟨hexclusive, huses, -, -, howned⟩ :=
    holds_played .priorityCeiling (c := .contended) (by decide) hrun
  refine ⟨run, hrun, hexit, (huses ⟨1⟩ ⟨0⟩).2 hexit, ?_, ?_⟩
  · intro pre mid post t u q
    exact hexclusive pre mid post t u ⟨1⟩ q ⟨0⟩
  · intro pre post t hj
    exact howned pre post t ⟨1⟩ 2 hj { resource := ⟨0⟩, since := 0, duration := 3 } (by decide)
      (by decide) (by decide)

end Uniprocessor
