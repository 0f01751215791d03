import Uniprocessor.Proofs.Acceptance
import Uniprocessor.Proofs.Records
import Uniprocessor.Simulation.Tick
/-
  How far every process is in its script, and what it therefore owns.

  `Scripted` ties the age of every process to the resources that it owns: it owns what it is in
  the middle of holding, and owns nothing else but what it is about to give back.  `Requests` and
  `Returns` are the states of the process on the CPU while it goes through the requests and the
  releases of one tick.

  `Scripted.own`, `Scripted.disown` and `Scripted.grows` say how ownership and age move on
  together; `Scripted.follows` covers everything that moves neither.
-/

namespace Uniprocessor

/-- The age lies within the hold. -/
def Hold.Covers (h : Hold) (age : Nat) : Prop := h.since ≤ age ∧ age < h.stop

theorem Hold.Apart.symm {a b : Hold} (h : a.Apart b) : b.Apart a := Or.symm h

/-- Holds that cannot be apart are of different resources. -/
theorem nodup_resources {l : List Hold} {e : Hold → Bool}
    (hl : l.Pairwise fun a b => a.resource = b.resource → a.Apart b)
    (he : ∀ a ∈ l, ∀ b ∈ l, e a = true → e b = true → ¬ a.Apart b) :
    ((l.filter e).map (·.resource)).Nodup := by
  rw [List.Nodup, List.pairwise_map]
  refine (hl.filter e).imp_of_mem fun ha hb hab hres => ?_
  rw [List.mem_filter] at ha hb
  exact he _ ha.1 _ hb.1 ha.2 hb.2 (hab hres)

/-- A symmetric relation between the elements of a list relates any two that differ. -/
theorem eq_or_of_pairwise {α : Type} {R : α → α → Prop} {l : List α} {a b : α}
    (symm : ∀ a b, R a b → R b a) (hl : l.Pairwise R) (ha : a ∈ l) (hb : b ∈ l) : a = b ∨ R a b :=
  List.Pairwise.forall_of_forall_of_flip (R := fun a b => a = b ∨ R a b) (fun _ _ => .inl rfl)
    (hl.imp .inr) (hl.imp fun h => .inr (symm _ _ h)) ha hb

namespace ProcessRecord

/-- The record of a process of the scenario that has not outlived its job. -/
structure Plays (c : Scenario) (p : Pid) (x : ProcessRecord) : Prop where
  job : ∃ j ∈ c.jobs, j.pid = p ∧ j.lifespan = x.lifespan ∧ j.priority = x.basePriority ∧
    j.holds = x.holds
  age : x.age ≤ x.lifespan

/-- The priorities fit their words. -/
def InRange (x : ProcessRecord) : Prop :=
  x.priority < priorityBound ∧ x.basePriority < priorityBound

variable {c : Scenario} {p : Pid} {x y : ProcessRecord} {h k : Hold}

/-! ## Priorities in their words -/

theorem InRange.reset {π : Policy} (hx : x.InRange) : (π.reset x).InRange := by
  unfold Policy.reset
  split
  · exact ⟨hx.2, hx.2⟩
  · exact hx

theorem InRange.bump {cap : Nat} (hx : x.InRange) (hcap : cap < priorityBound) :
    (Policy.bump cap x).InRange := by
  unfold Policy.bump
  split
  · next hlt => exact ⟨Nat.lt_of_le_of_lt hlt hcap, hx.2⟩
  · exact hx

theorem InRange.promote {κ : Protocol} {limits : Limits} (hx : x.InRange)
    (hmax : limits.maxPriority < priorityBound) : (κ.promote limits x).InRange := by
  cases κ with
  | mutex _ => exact hx
  | ceiling _ => exact ⟨hmax, hx.2⟩
  | inheritance => exact hx

theorem InRange.raise {κ : Protocol} {i : Nat} (hx : x.InRange) (hi : i < priorityBound) :
    (κ.raise i x).InRange := by
  cases κ with
  | mutex _ => exact hx
  | ceiling _ => exact hx
  | inheritance => exact ⟨Nat.max_lt.2 ⟨hx.1, hi⟩, hx.2⟩

theorem InRange.relax {κ : Protocol} (hx : x.InRange) : (κ.relax x).InRange := by
  cases κ with
  | mutex _ => exact hx
  | ceiling _ => exact ⟨hx.2, hx.2⟩
  | inheritance => exact ⟨hx.2, hx.2⟩

/-! ## Records and their jobs -/

theorem Plays.alike (hx : x.Plays c p) (hxy : x.Alike y) : y.Plays c p := by
  obtain ⟨s, i, rfl⟩ := hxy
  exact ⟨hx.job, hx.age⟩

theorem Plays.grow (hx : x.Plays c p) (hlt : x.age < x.lifespan) :
    (x.aged (x.age + 1)).Plays c p :=
  ⟨hx.job, hlt⟩

theorem plays_ofJob {j : Job} (hj : j ∈ c.jobs) : (ofJob j).Plays c j.pid :=
  ⟨⟨j, hj, rfl, rfl, rfl, rfl⟩, Nat.zero_le _⟩

theorem Plays.fits (hc : c.Sound) (hx : x.Plays c p) (hh : h ∈ x.holds) :
    h.Fits x.lifespan c.resourceCount := by
  obtain ⟨j, hj, -, hl, -, hs⟩ := hx.job
  rw [← hl]
  exact (hc.jobs j hj).fits h (hs ▸ hh)

theorem Plays.pairwise (hc : c.Sound) (hx : x.Plays c p) :
    x.holds.Pairwise fun a b => a.resource = b.resource → a.Apart b := by
  obtain ⟨j, hj, -, -, -, hs⟩ := hx.job
  exact hs ▸ (hc.jobs j hj).apart

/-- Two holds of one resource are the same or share no age. -/
theorem Plays.apart (hc : c.Sound) (hx : x.Plays c p) (hh : h ∈ x.holds) (hk : k ∈ x.holds)
    (hr : h.resource = k.resource) : h = k ∨ h.Apart k :=
  (eq_or_of_pairwise (fun _ _ hab hr => (hab hr.symm).symm) (hx.pairwise hc) hh hk).imp_right
    fun ha => ha hr

theorem Plays.nodup_requestsDue (hc : c.Sound) (hx : x.Plays c p) : x.requestsDue.Nodup := by
  refine nodup_resources (hx.pairwise hc) fun a ha b hb hea heb hab => ?_
  have hfa := (hx.fits hc ha).since_lt
  have hfb := (hx.fits hc hb).since_lt
  simp only [decide_eq_true_eq] at hea heb
  rcases hab with hab | hab <;> omega

/-- The resources to give back at the present age. -/
theorem Plays.releasesDue (hc : c.Sound) (hr : c.InRange) (hx : x.Plays c p) :
    ∃ due, x.releasesDue = .ok due ∧ due.Nodup ∧
      ∀ r, r ∈ due ↔ ∃ h ∈ x.holds, h.resource = r ∧ h.stop = x.age := by
  have hstop : ∀ h ∈ x.holds, h.stop < tickBound := by
    intro h hh
    obtain ⟨j, hj, -, hl, -, -⟩ := hx.job
    have := (hx.fits hc hh).ends
    have := (hr.1 j hj).2.2.1
    omega
  refine ⟨_, releasesAt_eq_ok hstop, ?_, fun r => ?_⟩
  · refine nodup_resources (hx.pairwise hc) fun a ha b hb hea heb hab => ?_
    have hfa := (hx.fits hc ha).since_lt
    have hfb := (hx.fits hc hb).since_lt
    simp only [decide_eq_true_eq] at hea heb
    rcases hab with hab | hab <;> omega
  · simp only [List.mem_map, List.mem_filter, decide_eq_true_eq]
    exact ⟨fun ⟨h, ⟨hh, hs⟩, hr⟩ => ⟨h, hh, hr, hs⟩, fun ⟨h, hh, hr, hs⟩ => ⟨h, ⟨hh, hs⟩, hr⟩⟩

end ProcessRecord

/-- What `p`, whose record is `x`, is to request at its age and does not own. -/
def Machine.lacks (m : Machine) (p : Pid) (x : ProcessRecord) : List ResourceId :=
  x.requestsDue.filter fun r => m.resources.owner? r ≠ some p

namespace Simulation

/-- Every process owns what its script says.  `back` is the process that has run, with what it is
about to give back; it alone can be of full age without having terminated. -/
structure Scripted (c : Scenario) (back : Option (Pid × List ResourceId)) (m : Machine) : Prop where
  plays : ∀ p x, m.process? p = some x → x.Plays c p
  unfinished : ∀ p x, m.process? p = some x → x.status ≠ .terminated → x.age < x.lifespan ∨
    ∃ due, back = some (p, due)
  owner : ∀ r p x, m.resources.owner? r = some p → m.process? p = some x →
    (∃ due, back = some (p, due) ∧ r ∈ due) ∨ ∃ h ∈ x.holds, h.resource = r ∧ h.Covers x.age
  held : ∀ p x, m.process? p = some x → ∀ h ∈ x.holds, h.since < x.age → x.age < h.stop →
    m.resources.owner? h.resource = some p
  limits : m.limits = c.limits
  size : m.resources.size = c.resourceCount
  inRange : m.All ProcessRecord.InRange

/-- The process `p` is on the CPU and is to request `due`, which is all that it lacks. -/
structure Requests (m : Machine) (p : Pid) (due : List ResourceId) : Prop where
  current : m.current = some p
  running : m.status? p = some .running
  due : ∀ x, m.process? p = some x → m.lacks p x = due

/-- The process `p` has run and is to give `due` back. -/
structure Returns (m : Machine) (p : Pid) (due : List ResourceId) : Prop where
  current : m.current = some p
  running : m.status? p = some .running
  nodup : due.Nodup
  given : ∀ x, m.process? p = some x → ∀ r ∈ due, m.resources.owner? r = some p ∧
    ∃ h ∈ x.holds, h.resource = r ∧ h.stop = x.age
  begun : ∀ x, m.process? p = some x → ∀ r, m.resources.owner? r = some p →
    ∃ h ∈ x.holds, h.resource = r ∧ h.since < x.age ∧ x.age ≤ h.stop

variable {c : Scenario} {back : Option (Pid × List ResourceId)} {m n : Machine} {p : Pid}
variable {r : ResourceId} {due : List ResourceId} {x : ProcessRecord}

theorem Requests.age_lt (hq : Requests m p due) (h : Scripted c none m)
    (hx : m.process? p = some x) : x.age < x.lifespan := by
  have hs := hq.running
  rw [Machine.status?_of hx, Option.some.injEq] at hs
  exact (h.unfinished p x hx (by simp [hs])).resolve_right fun ⟨_, hd⟩ => by cases hd

theorem mem_lacks : r ∈ m.lacks p x ↔
    (∃ h ∈ x.holds, h.resource = r ∧ h.since = x.age) ∧ m.resources.owner? r ≠ some p := by
  simp only [Machine.lacks, ProcessRecord.requestsDue, List.mem_filter, List.mem_map,
    decide_eq_true_eq]
  constructor
  · intro ⟨⟨h, ⟨hh, hs⟩, hr⟩, ho⟩
    exact ⟨⟨h, hh, hr, hs⟩, ho⟩
  · intro ⟨⟨h, hh, hr, hs⟩, ho⟩
    exact ⟨⟨h, ⟨hh, hs⟩, hr⟩, ho⟩

/-- What a process lacks depends on its age and on what it owns. -/
theorem lacks_congr {y : ProcessRecord} (hxy : x.Alike y)
    (ho : ∀ s, n.resources.owner? s = some p ↔ m.resources.owner? s = some p) :
    n.lacks p y = m.lacks p x := by
  obtain ⟨s, k, rfl⟩ := hxy
  unfold Machine.lacks
  simp only [ne_eq, ho]
  rfl

theorem Requests.asked (hq : Requests m p due) (hx : m.process? p = some x) (hr : r ∈ due) :
    m.resources.owner? r ≠ some p ∧ ∃ h ∈ x.holds, h.resource = r ∧ h.since = x.age := by
  rw [← hq.due x hx, mem_lacks] at hr
  exact ⟨hr.2, hr.1⟩

theorem Requests.rest (hq : Requests m p due) (hx : m.process? p = some x) {h : Hold}
    (hh : h ∈ x.holds) (hs : h.since = x.age) :
    m.resources.owner? h.resource = some p ∨ h.resource ∈ due := by
  by_cases ho : m.resources.owner? h.resource = some p
  · exact .inl ho
  · rw [← hq.due x hx, mem_lacks]
    exact .inr ⟨⟨h, hh, rfl, hs⟩, ho⟩

/-- With nothing left to request, a process owns all holds that have begun and not ended. -/
theorem Requests.owns (hq : Requests m p []) (h : Scripted c none m) (hx : m.process? p = some x)
    {g : Hold} (hg : g ∈ x.holds) (hage : g.Covers x.age) :
    m.resources.owner? g.resource = some p := by
  obtain ⟨hsince, hstop⟩ := hage
  rcases Nat.lt_or_eq_of_le hsince with hlt | heq
  · exact h.held p x hx g hg hlt hstop
  · exact (hq.rest hx hg heq).resolve_right List.not_mem_nil

namespace Scripted

theorem start (c : Scenario) : Scripted c none (.start c.resourceCount c.limits) where
  plays p x hx := by cases hx
  unfinished p x hx := by cases hx
  owner r p x ho := by simp [Machine.start] at ho
  held p x hx := by cases hx
  limits := rfl
  size := ResourceTable.size_ofSize _
  inRange p x hx := by cases hx

/-- A process that has not terminated has work left, unless it has run in this tick. -/
theorem age_lt (h : Scripted c none m) (hx : m.process? p = some x)
    (hs : x.status ≠ .terminated) : x.age < x.lifespan :=
  (h.unfinished p x hx hs).resolve_right fun ⟨_, hd⟩ => by cases hd

theorem unfinished_running (h : Scripted c none m) :
    ∀ p x, m.process? p = some x → x.status = .running → x.isDone = false := by
  intro p x hx hs
  simpa [ProcessRecord.isDone] using h.age_lt hx (by simp [hs])

/-- A change of statuses and priorities alone. -/
theorem follows (h : Scripted c back m) (hf : m.Follows n) (hs : m.Steady n)
    (ho : ∀ r, n.resources.owner? r = m.resources.owner? r)
    (ht : ∀ p, m.status? p = some .terminated → n.status? p = some .terminated)
    (hr : n.All ProcessRecord.InRange) : Scripted c back n where
  plays p y hy := by
    obtain ⟨x, hx, hxy⟩ := hf.of hy
    exact (h.plays p x hx).alike hxy
  unfinished p y hy hne := by
    obtain ⟨x, hx, s, k, rfl⟩ := hf.of hy
    refine h.unfinished p x hx fun hxt => hne ?_
    have := ht p (Machine.status?_eq_some.2 ⟨x, hx, hxt⟩)
    rwa [Machine.status?_of hy, Option.some.injEq] at this
  owner r p y hop hy := by
    obtain ⟨x, hx, s, k, rfl⟩ := hf.of hy
    exact h.owner r p x (ho r ▸ hop) hx
  held p y hy g hg := by
    obtain ⟨x, hx, s, k, rfl⟩ := hf.of hy
    rw [ho]
    exact h.held p x hx g hg
  limits := hs.limits.trans h.limits
  size := hs.size.trans h.size
  inRange := hr

/-- A process gets a resource that nobody owns and that it is to hold from now on. -/
theorem own (hc : c.Sound) (h : Scripted c none m) (hx : m.process? p = some x) {g : Hold}
    (hg : g ∈ x.holds) (hgs : g.since = x.age) (ho : m.resources.owner? g.resource = none) :
    Scripted c none (m.own g.resource (some p)) where
  plays := h.plays
  unfinished := h.unfinished
  owner s q y hq hy := by
    have hfit := (h.plays p x hx).fits hc hg
    rw [Machine.owner?_own _ _ _ _ (h.size ▸ hfit.inTable)] at hq
    split at hq
    · next hs =>
      cases hq
      obtain rfl : x = y := Option.some.inj (hx.symm.trans hy)
      have := hfit.since_lt
      exact .inr ⟨g, hg, hs, by omega, by omega⟩
    · exact h.owner s q y hq hy
  held q y hy k hk hsince hstop := by
    have howner := h.held q y hy k hk hsince hstop
    have hfit := (h.plays p x hx).fits hc hg
    rw [Machine.owner?_own _ _ _ _ (h.size ▸ hfit.inTable), if_neg, howner]
    intro he
    rw [← he, ho] at howner
    cases howner
  limits := h.limits
  size := by rw [← h.size]; simp
  inRange := h.inRange

/-- The process that has run gives back a resource. -/
theorem disown (hc : c.Sound) (h : Scripted c (some (p, r :: due)) m)
    (hret : Returns m p (r :: due)) : Scripted c (some (p, due)) (m.own r none) where
  plays := h.plays
  unfinished q y hy hne :=
    (h.unfinished q y hy hne).imp_right fun ⟨_, hd⟩ => ⟨due, by cases hd; rfl⟩
  owner s q y hq hy := by
    obtain ⟨x, hx⟩ := Machine.exists_record hret.running
    have hr := (hret.given x hx r List.mem_cons_self).1
    rw [Machine.owner?_own _ _ _ _ (ResourceTable.owner?_lt hr)] at hq
    split at hq
    · cases hq
    · next hrs =>
      refine (h.owner s q y hq hy).imp_left fun ⟨_, hd, hs⟩ => ?_
      cases hd
      exact ⟨due, rfl, (List.mem_cons.1 hs).resolve_left (Ne.symm hrs)⟩
  held q y hy k hk hsince hstop := by
    obtain ⟨x, hx⟩ := Machine.exists_record hret.running
    obtain ⟨hr, g, hg, hgr, hgs⟩ := hret.given x hx r List.mem_cons_self
    have howner := h.held q y hy k hk hsince hstop
    rw [Machine.owner?_own _ _ _ _ (ResourceTable.owner?_lt hr), if_neg, howner]
    rintro rfl
    -- the hold that ends now and one that goes on cannot be of the same resource
    obtain rfl : p = q := Option.some.inj (hr.symm.trans howner)
    obtain rfl : x = y := Option.some.inj (hx.symm.trans hy)
    have hplays := h.plays p x hx
    have := (hplays.fits hc hg).since_lt
    rcases hplays.apart hc hg hk hgr with rfl | ha | ha <;> omega
  limits := h.limits
  size := by rw [← h.size]; simp
  inRange := h.inRange

/-- A job arrives. -/
theorem enroll (hc : c.Sound) (hr : c.InRange) (h : Scripted c none m) (hm : m.Filed) {j : Job}
    (hj : j ∈ c.jobs) (hn : m.process? j.pid = none) : Scripted c none (m.enroll j) where
  plays q y hy := by
    rw [Machine.process?_enroll] at hy
    split at hy
    · next hjq =>
      cases hy
      exact hjq ▸ ProcessRecord.plays_ofJob hj
    · exact h.plays q y hy
  unfinished q y hy hne := by
    rw [Machine.process?_enroll] at hy
    split at hy
    · cases hy
      exact .inl (hc.jobs j hj).lives
    · exact h.unfinished q y hy hne
  owner s q y hq hy := by
    rw [Machine.process?_enroll, if_neg] at hy
    · exact h.owner s q y hq hy
    · rintro rfl
      obtain ⟨x, hx⟩ := Machine.status?_ne_none.1 (hm.owner_alive s _ hq).1
      rw [hn] at hx
      cases hx
  held q y hy k hk hsince hstop := by
    rw [Machine.process?_enroll] at hy
    split at hy
    · cases hy
      exact absurd hsince (Nat.not_lt_zero _)
    · exact h.held q y hy k hk hsince hstop
  limits := h.limits
  size := h.size
  inRange q y hy := by
    rw [Machine.process?_enroll] at hy
    split at hy
    · cases hy
      exact ⟨(hr.1 j hj).2.2.2.1, (hr.1 j hj).2.2.2.1⟩
    · exact h.inRange q y hy

theorem pass (h : Scripted c back m) : Scripted c back m.pass :=
  ⟨h.plays, h.unfinished, h.owner, h.held, h.limits, h.size, h.inRange⟩

/-! ## Decisions -/

variable {π : Policy} {κ : Protocol} {d : Decision}

theorem decides (hr : c.InRange) (h : Scripted c back m) (hm : π.Decides m n d) :
    Scripted c back n := by
  refine h.follows (Machine.follows_decides hm) hm.steady (fun r => by rw [hm.resources])
    (fun p => Machine.terminated_decides hm)
    (h.inRange.decides (fun _ _ hx => hx) (fun _ hx => hx.reset) (fun x hx => ?_) hm)
  rw [h.limits]
  exact hx.bump hr.2.2.2.2

/-! ## Requests -/

theorem requestsOf_eq_ok :
    requestsOf m p = .ok due ↔ ∃ x, m.process? p = some x ∧ m.lacks p x = due := by
  simp only [requestsOf, bind_eq_ok, Machine.process_eq_ok, pure_eq_ok]
  rfl

/-- What the process on the CPU lacks when a decision has been made. -/
theorem requests (hcur : m.current = some p) (hrun : m.status? p = some .running)
    (hd : requestsOf m p = .ok due) : Requests m p due := by
  obtain ⟨x, hx, rfl⟩ := requestsOf_eq_ok.1 hd
  refine ⟨hcur, hrun, fun y hy => ?_⟩
  rw [Option.some.inj (hx.symm.trans hy)]

theorem inRange_acquires (hr : c.InRange) (h : Scripted c back m) {reply : Reply}
    (hm : κ.Acquires m r p n reply) : n.All ProcessRecord.InRange := by
  refine h.inRange.acquires (fun _ _ hx => hx) (fun x hx => ?_) (fun _ _ hx hy => hy.raise hx.1) hm
  rw [h.limits]
  exact hx.promote hr.2.2.2.1

/-- A grant takes the resource off the list of what the process lacks. -/
theorem lacks_granted (hc : c.Sound) (hx : x.Plays c p) {y : ProcessRecord} (hxy : x.Alike y)
    (hl : m.lacks p x = r :: due) (hm : κ.Acquires m r p n .granted) : n.lacks p y = due := by
  have hnodup : (r :: due).Nodup := hl ▸ (hx.nodup_requestsDue hc).filter _
  obtain ⟨s, k, rfl⟩ := hxy
  have hfilter : n.lacks p { x with status := s, priority := k } =
      (m.lacks p x).filter fun t => r ≠ t := by
    unfold Machine.lacks
    rw [List.filter_filter]
    refine List.filter_congr fun t _ => ?_
    rw [hm.owner?_granted]
    by_cases hrt : r = t <;> simp [hrt]
  obtain ⟨hr, -⟩ := List.nodup_cons.1 hnodup
  rw [hfilter, hl, List.filter_cons_of_neg (by simp), List.filter_eq_self]
  intro t ht
  simp only [ne_eq, decide_eq_true_eq]
  exact fun he => hr (he ▸ ht)

theorem grants (hc : c.Sound) (hr : c.InRange) (h : Scripted c none m)
    (hq : Requests m p (r :: due)) (hm : κ.Acquires m r p n .granted) :
    Scripted c none n ∧ Requests n p due := by
  have hin := h.inRange_acquires hr hm
  have hfollows := Machine.follows_acquires hm
  obtain ⟨x, hx⟩ := Machine.exists_record hq.running
  obtain ⟨y, hy, hxy⟩ := hfollows.to hx
  have hlacks := lacks_granted hc (h.plays p x hx) hxy (hq.due x hx) hm
  cases hm with
  | granted hlt ho _ =>
    obtain ⟨-, g, hg, rfl, hgs⟩ := hq.asked hx List.mem_cons_self
    have hstatus : ∀ q, (m.adjust p (κ.promote m.limits)).status? q = m.status? q := fun q =>
      Machine.status?_adjust (Protocol.promote_status m.limits)
    have hadj : Scripted c none (m.adjust p (κ.promote m.limits)) :=
      h.follows (Machine.follows_adjust fun y => y.alike_promote κ m.limits)
        (Machine.steady_adjust m p _) (fun _ => rfl) (fun q hqt => by rw [hstatus, hqt]) hin
    obtain ⟨s, k, rfl⟩ := hxy
    refine ⟨hadj.own hc hy hg hgs ho, hq.current, ?_, fun z hz => ?_⟩
    · rw [Machine.status?_own, hstatus, hq.running]
    · rw [← Option.some.inj (hy.symm.trans hz)]
      exact hlacks

theorem blocks (hr : c.InRange) (h : Scripted c back m) (hp : m.status? p = some .running)
    {o : Pid} (hm : κ.Acquires m r p n (.blocked o)) : Scripted c back n :=
  h.follows (Machine.follows_acquires hm) hm.steady (fun _ => hm.owner?_blocked)
    (fun _ => Machine.terminated_acquires hm hp) (h.inRange_acquires hr hm)

/-! ## A tick of CPU time -/

theorem grows (hc : c.Sound) (h : Scripted c none m) (hq : Requests m p [])
    (hx : m.process? p = some x)
    (hdue : ∀ r, r ∈ due ↔ ∃ g ∈ x.holds, g.resource = r ∧ g.stop = x.age + 1)
    (hnodup : due.Nodup) :
    Scripted c (some (p, due)) (m.adjust p (.aged (x.age + 1))) ∧
      Returns (m.adjust p (.aged (x.age + 1))) p due := by
  have hplays := h.plays p x hx
  have hage := hq.age_lt h hx
  have hown : ∀ g ∈ x.holds, g.since ≤ x.age → x.age < g.stop →
      m.resources.owner? g.resource = some p :=
    fun g hg hsince hstop => hq.owns h hx hg ⟨hsince, hstop⟩
  have self : ∀ {y}, (m.adjust p (.aged (x.age + 1))).process? p = some y →
      y = x.aged (x.age + 1) := by
    intro y hy
    rw [Machine.process?_adjust, if_pos rfl, hx] at hy
    exact (Option.some.inj hy).symm
  have other : ∀ {q y}, p ≠ q → (m.adjust p (.aged (x.age + 1))).process? q = some y →
      m.process? q = some y := by
    intro q y hpq hy
    rwa [Machine.process?_adjust, if_neg hpq] at hy
  refine ⟨⟨?_, ?_, ?_, ?_, h.limits, h.size, ?_⟩, hq.current, ?_, hnodup, ?_, ?_⟩
  · intro q y hy
    by_cases hpq : p = q
    · subst hpq
      rw [self hy]
      exact hplays.grow hage
    · exact h.plays q y (other hpq hy)
  · intro q y hy hne
    by_cases hpq : p = q
    · subst hpq
      exact .inr ⟨due, rfl⟩
    · exact (h.unfinished q y (other hpq hy) hne).imp_right fun ⟨_, hd⟩ => by cases hd
  · intro s q y ho hy
    by_cases hpq : p = q
    · subst hpq
      obtain rfl := self hy
      rcases h.owner s p x ho hx with ⟨_, hd, -⟩ | ⟨g, hg, hgr, hsince, hstop⟩
      · cases hd
      · by_cases hend : g.stop = x.age + 1
        · exact .inl ⟨due, rfl, (hdue s).2 ⟨g, hg, hgr, hend⟩⟩
        · exact .inr ⟨g, hg, hgr, Nat.le_succ_of_le hsince, Nat.lt_of_le_of_ne hstop (Ne.symm hend)⟩
    · exact (h.owner s q y ho (other hpq hy)).imp_left fun ⟨_, hd, _⟩ => by cases hd
  · intro q y hy g hg hsince hstop
    by_cases hpq : p = q
    · subst hpq
      obtain rfl := self hy
      exact hown g hg (Nat.le_of_lt_succ hsince) (Nat.lt_of_succ_lt hstop)
    · exact h.held q y (other hpq hy) g hg hsince hstop
  · exact h.inRange.adjust fun y hy => h.inRange p y hy
  · rw [Machine.status?_adjust (f := .aged (x.age + 1)) fun _ => rfl, hq.running]
  · intro y hy s hs
    obtain rfl := self hy
    obtain ⟨g, hg, rfl, hgs⟩ := (hdue s).1 hs
    have hlt := (hplays.fits hc hg).since_lt
    exact ⟨hown g hg (by omega) (by omega), g, hg, rfl, hgs⟩
  · intro y hy s hs
    obtain rfl := self hy
    rcases h.owner s p x hs hx with ⟨_, hd, -⟩ | ⟨g, hg, hgr, hsince, hstop⟩
    · cases hd
    · exact ⟨g, hg, hgr, Nat.lt_succ_of_le hsince, hstop⟩

/-! ## Releases -/

theorem releases (hc : c.Sound) (h : Scripted c (some (p, r :: due)) m)
    (hret : Returns m p (r :: due)) {o : Option Pid} (hm : κ.Releases m r p n o) :
    Scripted c (some (p, due)) n ∧ Returns n p due := by
  obtain ⟨x, hx⟩ := Machine.exists_record hret.running
  have hfollows := Machine.follows_releases hm
  have howner := fun s => hm.owner? (s := s)
  have hlt := ResourceTable.owner?_lt (hret.given x hx r List.mem_cons_self).1
  have hin : n.All ProcessRecord.InRange :=
    h.inRange.releases (fun _ _ hx => hx) (fun _ hx => hx.relax) hm
  have hcur : n.current = some p := by
    rw [← hret.current]
    cases hm <;> rfl
  have hrun := Machine.status?_released hm hret.running (by simp)
  have hend : ∀ q, m.status? q = some .terminated → n.status? q = some .terminated :=
    fun _ hq => Machine.status?_released hm hq (by simp)
  refine ⟨(h.disown hc hret).follows hfollows ?_ ?_ hend hin, hcur, hrun,
    (List.nodup_cons.1 hret.nodup).2, ?_, ?_⟩
  · exact ⟨hm.steady.tick, hm.steady.limits, hm.steady.size.trans (by simp), hm.steady.pids⟩
  · intro s
    rw [howner, Machine.owner?_own _ _ _ _ hlt]
  · intro y hy s hs
    obtain ⟨z, hz, t, k, rfl⟩ := hfollows.of hy
    rw [howner, if_neg]
    · exact hret.given z hz s (List.mem_cons_of_mem _ hs)
    · rintro rfl
      exact (List.nodup_cons.1 hret.nodup).1 hs
  · intro y hy s hs
    obtain ⟨z, hz, t, k, rfl⟩ := hfollows.of hy
    rw [howner] at hs
    split at hs
    · cases hs
    · exact hret.begun z hz s hs

/-! ## The end of a turn -/

theorem remain (h : Scripted c (some (p, [])) m) (hx : m.process? p = some x)
    (hd : x.isDone = false) : Scripted c none m where
  plays := h.plays
  unfinished q y hy hne := by
    rcases h.unfinished q y hy hne with hlt | ⟨_, hback⟩
    · exact .inl hlt
    · cases hback
      obtain rfl : x = y := Option.some.inj (hx.symm.trans hy)
      exact .inl (by simpa [ProcessRecord.isDone] using hd)
  owner s q y ho hy := by
    rcases h.owner s q y ho hy with ⟨_, hback, hs⟩ | hcover
    · cases hback
      cases hs
    · exact .inr hcover
  held := h.held
  limits := h.limits
  size := h.size
  inRange := h.inRange

/-- A process whose lifespan is used up owns nothing any more. -/
theorem owns_nothing (hc : c.Sound) (h : Scripted c (some (p, [])) m)
    (hx : m.process? p = some x) (hd : x.isDone = true) : m.resources.owner? r ≠ some p := by
  intro ho
  rcases h.owner r p x ho hx with ⟨_, hd', hs⟩ | ⟨g, hg, -, -, hstop⟩
  · cases hd'
    cases hs
  · have := ((h.plays p x hx).fits hc hg).ends
    rw [ProcessRecord.isDone_iff] at hd
    omega

theorem exit (hc : c.Sound) (h : Scripted c (some (p, [])) m) (hx : m.process? p = some x)
    (hd : x.isDone = true) : Scripted c none (m.adjust p (.turn .terminated)) where
  plays q y hy := by
    obtain ⟨z, hz, hzy⟩ := (Machine.follows_adjust (p := p) fun z => z.alike_turn _).of hy
    exact (h.plays q z hz).alike hzy
  unfinished q y hy hne := by
    rw [Machine.process?_adjust] at hy
    split at hy
    · obtain ⟨z, -, rfl⟩ := Option.map_eq_some_iff.1 hy
      exact absurd rfl hne
    · next hpq =>
      refine (h.unfinished q y hy hne).elim .inl fun ⟨_, hd'⟩ => ?_
      cases hd'
      exact absurd rfl hpq
  owner s q y ho hy := by
    have hq : p ≠ q := by
      rintro rfl
      exact h.owns_nothing hc hx hd ho
    rw [Machine.process?_adjust, if_neg hq] at hy
    refine (h.owner s q y ho hy).elim (fun ⟨_, hd', hs⟩ => ?_) .inr
    cases hd'
    cases hs
  held q y hy k hk := by
    obtain ⟨z, hz, t, l, rfl⟩ := (Machine.follows_adjust (p := p) fun z => z.alike_turn _).of hy
    exact h.held q z hz k hk
  limits := h.limits
  size := h.size
  inRange := h.inRange.adjust fun y hy => h.inRange p y hy

end Scripted

end Simulation

end Uniprocessor
