import Uniprocessor.Proofs.Keeping
import Uniprocessor.Proofs.Workload
/-
  The FIFO policy as a single server.

  `completion` is the recursion of a queue with one server: a job is served when it is there and the
  one in front of it is done, and then for its lifespan.  Under the FIFO policy the jobs form a line
  in the order of their arrival.  Some have been done, one may be on the CPU, and the others are
  ready or still to arrive (`View.Line`).  A move takes the line on (`Moment.Served.move`), and the
  age of a job is at every moment what the recursion says (`Path.age_fifo`).

  * `arrivals_before`: the order of the line.
  * `Path.ticks_fifo`: the ticks in which a job runs.
  * `playAll_stops`: where a run comes to its end.

  Main statement: `fifo_single_server`.
-/

namespace Uniprocessor

/-- One job arrives before another, or with it and is defined before it. -/
def Scenario.Before (c : Scenario) (j k : Job) : Prop :=
  j.start < k.start ∨ j.start = k.start ∧ [j, k].Sublist c.jobs

namespace Simulation

variable {s : Strategy} {c : Scenario} {a b : Moment} {l : List Activity} {i : Journal}
variable {past ahead front back rest : List Job} {cur : Option Job} {j k : Job} {v : View}
variable {p : Pid} {t n T : Nat}

/-! ## The order of the line -/

theorem pairwise_arrive {R : Job → Job → Prop} {l : List Job}
    (hsorted : l.Pairwise (·.start ≤ ·.start)) (hl : l.Pairwise R)
    (hbehind : ∀ k ∈ l, j.start ≤ k.start → R j k) (hfront : ∀ k ∈ l, k.start < j.start → R k j) :
    (arrive j l).Pairwise R := by
  induction l with
  | nil => exact List.pairwise_singleton R j
  | cons k l ih =>
    obtain ⟨hk, hsorted⟩ := List.pairwise_cons.1 hsorted
    obtain ⟨hkr, hlr⟩ := List.pairwise_cons.1 hl
    simp only [arrive]
    split
    · next hjk =>
      refine List.pairwise_cons.2 ⟨fun m hm => hbehind m hm ?_, hl⟩
      rcases List.mem_cons.1 hm with rfl | hm
      · exact hjk
      · exact Nat.le_trans hjk (hk m hm)
    · next hjk =>
      refine List.pairwise_cons.2 ⟨fun m hm => ?_, ih hsorted hlr
        (fun m hm => hbehind m (List.mem_cons_of_mem k hm))
        (fun m hm => hfront m (List.mem_cons_of_mem k hm))⟩
      rcases List.mem_cons.1 ((arrive_perm j l).mem_iff.1 hm) with rfl | hm
      · exact hfront k List.mem_cons_self (Nat.lt_of_not_le hjk)
      · exact hkr m hm

/-- The jobs arrive by their ticks, and those of one tick in the order of definition. -/
theorem arrivals_before (l : List Job) : (arrivals l).Pairwise fun j k =>
    j.start < k.start ∨ j.start = k.start ∧ [j, k].Sublist l := by
  induction l with
  | nil => exact .nil
  | cons j l ih =>
    refine pairwise_arrive (arrivals_sorted l)
      (ih.imp fun h => h.imp_right fun ⟨heq, hsub⟩ => ⟨heq, hsub.cons j⟩) (fun k hk hle => ?_)
      fun k _ hlt => .inl hlt
    refine (Nat.lt_or_eq_of_le hle).imp_right fun heq => ⟨heq, ?_⟩
    exact (List.singleton_sublist.2 ((arrivals_perm l).mem_iff.1 hk)).cons_cons j

/-! ## The recursion -/

/-- When the last of these jobs is done, if one server takes them in turn: each when it is there and
the one in front of it is done, and then for its lifespan. -/
def completion (l : List Job) : Nat := l.foldl (fun t k => max t k.start + k.lifespan) 0

theorem completion_concat (l : List Job) (k : Job) :
    completion (l ++ [k]) = max (completion l) k.start + k.lifespan := by
  rw [completion, List.foldl_append]
  rfl

theorem completion_le_append (front back : List Job) :
    completion front ≤ completion (front ++ back) := by
  induction back generalizing front with
  | nil => rw [List.append_nil]
  | cons k back ih =>
    rw [List.append_cons]
    refine Nat.le_trans ?_ (ih (front ++ [k]))
    rw [completion_concat]
    omega

/-- The line does not end before the service of any of its jobs does. -/
theorem completion_le (h : rest = front ++ k :: back) :
    max (completion front) k.start + k.lifespan ≤ completion rest := by
  rw [← completion_concat, h, List.append_cons front k back]
  exact completion_le_append _ back

/-! ## The line -/

/-- What is to be seen after `T` turns while the jobs of `past` have been done, that of `cur` is on
the CPU and those of `ahead` are ready. -/
structure View.Line (c : Scenario) (v : View) (T : Nat) (past : List Job) (cur : Option Job)
    (ahead : List Job) : Prop where
  order : arrivals c.jobs = past ++ cur.toList ++ (ahead ++ v.pending)
  queue : v.queue = ahead.map (·.pid)
  done : ∀ k ∈ past, v.status k.pid = some .terminated
  due : ∀ k ∈ ahead, k.start ≤ v.tick
  busy : ∀ k, cur = some k → v.status k.pid = some .running ∧
    max (completion past) k.start + v.age k.pid = T
  /-- The CPU is left by the last job that was done, or has been waiting for the next one. -/
  free : cur = none → (∀ q, v.status q ≠ some .running) ∧ (completion past = T ∨
    completion past ≤ T ∧ ahead ++ v.pending ≠ [] ∧ ∀ k ∈ ahead ++ v.pending, T ≤ k.start)

/-- The jobs form a line; where the CPU has found nothing to do nobody is ready. -/
def Moment.Served (c : Scenario) (a : Moment) : Prop :=
  ∃ past cur ahead, a.view.Line c a.turns past cur ahead ∧
    (a.phase = .closing false → cur = none ∧ ahead = [])

theorem served_opening : (opening c).moment.Served c := by
  refine ⟨[], none, [], ⟨rfl, rfl, nofun, nofun, nofun, fun _ => ⟨nofun, .inl rfl⟩⟩, nofun⟩

/-- The process on the CPU is that of the job that is being served. -/
theorem View.Line.served (h : a.view.Line c T past cur ahead) (hreg : a.Regular c)
    (hp : a.view.status p = some .running) : ∃ k, cur = some k ∧ k.pid = p := by
  cases cur with
  | none => exact absurd hp ((h.free rfl).1 p)
  | some k => exact ⟨k, rfl, hreg.filed.running_unique (h.busy k rfl).1 hp⟩

theorem View.Line.job_mem (h : v.Line c T past cur ahead)
    (hk : k ∈ past ++ cur.toList ++ (ahead ++ v.pending)) : k ∈ c.jobs := by
  rw [← h.order] at hk
  exact (arrivals_perm c.jobs).mem_iff.1 hk

/-- Where every job has been done nobody is alive. -/
theorem View.Line.idle (h : a.view.Line c T past none []) (hreg : a.Regular c)
    (hp : a.pending = []) : a.machine.liveCount = 0 := by
  have horder : arrivals c.jobs = past := by
    have horder := h.order
    change _ = past ++ [] ++ ([] ++ a.pending) at horder
    rwa [hp, List.append_nil, List.append_nil, List.append_nil] at horder
  refine (liveCount_eq_zero hreg.filed).2 fun p ⟨st, hst, hne⟩ => ?_
  obtain ⟨x, hx⟩ := Machine.exists_record hst
  obtain ⟨k, hk, rfl, -⟩ := (hreg.scripted.plays p x hx).job
  have hdone : a.machine.status? k.pid = some .terminated := by
    refine h.done k ?_
    rwa [← horder, (arrivals_perm c.jobs).mem_iff]
  rw [hdone] at hst
  exact hne (Option.some.inj hst).symm

/-- The FIFO policy picks what is at the head of the queue. -/
theorem head_of_firstBest {m : Machine} {l : List Pid}
    (h : FirstBest (m.Beats Policy.fifo.beats) p l) : ∃ post, l = p :: post :=
  h.head fun _ ⟨_, _, _, _, hxy⟩ => hxy

/-! ## Moves of the line -/

namespace View.Line

/-- A job joins the line at its end. -/
theorem arrive {u : List Job} (h : v.Line c T past cur ahead) (hp : v.pending = k :: u)
    (hstart : k.start ≤ v.tick) (hnew : v.status k.pid = none) :
    View.Line c { v with
      queue := v.queue ++ [k.pid]
      status := Function.update v.status k.pid (some .ready)
      pending := u } T past cur (ahead ++ [k]) := by
  have hkeep : ∀ {q st}, v.status q = some st →
      Function.update v.status k.pid (some .ready) q = some st := by
    intro q st hq
    refine (Function.update_of_ne ?_ _ _).trans hq
    rintro rfl
    cases hnew.symm.trans hq
  have hrest : ahead ++ [k] ++ u = ahead ++ v.pending := by
    rw [hp, List.append_assoc]
    rfl
  refine ⟨?_, ?_, fun m hm => hkeep (h.done m hm), fun m hm => ?_, fun m hm => ?_, fun hnone => ?_⟩
  · rw [h.order]
    exact congrArg _ hrest.symm
  · rw [List.map_append, ← h.queue]
    rfl
  · rcases List.mem_append.1 hm with hm | hm
    · exact h.due m hm
    · rw [List.mem_singleton.1 hm]
      exact hstart
  · obtain ⟨hrun, hage⟩ := h.busy m hm
    exact ⟨hkeep hrun, hage⟩
  · obtain ⟨hn, hturn⟩ := h.free hnone
    refine ⟨fun q hq => hn q (status_of_update (by simp) hq).2, ?_⟩
    dsimp only
    rwa [hrest]

/-- The free CPU takes the job at the head of the line. -/
theorem pick (h : v.Line c v.tick past none (k :: ahead)) (hready : v.status k.pid = some .ready)
    (hage : v.age k.pid = 0) :
    View.Line c { v with
      queue := v.queue.erase k.pid
      status := Function.update v.status k.pid (some .running) } v.tick past (some k) ahead := by
  refine ⟨?_, ?_, fun m hm => ?_, fun m hm => h.due m (List.mem_cons_of_mem k hm), fun m hm => ?_,
    nofun⟩
  · rw [h.order]
    simp
  · dsimp only
    rw [h.queue, List.map_cons, List.erase_cons_head]
  · have hdone := h.done m hm
    refine (Function.update_of_ne ?_ _ _).trans hdone
    intro heq
    rw [heq, hready] at hdone
    cases hdone
  · obtain rfl := Option.some.inj hm
    refine ⟨Function.update_self _ _ _, ?_⟩
    have hstart : k.start ≤ v.tick := h.due k List.mem_cons_self
    dsimp only
    rw [hage]
    rcases (h.free rfl).2 with hturn | ⟨hle, -, hturn⟩
    · omega
    · have hk := hturn k List.mem_cons_self
      omega

/-- The job on the CPU is served for one turn. -/
theorem run (h : v.Line c T past (some k) ahead) (hn : n = v.age k.pid + 1) :
    View.Line c { v with age := Function.update v.age k.pid n } (T + 1) past (some k) ahead := by
  refine ⟨h.order, h.queue, h.done, h.due, fun m hm => ?_, nofun⟩
  obtain rfl := Option.some.inj hm
  obtain ⟨hrun, hage⟩ := h.busy k rfl
  refine ⟨hrun, ?_⟩
  dsimp only
  rw [Function.update_self]
  omega

/-- The job on the CPU is done. -/
theorem exit (h : v.Line c T past (some k) ahead)
    (hone : ∀ q, v.status q = some .running → q = k.pid) (hage : v.age k.pid = k.lifespan) :
    View.Line c { v with status := Function.update v.status k.pid (some .terminated) } T
      (past ++ [k]) none ahead := by
  refine ⟨?_, h.queue, fun m hm => ?_, h.due, nofun, fun _ => ⟨fun q hq => ?_, .inl ?_⟩⟩
  · rw [h.order]
    simp
  · dsimp only
    rw [Function.update_apply]
    split
    · rfl
    · next hne =>
      rcases List.mem_append.1 hm with hm | hm
      · exact h.done m hm
      · exact absurd (congrArg Job.pid (List.mem_singleton.1 hm)) hne
  · obtain ⟨hqk, hrun⟩ := status_of_update (by simp) hq
    exact hqk (hone q hrun)
  · rw [completion_concat, ← hage]
    exact (h.busy k rfl).2

/-- A tick in which a job was served passes. -/
theorem tick (h : v.Line c T past cur ahead) :
    View.Line c { v with tick := v.tick + 1 } T past cur ahead :=
  ⟨h.order, h.queue, h.done, fun m hm => Nat.le_succ_of_le (h.due m hm), h.busy, h.free⟩

/-- A tick in which nobody was there passes. -/
theorem pass (h : v.Line c v.tick past none []) (hp : v.pending ≠ [])
    (hlater : ∀ k ∈ v.pending.head?, v.tick < k.start) :
    View.Line c { v with tick := v.tick + 1 } (v.tick + 1) past none [] := by
  obtain ⟨hn, hturn⟩ := h.free rfl
  have hwait : ∀ k ∈ v.pending, v.tick + 1 ≤ k.start := by
    have hsorted := arrivals_sorted c.jobs
    rw [h.order] at hsorted
    have hsorted : v.pending.Pairwise (·.start ≤ ·.start) := (List.pairwise_append.1 hsorted).2.1
    cases hpending : v.pending with
    | nil => exact nofun
    | cons m u =>
      rw [hpending] at hlater hsorted
      have hm : v.tick < m.start := hlater m rfl
      intro k hk
      rcases List.mem_cons.1 hk with rfl | hk
      · exact hm
      · exact Nat.lt_of_lt_of_le hm ((List.pairwise_cons.1 hsorted).1 k hk)
  refine ⟨h.order, h.queue, h.done, nofun, nofun, fun _ => ⟨hn, .inr ⟨?_, hp, hwait⟩⟩⟩
  rcases hturn with hturn | ⟨hturn, -⟩
  · exact Nat.le_succ_of_le (Nat.le_of_eq hturn)
  · exact Nat.le_succ_of_le hturn

end View.Line

/-- A move takes the line on. -/
theorem Moment.Served.move (hc : c.Valid) (hreg : a.Regular c) (hex : a.Exclusive)
    (hlater : a.phase ≠ .arriving → ∀ k ∈ a.pending.head?, a.machine.tick < k.start)
    (h : a.Served c) (hm : Move .fifo a l b) : b.Served c := by
  obtain ⟨past, cur, ahead, hline, hidle⟩ := h
  rw [turns_view] at hline
  have free : (∀ q, a.view.status q ≠ some .running) → cur = none := by
    intro hn
    cases cur with
    | none => rfl
    | some k => exact absurd (hline.busy k rfl).1 (hn k.pid)
  unfold Served
  rw [turns_view]
  cases serves_move rfl hreg hex hm with
  | @arrive k _ ha hb hp hstart hnew hv =>
    rw [ha] at hline
    rw [hb, hv]
    exact ⟨past, cur, ahead ++ [k], hline.arrive hp hstart hnew, nofun⟩
  | begin _ ha hb _ hv =>
    rw [ha] at hline
    rw [hb, hv]
    exact ⟨past, cur, ahead, hline, nofun⟩
  | idle _ ha hb hn hempty hv =>
    rw [ha] at hline
    rw [hb, hv]
    exact ⟨past, cur, ahead, hline, fun _ =>
      ⟨free hn, List.map_eq_nil_iff.1 (hline.queue.symm.trans hempty)⟩⟩
  | stay _ _ _ hb ht hv =>
    rw [ht, hv]
    exact ⟨past, cur, ahead, hline, fun h => absurd h hb⟩
  | @pick p _ _ _ _ _ ha hb hn hbest hv =>
    obtain ⟨post, hpost⟩ := head_of_firstBest hbest
    have hready : a.view.status p = some .ready := (hreg.filed.mem_ready p).1 hbest.mem
    obtain ⟨k, ahead, rfl, rfl, rfl⟩ := List.map_eq_cons_iff.1 (hline.queue.symm.trans hpost)
    obtain rfl := free hn
    rw [ha] at hline
    rw [hb, hv]
    exact ⟨past, some k, ahead, hline.pick hready (hex.fresh k.pid hready), nofun⟩
  | @run p n _ _ ha hb hrun hn hv =>
    obtain ⟨k, rfl, rfl⟩ := hline.served hreg hrun
    rw [ha] at hline
    rw [hb, hv]
    refine ⟨past, some k, ahead, hline.run hn, fun h => ?_⟩
    rw [h] at hb
    cases hb
  | @exit p _ _ ha hb hrun hdone hv =>
    obtain ⟨k, rfl, rfl⟩ := hline.served hreg hrun
    obtain ⟨x, hx, hd⟩ := hdone
    have hk : k ∈ c.jobs := hline.job_mem (by simp)
    have hage : a.view.age k.pid = k.lifespan := by
      refine Nat.le_antisymm (ageOf_le_lifespan hc.sound hreg hk) ?_
      rw [ProcessRecord.isDone_iff, (record_of_job hc.sound hreg.scripted hk hx).2,
        ← Machine.ageOf_of hx] at hd
      exact hd
    rw [ha] at hline
    rw [hb, hv]
    exact ⟨past ++ [k], none, ahead,
      hline.exit (fun q hq => hreg.filed.running_unique hq hrun) hage, nofun⟩
  | @close ran _ ha hb hover hv =>
    rw [ha] at hline
    rw [hb, hv]
    cases ran with
    | true => exact ⟨past, cur, ahead, hline.tick, nofun⟩
    | false =>
      obtain ⟨rfl, rfl⟩ := hidle ha
      have hpending : a.pending ≠ [] := fun hp => hover ⟨rfl, hp, hline.idle hreg hp⟩
      exact ⟨past, none, [], hline.pass hpending (hlater (by simp [ha])), nofun⟩

theorem Path.served (hc : c.Valid) (g : Path .fifo (opening c).moment i a) : a.Served c := by
  induction g with
  | refl => exact served_opening
  | snoc g hm ih =>
    exact ih.move hc (g.regular hc) (g.exclusive rfl hc) g.pending_later hm

/-! ## Ages and ticks -/

/-- Where a job stands in the line. -/
theorem place_in_line (h : past ++ cur.toList ++ rest = front ++ k :: back) :
    (∃ mid, past = front ++ k :: mid) ∨ past = front ∧ cur = some k ∨
      k ∈ rest ∧ ∃ mid, front = past ++ cur.toList ++ mid := by
  induction past generalizing front with
  | nil =>
    cases cur with
    | none =>
      change rest = _ at h
      exact .inr (.inr ⟨by simp [h], front, rfl⟩)
    | some m =>
      change m :: rest = _ at h
      rcases List.cons_eq_append_iff.1 h with ⟨rfl, hcons⟩ | ⟨mid, rfl, hrest⟩
      · rw [(List.cons.inj hcons).1]
        exact .inr (.inl ⟨rfl, rfl⟩)
      · exact .inr (.inr ⟨by simp [hrest], mid, rfl⟩)
  | cons m past ih =>
    change m :: (past ++ cur.toList ++ rest) = _ at h
    rcases List.cons_eq_append_iff.1 h with ⟨rfl, hcons⟩ | ⟨front, rfl, hrest⟩
    · rw [(List.cons.inj hcons).1]
      exact .inl ⟨past, rfl⟩
    · rcases ih hrest with ⟨mid, rfl⟩ | ⟨rfl, hcur⟩ | ⟨hk, mid, rfl⟩
      · exact .inl ⟨mid, rfl⟩
      · exact .inr (.inl ⟨rfl, hcur⟩)
      · exact .inr (.inr ⟨hk, mid, rfl⟩)

namespace View.Line

/-- The jobs that have been done took no more turns than there were. -/
theorem completion_le_turns (h : v.Line c T past cur ahead) : completion past ≤ T := by
  cases cur with
  | some k =>
    have hturn := (h.busy k rfl).2
    omega
  | none =>
    rcases (h.free rfl).2 with hturn | ⟨hturn, -⟩
    · exact Nat.le_of_eq hturn
    · exact hturn

/-- No turn was lost: the CPU has been serving, or the next job is still to arrive. -/
theorem turns_le (h : v.Line c T past cur ahead)
    (hage : ∀ k ∈ c.jobs, v.age k.pid ≤ k.lifespan) :
    T ≤ completion (past ++ cur.toList) ∨
      ahead ++ v.pending ≠ [] ∧ ∀ k ∈ ahead ++ v.pending, T ≤ k.start := by
  cases cur with
  | some k =>
    have hturn := (h.busy k rfl).2
    have hle := hage k (h.job_mem (by simp))
    rw [Option.toList_some, completion_concat]
    omega
  | none =>
    rw [Option.toList_none, List.append_nil]
    rcases (h.free rfl).2 with hturn | ⟨-, hwait⟩
    · exact .inl (Nat.le_of_eq hturn.symm)
    · exact .inr hwait

/-- The turns do not go beyond the end of the line. -/
theorem turns_le_completion (h : v.Line c T past cur ahead)
    (hage : ∀ k ∈ c.jobs, v.age k.pid ≤ k.lifespan) : T ≤ completion (arrivals c.jobs) := by
  rw [h.order]
  rcases h.turns_le hage with hturn | ⟨hne, hwait⟩
  · exact Nat.le_trans hturn (completion_le_append _ _)
  · obtain ⟨k, rest, hrest⟩ := List.exists_cons_of_ne_nil hne
    have hstart := hwait k (by simp [hrest])
    have hend := completion_le (congrArg (past ++ cur.toList ++ ·) hrest)
    omega

end View.Line

/-- After `T` turns a job has the age that the recursion says: none before its service, and that of
its lifespan behind it. -/
theorem Path.age_fifo (hc : c.Valid) (g : Path .fifo (opening c).moment i a)
    (hk : arrivals c.jobs = front ++ k :: back) :
    a.machine.ageOf k.pid = min k.lifespan (a.turns - max (completion front) k.start) := by
  obtain ⟨past, cur, ahead, hline, -⟩ := g.served hc
  have hreg := g.regular hc
  have hmem : k ∈ c.jobs := by
    rw [← (arrivals_perm c.jobs).mem_iff, hk]
    simp
  have hold : ∀ m ∈ c.jobs, a.machine.ageOf m.pid ≤ m.lifespan :=
    fun m hm => ageOf_le_lifespan hc.sound hreg hm
  rcases place_in_line (hline.order.symm.trans hk) with ⟨mid, hpast⟩ | ⟨rfl, rfl⟩ |
    ⟨hrest, mid, rfl⟩
  · have hdone : a.machine.status? k.pid = some .terminated := hline.done k (by simp [hpast])
    have hage := g.age_terminated hc hmem hdone
    have hend := completion_le hpast
    have hturn := hline.completion_le_turns
    omega
  · have hturn : _ + a.machine.ageOf k.pid = _ := (hline.busy k rfl).2
    have hle := hold k hmem
    omega
  · have hage : a.machine.ageOf k.pid = 0 := by
      rcases List.mem_append.1 hrest with hahead | hpending
      · have hqueue : k.pid ∈ a.machine.ready.pids := by
          change k.pid ∈ a.view.queue
          rw [hline.queue]
          exact List.mem_map_of_mem hahead
        exact (g.exclusive rfl hc).fresh k.pid ((hreg.filed.mem_ready k.pid).1 hqueue)
      · rw [Machine.ageOf, Machine.age?_eq_none.2 (hreg.pending k hpending).2]
        rfl
    have hservice : a.turns ≤ max (completion (past ++ cur.toList ++ mid)) k.start := by
      rcases hline.turns_le hold with hturn | ⟨-, hwait⟩
      · exact Nat.le_trans (Nat.le_trans hturn (completion_le_append _ mid)) (Nat.le_max_left _ _)
      · exact Nat.le_trans (hwait k hrest) (Nat.le_max_right _ _)
    omega

/-- A job runs when its service has begun, one tick behind the other. -/
theorem Path.ran_fifo (hc : c.Valid) (g : Path .fifo (opening c).moment i a)
    (hk : arrivals c.jobs = front ++ k :: back) (hran : ⟨t, .ran k.pid n⟩ ∈ i.events) :
    t + 1 = max (completion front) k.start + n := by
  obtain ⟨pre, post, hi⟩ := List.append_of_mem hran
  obtain ⟨d, e, j, rest, -, -, hd, ht, hm, -⟩ := g.split_run hi
  obtain ⟨hn, hage⟩ := ageOf_ran hm (List.mem_singleton_self _)
  have hbefore := hd.age_fifo hc hk
  have hafter := (hd.snoc hm).age_fifo hc hk
  obtain ⟨-, _, hphase, -⟩ := hm.of_ran (List.mem_singleton_self _)
  have hturns : d.turns = t := by
    rw [Moment.turns_view, hphase]
    exact ht
  rcases turns_move hm with hsame | hnext <;> omega

/-- Where a run comes to its end: in a tick that finds nothing left to do, or at the limit. -/
theorem playAll_stops (hc : c.Valid) {f : Finished} (hf : playAll s c = .ok f) :
    ∃ b, Path s (opening c).moment f.journal b ∧ b.turns = f.machine.tick ∧
      (f.exit = .normal ∧ b.phase = .closing false ∧ Over false b.pending b.machine ∧
          f.machine.tick < c.maxTicks ∨
        f.exit = .tickLimit c.maxTicks ∧ f.machine.tick = c.maxTicks) := by
  have hexits := playAll_exits hc hf
  have hends := playAll_ends hf
  generalize f.journal = j at hends ⊢
  generalize f.machine = m at hends hexits ⊢
  generalize f.exit = e at hends hexits ⊢
  cases hends with
  | limit g =>
    refine ⟨_, g, rfl, .inr ?_⟩
    generalize hm : m.tick = u at hexits
    cases hexits with
    | ended _ hk he => cases (tickAt_ended hc hk he).1
    | limit => exact ⟨rfl, rfl⟩
  | @normal _ ran _ _ _ g hover =>
    obtain rfl := hover.1
    refine ⟨_, g, rfl, .inl ⟨rfl, rfl, hover, ?_⟩⟩
    cases hexits with
    | ended hlt hk he =>
      rw [(tickAt_ended hc hk he).2]
      exact hlt
  | broken g _ hv =>
    rw [(g.regular hc).filed.audit_eq_ok] at hv
    cases hv

/-- The ticks in which a job runs. -/
theorem Path.ticks_fifo (hc : c.Valid) (g : Path .fifo (opening c).moment i a)
    (hk : arrivals c.jobs = front ++ k :: back) :
    ⟨t, .ran k.pid n⟩ ∈ i.events ↔ max (completion front) k.start ≤ t ∧
      t < max (completion front) k.start + k.lifespan ∧ t < a.turns ∧
        t + 1 = max (completion front) k.start + n := by
  have hage := g.age_fifo hc hk
  rw [mem_ran_of_consecutive (g.agesOf_run k.pid) fun u m => g.ran_fifo hc hk]
  omega

/-- A run has nothing left to do when the last job of the line has been served. -/
theorem Path.over_fifo (hc : c.Valid) (g : Path .fifo (opening c).moment i a)
    (hphase : a.phase = .closing false) (hp : a.pending = []) :
    a.turns = completion (arrivals c.jobs) := by
  obtain ⟨past, cur, ahead, hline, hidle⟩ := g.served hc
  obtain ⟨rfl, rfl⟩ := hidle hphase
  have hpending : a.view.pending = [] := hp
  have horder := hline.order
  have hturn := (hline.free rfl).2
  rw [hpending] at horder hturn
  simp only [Option.toList_none, List.append_nil] at horder
  rw [horder]
  rcases hturn with hturn | ⟨-, hne, -⟩
  · exact hturn.symm
  · exact absurd rfl hne

/-- The turns do not go beyond the service of the last job of the line. -/
theorem Path.turns_fifo (hc : c.Valid) (g : Path .fifo (opening c).moment i a) :
    a.turns ≤ completion (arrivals c.jobs) := by
  obtain ⟨past, cur, ahead, hline, -⟩ := g.served hc
  exact hline.turns_le_completion fun k hk => ageOf_le_lifespan hc.sound (g.regular hc) hk

end Simulation

open Simulation

variable {c : Scenario}

/-- Under the FIFO policy a run serves the jobs in the order of their arrival as a single server
would, whatever they hold: each runs in the ticks that the recursion gives it, as far as the limit
permits, and the run ends normally with the last of them. -/
theorem fifo_single_server (hc : c.Valid) :
    (arrivals c.jobs).Perm c.jobs ∧ (arrivals c.jobs).Pairwise c.Before ∧
    ∃ f, playAll .fifo c = .ok f ∧
      (ResourceTable.CanAddress c.resourceCount →
        simulate .fifo c = .ok ⟨traceOf c f, logOf .fifo c f⟩) ∧
      (∀ front k back, arrivals c.jobs = front ++ k :: back →
        ∀ t n, ⟨t, .ran k.pid n⟩ ∈ (traceOf c f).events ↔
          completion (front ++ [k]) - k.lifespan ≤ t ∧ t < completion (front ++ [k]) ∧
            t < c.maxTicks ∧ t + 1 = completion (front ++ [k]) - k.lifespan + n) ∧
      (completion (arrivals c.jobs) < c.maxTicks →
        (traceOf c f).exit = .normal ∧
          (traceOf c f).endTick = completion (arrivals c.jobs)) := by
  obtain ⟨f, hf⟩ := exists_playAll (s := .fifo) hc
  refine ⟨arrivals_perm c.jobs, arrivals_before c.jobs, f, hf,
    fun ht => simulate_of_playAll hc ht hf, fun front k back hk t n => ?_, fun hmax => ?_⟩
  · obtain ⟨b, g, hturns, hstop⟩ := playAll_stops hc hf
    have hticks := g.ticks_fifo (t := t) (n := n) hc hk
    have hmem : k ∈ c.jobs := by
      rw [← (arrivals_perm c.jobs).mem_iff, hk]
      simp
    rw [hturns] at hticks
    rw [completion_concat, Nat.add_sub_cancel]
    refine hticks.trans ?_
    rcases hstop with ⟨-, hphase, hover, hlt⟩ | ⟨-, hlimit⟩
    · -- every job has been done, so that its service has ended before the run
      have hover : Over false b.pending b.machine := hover
      have hage := g.age_terminated hc hmem (g.all_terminated hc hover hmem)
      rw [g.age_fifo hc hk, hturns] at hage
      omega
    · rw [hlimit]
  · obtain ⟨b, g, hturns, hstop⟩ := playAll_stops hc hf
    change f.exit = _ ∧ f.machine.tick = _
    rw [← hturns]
    rcases hstop with ⟨hexit, hphase, hover, -⟩ | ⟨-, hlimit⟩
    · exact ⟨hexit, g.over_fifo hc hphase hover.2.1⟩
    · have hle := g.turns_fifo hc
      omega

theorem fifo_single_server_contended :
    completion (arrivals Scenario.contended.jobs) = 6 ∧
      ∃ f, simulate .fifo .contended = .ok ⟨traceOf .contended f, logOf .fifo .contended f⟩ ∧
        (∀ t n, ⟨t, .ran ⟨2⟩ n⟩ ∈ (traceOf .contended f).events ↔
          4 ≤ t ∧ t < 6 ∧ t < 20 ∧ t + 1 = 4 + n) ∧
        (traceOf .contended f).exit = .normal ∧ (traceOf .contended f).endTick = 6 := by
  obtain ⟨-, -, f, -, hsim, hticks, hend⟩ := fifo_single_server (c := .contended) (by decide)
  refine ⟨by decide, f, hsim (by decide), fun t n => ?_, hend (by decide)⟩
  exact hticks [⟨⟨1⟩, "low", 0, 4, 1, [⟨⟨0⟩, 0, 3⟩]⟩] ⟨⟨2⟩, "high", 1, 2, 9, [⟨⟨0⟩, 0, 1⟩]⟩ []
    (by decide) t n

end Uniprocessor
