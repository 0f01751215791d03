import Uniprocessor.Proofs.Chronicle
/-
  A run goes on in one way only.

  What is first best, what a decision makes of a machine and what a release makes of it are each
  determined (`FirstBest.unique`, `Decides.unique`, `Releases.unique`), so that in a filed machine
  the functions do what the relations allow (`Filed.schedule_eq_ok`, `Filed.release_eq_ok`).

  A moment has at most one move (`Move.unique`), and of two paths from a moment one goes on where
  the other stops (`Path.linear`).  So a path to the end of a tick, however it was found, is what
  `step` plays (`step_of_path`).
-/

namespace Uniprocessor

/-- Of two elements that are first best neither can stand before the other. -/
theorem FirstBest.unique {α : Type} {beats : α → α → Prop} {x y : α} {l : List α}
    (hx : FirstBest beats x l) (hy : FirstBest beats y l) : x = y := by
  obtain ⟨pre, post, rfl, hpre, hpost⟩ := hx
  obtain ⟨pre', post', hl, hpre', hpost'⟩ := hy
  -- the one in front beats the other, which nothing in front of it may
  rcases List.append_eq_append_iff.1 hl with ⟨i, rfl, hi⟩ | ⟨i, rfl, hi⟩
  · cases i with
    | nil => exact (List.cons.inj hi).1
    | cons z i =>
      obtain ⟨rfl, rfl⟩ := List.cons.inj hi
      exact absurd (hpre' x (by simp)) (hpost y (by simp))
  · cases i with
    | nil => exact (List.cons.inj hi).1.symm
    | cons z i =>
      obtain ⟨rfl, rfl⟩ := List.cons.inj hi
      exact absurd (hpre y (by simp)) (hpost' x (by simp))

namespace Policy

variable {π : Policy} {m n n' : Machine} {d d' : Decision} {p q : Pid}

theorem works_unique (hp : m.Works p) (hq : m.Works q) : p = q :=
  Option.some.inj (hp.1.symm.trans hq.1)

/-- A process that keeps the CPU does not retire. -/
theorem Retires.not_keep (h : π.Retires m n) (hp : m.Works p) : π.retirement ≠ .keep := by
  cases h with
  | leave hw => exact absurd hp (hw p)
  | requeue _ hπ _ => exact hπ

theorem Retires.unique (h : π.Retires m n) (h' : π.Retires m n') : n = n' := by
  cases h with
  | leave hw =>
    cases h' with
    | leave => rfl
    | requeue hq => exact absurd hq (hw _)
  | requeue hp =>
    cases h' with
    | leave hw => exact absurd hp (hw _)
    | requeue hq => rw [works_unique hp hq]

theorem Decides.unique (h : π.Decides m n d) (h' : π.Decides m n' d') : n = n' ∧ d = d' := by
  cases h with
  | keep hp hπ =>
    cases h' with
    | keep hq _ => exact ⟨rfl, congrArg Decision.keep (works_unique hp hq)⟩
    | idle hr _ => exact absurd hπ (hr.not_keep hp)
    | pick hr => exact absurd hπ (hr.not_keep hp)
  | idle hr hempty =>
    cases h' with
    | keep hq hπ => exact absurd hπ (hr.not_keep hq)
    | idle hr' _ => exact ⟨by rw [hr.unique hr'], rfl⟩
    | pick hr' hbest =>
      have hmem := hbest.mem
      rw [← hr.unique hr', hempty] at hmem
      cases hmem
  | pick hr hbest hx _ =>
    cases h' with
    | keep hq hπ => exact absurd hπ (hr.not_keep hq)
    | idle hr' hempty =>
      have hmem := hbest.mem
      rw [hr.unique hr', hempty] at hmem
      cases hmem
    | pick hr' hbest' hx' _ =>
      obtain rfl := hr.unique hr'
      obtain rfl := hbest.unique hbest'
      obtain rfl := Option.some.inj (hx.symm.trans hx')
      exact ⟨rfl, rfl⟩

end Policy

theorem Protocol.Releases.unique {κ : Protocol} {m n n' : Machine} {r : ResourceId} {p : Pid}
    {o o' : Option Pid} (h : κ.Releases m r p n o) (h' : κ.Releases m r p n' o') :
    n = n' ∧ o = o' := by
  cases h with
  | quiet _ hempty =>
    cases h' with
    | quiet => exact ⟨rfl, rfl⟩
    | wake _ hbest =>
      have hmem := hbest.mem
      rw [hempty] at hmem
      cases hmem
  | wake _ hbest =>
    cases h' with
    | quiet _ hempty =>
      have hmem := hbest.mem
      rw [hempty] at hmem
      cases hmem
    | wake _ hbest' =>
      obtain rfl := hbest.unique hbest'
      exact ⟨rfl, rfl⟩

namespace Machine.Filed

variable {m n : Machine} {r : ResourceId} {p : Pid}

/-- A change that leaves a record as it is leaves the machine as it is. -/
theorem adjust_eq_self (h : m.Filed) {f : ProcessRecord → ProcessRecord}
    (hf : ∀ x, m.process? p = some x → f x = x) : m.adjust p f = m := by
  have hentries : (m.processes.entries.map fun e => if e.1 = p then (e.1, f e.2) else e) =
      m.processes.entries := by
    refine (List.map_congr_left fun e he => ?_).trans (List.map_id _)
    split
    · next hp =>
      have hx : m.process? p = some e.2 := (PidMap.mem_entries h.sorted).1 (hp ▸ he)
      rw [hf _ hx]
      rfl
    · rfl
  rw [Machine.adjust, PidMap.adjust, hentries]

theorem schedule_eq_ok {π : Policy} {d : Decision} (h : m.Filed) :
    π.schedule m = .ok (n, d) ↔ π.Decides m n d := by
  refine ⟨Policy.schedule_decides, fun hd => ?_⟩
  obtain ⟨k, e, hk⟩ := h.exists_schedule (π := π)
  obtain ⟨rfl, rfl⟩ := hd.unique (Policy.schedule_decides hk)
  exact hk

theorem release_eq_ok {κ : Protocol} {o : Option Pid} (h : m.Filed) :
    κ.release m r p = .ok (n, o) ↔ κ.Releases m r p n o := by
  refine ⟨Protocol.release_releases, fun hr => ?_⟩
  obtain ⟨k, w, hk⟩ := h.exists_release (κ := κ) hr.owned
  obtain ⟨rfl, rfl⟩ := hr.unique (Protocol.release_releases hk)
  exact hk

end Machine.Filed

namespace Simulation

variable {s : Strategy} {c : Scenario} {a b e : Moment} {i j : Journal} {l l' : List Activity}

/-- A moment has one move at most. -/
theorem Move.unique (h : Move s a l b) (h' : Move s a l' e) : l = l' ∧ b = e := by
  cases h with
  | arrive hj hn =>
    cases h' with
    | arrive _ hn' => cases hn.symm.trans hn'; exact ⟨rfl, rfl⟩
    | begin hlate => exact absurd hj (Nat.not_le_of_lt (hlate _ rfl))
  | begin hlate =>
    cases h' with
    | arrive hj => exact absurd hj (Nat.not_le_of_lt (hlate _ rfl))
    | begin => exact ⟨rfl, rfl⟩
  | idle hn hnext =>
    cases h' with
    | idle hn' => cases hn.symm.trans hn'; exact ⟨rfl, rfl⟩
    | dispatch hn' hnext' => cases hn.symm.trans hn'; cases hnext.symm.trans hnext'
  | dispatch hn hnext hdue =>
    cases h' with
    | idle hn' hnext' => cases hn.symm.trans hn'; cases hnext.symm.trans hnext'
    | dispatch hn' hnext' hdue' =>
      cases hn.symm.trans hn'
      cases hnext.symm.trans hnext'
      cases hdue.symm.trans hdue'
      exact ⟨rfl, rfl⟩
  | grant hn =>
    cases h' with
    | grant hn' => cases hn.symm.trans hn'; exact ⟨rfl, rfl⟩
    | block hn' => cases hn.symm.trans hn'
  | block hn =>
    cases h' with
    | grant hn' => cases hn.symm.trans hn'
    | block hn' => cases hn.symm.trans hn'; exact ⟨rfl, rfl⟩
  | run hn hx hdue =>
    cases h' with
    | run hn' hx' hdue' =>
      cases hn.symm.trans hn'
      cases hx.symm.trans hx'
      cases hdue.symm.trans hdue'
      exact ⟨rfl, rfl⟩
  | release hn =>
    cases h' with
    | release hn' => cases hn.symm.trans hn'; exact ⟨rfl, rfl⟩
  | remain hx hd =>
    cases h' with
    | remain => exact ⟨rfl, rfl⟩
    | exit hx' hd' => cases hx.symm.trans hx'; cases hd.symm.trans hd'
  | exit hx hd =>
    cases h' with
    | remain hx' hd' => cases hx.symm.trans hx'; cases hd.symm.trans hd'
    | exit => exact ⟨rfl, rfl⟩
  | close _ hn =>
    cases h' with
    | close _ hn' => cases hn.symm.trans hn'; exact ⟨rfl, rfl⟩

/-- Of two paths from a moment one goes on where the other stops. -/
theorem Path.linear (h : Path s a i b) (g : Path s a j e) :
    (∃ k, Path s b k e ∧ j = i ++ k) ∨ ∃ k, Path s e k b ∧ i = j ++ k := by
  induction h with
  | refl => exact .inl ⟨j, g, rfl⟩
  | @snoc d f i l _ hm ih =>
    rcases ih with ⟨k, hk, rfl⟩ | ⟨k, hk, rfl⟩
    · rcases hk.uncons with ⟨rfl, rfl⟩ | ⟨l', f', k, hm', hrest, rfl⟩
      · exact .inr ⟨_, hm.path, by rw [List.append_nil]⟩
      · obtain ⟨rfl, rfl⟩ := hm.unique hm'
        exact .inl ⟨k, hrest, (List.append_assoc _ _ _).symm⟩
    · exact .inr ⟨_, hk.snoc hm, List.append_assoc _ _ _⟩

/-- Behind the end of a tick comes the next one. -/
theorem Path.of_closing {ran : Bool} (h : Path s a j b) (ha : a.phase = .closing ran)
    (ht : b.machine.tick = a.machine.tick) : a = b ∧ j = [] := by
  refine h.uncons.resolve_right ?_
  rintro ⟨l, d, k, hm, hrest, -⟩
  have hle := hrest.tick_le
  cases hm with
  | close _ hn =>
    obtain ⟨-, rfl⟩ := Machine.advance_eq_ok.1 hn
    exact Nat.not_succ_le_self _ (ht ▸ hle)
  | arrive | begin | idle | dispatch | grant | block | run | release | remain | exit => cases ha

/-- A path to the end of a tick is what the tick plays. -/
theorem step_of_path (hc : c.Valid) {audit ran : Bool} {g : Progress} {m n : Machine}
    {u : List Job} (hg : g.moment.Regular c) (hbound : g.machine.tick + 1 < tickBound)
    (h : Path s g.moment j ⟨.closing ran, m, n, u⟩) (ht : m.tick = g.machine.tick) :
    u = g.later ∧ ∃ acts r, j = stamp g.machine.tick acts ∧ step s audit g = .ok r ∧
      Closes audit ran n m u acts r := by
  obtain ⟨r, hr⟩ : ∃ r, step s audit g = .ok r := exists_step hc hg hbound
  obtain ⟨ran', n', m', acts, ht', hplay, hcloses⟩ := step_path hr
  have same : (⟨.closing ran, m, n, u⟩ : Moment) = ⟨.closing ran', m', n', g.later⟩ ∧
      j = stamp g.machine.tick acts := by
    rcases h.linear hplay with ⟨k, hk, hj⟩ | ⟨k, hk, hj⟩
    · obtain ⟨heq, rfl⟩ := hk.of_closing rfl (ht'.trans ht.symm)
      exact ⟨heq, by rw [hj, List.append_nil]⟩
    · obtain ⟨heq, rfl⟩ := hk.of_closing rfl (ht.trans ht'.symm)
      exact ⟨heq.symm, by rw [hj, List.append_nil]⟩
  obtain ⟨heq, rfl⟩ := same
  cases heq
  exact ⟨rfl, acts, r, rfl, hr, hcloses⟩

end Simulation

end Uniprocessor
