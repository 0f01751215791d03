import Uniprocessor.Proofs.Selection
/-
  Queues under any sequence of operations, and the choice among their members.

  `Queue.Lined` is what operations keep of a queue that was empty at first: its members have been
  pushed, and whoever stands before another was last pushed longer ago.  So nobody stands in it
  twice (`Lined.nodup`).  `Lined.run` is the step and `lined_of_runAll` the sequence.

  A choice by a key in a linear order answers the member at the least place among those with the
  best key (`firstMaxBy_eq_some`); the least key is the greatest one of the dual order.

  Main statement: `queue_in_order`.
-/

namespace Uniprocessor

namespace Queue

/-! ## Operations -/

/-- The operations that change a queue. -/
inductive Operation where
  | push (p : Pid)
  /-- Takes out the head, if there is one. -/
  | pop
  | erase (p : Pid)
  deriving DecidableEq

/-- The queue after an operation. -/
def Operation.run (q : Queue) : Operation → Except Fault Queue
  | .push p => q.push p
  | .pop => .ok q.tail
  | .erase p => .ok (q.erase p)

/-- The queue after some operations, the first of them first. -/
def runAll : List Operation → Queue → Except Fault Queue
  | [], q => .ok q
  | o :: ops, q => do runAll ops (← o.run q)

/-- How many operations there were behind the last push of `p`. -/
def sincePush (p : Pid) (ops : List Operation) : Nat := ops.reverse.idxOf (.push p)

/-- What operations keep of a queue that was empty at first. -/
structure Lined (ops : List Operation) (q : Queue) : Prop where
  pushed : ∀ p ∈ q.pids, .push p ∈ ops
  order : q.pids.Pairwise fun a b => sincePush b ops < sincePush a ops

variable {ops more : List Operation} {o : Operation} {q r : Queue} {p : Pid} {f : Fault}

theorem sincePush_snoc :
    sincePush p (ops ++ [o]) = if o = .push p then 0 else sincePush p ops + 1 := by
  simp [sincePush, List.idxOf_cons]

namespace Lined

theorem nodup (h : Lined ops q) : q.pids.Nodup := by
  apply h.order.imp
  intro a b hlt hab
  subst hab
  exact Nat.lt_irrefl _ hlt

/-- Members that stay keep their order. -/
theorem stay (h : Lined ops q) (hr : r.pids.Sublist q.pids) (ho : ∀ p ∈ r.pids, o ≠ .push p) :
    Lined (ops ++ [o]) r where
  pushed p hp := List.mem_append_left _ (h.pushed p (hr.subset hp))
  order := by
    refine (h.order.sublist hr).imp_of_mem fun {a b} ha hb hlt => ?_
    rw [sincePush_snoc, sincePush_snoc, if_neg (ho a ha), if_neg (ho b hb)]
    exact Nat.succ_lt_succ hlt

/-- Whoever is pushed stands behind all others. -/
theorem push (h : Lined ops q) (hr : q.push p = .ok r) : Lined (ops ++ [.push p]) r := by
  obtain ⟨hp, hpids⟩ := push_eq_ok.1 hr
  have hother : ∀ a ∈ q.pids, Operation.push p ≠ .push a := by
    rintro a ha heq
    exact hp (Operation.push.inj heq ▸ ha)
  have hstay := h.stay (List.Sublist.refl _) hother
  constructor
  · intro a ha
    rw [hpids, List.mem_append, List.mem_singleton] at ha
    rcases ha with ha | rfl
    · exact hstay.pushed a ha
    · exact List.mem_append_right _ List.mem_cons_self
  · rw [hpids, List.pairwise_append]
    refine ⟨hstay.order, List.pairwise_singleton _ _, fun a ha b hb => ?_⟩
    rw [List.mem_singleton.1 hb, sincePush_snoc, sincePush_snoc, if_pos rfl, if_neg (hother a ha)]
    exact Nat.succ_pos _

theorem run (h : Lined ops q) (hr : o.run q = .ok r) : Lined (ops ++ [o]) r := by
  cases o with
  | push p => exact h.push hr
  | pop =>
    obtain rfl := Except.ok.inj hr
    exact h.stay (List.tail_sublist _) fun _ _ => nofun
  | erase p =>
    obtain rfl := Except.ok.inj hr
    exact h.stay List.erase_sublist fun _ _ => nofun

theorem runAll (h : Lined ops q) (hr : runAll more q = .ok r) : Lined (ops ++ more) r := by
  induction more generalizing ops q with
  | nil =>
    obtain rfl := Except.ok.inj hr
    rwa [List.append_nil]
  | cons o more ih =>
    obtain ⟨m, hm, hrest⟩ := bind_eq_ok.1 hr
    have hlined := ih (h.run hm) hrest
    rwa [List.append_assoc] at hlined

theorem start : Lined [] .empty where
  pushed := nofun
  order := .nil

end Lined

/-! ## Faults -/

theorem run_eq_error :
    o.run q = .error f ↔ ∃ p, o = .push p ∧ p ∈ q.pids ∧ f = .alreadyQueued p := by
  cases o with
  | push p => simp [Operation.run, push_eq_error]
  | pop => simp [Operation.run]
  | erase p => simp [Operation.run]

/-- Operations fail at the first push of a member. -/
theorem runAll_eq_error : runAll ops q = .error f ↔ ∃ pre p post m, ops = pre ++ .push p :: post ∧
    runAll pre q = .ok m ∧ p ∈ m.pids ∧ f = .alreadyQueued p := by
  induction ops generalizing q with
  | nil => simp [runAll]
  | cons o ops ih =>
    rw [runAll, bind_eq_error, run_eq_error]
    constructor
    · rintro (⟨p, rfl, hp, rfl⟩ | ⟨m, hm, hf⟩)
      · exact ⟨[], p, ops, q, rfl, rfl, hp, rfl⟩
      · obtain ⟨pre, p, post, n, rfl, hn, hp, rfl⟩ := ih.1 hf
        exact ⟨o :: pre, p, post, n, rfl, bind_eq_ok.2 ⟨m, hm, hn⟩, hp, rfl⟩
    · rintro ⟨pre, p, post, n, hops, hn, hp, rfl⟩
      cases pre with
      | nil =>
        obtain ⟨rfl, -⟩ := List.cons.inj hops
        obtain rfl := Except.ok.inj hn
        exact .inl ⟨p, rfl, hp, rfl⟩
      | cons o' pre =>
        obtain ⟨rfl, rfl⟩ := List.cons.inj hops
        obtain ⟨m, hm, hrest⟩ := bind_eq_ok.1 hn
        exact .inr ⟨m, hm, ih.2 ⟨pre, p, post, n, rfl, hrest, hp, rfl⟩⟩

end Queue

/-! ## Choices -/

section Choice

variable {α κ : Type} [LinearOrder κ] {good : α → Prop} {key : α → κ} {l : List α} {x y : α}

/-- `x` stands at the least place of `l` among those that are good. -/
def EarliestWith (good : α → Prop) (l : List α) (x : α) : Prop :=
  ∃ i : Nat, l[i]? = some x ∧ good x ∧ ∀ (j : Nat) (y : α), l[j]? = some y → good y → i ≤ j

theorem EarliestWith.unique (hx : EarliestWith good l x) (hy : EarliestWith good l y) : x = y := by
  obtain ⟨i, hi, hgood, hfirst⟩ := hx
  obtain ⟨j, hj, hgood', hfirst'⟩ := hy
  have hij : i = j := Nat.le_antisymm (hfirst j y hj hgood') (hfirst' i x hi hgood)
  subst hij
  exact Option.some.inj (hi.symm.trans hj)

theorem FirstBest.earliest (h : FirstBest (fun a b => key b < key a) x l) :
    EarliestWith (fun a => ∀ b ∈ l, key b ≤ key a) l x := by
  have hbest : ∀ b ∈ l, key b ≤ key x := fun b hb =>
    not_lt.1 (h.unbeaten (fun a => lt_irrefl _) (fun a b => lt_asymm) b hb)
  obtain ⟨pre, post, rfl, hpre, -⟩ := h
  refine ⟨pre.length, by simp, hbest, fun j y hj hy => Nat.le_of_not_lt fun hlt => ?_⟩
  -- what stands before the choice has a lesser key
  rw [List.getElem?_append_left hlt] at hj
  exact not_le_of_gt (hpre y (List.mem_of_getElem? hj)) (hy x (by simp))

theorem firstMaxBy_eq_some :
    firstMaxBy key l = some x ↔ EarliestWith (fun a => ∀ b ∈ l, key b ≤ key a) l x := by
  constructor
  · exact fun h => (firstMaxBy_split h).earliest
  · intro h
    cases hchoice : firstMaxBy key l with
    | none =>
      obtain ⟨i, hi, -⟩ := h
      rw [firstMaxBy_eq_none.1 hchoice] at hi
      cases hi
    | some y => rw [(firstMaxBy_split hchoice).earliest.unique h]

theorem firstMinBy_eq_some :
    firstMinBy key l = some x ↔ EarliestWith (fun a => ∀ b ∈ l, key a ≤ key b) l x := by
  rw [firstMinBy_eq_firstMaxBy]
  exact firstMaxBy_eq_some

end Choice

open Queue

/-- Operations on an empty queue fail exactly at a push of a member.  Otherwise nobody stands in the
queue twice, and its members stand in the order in which they were last pushed; a push appends,
a pop takes the head, and an erasure takes out that member alone.  The choice by a greatest or a
least key answers nobody only in an empty queue, and else the earliest of the best. -/
theorem queue_in_order :
    (∀ ops f, runAll ops .empty = .error f ↔ ∃ pre p post q, ops = pre ++ .push p :: post ∧
      runAll pre .empty = .ok q ∧ p ∈ q.pids ∧ f = .alreadyQueued p) ∧
    (∀ ops q, runAll ops .empty = .ok q →
      q.pids.Nodup ∧ Lined ops q ∧
      (∀ p, q.push p = if p ∈ q.pids then .error (.alreadyQueued p) else .ok ⟨q.pids ++ [p]⟩) ∧
      q.pids = q.front?.toList ++ q.tail.pids ∧
      ∀ p, (q.erase p).pids = q.pids.filter (· ≠ p)) ∧
    ∀ (κ : Type) [LinearOrder κ] (key : Pid → κ) (q : Queue),
      (firstMaxBy key q.pids = none ↔ q.pids = []) ∧
      (∀ p, firstMaxBy key q.pids = some p ↔
        EarliestWith (fun a => ∀ b ∈ q.pids, key b ≤ key a) q.pids p) ∧
      (firstMinBy key q.pids = none ↔ q.pids = []) ∧
      ∀ p, firstMinBy key q.pids = some p ↔
        EarliestWith (fun a => ∀ b ∈ q.pids, key a ≤ key b) q.pids p := by
  refine ⟨fun ops f => runAll_eq_error, fun ops q hq => ?_, fun κ _ key q => ?_⟩
  · have hlined : Lined ops q := Lined.start.runAll hq
    refine ⟨hlined.nodup, hlined, fun p => rfl, ?_, fun p => ?_⟩
    · cases hpids : q.pids with
      | nil => simp [front?, tail, hpids]
      | cons p l => simp [front?, tail, hpids]
    · rw [pids_erase, hlined.nodup.erase_eq_filter]
      exact List.filter_congr fun a _ => by rw [bne, beq_eq_decide, decide_not]
  · exact ⟨firstMaxBy_eq_none, fun p => firstMaxBy_eq_some, firstMinBy_eq_none,
      fun p => firstMinBy_eq_some⟩

/-- Four processes, of whom two leave the greatest remainder. -/
def tied : Queue := ⟨[⟨4⟩, ⟨2⟩, ⟨5⟩, ⟨9⟩]⟩

/-- A process that is pushed again stands last, a second push of a member fails, and of two with
the greatest remainder the first is chosen. -/
theorem queue_in_order_requeued :
    runAll [.push ⟨3⟩, .push ⟨1⟩, .push ⟨2⟩, .erase ⟨1⟩, .push ⟨5⟩, .push ⟨1⟩, .pop] .empty =
      .ok ⟨[⟨2⟩, ⟨5⟩, ⟨1⟩]⟩ ∧
    ([⟨2⟩, ⟨5⟩, ⟨1⟩] : List Pid).Nodup ∧
    runAll [.push ⟨3⟩, .pop, .push ⟨3⟩, .push ⟨3⟩, .pop] .empty = .error (.alreadyQueued ⟨3⟩) ∧
    EarliestWith (fun a => ∀ b ∈ tied.pids, b.val % 3 ≤ a.val % 3) tied.pids ⟨2⟩ := by
  have hrun : runAll [.push ⟨3⟩, .push ⟨1⟩, .push ⟨2⟩, .erase ⟨1⟩, .push ⟨5⟩, .push ⟨1⟩, .pop]
      .empty = .ok ⟨[⟨2⟩, ⟨5⟩, ⟨1⟩]⟩ := by decide
  have hchoice : firstMaxBy (fun p => p.val % 3) tied.pids = some ⟨2⟩ := by decide
  exact ⟨hrun, (queue_in_order.2.1 _ _ hrun).1,
    (queue_in_order.1 _ _).2 ⟨[.push ⟨3⟩, .pop, .push ⟨3⟩], ⟨3⟩, [.pop], ⟨[⟨3⟩]⟩, rfl, rfl,
      List.mem_cons_self, rfl⟩,
    ((queue_in_order.2.2 Nat (fun p => p.val % 3) tied).2.1 _).1 hchoice⟩

end Uniprocessor
