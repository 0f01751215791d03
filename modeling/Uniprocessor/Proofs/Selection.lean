import Mathlib.Data.Nat.Basic
import Mathlib.Order.Lattice
import Uniprocessor.Proofs.Edit
/-
  Where the first extreme element of a list stands.

  `champion_split`: a scan that keeps the best element so far cuts the list at its answer, which
  beats all that stand before it and is beaten by none behind it.  `firstMaxBy_split` and
  `firstMinBy_split` are the cases of keys in a linear order.

  `Machine.Beats` compares processes by their records; `firstBest_records` carries a choice
  among the records of a queue over to the queue.
-/

namespace Uniprocessor

variable {α κ : Type}

/-- `x` is the earliest of the elements of `l` that none other beats. -/
def FirstBest (beats : α → α → Prop) (x : α) (l : List α) : Prop :=
  ∃ pre post, l = pre ++ x :: post ∧ (∀ y ∈ pre, beats x y) ∧ ∀ y ∈ post, ¬ beats y x

/-- Every element that beats another also beats, or is beaten by, any third. -/
theorem champion_split (beats : α → α → Bool)
    (trans : ∀ a b c, beats a b = true → beats b c = true → beats a c = true)
    (cotrans : ∀ a b c, beats a c = true → beats a b = true ∨ beats b c = true)
    (x : α) (l : List α) :
    FirstBest (fun a b => beats a b = true) (champion beats x l) (x :: l) := by
  induction l generalizing x with
  | nil => exact ⟨[], [], rfl, by simp, by simp⟩
  | cons y l ih =>
    simp only [champion]
    by_cases hyx : beats y x = true
    · rw [if_pos hyx]
      obtain ⟨pre, post, hl, hpre, hpost⟩ := ih y
      refine ⟨x :: pre, post, by rw [hl]; rfl, fun z hz => ?_, hpost⟩
      rcases List.mem_cons.1 hz with rfl | hz
      · cases pre with
        | nil =>
          obtain ⟨h, -⟩ := List.cons.inj hl
          exact h ▸ hyx
        | cons w pre =>
          obtain ⟨rfl, -⟩ := List.cons.inj hl
          exact trans _ _ _ (hpre y List.mem_cons_self) hyx
      · exact hpre z hz
    · rw [if_neg hyx]
      obtain ⟨pre, post, hl, hpre, hpost⟩ := ih x
      cases pre with
      | nil =>
        obtain ⟨h, hp⟩ := List.cons.inj hl
        refine ⟨[], y :: l, by rw [← h]; rfl, by simp, fun z hz => ?_⟩
        rw [← h]
        rcases List.mem_cons.1 hz with rfl | hz
        · exact hyx
        · have := hpost z (hp ▸ hz)
          rwa [← h] at this
      | cons w pre =>
        obtain ⟨rfl, hp⟩ := List.cons.inj hl
        refine ⟨x :: y :: pre, post, congrArg (fun t => x :: y :: t) hp, fun z hz => ?_, hpost⟩
        have hx := hpre x List.mem_cons_self
        rcases List.mem_cons.1 hz with rfl | hz
        · exact hx
        · rcases List.mem_cons.1 hz with rfl | hz
          · exact (cotrans _ z _ hx).resolve_right hyx
          · exact hpre z (List.mem_cons_of_mem _ hz)

theorem firstMaxBy_split [LinearOrder κ] {key : α → κ} {l : List α} {x : α}
    (h : firstMaxBy key l = some x) : FirstBest (fun a b => key b < key a) x l := by
  cases l with
  | nil => simp [firstMaxBy] at h
  | cons y l =>
    have trans (a b c : α) (hab : decide (key b < key a) = true)
        (hbc : decide (key c < key b) = true) : decide (key c < key a) = true :=
      decide_eq_true (lt_trans (of_decide_eq_true hbc) (of_decide_eq_true hab))
    have cotrans (a b c : α) (hac : decide (key c < key a) = true) :
        decide (key b < key a) = true ∨ decide (key c < key b) = true :=
      (lt_or_ge (key b) (key a)).imp decide_eq_true fun hab =>
        decide_eq_true (lt_of_lt_of_le (of_decide_eq_true hac) hab)
    have := champion_split _ trans cotrans y l
    simpa only [decide_eq_true_eq, Option.some.inj h] using this

/-- The least is the greatest in the dual order. -/
theorem firstMinBy_eq_firstMaxBy [LinearOrder κ] (key : α → κ) (l : List α) :
    firstMinBy key l = firstMaxBy (fun a => OrderDual.toDual (key a)) l := by
  cases l <;> rfl

theorem firstMinBy_split [LinearOrder κ] {key : α → κ} {l : List α} {x : α}
    (h : firstMinBy key l = some x) : FirstBest (fun a b => key a < key b) x l := by
  rw [firstMinBy_eq_firstMaxBy] at h
  exact firstMaxBy_split h

theorem FirstBest.mem {beats : α → α → Prop} {x : α} {l : List α} (h : FirstBest beats x l) :
    x ∈ l := by
  obtain ⟨pre, post, rfl, -, -⟩ := h
  simp

/-- The first best element stands first where it beats nothing. -/
theorem FirstBest.head {beats : α → α → Prop} {x : α} {l : List α} (h : FirstBest beats x l)
    (hb : ∀ y, ¬ beats x y) : ∃ post, l = x :: post := by
  obtain ⟨pre, post, rfl, hpre, -⟩ := h
  cases pre with
  | nil => exact ⟨post, rfl⟩
  | cons y pre => exact absurd (hpre y List.mem_cons_self) (hb y)

/-- Nothing in the list beats its first best element. -/
theorem FirstBest.unbeaten {beats : α → α → Prop} {x : α} {l : List α} (h : FirstBest beats x l)
    (irrefl : ∀ a, ¬ beats a a) (asymm : ∀ a b, beats a b → ¬ beats b a) :
    ∀ y ∈ l, ¬ beats y x := by
  obtain ⟨pre, post, rfl, hpre, hpost⟩ := h
  intro y hy
  rcases List.mem_append.1 hy with hy | hy
  · exact asymm _ _ (hpre y hy)
  · rcases List.mem_cons.1 hy with rfl | hy
    · exact irrefl _
    · exact hpost y hy

/-- The first best element is the first that no element beats. -/
theorem FirstBest.find?_eq_some {beats : α → α → Prop} [DecidableRel beats] {x : α} {l : List α}
    (h : FirstBest beats x l) (irrefl : ∀ a, ¬ beats a a)
    (asymm : ∀ a b, beats a b → ¬ beats b a) :
    l.find? (fun y => decide (∀ z ∈ l, ¬ beats z y)) = some x := by
  have hbest := h.unbeaten irrefl asymm
  obtain ⟨pre, post, hl, hpre, -⟩ := h
  refine List.find?_eq_some_iff_append.2 ⟨by simpa using hbest, pre, post, hl, fun y hy => ?_⟩
  simp only [Bool.not_eq_true', decide_eq_false_iff_not]
  exact fun hall => hall x (by simp [hl]) (hpre y hy)

/-- The first best element of a list of pairs is so among the first parts. -/
theorem FirstBest.map {β : Type} {beats : α → α → Prop} {worse : β → β → Prop} {f : α → β}
    {x : α} {l : List α} (h : FirstBest beats x l)
    (hf : ∀ a ∈ l, ∀ b ∈ l, worse (f a) (f b) ↔ beats a b) : FirstBest worse (f x) (l.map f) := by
  obtain ⟨pre, post, rfl, hpre, hpost⟩ := h
  refine ⟨pre.map f, post.map f, by simp, fun y hy => ?_, fun y hy => ?_⟩
  · obtain ⟨a, ha, rfl⟩ := List.mem_map.1 hy
    exact (hf x (by simp) a (by simp [ha])).2 (hpre a ha)
  · obtain ⟨a, ha, rfl⟩ := List.mem_map.1 hy
    exact fun hw => hpost a ha ((hf a (by simp [ha]) x (by simp)).1 hw)

theorem FirstBest.congr {beats worse : α → α → Prop} {x : α} {l : List α}
    (h : FirstBest beats x l) (hb : ∀ a ∈ l, ∀ b ∈ l, worse a b ↔ beats a b) :
    FirstBest worse x l := by
  have hmap : FirstBest worse (id x) (l.map id) := h.map hb
  rwa [List.map_id] at hmap

/-- What is first best among the values of a list is the value of an element that is. -/
theorem FirstBest.of_map {β : Type} {worse : β → β → Prop} {f : α → β} {y : β} {l : List α}
    (h : FirstBest worse y (l.map f)) :
    ∃ x, y = f x ∧ FirstBest (fun a b => worse (f a) (f b)) x l := by
  obtain ⟨pre, post, hl, hpre, hpost⟩ := h
  obtain ⟨xs, ys, rfl, rfl, hys⟩ := List.map_eq_append_iff.1 hl
  obtain ⟨x, zs, rfl, rfl, rfl⟩ := List.map_eq_cons_iff.1 hys
  exact ⟨x, rfl, xs, zs, rfl, fun a ha => hpre _ (List.mem_map_of_mem ha),
    fun a ha => hpost _ (List.mem_map_of_mem ha)⟩

namespace Machine

/-- Whether the record of `p` beats that of `q`. -/
def Beats (m : Machine) (beats : ProcessRecord → ProcessRecord → Prop) (p q : Pid) : Prop :=
  ∃ x y, m.process? p = some x ∧ m.process? q = some y ∧ beats x y

theorem beats_iff {m : Machine} {beats : ProcessRecord → ProcessRecord → Prop} {p q : Pid}
    {x y : ProcessRecord} (hx : m.process? p = some x) (hy : m.process? q = some y) :
    m.Beats beats p q ↔ beats x y := by
  simp [Beats, hx, hy]

theorem firstBest_records {m : Machine} {beats : ProcessRecord → ProcessRecord → Prop}
    {xs : List (Pid × ProcessRecord)} {l : List Pid} {a : Pid × ProcessRecord}
    (hxs : m.records l = .ok xs) (h : FirstBest (fun b c => beats b.2 c.2) a xs) :
    FirstBest (m.Beats beats) a.1 l := by
  obtain ⟨hl, hr⟩ := records_eq_ok.1 hxs
  rw [← hl]
  exact h.map fun b hb c hc => beats_iff (hr b hb) (hr c hc)

/-- A choice by greatest priority leaves nothing of greater priority in the queue. -/
theorem le_of_firstBest {m : Machine} {p : Pid} {l : List Pid} {x : ProcessRecord}
    (h : FirstBest (m.Beats fun x y => y.priority < x.priority) p l)
    (hx : m.process? p = some x) :
    ∀ q ∈ l, ∀ y, m.process? q = some y → y.priority ≤ x.priority := by
  intro q hq y hy
  refine Nat.le_of_not_lt fun hlt => h.unbeaten ?_ ?_ q hq ⟨y, x, hy, hx, hlt⟩
  · rintro a ⟨y, z, hy, hz, hyz⟩
    obtain rfl : y = z := Option.some.inj (hy.symm.trans hz)
    exact Nat.lt_irrefl _ hyz
  · rintro a b ⟨y, z, hy, hz, hyz⟩ ⟨z', y', hz', hy', hzy⟩
    obtain rfl : y = y' := Option.some.inj (hy.symm.trans hy')
    obtain rfl : z = z' := Option.some.inj (hz.symm.trans hz')
    exact Nat.lt_asymm hyz hzy

end Machine

end Uniprocessor
