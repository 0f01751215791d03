import Uniprocessor.Basic
/-
  Finite maps from processes to values, kept in the order of the pids.

  * `insert` puts an entry at its place and replaces an entry of the same pid;
    `adjust` changes the value of one pid; `erase` drops one.
  * The view is `get?`: `get?_insert`, `get?_adjust` and `get?_erase` say what each does to it,
    and `Sorted` is kept by all three.
-/

namespace Uniprocessor

/-- A finite map from processes to values, listed by pid. -/
structure PidMap (α : Type) where
  entries : List (Pid × α)
  deriving DecidableEq

namespace PidMap

variable {α : Type}

/-- The map without entries. -/
def empty : PidMap α := ⟨[]⟩

/-- The value of the first entry of `p`. -/
def find (p : Pid) : List (Pid × α) → Option α
  | [] => none
  | (q, a) :: rest => if q = p then some a else find p rest

/-- Puts an entry in front of the first one of a larger pid. -/
def place (p : Pid) (a : α) : List (Pid × α) → List (Pid × α)
  | [] => [(p, a)]
  | (q, b) :: rest =>
    if p.val < q.val then (p, a) :: (q, b) :: rest
    else if q = p then (p, a) :: rest
    else (q, b) :: place p a rest

/-- The value of `p`, if there is one. -/
def get? (m : PidMap α) (p : Pid) : Option α := find p m.entries

/-- Whether `p` has a value. -/
def contains (m : PidMap α) (p : Pid) : Bool := (m.get? p).isSome

/-- Gives `p` the value `a`. -/
def insert (m : PidMap α) (p : Pid) (a : α) : PidMap α := ⟨place p a m.entries⟩

/-- Changes the value of `p`, if it has one. -/
def adjust (m : PidMap α) (p : Pid) (f : α → α) : PidMap α :=
  ⟨m.entries.map fun e => if e.1 = p then (e.1, f e.2) else e⟩

/-- Takes the value of `p` away. -/
def erase (m : PidMap α) (p : Pid) : PidMap α := ⟨m.entries.filter fun e => e.1 ≠ p⟩

/-- The processes that have a value, in order. -/
def pids (m : PidMap α) : List Pid := m.entries.map (·.1)

/-- The values, in the order of their pids. -/
def values (m : PidMap α) : List α := m.entries.map (·.2)

/-- The number of entries. -/
def size (m : PidMap α) : Nat := m.entries.length

/-- The pids of the entries increase. -/
def Sorted (m : PidMap α) : Prop := m.entries.Pairwise fun e f => e.1.val < f.1.val

@[simp] theorem get?_empty (p : Pid) : (empty : PidMap α).get? p = none := rfl

theorem find_place (p q : Pid) (a : α) (l : List (Pid × α)) :
    find q (place p a l) = if p = q then some a else find q l := by
  induction l with
  | nil => simp [place, find]
  | cons e l ih =>
    obtain ⟨r, b⟩ := e
    by_cases h₁ : p.val < r.val
    · simp [place, find, h₁]
    · by_cases h₂ : r = p
      · by_cases h₃ : p = q <;> simp_all [place, find]
      · by_cases h₃ : p = q
        · subst h₃; simp [place, find, h₁, h₂, ih]
        · simp [place, find, h₁, h₂, h₃, ih]

@[simp] theorem get?_insert (m : PidMap α) (p q : Pid) (a : α) :
    (m.insert p a).get? q = if p = q then some a else m.get? q :=
  find_place p q a m.entries

@[simp] theorem get?_adjust (m : PidMap α) (p q : Pid) (f : α → α) :
    (m.adjust p f).get? q = if p = q then (m.get? q).map f else m.get? q := by
  obtain ⟨l⟩ := m
  simp only [adjust, get?]
  induction l with
  | nil => simp [find]
  | cons e l ih =>
    obtain ⟨r, b⟩ := e
    by_cases h₁ : r = p <;> by_cases h₂ : r = q <;> by_cases h₃ : p = q <;>
      simp_all [find]

@[simp] theorem get?_erase (m : PidMap α) (p q : Pid) :
    (m.erase p).get? q = if p = q then none else m.get? q := by
  obtain ⟨l⟩ := m
  simp only [erase, get?]
  induction l with
  | nil => simp [find]
  | cons e l ih =>
    obtain ⟨r, b⟩ := e
    by_cases h₁ : r = p <;> by_cases h₂ : r = q <;> by_cases h₃ : p = q <;>
      simp_all [find]

@[simp] theorem pids_adjust (m : PidMap α) (p : Pid) (f : α → α) :
    (m.adjust p f).pids = m.pids := by
  simp only [pids, adjust, List.map_map]
  refine List.map_congr_left fun e _ => ?_
  simp only [Function.comp]
  split <;> rfl

theorem sorted_empty : (empty : PidMap α).Sorted := List.Pairwise.nil

theorem mem_place {p : Pid} {a : α} {l : List (Pid × α)} {e : Pid × α}
    (h : e ∈ place p a l) : e = (p, a) ∨ e ∈ l := by
  induction l with
  | nil => simpa [place] using h
  | cons f l ih =>
    obtain ⟨r, b⟩ := f
    simp only [place] at h
    split at h
    · simpa using h
    · split at h
      · rcases List.mem_cons.1 h with h | h
        · exact .inl h
        · exact .inr (List.mem_cons_of_mem _ h)
      · rcases List.mem_cons.1 h with h | h
        · exact .inr (h ▸ List.mem_cons_self)
        · rcases ih h with h | h
          · exact .inl h
          · exact .inr (List.mem_cons_of_mem _ h)

theorem Sorted.insert {m : PidMap α} (h : m.Sorted) (p : Pid) (a : α) :
    (m.insert p a).Sorted := by
  obtain ⟨l⟩ := m
  simp only [Sorted, PidMap.insert] at h ⊢
  induction l with
  | nil => simp [place]
  | cons e l ih =>
    obtain ⟨r, b⟩ := e
    obtain ⟨h₁, h₂⟩ := List.pairwise_cons.1 h
    by_cases h₃ : p.val < r.val
    · simp only [place, h₃, if_true]
      refine List.pairwise_cons.2 ⟨fun f hf => ?_, h⟩
      rcases List.mem_cons.1 hf with rfl | hf
      · exact h₃
      · exact Nat.lt_trans h₃ (h₁ f hf)
    · by_cases h₄ : r = p
      · subst h₄
        simp only [place, h₃, if_false, if_true]
        exact List.pairwise_cons.2 ⟨h₁, h₂⟩
      · simp only [place, h₃, h₄, if_false]
        refine List.pairwise_cons.2 ⟨fun f hf => ?_, ih h₂⟩
        rcases mem_place hf with rfl | hf
        · have : r.val ≠ p.val := fun h => h₄ (Pid.ext h)
          show r.val < p.val
          omega
        · exact h₁ f hf

theorem Sorted.adjust {m : PidMap α} (h : m.Sorted) (p : Pid) (f : α → α) :
    (m.adjust p f).Sorted := by
  have key : (m.adjust p f).entries.map (·.1) = m.entries.map (·.1) := pids_adjust m p f
  have h' : (m.entries.map (·.1)).Pairwise fun a b : Pid => a.val < b.val :=
    List.pairwise_map.2 h
  rw [← key] at h'
  exact (List.pairwise_map (R := fun a b : Pid => a.val < b.val)).1 h'

theorem Sorted.erase {m : PidMap α} (h : m.Sorted) (p : Pid) : (m.erase p).Sorted :=
  List.Pairwise.filter _ h

end PidMap

end Uniprocessor
