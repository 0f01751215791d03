import Uniprocessor.Fault
import Uniprocessor.Selection
/-
  Queues of processes in the order of their arrival.  The ready queue is one, and so is the
  wait-set of every resource.

  The view is `pids`, head first; a push of a member is a fault, so that a queue built by these
  operations holds no process twice.
-/

namespace Uniprocessor

/-- Processes in the order of their arrival. -/
structure Queue where
  pids : List Pid
  deriving DecidableEq

namespace Queue

/-- The queue without members. -/
def empty : Queue := ⟨[]⟩

/-- Whether `p` is a member. -/
def contains (q : Queue) (p : Pid) : Bool := decide (p ∈ q.pids)

/-- Appends `p` at the tail. -/
def push (q : Queue) (p : Pid) : Except Fault Queue :=
  if p ∈ q.pids then .error (.alreadyQueued p) else .ok ⟨q.pids ++ [p]⟩

/-- The head. -/
def front? (q : Queue) : Option Pid := q.pids.head?

/-- The queue behind the head. -/
def tail (q : Queue) : Queue := ⟨q.pids.tail⟩

/-- Takes `p` out, wherever it stands. -/
def erase (q : Queue) (p : Pid) : Queue := ⟨q.pids.erase p⟩

/-- The number of members. -/
def size (q : Queue) : Nat := q.pids.length

/-- Whether there is no member. -/
def isEmpty (q : Queue) : Bool := q.pids.isEmpty

@[simp] theorem contains_iff {q : Queue} {p : Pid} : q.contains p = true ↔ p ∈ q.pids := by
  simp [contains]

theorem push_eq_ok {q r : Queue} {p : Pid} :
    q.push p = .ok r ↔ p ∉ q.pids ∧ r.pids = q.pids ++ [p] := by
  obtain ⟨l⟩ := q
  obtain ⟨l'⟩ := r
  unfold push
  split <;> simp_all [eq_comm]

theorem push_eq_error {q : Queue} {p : Pid} {f : Fault} :
    q.push p = .error f ↔ p ∈ q.pids ∧ f = .alreadyQueued p := by
  unfold push
  split <;> simp_all [eq_comm]

@[simp] theorem pids_erase (q : Queue) (p : Pid) : (q.erase p).pids = q.pids.erase p := rfl

end Queue

end Uniprocessor
