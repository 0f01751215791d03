import Uniprocessor.Queue
/-
  Mutually exclusive resources and the table of all of them, whose size never changes.
-/

namespace Uniprocessor

/-- One mutually exclusive resource. -/
structure Resource where
  /-- The process that holds it. -/
  owner : Option Pid
  /-- The processes blocked on it, in the order of their arrival. -/
  waiters : Queue
  deriving DecidableEq

/-- A resource that nobody holds and nobody waits for. -/
def Resource.idle : Resource := ⟨none, .empty⟩

/-- Whether nobody holds it. -/
def Resource.isFree (x : Resource) : Bool := x.owner.isNone

/-- The resources of a run, by position. -/
structure ResourceTable where
  slots : List Resource
  deriving DecidableEq

namespace ResourceTable

/-- A table of `n` idle resources. -/
def ofSize (n : Nat) : ResourceTable := ⟨List.replicate n .idle⟩

/-- Whether a table of `n` resources can be addressed: each takes 48 bytes, of which there are
fewer than half of 2 ^ 64. -/
def CanAddress (n : Nat) : Prop := 48 * n < 0x8000_0000_0000_0000

instance (n : Nat) : Decidable (CanAddress n) := Nat.decLt _ _

/-- The number of resources. -/
def size (t : ResourceTable) : Nat := t.slots.length

/-- The resource at a position, if the position is in the table. -/
def get? (t : ResourceTable) (r : ResourceId) : Option Resource := t.slots[r.val]?

/-- The resource at a position; a position outside the table is a fault. -/
def get (t : ResourceTable) (r : ResourceId) : Except Fault Resource :=
  match t.get? r with
  | some x => .ok x
  | none => .error (.resourceOutOfRange r t.size)

/-- Replaces the resource at a position. -/
def set (t : ResourceTable) (r : ResourceId) (x : Resource) : ResourceTable :=
  ⟨t.slots.set r.val x⟩

/-- Replaces what `f` makes of the resource at a position. -/
def update (t : ResourceTable) (r : ResourceId) (f : Resource → Except Fault Resource) :
    Except Fault ResourceTable := do
  let x ← t.get r
  return t.set r (← f x)

/-- The holder of a resource; nobody holds what is outside the table. -/
def owner? (t : ResourceTable) (r : ResourceId) : Option Pid := (t.get? r).bind (·.owner)

/-- The processes blocked on a resource. -/
def waiters (t : ResourceTable) (r : ResourceId) : List Pid :=
  match t.get? r with
  | some x => x.waiters.pids
  | none => []

/-- The resources with their positions. -/
def indexed (t : ResourceTable) : List (ResourceId × Resource) :=
  t.slots.zipIdx.map fun s => (⟨s.2⟩, s.1)

/-- The resources that `p` holds, by position. -/
def ownedBy (t : ResourceTable) (p : Pid) : List ResourceId :=
  (t.indexed.filter fun s => s.2.owner = some p).map (·.1)

/-- The first resource whose wait-set has `p`. -/
def waitingOn? (t : ResourceTable) (p : Pid) : Option ResourceId :=
  (t.indexed.find? fun s => s.2.waiters.contains p).map (·.1)

@[simp] theorem size_ofSize (n : Nat) : (ofSize n).size = n := by simp [ofSize, size]

theorem get_eq_ok {t : ResourceTable} {r : ResourceId} {x : Resource} :
    t.get r = .ok x ↔ t.get? r = some x := by
  unfold get
  split <;> simp_all

end ResourceTable

end Uniprocessor
