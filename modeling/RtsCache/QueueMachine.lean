import RtsCache.PoolLayout

/-!
# The persistent queue

`queue.c` function by function, over the two structures of `queue.h`. The
counters are free-running 64-bit words; reducing one modulo capacity 0 is
stuck.
-/

set_option autoImplicit false

namespace RtsCache.QueueMachine
open RtsCache.UndoHeap RtsCache.UndoMachine RtsCache.UndoRules RtsCache.PoolLayout

inductive QueueKind where
  | queueEntry
  | queue
  deriving DecidableEq, Repr

inductive QueueMember where
  | value
  | front | back | capacity | entries (i : ℕ)
  deriving DecidableEq, Repr

namespace QueueMember

@[reducible] def ty : QueueMember → Type
  | value => Int64
  | front | back | capacity => UInt64
  | entries _ => PMEMoid

def kind : QueueMember → QueueKind
  | value => .queueEntry
  | front | back | capacity | entries _ => .queue

def extent : QueueMember → ℕ
  | value => 8
  | front => 8 | back => 16 | capacity => 24 | entries i => 24 + 16 * (i + 1)

def zero : (m : QueueMember) → m.ty
  | value => (0 : Int64)
  | front | back | capacity => (0 : UInt64)
  | entries _ => oidNull

end QueueMember

instance : Layout QueueMember where
  Kind := QueueKind
  ty := QueueMember.ty
  kind := QueueMember.kind
  extent := QueueMember.extent
  zero := QueueMember.zero
  maxAlloc := pmemobjMaxAllocSize
  decMember := inferInstance
  decKind := inferInstanceAs (DecidableEq QueueKind)

abbrev QueuePool := Heap PMEMoid QueueMember
abbrev QueueState := State PMEMoid QueueMember
abbrev QueueEnv := Env PMEMoid QueueMember
abbrev QueueProg := Prog PMEMoid QueueMember

def read (o : PMEMoid) (m : QueueMember) : QueueProg m.ty := load o m

def write (o : PMEMoid) (m : QueueMember) (v : m.ty) : QueueProg Unit := store o m v

def txAddDirect (o : PMEMoid) (m : QueueMember) : QueueProg Unit := txAdd o fun f => f = m

def sizeofQueue : UInt64 := 24

def sizeofToid : UInt64 := 16

def sizeofQueueEntry : ℕ := 8

def queueConstructor (capacity : UInt64) (junk : (m : QueueMember) → m.ty) :
    (m : QueueMember) → m.ty
  | .front => (0 : UInt64)
  | .back => (0 : UInt64)
  | .capacity => capacity
  | m => junk m

/-- `none` when `POBJ_ALLOC` reports a failure. -/
def queueNew (size : UInt64) : QueueProg (Option PMEMoid) :=
  allocAtomic (F := QueueMember) .queue (sizeofQueue + sizeofToid * size).toNat
    (queueConstructor size)

def queueSize (queue : PMEMoid) : QueueProg UInt64 := do
  let back ← read queue .back
  let front ← read queue .front
  pure (back - front)

def enqueueBody (queue : PMEMoid) (pos : ℕ) (data : Int64) : QueueProg Unit := do
  txAddDirect queue .back
  let back ← read queue .back
  write queue .back (back + 1)
  let entry ← txAlloc (F := QueueMember) .queueEntry sizeofQueueEntry
  write entry .value data
  txAddDirect queue (.entries pos)
  write queue (.entries pos) entry

def queueEnqueue (queue : PMEMoid) (data : Int64) : QueueProg ℤ :=
  if queue.isNull then pure (-1)
  else do
    let size ← queueSize queue
    let capacity ← read queue .capacity
    if size = capacity then pure (-1)
    else do
      let back ← read queue .back
      if capacity = 0 then stuck
      else do
        match ← transaction (enqueueBody queue (back % capacity).toNat data) with
        | none => pure (-1)
        | some _ => pure 0

def dequeueBody (queue : PMEMoid) (pos : ℕ) : QueueProg Unit := do
  txAddDirect queue .front
  let front ← read queue .front
  write queue .front (front + 1)
  let entry ← read queue (.entries pos)
  txFree entry

def queueDequeue (queue : PMEMoid) : QueueProg ℤ :=
  if queue.isNull then pure (-1)
  else do
    let size ← queueSize queue
    if size = 0 then pure (-1)
    else do
      let front ← read queue .front
      let capacity ← read queue .capacity
      if capacity = 0 then stuck
      else do
        match ← transaction (dequeueBody queue (front % capacity).toNat) with
        | none => pure (-1)
        | some _ => pure 0

section Rules
variable {env : QueueEnv} {s : QueueState} {o : PMEMoid} {m : QueueMember}
variable {E : Cause → QueueState → Prop}

def AnyQueueKind (_ : QueueKind) : Prop := True

theorem wp_read {v : m.ty} {Q : m.ty → QueueState → Prop} (hv : s.heap.get o m = some v) :
    wp env (read o m) Q E s ↔ Q v s := wp_load hv

theorem wp_write {v w : m.ty} {Q : Unit → QueueState → Prop}
    (hw : s.heap.get o m = some w) (hc : Covers s o m)
    (hE : ∀ c s', Confined (I := PMEMoid) (F := QueueMember) AnyQueueKind s s' → E c s')
    (hQ : ∀ s', Confined (I := PMEMoid) (F := QueueMember) AnyQueueKind s s' →
      s'.heap = s.heap.put o m v → Q () s') :
    wp env (write o m v) Q E s :=
  wp_store hw hc trivial (fun c s' h _ => hE c s' h) fun s' h hh _ => hQ s' h hh

theorem wp_txAddDirect {v : m.ty} {Q : Unit → QueueState → Prop} (hl : s.log.isSome)
    (hv : s.heap.get o m = some v)
    (hE : ∀ c s', Confined (I := PMEMoid) (F := QueueMember) AnyQueueKind s s' → E c s')
    (hQ : ∀ s', Confined (I := PMEMoid) (F := QueueMember) AnyQueueKind s s' →
      s'.heap = s.heap → Covers s' o m → Q () s') :
    wp env (txAddDirect o m) Q E s := by
  obtain ⟨obj, ho, -⟩ := Heap.live_of_get hv
  apply wp_txAdd (K := AnyQueueKind) hl ho trivial
  · intro c s' h _
    exact hE c s' h
  · intro s' h hh hc _
    exact hQ s' h hh (hc m (by simp))

end Rules

end RtsCache.QueueMachine
