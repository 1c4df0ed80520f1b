import RtsCache.UndoHeap

/-!
# Programs over an undo-log heap

A program reads and writes the heap, opens transactions and calls the
allocator. The environment decides which library call fails, at which store
the machine crashes, where an allocation lands and what a fresh object holds.
Only an outermost transaction rolls back: an abort inside a nested one leaves
through every enclosing transaction first.
-/

set_option autoImplicit false

namespace RtsCache.UndoMachine
open RtsCache.UndoHeap

/-- Why a transaction aborts: an error number, or the end of the process, by a
crash or by `abort()`, undone by recovery. -/
inductive Cause where
  | errno (n : ℤ)
  | crash
  | exit
  deriving DecidableEq, Repr

def ENOMEM : Cause := .errno 12

inductive TxEnd where
  | committed
  | aborted (c : Cause)
  deriving DecidableEq, Repr

structure Env (I F : Type) [Layout F] where
  fails : ℕ → Bool
  crashes : ℕ → Bool
  place : ℕ → I
  junk : ℕ → (f : F) → Layout.ty f
  fuel : ℕ

/-- `calls` and `stores` number the library calls and the transactional stores
made so far; `ends` lists how the outermost transactions ended, oldest first. -/
structure State (I F : Type) [Layout F] where
  heap : Heap I F
  log : Option (Log I F)
  calls : ℕ
  stores : ℕ
  ends : List TxEnd

/-- `stuck` stands for undefined behaviour and for a loop out of fuel. -/
inductive Res (I F : Type) [Layout F] (α : Type) where
  | ok (a : α) (s : State I F)
  | abort (c : Cause) (s : State I F)
  | stuck

def Prog (I F : Type) [Layout F] (α : Type) := Env I F → State I F → Res I F α

variable {I F : Type} [Layout F] {α β : Type}

instance : Monad (Prog I F) where
  pure a := fun _ s => .ok a s
  bind m k := fun env s =>
    match m env s with
    | .ok a s' => k a env s'
    | .abort c s' => .abort c s'
    | .stuck => .stuck

def stuck : Prog I F α := fun _ _ => .stuck

def fuel : Prog I F ℕ := fun env s => .ok env.fuel s

namespace State

def tick (s : State I F) : State I F := { s with calls := s.calls + 1 }

def tock (s : State I F) : State I F := { s with stores := s.stores + 1 }

def opened (s : State I F) : State I F := { s with log := some Log.empty }

def commit (s : State I F) : State I F :=
  { s with log := none, ends := s.ends ++ [.committed] }

def record (s : State I F) (c : Cause) : State I F :=
  { s with log := none, ends := s.ends ++ [.aborted c] }

variable [Handle I]

def undone (s : State I F) : Heap I F :=
  match s.log with
  | some l => l.rollback s.heap
  | none => s.heap

def rollback (s : State I F) (c : Cause) : State I F :=
  { s with heap := s.undone, log := none, ends := s.ends ++ [.aborted c] }

def store (s : State I F) (o : I) (f : F) (v : Layout.ty f) : State I F :=
  { s with heap := s.heap.put o f v }

def snapshot (s : State I F) (l : Log I F) (o : I) (p : F → Bool) (obj : Obj F) :
    State I F :=
  { s with log := some (l.snapshot o p obj) }

def alloc (s : State I F) (l : Log I F) (o : I) (obj : Obj F) : State I F :=
  { s with
    heap := Function.update s.heap o (some obj)
    log := some { l with fresh := o :: l.fresh } }

def free (s : State I F) (l : Log I F) (o : I) (obj : Obj F) : State I F :=
  { s with
    heap := Function.update s.heap o none
    log := some { l with freed := Function.update l.freed o (some obj) } }

end State

def load (o : I) (f : F) : Prog I F (Layout.ty f) := fun _ s =>
  match s.heap.get o f with
  | some v => .ok v s
  | none => .stuck

def typeNum (o : I) : Prog I F (Layout.Kind F) := fun _ s =>
  match s.heap o with
  | some obj => .ok obj.kind s
  | none => .stuck

def txAbort (n : ℤ) : Prog I F α := fun _ s =>
  match s.log with
  | none => .stuck
  | some _ => .abort (.errno n) s.tick

variable [Handle I]

def store (o : I) (f : F) (v : Layout.ty f) : Prog I F Unit := fun env s =>
  match s.heap.get o f with
  | none => .stuck
  | some _ =>
    if s.log.isSome ∧ env.crashes s.stores then .abort .crash s.tock
    else .ok () (s.tock.store o f v)

/-- A library call that must run inside a transaction and may fail. -/
def call (k : Log I F → Prog I F α) : Prog I F α := fun env s =>
  match s.log with
  | none => .stuck
  | some l => if env.fails s.calls then .abort ENOMEM s.tick else k l env s.tick

def txAdd (o : I) (p : F → Bool) : Prog I F Unit := call fun l _ s =>
  match s.heap o with
  | some obj => .ok () (s.snapshot l o p obj)
  | none => .stuck

/-- The allocator serves a request of at most `maxAlloc` bytes, at a handle
that is neither live nor freed by the running transaction. -/
def txAllocWith (kind : Layout.Kind F) (size : ℕ)
    (cells : Env I F → ℕ → (f : F) → Layout.ty f) : Prog I F I := call fun l env s =>
  let o := env.place (s.calls - 1)
  if Handle.isNull o = true ∨ (s.heap o).isSome ∨ (l.freed o).isSome ∨
      Layout.maxAlloc F < size then
    .abort ENOMEM s
  else .ok o (s.alloc l o ⟨kind, size, cells env (s.calls - 1)⟩)

def txAlloc (kind : Layout.Kind F) (size : ℕ) : Prog I F I :=
  txAllocWith kind size fun env n => env.junk n

def txZalloc (kind : Layout.Kind F) (size : ℕ) : Prog I F I :=
  txAllocWith kind size fun _ _ => Layout.zero

def txFree (o : I) : Prog I F Unit := call fun l _ s =>
  if Handle.isNull o = true then .ok () s
  else match s.heap o with
    | some obj => .ok () (s.free l o obj)
    | none => .stuck

def copyCells (dst src : I) (p : F → Bool) : Prog I F Unit := fun env s =>
  match s.heap dst, s.heap src with
  | some d, some c =>
    if d.kind = c.kind then
      if s.log.isSome ∧ env.crashes s.stores then .abort .crash s.tock
      else
        let d' : Obj F := { d with cells := fun f => if p f then c.cells f else d.cells f }
        .ok () { s.tock with heap := Function.update s.heap dst (some d') }
    else .stuck
  | _, _ => .stuck

/-- Allocation outside any transaction; `init` is the constructor, and failure
is reported instead of aborting. -/
def allocAtomic (kind : Layout.Kind F) (size : ℕ)
    (init : ((f : F) → Layout.ty f) → (f : F) → Layout.ty f) : Prog I F (Option I) :=
  fun env s =>
    match s.log with
    | some _ => .stuck
    | none =>
      let o := env.place s.calls
      if env.fails s.calls ∨ Handle.isNull o = true ∨ (s.heap o).isSome ∨
          Layout.maxAlloc F < size then
        .ok none s.tick
      else
        let obj : Obj F := ⟨kind, size, init (env.junk s.calls)⟩
        .ok (some o) { s.tick with heap := Function.update s.heap o (some obj) }

/-- `none` is the abort branch of an outermost transaction. A nested abort
never reaches the code after the inner transaction. -/
def transaction (body : Prog I F α) : Prog I F (Option α) := fun env s =>
  match s.log with
  | some _ =>
    if env.fails s.calls then .abort ENOMEM s.tick
    else match body env s.tick with
      | .ok a s' => .ok (some a) s'
      | .abort c s' => .abort c s'
      | .stuck => .stuck
  | none =>
    if env.fails s.calls then .ok none (s.tick.record ENOMEM)
    else match body env s.tick.opened with
      | .ok a s' =>
        if env.crashes s'.stores then .ok none (s'.tock.rollback .crash)
        else .ok (some a) s'.tock.commit
      | .abort c s' => .ok none (s'.rollback c)
      | .stuck => .stuck

/-- A transaction whose abort branch calls `abort()`. -/
def exitOnAbort (m : Prog I F (Option α)) : Prog I F α := fun env s =>
  match m env s with
  | .ok (some a) s' => .ok a s'
  | .ok none _ => .stuck
  | .abort _ s' => .abort .exit s'
  | .stuck => .stuck

def exited : Prog I F Bool := fun _ s => .ok (s.ends.getLast? = some (.aborted .exit)) s

end RtsCache.UndoMachine
