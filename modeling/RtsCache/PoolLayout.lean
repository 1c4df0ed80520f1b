import RtsCache.UndoRules

/-!
# The persistent objects of the cache

The structures of `hashmap_tx.h` and `cache.h` as members of typed objects.
Offsets are those of the 64-bit ABI: a `TOID` is a 16-byte handle, and a
`CacheEntry` has four padding bytes behind its `int`.
-/

set_option autoImplicit false

namespace RtsCache.PoolLayout
open RtsCache.UndoHeap RtsCache.UndoMachine RtsCache.UndoRules

structure PMEMoid where
  poolUuidLo : UInt64
  off : UInt64
  deriving DecidableEq, Repr

def oidNull : PMEMoid := ⟨0, 0⟩

/-- `OID_IS_NULL` and `TOID_IS_NULL` look at the offset only. -/
def PMEMoid.isNull (o : PMEMoid) : Bool := o.off == 0

instance : Handle PMEMoid where
  isNull := PMEMoid.isNull
  decEq := inferInstance

inductive Kind where
  | entry
  | buckets
  | hashmapTx
  | cacheEntry
  | cache
  deriving DecidableEq, Repr

/-- `entryNext` is the `next` of a `struct entry`; `prev`, `next` and the
underscored members belong to `struct CacheEntry`. -/
inductive Member where
  | key | value | entryNext
  | nbuckets | bucket (i : ℕ)
  | seed | hashFunA | hashFunB | hashFunP | count | buckets
  | _key | _value | padding | prev | next
  | head | tail | capacity | hashmap
  deriving DecidableEq, Repr

namespace Member

@[reducible] def ty : Member → Type
  | key | nbuckets | hashFunP | count | _key | capacity => UInt64
  | seed | hashFunA | hashFunB | padding => UInt32
  | _value => Int32
  | value | entryNext | bucket _ | buckets | prev | next | head | tail | hashmap => PMEMoid

def kind : Member → Kind
  | key | value | entryNext => .entry
  | nbuckets | bucket _ => .buckets
  | seed | hashFunA | hashFunB | hashFunP | count | buckets => .hashmapTx
  | _key | _value | padding | prev | next => .cacheEntry
  | head | tail | capacity | hashmap => .cache

def extent : Member → ℕ
  | key => 8 | value => 24 | entryNext => 40
  | nbuckets => 8 | bucket i => 8 + 16 * (i + 1)
  | seed => 4 | hashFunA => 8 | hashFunB => 12 | hashFunP => 24 | count => 32 | buckets => 48
  | _key => 8 | _value => 12 | padding => 16 | prev => 32 | next => 48
  | head => 16 | tail => 32 | capacity => 40 | hashmap => 56

def zero : (m : Member) → m.ty
  | key | nbuckets | hashFunP | count | _key | capacity => (0 : UInt64)
  | seed | hashFunA | hashFunB | padding => (0 : UInt32)
  | _value => (0 : Int32)
  | value | entryNext | bucket _ | buckets | prev | next | head | tail | hashmap => oidNull

end Member

/-- `sizeof` of the structure; for `struct buckets` without its slots. -/
def Kind.sizeof : Kind → ℕ
  | .entry => 40
  | .buckets => 8
  | .hashmapTx => 48
  | .cacheEntry => 48
  | .cache => 56

/-- `PMEMOBJ_MAX_ALLOC_SIZE` of `libpmemobj/base.h`. -/
def pmemobjMaxAllocSize : ℕ := 0x3FFDFFFC0

instance : Layout Member where
  Kind := Kind
  ty := Member.ty
  kind := Member.kind
  extent := Member.extent
  zero := Member.zero
  maxAlloc := pmemobjMaxAllocSize
  decMember := inferInstance
  decKind := inferInstanceAs (DecidableEq Kind)

abbrev Pool := Heap PMEMoid Member
abbrev PoolState := State PMEMoid Member
abbrev PoolEnv := Env PMEMoid Member
abbrev Pmem := Prog PMEMoid Member

def dRo (o : PMEMoid) (m : Member) : Pmem m.ty := load o m

def dRw (o : PMEMoid) (m : Member) (v : m.ty) : Pmem Unit := store o m v

def txAddField (o : PMEMoid) (m : Member) : Pmem Unit := txAdd o fun f => f = m

def txAddRange (o : PMEMoid) (size : ℕ) : Pmem Unit := txAdd o fun f => f.extent ≤ size

def txNew (k : Kind) : Pmem PMEMoid := txAlloc (F := Member) k k.sizeof

def toidValid (o : PMEMoid) (k : Kind) : Pmem Bool := do
  let t ← typeNum o
  pure (decide (t = k))

theorem get_fresh {h : Pool} {o : PMEMoid} {k : Kind} {size : ℕ} {cells : (m : Member) → m.ty}
    (ho : h o = some ⟨k, size, cells⟩) (m : Member) (hk : k = m.kind) (he : m.extent ≤ size) :
    h.get o m = some (cells m) :=
  Heap.get_eq_some.mpr ⟨_, ho, ⟨hk, he⟩, rfl⟩

theorem ne_of_kind {h : Pool} {o p : PMEMoid} {f g : Member} {v : f.ty} {w : g.ty}
    (ho : h.get o f = some v) (hp : h.get p g = some w) (hk : f.kind ≠ g.kind) : o ≠ p := by
  obtain ⟨o₁, h₁, k₁⟩ := Heap.live_of_get ho
  obtain ⟨o₂, h₂, k₂⟩ := Heap.live_of_get hp
  rintro rfl
  cases Option.some.inj (h₁.symm.trans h₂)
  exact hk (k₁.symm.trans k₂)

section Rules
variable {env : PoolEnv} {s : PoolState} {K : Kind → Prop} {o : PMEMoid} {m : Member}
variable {E : Cause → PoolState → Prop}

theorem wp_dRo {v : m.ty} {Q : m.ty → PoolState → Prop} (hv : s.heap.get o m = some v) :
    wp env (dRo o m) Q E s ↔ Q v s := wp_load hv

theorem wp_toidValid {v : m.ty} {k : Kind} {Q : Bool → PoolState → Prop}
    (hv : s.heap.get o m = some v) (hk : m.kind = k) :
    wp env (toidValid o k) Q E s ↔ Q true s := by
  obtain ⟨obj, ho, hkind⟩ := Heap.live_of_get hv
  have hk' : obj.kind = k := hkind.trans hk
  rw [toidValid, wp_bind, wp_typeNum ho, wp_pure, decide_eq_true hk']

theorem wp_dRw {v w : m.ty} {Q : Unit → PoolState → Prop}
    (hw : s.heap.get o m = some w) (hc : Covers s o m) (hk : K m.kind)
    (hE : ∀ c s', Confined (I := PMEMoid) (F := Member) K s s' → s'.calls = s.calls → E c s')
    (hQ : ∀ s', Confined (I := PMEMoid) (F := Member) K s s' → s'.heap = s.heap.put o m v →
      s'.calls = s.calls → Q () s') :
    wp env (dRw o m v) Q E s := wp_store hw hc hk hE hQ

theorem wp_txAddField {v : m.ty} {Q : Unit → PoolState → Prop} (hl : s.log.isSome)
    (hv : s.heap.get o m = some v) (hk : K m.kind)
    (hE : ∀ c s', Confined (I := PMEMoid) (F := Member) K s s' → s'.calls = s.calls + 1 → E c s')
    (hQ : ∀ s', Confined (I := PMEMoid) (F := Member) K s s' → s'.heap = s.heap →
      Covers s' o m → s'.calls = s.calls + 1 → Q () s') :
    wp env (txAddField o m) Q E s := by
  obtain ⟨obj, ho, hkind⟩ := Heap.live_of_get hv
  exact wp_txAdd hl ho (hkind ▸ hk) hE fun s' h hh hc hn => hQ s' h hh (hc m (by simp)) hn

theorem wp_txAddRange {v : m.ty} {size : ℕ} {Q : Unit → PoolState → Prop} (hl : s.log.isSome)
    (hv : s.heap.get o m = some v) (hk : K m.kind)
    (hE : ∀ c s', Confined (I := PMEMoid) (F := Member) K s s' → s'.calls = s.calls + 1 → E c s')
    (hQ : ∀ s', Confined (I := PMEMoid) (F := Member) K s s' → s'.heap = s.heap →
      (∀ f : Member, f.extent ≤ size → Covers s' o f) → s'.calls = s.calls + 1 → Q () s') :
    wp env (txAddRange o size) Q E s := by
  obtain ⟨obj, ho, hkind⟩ := Heap.live_of_get hv
  exact wp_txAdd hl ho (hkind ▸ hk) hE fun s' h hh hc hn =>
    hQ s' h hh (fun f hf => hc f (by simpa using hf)) hn

end Rules

end RtsCache.PoolLayout
