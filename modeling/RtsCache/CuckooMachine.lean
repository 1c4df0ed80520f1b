import RtsCache.CuckooIndex
import Mathlib.Data.Int.Notation
import Mathlib.Logic.Function.Basic

/-!
# The cuckoo filter

`bucket.c` and `cuckoo_filter.c` function by function. `index_bucket` lays
buckets of four bytes over an allocation of eight-byte pointers, so a test of
`cf->buckets[i]` reads the bytes of the buckets `2i` and `2i+1`. An access
outside the allocation has no result. The functions are given a filter that
`cf_is_init` accepts.
-/

set_option autoImplicit false

namespace RtsCache.CuckooMachine
open RtsCache.CuckooIndex

def cfMaxBucketKickOut : ℕ := 10

def sizeofPointer : ℕ := 8

abbrev Bytes := ℕ → Fingerprint

/-- `limit` bytes are allocated behind `buckets`. -/
structure CuckooFilter where
  count : UInt64
  bucketPower : ℕ
  limit : ℕ
  bytes : Bytes
  power : bucketPower < 31
  room : limit = sizeofPointer * 2^bucketPower

/-- The loops over the slots of a bucket stop at the first slot that holds `fp`. -/
def bucketScan (bytes : Bytes) (bucket : ℕ) (fp : Fingerprint) : Option ℕ :=
  (List.range bucketSize).find? fun i => bytes (bucket + i) = fp

def bucketReset (bytes : Bytes) (bucket : ℕ) : Bytes := fun o =>
  if bucket ≤ o ∧ o < bucket + bucketSize then 0 else bytes o

def bucketInsert (bytes : Bytes) (bucket : ℕ) (fingerprint : Fingerprint) : ℤ × Bytes :=
  match bucketScan bytes bucket 0 with
  | some i => (0, Function.update bytes (bucket + i) fingerprint)
  | none => (-1, bytes)

def bucketDelete (bytes : Bytes) (bucket : ℕ) (fingerprint : Fingerprint) : ℤ × Bytes :=
  match bucketScan bytes bucket fingerprint with
  | some i => (0, Function.update bytes (bucket + i) 0)
  | none => (-1, bytes)

def bucketFpIndex (bytes : Bytes) (bucket : ℕ) (fingerprint : Fingerprint) : ℤ :=
  match bucketScan bytes bucket fingerprint with
  | some i => i
  | none => -1

def newFilter (capacity : UInt32) : CuckooFilter where
  count := 0
  bucketPower := trailingZeros (filterCapacity capacity)
  limit := sizeofPointer * (filterCapacity capacity).toNat
  bytes := fun _ => 0
  power := by
    have hlt := filterCapacity_lt capacity
    rw [filterCapacity_eq] at hlt
    exact (Nat.pow_lt_pow_iff_right (by decide)).mp hlt
  room := by rw [← filterCapacity_eq]

/-- The pointer parameter is overwritten, so no caller receives the filter.
`memory` says whether the allocations succeed. -/
def cfNew (memory : Bool) (capacity : UInt32) : ℤ × Option CuckooFilter :=
  if memory then (0, some (newFilter capacity)) else (-1, none)

def indexBucket (cf : CuckooFilter) (index : ℕ) : Option ℕ :=
  if bucketSize * (index + 1) ≤ cf.limit then some (bucketSize * index) else none

/-- `cf->buckets[idx] != NULL`. -/
def bucketPresent (cf : CuckooFilter) (idx : ℕ) : Option Bool :=
  if sizeofPointer * (idx + 1) ≤ cf.limit then
    some ((List.range sizeofPointer).any fun j => cf.bytes (sizeofPointer * idx + j) ≠ 0)
  else none

def resetBucket (cf : CuckooFilter) (i : ℕ) : Option CuckooFilter := do
  let bucket ← indexBucket cf i
  pure { cf with bytes := bucketReset cf.bytes bucket }

def cfReset (cf : CuckooFilter) : Option (ℤ × CuckooFilter) := do
  let cf ← (List.range bucketSize).foldlM resetBucket cf
  pure (0, { cf with count := 0 })

def cfLookup [Tables] (shr : UInt32 → UInt32) (cf : CuckooFilter) (key : Key) : Option ℤ := do
  let ifp := indexAndFingerprint shr key cf.bucketPower
  let bucket ← indexBucket cf ifp.indices.toNat
  if bucketFpIndex cf.bytes bucket ifp.fp > -1 then pure 1
  else do
    let index2 := altIndex ifp.fp ifp.indices cf.bucketPower
    let bucket ← indexBucket cf index2.toNat
    pure (if bucketFpIndex cf.bytes bucket ifp.fp > -1 then 1 else 0)

/-- A result of `bucket_insert` other than 0, its failure, counts as an insertion. -/
def cfInsertInternal (cf : CuckooFilter) (fp : Fingerprint) (idx : UInt32) :
    Option (ℤ × CuckooFilter) := do
  let present ← bucketPresent cf idx.toNat
  if present then do
    let bucket ← indexBucket cf idx.toNat
    let (inserted, bytes) := bucketInsert cf.bytes bucket fp
    if inserted ≠ 0 then pure (1, { cf with bytes := bytes, count := cf.count + 1 })
    else pure (0, { cf with bytes := bytes })
  else pure (0, cf)

def storeFp (cf : CuckooFilter) (o : ℕ) (fp : Fingerprint) : CuckooFilter :=
  { cf with bytes := Function.update cf.bytes o fp }

/-- The kick-out loop from kick `k` on, for `n` more kicks. `fp` and the slot
both receive `oldFp`. -/
def cfReinsertFrom [Tables] (rand : ℕ → UInt32) :
    ℕ → ℕ → CuckooFilter → Fingerprint → UInt32 → Option (ℤ × CuckooFilter)
  | 0, _, cf, _, _ => pure (0, cf)
  | n+1, k, cf, fp, i => do
    let j := rand k % UInt32.ofNat bucketSize
    let oldFp := fp
    let bucket ← indexBucket cf i.toNat
    let cf := storeFp cf (bucket + j.toNat) oldFp
    let fp := oldFp
    let i := altIndex fp i cf.bucketPower
    let (inserted, cf) ← cfInsertInternal cf fp i
    if inserted ≠ 0 then pure (1, cf) else cfReinsertFrom rand n (k+1) cf fp i

def cfReinsert [Tables] (rand : ℕ → UInt32) (cf : CuckooFilter) (fp : Fingerprint) (i : UInt32) :
    Option (ℤ × CuckooFilter) :=
  cfReinsertFrom rand cfMaxBucketKickOut 0 cf fp i

/-- `rand` and `coin` are the outcomes of `rand()` and `rand_bool()`. -/
def cfInsert [Tables] (shr : UInt32 → UInt32) (cf : CuckooFilter) (key : Key) (rand : ℕ → UInt32)
    (coin : Bool) : Option (ℤ × CuckooFilter) := do
  let ifp := indexAndFingerprint shr key cf.bucketPower
  let (inserted, cf) ← cfInsertInternal cf ifp.fp ifp.indices
  if inserted ≠ 0 then pure (0, cf)
  else do
    let index2 := altIndex ifp.fp ifp.indices cf.bucketPower
    let (inserted, cf) ← cfInsertInternal cf ifp.fp index2
    if inserted ≠ 0 then pure (0, cf)
    else cfReinsert rand cf ifp.fp (if coin then ifp.indices else index2)

def cfInsertUnique [Tables] (shr : UInt32 → UInt32) (cf : CuckooFilter) (key : Key)
    (rand : ℕ → UInt32) (coin : Bool) : Option (ℤ × CuckooFilter) := do
  let found ← cfLookup shr cf key
  if found ≠ 0 then pure (0, cf) else cfInsert shr cf key rand coin

/-- The same reading of `bucket_delete`: a fingerprint that was there counts as
not deleted. -/
def cfDeleteInternal (cf : CuckooFilter) (fp : Fingerprint) (i : UInt32) :
    Option (ℤ × CuckooFilter) := do
  let bucket ← indexBucket cf i.toNat
  let (deleted, bytes) := bucketDelete cf.bytes bucket fp
  if deleted ≠ 0 then
    pure (1, { cf with bytes := bytes, count := if cf.count > 0 then cf.count - 1 else cf.count })
  else pure (0, { cf with bytes := bytes })

def cfDelete [Tables] (shr : UInt32 → UInt32) (cf : CuckooFilter) (key : Key) :
    Option (ℤ × CuckooFilter) := do
  let ifp := indexAndFingerprint shr key cf.bucketPower
  let (deleted, cf) ← cfDeleteInternal cf ifp.fp ifp.indices
  if deleted ≠ 0 then pure (1, cf)
  else do
    let index2 := altIndex ifp.fp ifp.indices cf.bucketPower
    cfDeleteInternal cf ifp.fp index2

end RtsCache.CuckooMachine
