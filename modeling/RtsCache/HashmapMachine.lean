import RtsCache.PoolLayout

/-!
# The transactional hash map

`hashmap_tx.c` function by function: the hashing, the rebuild, insertion,
removal, the queries and the command entry. `int` counters wrap at 32 bits and
`size_t` at 64. A division by zero is stuck, and so is a chain that does not
end within the fuel of the environment.
-/

set_option autoImplicit false

namespace RtsCache.HashmapMachine
open RtsCache.UndoHeap RtsCache.UndoMachine RtsCache.PoolLayout

def hashFuncCoeffP : UInt64 := 32212254719

def initBucketsNum : UInt64 := 10

def minHashsetThreshold : Int32 := 5

def maxHashsetThreshold : Int32 := 10

def sizeofToid : UInt64 := 16

def sizeofBuckets : UInt64 := 8

def hashOf (a b : UInt32) (p len value : UInt64) : UInt64 :=
  ((a.toUInt64 * value + b.toUInt64) % p) % len

def hash (hashmap buckets : PMEMoid) (value : UInt64) : Pmem UInt64 := do
  let a ← dRo hashmap .hashFunA
  let b ← dRo hashmap .hashFunB
  let p ← dRo hashmap .hashFunP
  let len ← dRo buckets .nbuckets
  if p = 0 ∨ len = 0 then stuck else pure (hashOf a b p len value)

/-- Draws `hash_fun_a` until it is not zero; the result numbers the next draw. -/
def createDraw (hashmap : PMEMoid) (rand : ℕ → UInt32) : ℕ → ℕ → Pmem ℕ
  | 0, _ => stuck
  | n+1, i => do
    dRw hashmap .hashFunA (rand i)
    let a ← dRo hashmap .hashFunA
    if a = 0 then createDraw hashmap rand n (i+1) else pure (i+1)

def createBody (hashmap : PMEMoid) (seed : UInt32) (rand : ℕ → UInt32) : Pmem Unit := do
  txAddRange hashmap Kind.hashmapTx.sizeof
  dRw hashmap .seed seed
  let fl ← fuel
  let i ← createDraw hashmap rand fl 0
  dRw hashmap .hashFunB (rand i)
  dRw hashmap .hashFunP hashFuncCoeffP
  let bs ← txZalloc .buckets (sizeofBuckets + initBucketsNum * sizeofToid).toNat
  dRw hashmap .buckets bs
  let bs ← dRo hashmap .buckets
  dRw bs .nbuckets initBucketsNum

def createHashmap (hashmap : PMEMoid) (seed : UInt32) (rand : ℕ → UInt32) : Pmem Unit :=
  exitOnAbort (transaction (createBody hashmap seed rand))

/-- `map` is the pool object whose `hashmap` member receives the handle. `none`
says that the call does not return: `abort()` has ended the process. -/
def hmTxCreate (map : PMEMoid) (seed : UInt32) (rand : ℕ → UInt32) : Pmem (Option ℤ) := do
  match ← transaction (do
    txAddField map .hashmap
    let hashmap ← txZalloc .hashmapTx Kind.hashmapTx.sizeof
    dRw map .hashmap hashmap
    createHashmap hashmap seed rand) with
  | none => do
    let gone ← exited
    pure (if gone then none else some (-1))
  | some _ => pure (some 0)

/-- The inner loop of the rebuild: the head of old chain `i` moves to the
front of its new chain until the old chain is empty. -/
def rebuildDrain (hashmap bucketsOld bucketsNew : PMEMoid) (i : ℕ) : ℕ → Pmem Unit
  | 0 => stuck
  | n+1 => do
    let en ← dRo bucketsOld (.bucket i)
    if en.isNull then pure ()
    else do
      let key ← dRo en .key
      let h ← hash hashmap bucketsNew key
      let next ← dRo en .entryNext
      dRw bucketsOld (.bucket i) next
      txAddField en .entryNext
      let front ← dRo bucketsNew (.bucket h.toNat)
      dRw en .entryNext front
      dRw bucketsNew (.bucket h.toNat) en
      rebuildDrain hashmap bucketsOld bucketsNew i n

def rebuildMove (hashmap bucketsOld bucketsNew : PMEMoid) : ℕ → ℕ → Pmem Unit
  | 0, _ => stuck
  | n+1, i => do
    let nbuckets ← dRo bucketsOld .nbuckets
    if i < nbuckets.toNat then do
      let fl ← fuel
      rebuildDrain hashmap bucketsOld bucketsNew i fl
      rebuildMove hashmap bucketsOld bucketsNew n (i+1)
    else pure ()

def bucketsSize (len : UInt64) : UInt64 := sizeofBuckets + len * sizeofToid

def rebuildBody (hashmap bucketsOld : PMEMoid) (oldLen newLen : UInt64) : Pmem Unit := do
  txAddField hashmap .buckets
  let bucketsNew ← txZalloc .buckets (bucketsSize newLen).toNat
  dRw bucketsNew .nbuckets newLen
  txAddRange bucketsOld (bucketsSize oldLen).toNat
  let fl ← fuel
  rebuildMove hashmap bucketsOld bucketsNew fl 0
  dRw hashmap .buckets bucketsNew
  txFree bucketsOld

def hmTxRebuild (hashmap : PMEMoid) (newLen : UInt64) : Pmem Unit := do
  let bucketsOld ← dRo hashmap .buckets
  let oldLen ← dRo bucketsOld .nbuckets
  let newLen := if newLen = 0 then oldLen else newLen
  let _ ← transaction (rebuildBody hashmap bucketsOld oldLen newLen)
  pure ()

/-- `none` when the key is present, otherwise the length of the chain. -/
def insertScan (key : UInt64) : ℕ → PMEMoid → Int32 → Pmem (Option Int32)
  | 0, _, _ => stuck
  | n+1, var, num =>
    if var.isNull then pure (some num)
    else do
      let k ← dRo var .key
      if k = key then pure none
      else do
        let next ← dRo var .entryNext
        insertScan key n next (num + 1)

def insertBody (hashmap buckets : PMEMoid) (h : ℕ) (key : UInt64) (value : PMEMoid) :
    Pmem Unit := do
  let current ← dRo hashmap .buckets
  txAddField current (.bucket h)
  txAddField hashmap .count
  let e ← txNew .entry
  dRw e .key key
  dRw e .value value
  let front ← dRo buckets (.bucket h)
  dRw e .entryNext front
  dRw buckets (.bucket h) e
  let count ← dRo hashmap .count
  dRw hashmap .count (count + 1)

def insertGrow (hashmap buckets : PMEMoid) (num : Int32) : Pmem Unit := do
  let count ← dRo hashmap .count
  let nbuckets ← dRo buckets .nbuckets
  if num > maxHashsetThreshold ∨ (num > minHashsetThreshold ∧ count > 2 * nbuckets) then
    hmTxRebuild hashmap (nbuckets * 2)
  else pure ()

/-- 0 if inserted, 1 if the key was present, -1 after an abort. -/
def hmTxInsert (hashmap : PMEMoid) (key : UInt64) (value : PMEMoid) : Pmem ℤ := do
  let buckets ← dRo hashmap .buckets
  let h ← hash hashmap buckets key
  let var ← dRo buckets (.bucket h.toNat)
  let fl ← fuel
  match ← insertScan key fl var 0 with
  | none => pure 1
  | some num =>
    match ← transaction (insertBody hashmap buckets h.toNat key value) with
    | none => pure (-1)
    | some _ => do
      insertGrow hashmap buckets (num + 1)
      pure 0

def removeScan (key : UInt64) : ℕ → PMEMoid → PMEMoid → Pmem (PMEMoid × PMEMoid)
  | 0, _, _ => stuck
  | n+1, prev, var =>
    if var.isNull then pure (prev, var)
    else do
      let k ← dRo var .key
      if k = key then pure (prev, var)
      else do
        let next ← dRo var .entryNext
        removeScan key n var next

/-- The link that leads to the removed node, a slot or the `next` of its
predecessor, is snapshotted first and redirected later. -/
def removeAdd (hashmap : PMEMoid) (h : ℕ) (prev : PMEMoid) : Pmem Unit :=
  if prev.isNull then do
    let current ← dRo hashmap .buckets
    txAddField current (.bucket h)
  else txAddField prev .entryNext

def removeLink (buckets : PMEMoid) (h : ℕ) (prev next : PMEMoid) : Pmem Unit :=
  if prev.isNull then dRw buckets (.bucket h) next else dRw prev .entryNext next

def removeBody (hashmap buckets : PMEMoid) (h : ℕ) (prev var : PMEMoid) : Pmem Unit := do
  removeAdd hashmap h prev
  txAddField hashmap .count
  let next ← dRo var .entryNext
  removeLink buckets h prev next
  let count ← dRo hashmap .count
  dRw hashmap .count (count - 1)
  txFree var

def removeShrink (hashmap buckets : PMEMoid) : Pmem Unit := do
  let count ← dRo hashmap .count
  let nbuckets ← dRo buckets .nbuckets
  if count < nbuckets then hmTxRebuild hashmap (nbuckets / 2) else pure ()

/-- The removed value, or `OID_NULL` for an absent key and after an abort. -/
def hmTxRemove (hashmap : PMEMoid) (key : UInt64) : Pmem PMEMoid := do
  let buckets ← dRo hashmap .buckets
  let h ← hash hashmap buckets key
  let front ← dRo buckets (.bucket h.toNat)
  let fl ← fuel
  let (prev, var) ← removeScan key fl oidNull front
  if var.isNull then pure oidNull
  else do
    let retoid ← dRo var .value
    match ← transaction (removeBody hashmap buckets h.toNat prev var) with
    | none => pure oidNull
    | some _ => do
      removeShrink hashmap buckets
      pure retoid

def findScan (key : UInt64) : ℕ → PMEMoid → Pmem PMEMoid
  | 0, _ => stuck
  | n+1, var =>
    if var.isNull then pure var
    else do
      let k ← dRo var .key
      if k = key then pure var
      else do
        let next ← dRo var .entryNext
        findScan key n next

def findEntry (hashmap : PMEMoid) (key : UInt64) : Pmem PMEMoid := do
  let buckets ← dRo hashmap .buckets
  let h ← hash hashmap buckets key
  let var ← dRo buckets (.bucket h.toNat)
  let fl ← fuel
  findScan key fl var

def hmTxGet (hashmap : PMEMoid) (key : UInt64) : Pmem PMEMoid := do
  let var ← findEntry hashmap key
  if var.isNull then pure oidNull else dRo var .value

def hmTxLookup (hashmap : PMEMoid) (key : UInt64) : Pmem ℤ := do
  let var ← findEntry hashmap key
  if var.isNull then pure 0 else pure 1

def hmTxCount (hashmap : PMEMoid) : Pmem UInt64 := dRo hashmap .count

/-- Non-zero unless the handle names a live `struct hashmap_tx`. -/
def hmTxCheck (hashmap : PMEMoid) : Pmem Bool := do
  if hashmap.isNull then pure true
  else do
    let valid ← toidValid hashmap .hashmapTx
    pure !valid

/-- Command 0 is `HASHMAP_CMD_REBUILD`; command 1, `HASHMAP_CMD_DEBUG`, only
prints; -22 is `-EINVAL`. -/
def hmTxCmd (hashmap : PMEMoid) (cmd : UInt32) (arg : UInt64) : Pmem ℤ :=
  if cmd = 0 then do
    hmTxRebuild hashmap arg
    pure 0
  else if cmd = 1 ∧ arg ≠ 0 then pure 0
  else pure (-22)

end RtsCache.HashmapMachine
