import RtsCache.HashmapMachine

/-!
# The cache

`cache.c` function by function, over the transactional hash map. A store
through a pointer into an entry is a plain store, whether or not a snapshot
covers it. `cache_get` answers with its return code and with what it has
stored through its `value` pointer.
-/

set_option autoImplicit false

namespace RtsCache.CacheMachine
open RtsCache.UndoHeap RtsCache.UndoMachine RtsCache.PoolLayout RtsCache.HashmapMachine

def ECANCELED : ℤ := 125

def EINVAL : ℤ := 22

/-- `TX_MEMCPY` of a whole entry. -/
def txMemcpyEntry (dst src : PMEMoid) : Pmem Unit := do
  txAddRange dst Kind.cacheEntry.sizeof
  copyCells dst src fun f => f.extent ≤ Kind.cacheEntry.sizeof

/-- The first 16 bytes of an entry read as a handle. -/
def directOid (o : PMEMoid) : Pmem PMEMoid := do
  let key ← dRo o ._key
  let value ← dRo o ._value
  let padding ← dRo o .padding
  pure ⟨key, value.toUInt32.toUInt64 ||| (padding.toUInt64 <<< 32)⟩

def cacheCheck (cache : PMEMoid) : Pmem Bool := do
  if cache.isNull then pure true
  else do
    let hashmap ← dRo cache .hashmap
    hmTxCheck hashmap

def addFields (cache : PMEMoid) : Pmem Unit := do
  txAddField cache .hashmap
  txAddField cache .head
  txAddField cache .tail

def cacheAddBody (cache entry : PMEMoid) : Pmem Unit := do
  addFields cache
  let dummy ← txNew .cacheEntry
  let head ← dRo cache .head
  let first ← dRo head .next
  txMemcpyEntry dummy first
  let head ← dRo cache .head
  dRw head .next entry
  let head ← dRo cache .head
  dRw entry .prev head
  dRw entry .next dummy
  dRw dummy .prev entry

def cacheAdd (cache entry : PMEMoid) : Pmem ℤ := do
  if ← cacheCheck cache then pure (-1)
  else
    match ← transaction (cacheAddBody cache entry) with
    | none => pure (-1)
    | some _ => pure 0

def cacheDeleteBody (cache entry : PMEMoid) : Pmem Unit := do
  addFields cache
  let delNext ← dRo entry .next
  let delPrev ← dRo entry .prev
  dRw delNext .prev delPrev
  dRw delPrev .next delNext
  txFree entry

def cacheDelete (cache entry : PMEMoid) : Pmem ℤ := do
  if ← cacheCheck cache then pure (-1)
  else
    match ← transaction (cacheDeleteBody cache entry) with
    | none => pure (-1)
    | some _ => pure 0

def cacheGetBody (cache : PMEMoid) (key : UInt64) : Pmem Int32 := do
  txAddField cache .hashmap
  txAddField cache .head
  let hashmap ← dRo cache .hashmap
  let mapped ← hmTxGet hashmap key
  if mapped.isNull then txAbort ECANCELED
  else do
    let valid ← toidValid mapped .cacheEntry
    if !valid then txAbort EINVAL
    else do
      let hashmap ← dRo cache .hashmap
      let _ ← hmTxRemove hashmap key
      let val ← dRo mapped ._value
      let _ ← cacheDelete cache mapped
      let hashmap ← dRo cache .hashmap
      let head ← dRo cache .head
      let first ← dRo head .next
      let oid ← directOid first
      let _ ← hmTxInsert hashmap key oid
      pure val

/-- The final `value = &val` changes the parameter, not what it points to. -/
def cacheGet (cache : PMEMoid) (key : UInt64) (valueNull : Bool) : Pmem (ℤ × Option Int32) := do
  if ← cacheCheck cache then pure (-1, none)
  else if valueNull then pure (-1, none)
  else
    match ← transaction (cacheGetBody cache key) with
    | none => pure (-1, none)
    | some _ => pure (0, none)

def cacheSetDrop (cache : PMEMoid) (key : UInt64) (mapped : PMEMoid) : Pmem Unit := do
  if mapped.isNull then pure ()
  else do
    let valid ← toidValid mapped .cacheEntry
    if valid then do
      let hashmap ← dRo cache .hashmap
      let _ ← hmTxRemove hashmap key
      let _ ← cacheDelete cache mapped
      pure ()
    else pure ()

def cacheSetEvict (cache : PMEMoid) : Pmem Unit := do
  let hashmap ← dRo cache .hashmap
  let currentMapSize ← hmTxCount hashmap
  let capacity ← dRo cache .capacity
  if currentMapSize = capacity then do
    let hashmap ← dRo cache .hashmap
    let tail ← dRo cache .tail
    let last ← dRo tail .prev
    let lastKey ← dRo last ._key
    let _ ← hmTxRemove hashmap lastKey
    let tail ← dRo cache .tail
    let last ← dRo tail .prev
    let _ ← cacheDelete cache last
    pure ()
  else pure ()

def cacheSetLink (cache : PMEMoid) (mapped : PMEMoid) : Pmem Unit := do
  if mapped.isNull then pure ()
  else do
    let valid ← toidValid mapped .cacheEntry
    if valid then do
      let head ← dRo cache .head
      let first ← dRo head .next
      dRw mapped .next first
    else pure ()

/-- The new entry goes in front; the map is only asked for the key again. -/
def cacheSetInsert (cache : PMEMoid) (key : UInt64) (value : Int32) : Pmem Unit := do
  let newEntry ← txNew .cacheEntry
  dRw newEntry ._key key
  dRw newEntry ._value value
  let _ ← cacheAdd cache newEntry
  let hashmap ← dRo cache .hashmap
  let mapped ← hmTxGet hashmap key
  cacheSetLink cache mapped

def cacheSetBody (cache : PMEMoid) (key : UInt64) (value : Int32) : Pmem Unit := do
  txAddField cache .hashmap
  txAddField cache .head
  let hashmap ← dRo cache .hashmap
  let mapped ← hmTxGet hashmap key
  cacheSetDrop cache key mapped
  cacheSetEvict cache
  cacheSetInsert cache key value

def cacheSet (cache : PMEMoid) (key : UInt64) (value : Int32) : Pmem ℤ := do
  if ← cacheCheck cache then pure (-1)
  else
    match ← transaction (cacheSetBody cache key value) with
    | none => pure (-1)
    | some _ => pure 0

end RtsCache.CacheMachine
