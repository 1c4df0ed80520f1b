import RtsCache.CuckooMachine

/-!
# The scalable cuckoo filter

`cf_new` overwrites its own pointer parameter: the pointer `scf_configure`
passes stays null, and the one `scf_insert` passes stays unset. Reading a null
or unset pointer, or outside the array of sub-filters, has no result. The
functions are given a `scf` that is not null.
-/

set_option autoImplicit false

namespace RtsCache.ScalableMachine
open RtsCache.CuckooIndex RtsCache.CuckooMachine

/-- Whether the quotient of count and power, as floats, exceeds a factor other than 0. -/
abbrev LoadFactor := UInt64 → ℕ → Bool

def cfSDefaultCapacity : UInt32 := 10000

/-- `none` is a factor of 0, or a null pointer. -/
structure ScalableCuckooFilter where
  loadFactor : Option LoadFactor
  scaleFactor : Option (UInt32 → UInt32)
  filterCount : UInt64
  capacity : UInt64
  filters : Option (List (Option CuckooFilter))

def scfDefaultScaleFactorFunc (currentSize : UInt32) : UInt32 :=
  currentSize * UInt32.ofNat bucketSize * 2

/-- `array` and `memory` say whether the array of pointers and the sub-filter
can be allocated. -/
def scfConfigure (cfSDefaultLoadFactor : LoadFactor) (array memory : Bool)
    (scf : ScalableCuckooFilter) : Option (ℤ × ScalableCuckooFilter) :=
  let scf := { scf with
    loadFactor := some (scf.loadFactor.getD cfSDefaultLoadFactor)
    scaleFactor := some (scf.scaleFactor.getD scfDefaultScaleFactorFunc) }
  match scf.filters with
  | some _ => some (0, scf)
  | none =>
    if array then
      let scf := { scf with filters := some [none] }
      if (cfNew memory cfSDefaultCapacity).1 = -1 then some (-1, scf)
      else some (0, { scf with capacity := cfSDefaultCapacity.toUInt64, filterCount := 1 })
    else none

def lookupAt [Tables] (shr : UInt32 → UInt32) (filter : Option CuckooFilter) (key : Key) :
    Option ℤ :=
  match filter with
  | some cf => cfLookup shr cf key
  | none => some (-1)

def scfLookupFrom [Tables] (shr : UInt32 → UInt32) (filters : List (Option CuckooFilter))
    (key : Key) : List ℕ → Option ℤ
  | [] => some 0
  | i::is => do
    let filter ← filters[i]?
    let found ← lookupAt shr filter key
    if found ≠ 0 then some 1 else scfLookupFrom shr filters key is

def scfLookup [Tables] (shr : UInt32 → UInt32) (scf : ScalableCuckooFilter) (key : Key) :
    Option ℤ :=
  match scf.filters with
  | some filters => scfLookupFrom shr filters key (List.range scf.filterCount.toNat)
  | none => some (-1)

def lastIndex (scf : ScalableCuckooFilter) : ℕ := (scf.filterCount - 1).toNat

def lastFilter (scf : ScalableCuckooFilter) : Option CuckooFilter := do
  let filters ← scf.filters
  let filter ← filters[lastIndex scf]?
  filter

/-- The test of the load. A quotient exceeds 0 exactly when the count does. -/
def overloaded (scf : ScalableCuckooFilter) (cf : CuckooFilter) : Bool :=
  match scf.loadFactor with
  | some exceeds => exceeds cf.count cf.bucketPower
  | none => 0 < cf.count

def setLast (scf : ScalableCuckooFilter) (cf : CuckooFilter) : ScalableCuckooFilter :=
  { scf with filters := scf.filters.map fun filters => filters.set (lastIndex scf) (some cf) }

/-- A result of `cf_new` other than 0 lets the unset `newFilter` be stored. -/
def scfInsert [Tables] (shr : UInt32 → UInt32) (memory : Bool) (scf : ScalableCuckooFilter)
    (key : Key) (rand : ℕ → UInt32) (coin : Bool) : Option (ℤ × ScalableCuckooFilter) := do
  let last ← lastFilter scf
  let (needScale, scf) ← if overloaded scf last then some (true, scf) else do
    let (inserted, cf) ← cfInsert shr last key rand coin
    some (decide (inserted = 0), setLast scf cf)
  if ¬ needScale then some (1, scf)
  else do
    let scaleFactor ← scf.scaleFactor
    let created := (cfNew memory (scaleFactor (UInt32.ofNat last.bucketPower))).1
    if created = 0 then some (-1, scf) else none

def scfInsertUnique [Tables] (shr : UInt32 → UInt32) (memory : Bool) (scf : ScalableCuckooFilter)
    (key : Key) (rand : ℕ → UInt32) (coin : Bool) : Option (ℤ × ScalableCuckooFilter) := do
  let found ← scfLookup shr scf key
  if found ≠ 0 then some (0, scf) else scfInsert shr memory scf key rand coin

/-- The loops over the sub-filters `is` that end with -1 at the first failure. -/
def eachFilter (call : Option CuckooFilter → Option (ℤ × Option CuckooFilter)) (fails : ℤ → Bool) :
    List ℕ → List (Option CuckooFilter) → Option (ℤ × List (Option CuckooFilter))
  | [], filters => some (0, filters)
  | i::is, filters => do
    let filter ← filters[i]?
    let (r, filter) ← call filter
    let filters := filters.set i filter
    if fails r then some (-1, filters) else eachFilter call fails is filters

def changeAt (change : CuckooFilter → Option (ℤ × CuckooFilter)) (filter : Option CuckooFilter) :
    Option (ℤ × Option CuckooFilter) :=
  match filter with
  | some cf => (change cf).map fun x => (x.1, some x.2)
  | none => some (-1, none)

def scfDelete [Tables] (shr : UInt32 → UInt32) (scf : ScalableCuckooFilter) (key : Key) :
    Option (ℤ × ScalableCuckooFilter) :=
  match scf.filters with
  | some filters => do
    let (r, filters) ← eachFilter (changeAt fun cf => cfDelete shr cf key) (fun r => r ≠ 0)
      (List.range scf.filterCount.toNat) filters
    some (r, { scf with filters := some filters })
  | none => some (-1, scf)

/-- Without a test of `filters`, a null array is read as soon as there is a sub-filter. -/
def scfReset (scf : ScalableCuckooFilter) : Option (ℤ × ScalableCuckooFilter) :=
  match scf.filters with
  | some filters => do
    let (r, filters) ← eachFilter (changeAt cfReset) (fun r => r = -1)
      (List.range scf.filterCount.toNat) filters
    some (r, { scf with filters := some filters })
  | none => if scf.filterCount = 0 then some (0, scf) else none

end RtsCache.ScalableMachine
