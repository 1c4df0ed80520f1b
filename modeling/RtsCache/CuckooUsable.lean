import RtsCache.CuckooSpec

/-!
# What `cf_new` hands its caller

`cf_new` fills an object of its own and leaves the caller's as it was, and
nothing calls `init`. In the object it fills no bucket passes the test for a
null pointer, since the buckets tested are the bytes of empty buckets; the
buckets `bucket_new` allocates are lost the same way.
-/

set_option autoImplicit false

namespace RtsCache.CuckooUsable
open RtsCache.CuckooIndex RtsCache.CuckooMachine RtsCache.CuckooSpec

def Filled (t : Tables) : Prop :=
  (∀ fp, t.altHashes fp = init.altHashes fp) ∧ ∀ p < 31, t.masks p = init.masks p

abbrev Object := Option CuckooFilter

/-- The objects by address; all below `brk`. -/
structure Process where
  objects : ℕ → Option Object
  tables : Tables
  brk : ℕ
  free : ∀ a, brk ≤ a → objects a = none

def allocate (s : Process) (object : Object) : Process where
  objects := Function.update s.objects s.brk (some object)
  tables := s.tables
  brk := s.brk + 1
  free a ha := by
    have hne : a ≠ s.brk := by omega
    rw [Function.update_of_ne hne]
    exact s.free a (by omega)

/-- `cf_new` of the object at an address, which the first statement overwrites. -/
def cfNewAt (memory : Bool) (s : Process) (_cf : ℕ) (capacity : UInt32) : ℤ × Process :=
  match cfNew memory capacity with
  | (r, some filter) => (r, allocate s (some filter))
  | (r, none) => (r, s)

/-- What a caller of `cf_new` can do with the object it passed. -/
structure Usable (shr : UInt32 → UInt32) (t : Tables) (cf : CuckooFilter) : Prop where
  count : cf.count = 0
  empty : ∀ o < bucketSize * 2^cf.bucketPower, cf.bytes o = 0
  present : ∀ i < 2^cf.bucketPower, bucketPresent cf i = some true
  filled : Filled t
  found : ∀ key rand coin, ∃ r cf', @cfInsert t shr cf key rand coin = some (r, cf') ∧
    @cfLookup t shr cf' key = some 1

def UsableAt (shr : UInt32 → UInt32) (s : Process) (a : ℕ) : Prop :=
  ∃ cf, s.objects a = some (some cf) ∧ Usable shr s.tables cf

structure Padded (cf : CuckooFilter) : Prop where
  count : cf.count = 0
  power : cf.bucketPower = 0
  empty : ∀ j < bucketSize, cf.bytes j = 0
  rest : ∃ j < sizeofPointer, bucketSize ≤ j ∧ cf.bytes j ≠ 0

variable {shr : UInt32 → UInt32} {t : Tables} {cf : CuckooFilter} {s : Process} {a : ℕ}

theorem present_of_eq_true {i : ℕ} (h : bucketPresent cf i = some true) : Present cf.bytes i := by
  unfold bucketPresent at h
  split at h
  · simpa [Present] using h
  · cases h

theorem found_of_empty [Tables] (hempty : ∀ o < bucketSize * 2^cf.bucketPower, cf.bytes o = 0)
    (key : Key) (rand : ℕ → UInt32) (coin : Bool) :
    ∃ r cf', cfInsert shr cf key rand coin = some (r, cf') ∧ cfLookup shr cf' key = some 1 := by
  have hnotFull : ∀ i < 2^cf.bucketPower, ¬ Full cf.bytes i := by
    intro i hi hfull
    have hfirst : bucketSize * i + 0 < bucketSize * 2^cf.bucketPower :=
      Nat.mul_lt_mul_of_pos_left hi (by decide)
    exact hfull 0 (by decide) (hempty _ hfirst)
  obtain ⟨r, cf', hrun, hins⟩ := cfInsert_spec shr cf key rand coin
  use r, cf', hrun
  rw [lookup_iff]
  cases hins with
  | misreported h _ _ _ _ _ =>
    rcases h with h | ⟨-, h⟩
    · exact absurd h.2 (hnotFull _ (index1_lt shr cf key))
    · exact absurd h.2 (hnotFull _ (index2_lt shr cf key))
  | stored _ held _ _ _ _ _ => exact held
  | kicked _ held _ _ _ => exact held

theorem usable_iff : Usable shr t cf ↔ Padded cf ∧ Filled t := by
  constructor
  · rintro ⟨count, empty, present, filled, -⟩
    obtain ⟨j, hj, hne⟩ := present_of_eq_true (present 0 (Nat.two_pow_pos _))
    rw [Nat.mul_zero, Nat.zero_add] at hne
    have hbeyond : bucketSize * 2^cf.bucketPower ≤ j := by
      by_contra hlt
      exact hne (empty j (Nat.lt_of_not_le hlt))
    have hpower : cf.bucketPower = 0 := by
      by_contra hp
      have htwo : 2^1 ≤ 2^cf.bucketPower := Nat.pow_le_pow_right (by decide) (by omega)
      simp only [sizeofPointer, bucketSize] at hj hbeyond
      omega
    rw [hpower] at empty hbeyond
    exact ⟨⟨count, hpower, empty, j, hj, hbeyond, hne⟩, filled⟩
  · rintro ⟨⟨count, power, empty, j, hj, -, hne⟩, filled⟩
    have hempty : ∀ o < bucketSize * 2^cf.bucketPower, cf.bytes o = 0 := by
      rw [power]
      exact empty
    constructor
    · exact count
    · exact hempty
    · intro i hi
      obtain ⟨present, hp, hiff⟩ := bucketPresent_eq hi
      have hzero : i = 0 := by
        rw [power] at hi
        omega
      subst hzero
      rw [hp, hiff.mpr ⟨j, hj, by rwa [Nat.mul_zero, Nat.zero_add]⟩]
    · exact filled
    · exact @found_of_empty shr cf t hempty

theorem newFilter_absent (capacity : UInt32) {i : ℕ} (hi : i < 2^(newFilter capacity).bucketPower) :
    bucketPresent (newFilter capacity) i = some false := by
  obtain ⟨present, hp, hiff⟩ := bucketPresent_eq hi
  have hnot : ¬ present = true := by
    rw [hiff]
    rintro ⟨j, -, hj⟩
    exact hj rfl
  rw [hp, Bool.eq_false_iff.mpr hnot]

/-- The object passed is usable exactly if it was so before. The one that is
filled would be of no use: no bucket of it passes the test. -/
theorem cfNew_usable_iff (shr : UInt32 → UInt32) (capacity : UInt32) (hlive : s.objects a ≠ none) :
    (cfNewAt true s a capacity).1 = 0 ∧
    (UsableAt shr (cfNewAt true s a capacity).2 a ↔
      ∃ cf, s.objects a = some (some cf) ∧ Padded cf ∧ Filled s.tables) ∧
    ∀ i < 2^(newFilter capacity).bucketPower,
      bucketPresent (newFilter capacity) i = some false := by
  have hne : a ≠ s.brk := by
    rintro rfl
    exact hlive (s.free s.brk (Nat.le_refl _))
  have hsame : (cfNewAt true s a capacity).2.objects a = s.objects a :=
    Function.update_of_ne hne _ _
  have husable : UsableAt shr (cfNewAt true s a capacity).2 a ↔
      ∃ cf, s.objects a = some (some cf) ∧ Padded cf ∧ Filled s.tables := by
    unfold UsableAt
    rw [hsame]
    simp only [usable_iff]
    rfl
  exact ⟨rfl, husable, fun i hi => newFilter_absent capacity hi⟩

section Sample

/-- `main` before its call of `cf_new`: `filter` is on the stack, not set. -/
def mainProcess : Process where
  objects a := if a = 0 then some none else none
  tables := zeroTables
  brk := 1
  free a ha := if_neg (by omega)

theorem cfNew_usable_main :
    (cfNewAt true mainProcess 0 1000).1 = 0 ∧
    (UsableAt id (cfNewAt true mainProcess 0 1000).2 0 ↔
      ∃ cf, mainProcess.objects 0 = some (some cf) ∧ Padded cf ∧ Filled mainProcess.tables) ∧
    ∀ i < 2^(newFilter 1000).bucketPower, bucketPresent (newFilter 1000) i = some false :=
  cfNew_usable_iff id 1000 (by decide)

theorem not_usable_main : (cfNewAt true mainProcess 0 1000).1 = 0 ∧
    ¬ UsableAt id (cfNewAt true mainProcess 0 1000).2 0 := by
  constructor
  · rfl
  · rintro ⟨cf, hcf, -⟩
    cases hcf

end Sample

end RtsCache.CuckooUsable
