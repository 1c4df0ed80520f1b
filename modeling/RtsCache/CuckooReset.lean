import RtsCache.CuckooCount
import RtsCache.CuckooSizing

/-!
# Resetting a cuckoo filter

`cf_reset` clears as many buckets as a bucket has slots. A smaller filter has
no such buckets, and of a larger one it clears the first four.
-/

set_option autoImplicit false

namespace RtsCache.CuckooReset
open RtsCache.CuckooIndex RtsCache.CuckooMachine RtsCache.CuckooSpec
open RtsCache.CuckooCount RtsCache.CuckooSizing

/-- A filter `cf_new` builds for a capacity, with other contents. -/
def filled (capacity : UInt32) (count : UInt64) (bytes : Bytes) : CuckooFilter :=
  { newFilter capacity with count := count, bytes := bytes }

def resetIndices : List ℕ := List.range bucketSize

def Emptied (shr : UInt32 → UInt32) (cf : CuckooFilter) : Prop :=
  cf.count = 0 ∧ (∀ i < 2^cf.bucketPower, ∀ j < bucketSize, cf.bytes (bucketSize * i + j) = 0) ∧
    ∀ key, cfLookup shr cf key = some 0

/-- The loop stays within the buckets and leaves the filter empty. -/
def Resets (shr : UInt32 → UInt32) (cf : CuckooFilter) : Prop :=
  (∀ i ∈ resetIndices, i < 2^cf.bucketPower) ∧
    ∃ cf', cfReset cf = some (0, cf') ∧ cf'.bucketPower = cf.bucketPower ∧ Emptied shr cf'

def EmptyBeyond (cf : CuckooFilter) : Prop :=
  ∀ i < 2^cf.bucketPower, bucketSize ≤ i → ∀ j < bucketSize, cf.bytes (bucketSize * i + j) = 0

variable {shr : UInt32 → UInt32} {cf cf' : CuckooFilter} {capacity : UInt32} {key : Key}

theorem cfReset_loop (cf : CuckooFilter) :
    cfReset cf =
      (resetIndices.foldlM resetBucket cf).map fun cf => (0, { cf with count := 0 }) := by
  rw [cfReset, resetIndices]
  cases (List.range bucketSize).foldlM resetBucket cf <;> rfl

theorem resetIndices_iff {p : ℕ} : (∀ i ∈ resetIndices, i < 2^p) ↔ 2 ≤ p := by
  constructor
  · intro h
    have hlast : 3 < 2^p := h 3 (by decide)
    by_contra hlt
    have hle : 2^p ≤ 2^1 := Nat.pow_le_pow_right (by decide) (by omega)
    omega
  · intro hp i hi
    have hlt : i < 4 := List.mem_range.mp hi
    have hle : 2^2 ≤ 2^p := Nat.pow_le_pow_right (by decide) hp
    omega

theorem not_held_of_empty
    (h : ∀ i < 2^cf.bucketPower, ∀ j < bucketSize, cf.bytes (bucketSize * i + j) = 0) (key : Key) :
    ¬ Held shr cf key := by
  rintro ⟨o, ⟨j, hj, rfl | rfl⟩, hv⟩
  · rw [h _ (index1_lt shr cf key) j hj] at hv
    exact fp_ne_zero shr key _ hv.symm
  · rw [h _ (index2_lt shr cf key) j hj] at hv
    exact fp_ne_zero shr key _ hv.symm

theorem lookup_of_empty
    (h : ∀ i < 2^cf.bucketPower, ∀ j < bucketSize, cf.bytes (bucketSize * i + j) = 0) (key : Key) :
    cfLookup shr cf key = some 0 := by
  rcases cfLookup_spec shr cf key with ⟨-, hh⟩ | ⟨hl, -⟩
  · exact absurd hh (not_held_of_empty h key)
  · exact hl

/-- A reset does what it is for exactly when there are four buckets at least
and the others are empty already. -/
theorem resets_iff_power (shr : UInt32 → UInt32) (cf : CuckooFilter) :
    Resets shr cf ↔ 2 ≤ cf.bucketPower ∧ EmptyBeyond cf := by
  constructor
  · rintro ⟨hrange, cf', hrun, hpower, -, hempty, -⟩
    have hp := resetIndices_iff.mp hrange
    refine ⟨hp, ?_⟩
    intro i hi hfour j hj
    have hone : 1 ≤ cf.bucketPower := Nat.le_of_succ_le hp
    obtain ⟨cf'', hrun', -, -, hbytes⟩ := cfReset_spec hone
    cases hrun.symm.trans hrun'
    have hzero := hempty i (hpower.symm ▸ hi) j hj
    rw [hbytes, if_neg] at hzero
    · exact hzero
    · simp only [bucketSize] at hfour ⊢
      omega
  · rintro ⟨hp, hbeyond⟩
    have hone : 1 ≤ cf.bucketPower := Nat.le_of_succ_le hp
    obtain ⟨cf', hrun, hcount, hpower, hbytes⟩ := cfReset_spec hone
    have hempty : ∀ i < 2^cf'.bucketPower, ∀ j < bucketSize,
        cf'.bytes (bucketSize * i + j) = 0 := by
      intro i hi j hj
      rw [hbytes]
      split
      · rfl
      · rename_i hge
        apply hbeyond i (hpower ▸ hi) _ j hj
        simp only [bucketSize] at hge hj ⊢
        omega
    exact ⟨resetIndices_iff.mpr hp, cf', hrun, hpower, hcount, hempty, lookup_of_empty hempty⟩

theorem two_le_power_iff (capacity : UInt32) :
    2 ≤ (newFilter capacity).bucketPower ↔ 8 < capacity.toNat ∧ capacity.toNat ≤ 2^31 := by
  have hpower : (filterCapacity capacity).toNat = 2^(newFilter capacity).bucketPower :=
    filterCapacity_eq capacity
  have hiff : 2 ≤ (newFilter capacity).bucketPower ↔ 4 ≤ (filterCapacity capacity).toNat := by
    rw [hpower]
    exact (Nat.pow_le_pow_iff_right (a := 2) (n := 2) (by decide)).symm
  have hone : (1 : UInt32).toNat = 1 := rfl
  rw [hiff]
  constructor
  · intro h
    by_cases hsmall : capacity.toNat < 2
    · rw [filterCapacity_small hsmall, hone] at h
      omega
    · have hle : capacity.toNat ≤ 2^31 := by
        by_contra hlarge
        rw [filterCapacity_large (Nat.lt_of_not_le hlarge), hone] at h
        omega
      obtain ⟨k, -, hdown, hslots⟩ := filterCapacity_between (Nat.le_of_not_lt hsmall) hle
      refine ⟨?_, hle⟩
      by_contra hfew
      have hlt : 2^k < 2^3 := by omega
      have hk : k < 3 := (Nat.pow_lt_pow_iff_right (by decide)).mp hlt
      have hpow : 2^(k+1) ≤ 2^3 := Nat.pow_le_pow_right (by decide) hk
      simp only [bucketSize] at hslots
      omega
  · rintro ⟨hmany, hle⟩
    obtain ⟨k, hup, -, hslots⟩ := filterCapacity_between (by omega) hle
    have hlt : 2^3 < 2^(k+1) := by omega
    have hk : 3 < k+1 := (Nat.pow_lt_pow_iff_right (by decide)).mp hlt
    have hpow : 2^4 ≤ 2^(k+1) := Nat.pow_le_pow_right (by decide) hk
    simp only [bucketSize] at hslots
    omega

/-- Over every capacity and contents, when a reset does what it is for. -/
theorem resets_iff (shr : UInt32 → UInt32) (capacity : UInt32) (count : UInt64) (bytes : Bytes) :
    Resets shr (filled capacity count bytes) ↔
      (8 < capacity.toNat ∧ capacity.toNat ≤ 2^31) ∧ EmptyBeyond (filled capacity count bytes) := by
  rw [resets_iff_power, ← two_le_power_iff capacity]
  rfl

/-- A filter for 1000 keys keeps the fingerprint in its fifth bucket, and a
filter of one bucket has no second one. -/
theorem not_resets :
    ¬ Resets id (filled 1000 1 fun o => if o = 16 then 1 else 0) ∧
      ¬ Resets id (filled 1 0 fun _ => 0) := by
  constructor
  · rintro ⟨-, cf', hrun, hpower, -, hempty, -⟩
    have hkept : ∃ cf'', cfReset (filled 1000 1 fun o => if o = 16 then 1 else 0) = some (0, cf'') ∧
        cf''.bytes 16 = 1 := ⟨_, rfl, rfl⟩
    obtain ⟨cf'', hrun', hv⟩ := hkept
    cases hrun.symm.trans hrun'
    have hfifth : 4 < 2^cf'.bucketPower := by
      rw [hpower]
      decide
    have hzero := hempty 4 hfifth 0 (by decide)
    cases hv.symm.trans hzero
  · rintro ⟨hrange, -⟩
    exact absurd (hrange 1 (by decide)) (by decide)

end RtsCache.CuckooReset
