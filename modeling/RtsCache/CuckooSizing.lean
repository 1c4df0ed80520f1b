import RtsCache.CuckooSpec
import Mathlib.Logic.Function.Iterate

/-!
# The size of a filter and the buckets of a key

A filter has as many slots as its capacity asks for up to `2^31`; above that
the power of two does not fit 32 bits and one bucket is all there is. The two
buckets of a key lie within the table, and each is the alternate of the other.
-/

set_option autoImplicit false

namespace RtsCache.CuckooSizing
open RtsCache.CuckooIndex RtsCache.CuckooMachine RtsCache.CuckooSpec

structure Sized (capacity : UInt32) : Prop where
  enough : capacity.toNat ≤ bucketSize * (filterCapacity capacity).toNat
  bounded : bucketSize * (filterCapacity capacity).toNat < 2 * max capacity.toNat bucketSize
  power : (filterCapacity capacity).toNat = 2^(newFilter capacity).bucketPower

variable {capacity : UInt32}

theorem pred_toNat (hc : 1 ≤ capacity.toNat) :
    (capacity.toUInt64 - 1).toNat = capacity.toNat - 1 := by
  have hone : (1 : UInt64).toNat = 1 := rfl
  have hle : (1 : UInt64) ≤ capacity.toUInt64 := by
    rw [UInt64.le_iff_toNat_le, UInt32.toNat_toUInt64, hone]
    exact hc
  rw [UInt64.toNat_sub_of_le _ _ hle, UInt32.toNat_toUInt64, hone]

theorem nextPow2_power (hc : 2 ≤ capacity.toNat) : ∃ k ≤ 31,
    capacity.toNat ≤ 2^(k+1) ∧ 2^k < capacity.toNat ∧
      (nextPow2 capacity.toUInt64).toNat = 2^(k+1) % 2^32 := by
  have hone : 1 ≤ capacity.toNat := by omega
  have hpred := pred_toNat hone
  have hne : (capacity.toUInt64 - 1).toNat ≠ 0 := by omega
  have hlog := nextPow2_log2 hne
  rw [hpred] at hne hlog
  have hhigh := Nat.lt_log2_self (n := capacity.toNat - 1)
  have hlow := Nat.log2_self_le hne
  have hlt : (capacity.toNat - 1).log2 < 32 := by
    have := capacity.toNat_lt
    exact (Nat.log2_lt hne).mpr (by omega)
  have h64 : 2^((capacity.toNat - 1).log2 + 1) < 2^64 :=
    Nat.pow_lt_pow_right (by decide) (by omega)
  rw [Nat.mod_eq_of_lt h64] at hlog
  exact ⟨(capacity.toNat - 1).log2, by omega, by omega, by omega, hlog⟩

theorem filterCapacity_of_pow {k : ℕ} (hk : (nextPow2 capacity.toUInt64).toNat = 2^(k+1)) :
    bucketSize * (filterCapacity capacity).toNat = max (2^(k+1)) bucketSize := by
  have hfour : (UInt32.ofNat bucketSize).toNat = 4 := rfl
  have hzero : (0 : UInt32).toNat = 0 := rfl
  have hone : (1 : UInt32).toNat = 1 := rfl
  have hdiv : (nextPow2 capacity.toUInt64 / UInt32.ofNat bucketSize).toNat = 2^(k+1) / 4 := by
    rw [UInt32.toNat_div, hk, hfour]
  unfold filterCapacity
  dsimp only
  split
  · rename_i hnone
    rw [hnone, hzero] at hdiv
    rw [hone]
    simp only [bucketSize]
    omega
  · rename_i hsome
    rw [← UInt32.toNat_inj, hdiv, hzero] at hsome
    rw [hdiv]
    cases k with
    | zero => exact absurd rfl hsome
    | succ k =>
      have hpow : 2^(k+1+1) = 2^k * 4 := by omega
      have hpos : 0 < 2^k := Nat.two_pow_pos k
      rw [hpow, Nat.mul_div_cancel _ (by decide)]
      simp only [bucketSize]
      omega

theorem filterCapacity_of_zero (hn : (nextPow2 capacity.toUInt64).toNat = 0) :
    filterCapacity capacity = 1 := by
  have hzero : nextPow2 capacity.toUInt64 = 0 := UInt32.toNat_inj.mp hn
  rw [filterCapacity, hzero]
  rfl

theorem filterCapacity_small (hc : capacity.toNat < 2) : filterCapacity capacity = 1 := by
  have hcases : capacity = 0 ∨ capacity = 1 := by
    have hzero : (0 : UInt32).toNat = 0 := rfl
    have hone : (1 : UInt32).toNat = 1 := rfl
    rw [← UInt32.toNat_inj, ← UInt32.toNat_inj]
    omega
  rcases hcases with rfl | rfl
  · rfl
  · rfl

theorem filterCapacity_large (hc : 2^31 < capacity.toNat) : filterCapacity capacity = 1 := by
  have h2 : 2 ≤ capacity.toNat := by omega
  obtain ⟨k, hk, hup, -, hnext⟩ := nextPow2_power h2
  have h31 : k = 31 := by
    by_contra hne
    have hle : 2^(k+1) ≤ 2^31 := Nat.pow_le_pow_right (by decide) (by omega)
    omega
  subst h31
  exact filterCapacity_of_zero hnext

theorem filterCapacity_between (h2 : 2 ≤ capacity.toNat) (hc : capacity.toNat ≤ 2^31) :
    ∃ k, capacity.toNat ≤ 2^(k+1) ∧ 2^k < capacity.toNat ∧
      bucketSize * (filterCapacity capacity).toNat = max (2^(k+1)) bucketSize := by
  obtain ⟨k, -, hup, hdown, hnext⟩ := nextPow2_power h2
  have hlt : k < 31 := by
    by_contra hge
    have hle : 2^31 ≤ 2^k := Nat.pow_le_pow_right (by decide) (by omega)
    omega
  have h32 : 2^(k+1) < 2^32 := Nat.pow_lt_pow_right (by decide) (by omega)
  rw [Nat.mod_eq_of_lt h32] at hnext
  exact ⟨k, hup, hdown, filterCapacity_of_pow hnext⟩

/-- The filter has the size asked for exactly up to a capacity of `2^31`. -/
theorem sized_iff (capacity : UInt32) : Sized capacity ↔ capacity.toNat ≤ 2^31 := by
  have hpower : (filterCapacity capacity).toNat = 2^(newFilter capacity).bucketPower :=
    filterCapacity_eq capacity
  have hone : (1 : UInt32).toNat = 1 := rfl
  constructor
  · intro h
    by_contra hlarge
    have henough := h.enough
    rw [filterCapacity_large (Nat.lt_of_not_le hlarge), hone] at henough
    simp only [bucketSize] at henough
    omega
  · intro hle
    by_cases hc : 2 ≤ capacity.toNat
    · obtain ⟨k, hup, hdown, hslots⟩ := filterCapacity_between hc hle
      rw [Nat.pow_succ] at hup hslots
      constructor
      · omega
      · rw [hslots]
        simp only [bucketSize]
        omega
      · exact hpower
    · have hsmall := filterCapacity_small (Nat.lt_of_not_le hc)
      constructor
      · rw [hsmall, hone]
        simp only [bucketSize]
        omega
      · rw [hsmall, hone]
        simp only [bucketSize]
        omega
      · exact hpower

/-- One more than `2^31` is rounded up to `2^32`, of which 32 bits keep nothing. -/
theorem not_sized_above : ¬ Sized 2147483649 := by
  intro h
  have henough := h.enough
  revert henough
  decide

section Buckets
variable [Tables]

def moved (fp : Fingerprint) (p n : ℕ) (i : UInt32) : UInt32 := (fun i => altIndex fp i p)^[n] i

def Candidate (shr : UInt32 → UInt32) (p : ℕ) (key : Key) (i : UInt32) : Prop :=
  i = index1 shr p key ∨ i = index2 shr p key

/-- What the two buckets of a key have to satisfy in a table of `2^p` buckets. -/
structure Candidates (shr : UInt32 → UInt32) (p : ℕ) (key : Key) : Prop where
  least : 1 ≤ (keyFp shr p key).toNat
  greatest : (keyFp shr p key).toNat ≤ 255
  first : (index1 shr p key).toNat < 2^p
  second : (index2 shr p key).toNat < 2^p
  back : altIndex (keyFp shr p key) (index2 shr p key) p = index1 shr p key
  closed : ∀ n i, Candidate shr p key i → Candidate shr p key (moved (keyFp shr p key) p n i)
  found : ∀ cf : CuckooFilter, cf.bucketPower = p → ∀ n i, Candidate shr p key i →
    ∀ j < bucketSize,
      cf.bytes (bucketSize * (moved (keyFp shr p key) p n i).toNat + j) = keyFp shr p key →
        cfLookup shr cf key = some 1

/-- Nothing of the index is masked out, as of every index the filter computes. -/
def Masked (p : ℕ) (i : UInt32) : Prop := i &&& masks p = i

variable {shr : UInt32 → UInt32} {key : Key} {fp : Fingerprint} {i : UInt32} {p : ℕ}

/-- The alternate of the alternate, whatever is masked out of the index. -/
theorem altIndex_altIndex (fp : Fingerprint) (i : UInt32) (p : ℕ) :
    altIndex fp (altIndex fp i p) p = i &&& masks p := by
  apply UInt32.toNat_inj.mp
  apply Nat.eq_of_testBit_eq
  intro n
  simp only [altIndex, UInt32.toNat_xor, UInt32.toNat_and, Nat.testBit_xor, Nat.testBit_and]
  cases i.toNat.testBit n <;> cases (masks p).toNat.testBit n <;>
    cases (altHashes fp).toNat.testBit n <;> rfl

theorem Masked.lt (h : Masked p i) (hp : p < 32) : i.toNat < 2^p := by
  rw [← h]
  exact and_masks_lt i p hp

theorem masked_and (i : UInt32) (p : ℕ) : Masked p (i &&& masks p) := by
  rw [Masked, UInt32.and_assoc, UInt32.and_self]

theorem index1_masked (shr : UInt32 → UInt32) (p : ℕ) (key : Key) : Masked p (index1 shr p key) :=
  masked_and _ p

theorem altIndex_masked (fp : Fingerprint) (i : UInt32) (p : ℕ) : Masked p (altIndex fp i p) := by
  have h := congrArg (fun i => altIndex fp i p) (altIndex_altIndex fp i p)
  rw [Masked, ← altIndex_altIndex fp, h]
  simp only [altIndex, UInt32.and_assoc, UInt32.and_self]

theorem kickStart_masked (shr : UInt32 → UInt32) (p : ℕ) (key : Key) (coin : Bool) :
    Masked p (kickStart shr p key coin) := by
  cases coin
  · exact altIndex_masked _ _ p
  · exact index1_masked shr p key

theorem altIndex_back (fp : Fingerprint) (h : Masked p i) :
    altIndex fp (altIndex fp i p) p = i := by
  rw [altIndex_altIndex, h]

theorem index2_back (shr : UInt32 → UInt32) (p : ℕ) (key : Key) :
    altIndex (keyFp shr p key) (index2 shr p key) p = index1 shr p key := by
  rw [index2, altIndex_back _ (index1_masked shr p key)]

theorem candidate_moved (n : ℕ) (hi : Candidate shr p key i) :
    Candidate shr p key (moved (keyFp shr p key) p n i) := by
  induction n generalizing i with
  | zero => exact hi
  | succ n ih =>
    apply ih
    rcases hi with rfl | rfl
    · exact Or.inr rfl
    · exact Or.inl (index2_back shr p key)

theorem candidate_slot (hi : Candidate shr p key i) {j : ℕ} (hj : j < bucketSize) :
    KeySlot shr p key (bucketSize * i.toNat + j) := by
  rcases hi with rfl | rfl
  · exact ⟨j, hj, Or.inl rfl⟩
  · exact ⟨j, hj, Or.inr rfl⟩

theorem keyFp_pos (shr : UInt32 → UInt32) (p : ℕ) (key : Key) : 1 ≤ (keyFp shr p key).toNat := by
  have hne : keyFp shr p key ≠ 0 := fp_ne_zero shr key p
  have hzero : (0 : UInt8).toNat = 0 := rfl
  rw [ne_eq, ← UInt8.toNat_inj, hzero] at hne
  exact Nat.one_le_iff_ne_zero.mpr hne

theorem candidates (hp : p < 32) (key : Key) : Candidates shr p key := by
  constructor
  · exact keyFp_pos shr p key
  · exact Nat.le_of_lt_succ (keyFp shr p key).toNat_lt
  · exact index_lt shr key p hp
  · exact altIndex_lt _ _ p hp
  · exact index2_back shr p key
  · exact fun n i hi => candidate_moved n hi
  · intro cf hcf n i hi j hj hv
    subst hcf
    exact lookup_iff.mpr ⟨_, candidate_slot (candidate_moved n hi) hj, hv⟩

/-- In every filter `cf_new` builds, the buckets of every key are in range and
closed under moves. -/
theorem candidate_buckets (shr : UInt32 → UInt32) (capacity : UInt32) (key : Key) :
    (filterCapacity capacity).toNat = 2^(newFilter capacity).bucketPower ∧
      (newFilter capacity).bucketPower ≤ 29 ∧
      Candidates shr (newFilter capacity).bucketPower key := by
  have hpower : (filterCapacity capacity).toNat = 2^(newFilter capacity).bucketPower :=
    filterCapacity_eq capacity
  have hlt := filterCapacity_lt_pow capacity
  rw [hpower] at hlt
  have hp : (newFilter capacity).bucketPower < 30 := (Nat.pow_lt_pow_iff_right (by decide)).mp hlt
  exact ⟨hpower, Nat.le_of_lt_succ hp, candidates (Nat.lt_trans hp (by decide)) key⟩

end Buckets

end RtsCache.CuckooSizing
