import RtsCache.BitSmear
import Mathlib.Data.List.Basic
import Mathlib.Data.Nat.Bitwise
import Mathlib.Data.Nat.Notation

/-!
# Hashes and indices of the cuckoo filter

The tables of `util.h`, the hash of a key and its two bucket indices, and the
sizes `cf_new` computes. `masks` is read below 31 only. The hash is shifted by
its whole width, for which the language promises nothing, so what the machine
gives for it is a parameter. What is stated under `[Tables]` holds for any
tables; where none are named, they are the ones `init` fills.
-/

set_option autoImplicit false

namespace RtsCache.CuckooIndex
open RtsCache.BitSmear

def bucketSize : ℕ := 4

abbrev Fingerprint := UInt8

abbrev Key := List UInt8

def fnv1_32aInit : UInt32 := 0x811c9dc5

def fnv32aBuf (buf : List UInt8) (hval : UInt32) : UInt32 :=
  buf.foldl (fun hval octet =>
    let hval := hval ^^^ octet.toUInt32
    hval + ((hval <<< 1) + (hval <<< 4) + (hval <<< 7) + (hval <<< 8) + (hval <<< 24))) hval

def hashFp (x : UInt64) : UInt64 :=
  let x := (x ^^^ (x >>> 30)) * 0xbf58476d1ce4e5b9
  let x := (x ^^^ (x >>> 27)) * 0x94d049bb133111eb
  x ^^^ (x >>> 31)

theorem shifted_toNat (p : ℕ) (hp : p < 32) :
    (((1 : UInt32) <<< UInt32.ofNat p) - 1).toNat = 2^p - 1 := by
  have hpow : 2^p < 2^32 := Nat.pow_lt_pow_right (by decide) hp
  have hpos : 0 < 2^p := Nat.two_pow_pos p
  have hshift : ((1 : UInt32) <<< UInt32.ofNat p).toNat = 2^p := by
    rw [UInt32.toNat_shiftLeft, UInt32.toNat_ofNat_of_lt' (Nat.lt_trans hp (by decide))]
    have h1 : (1 : UInt32).toNat = 1 := rfl
    rw [h1, Nat.mod_eq_of_lt hp, Nat.one_shiftLeft, Nat.mod_eq_of_lt hpow]
  have hle : (1 : UInt32) ≤ (1 : UInt32) <<< UInt32.ofNat p := by
    rw [UInt32.le_iff_toNat_le, hshift]
    exact hpos
  rw [UInt32.toNat_sub_of_le _ _ hle, hshift]
  rfl

/-- The globals `alt_hashes` and `masks`. -/
class Tables where
  altHashes : Fingerprint → UInt32
  masks : ℕ → UInt32
  bounded : ∀ p < 32, (masks p).toNat < 2^p

export Tables (altHashes masks)

/-- What `init` fills in. No function of the repository calls it. -/
instance init : Tables where
  altHashes i := fnv32aBuf [i] fnv1_32aInit
  masks i := (1 <<< UInt32.ofNat i) - 1
  bounded p hp := by
    rw [shifted_toNat p hp]
    exact Nat.sub_lt (Nat.two_pow_pos p) Nat.one_pos

/-- What static storage holds without it. -/
abbrev zeroTables : Tables where
  altHashes _ := 0
  masks _ := 0
  bounded p _ := Nat.two_pow_pos p

structure IndexFP where
  indices : UInt32
  fp : Fingerprint

section Indices
variable [Tables]

/-- `shr` is what the machine gives for `hash >> 32`. -/
def indexAndFingerprint (shr : UInt32 → UInt32) (key : Key) (bucketPow : ℕ) : IndexFP :=
  let hash := fnv32aBuf key fnv1_32aInit
  let fingerprint := (hashFp hash.toUInt64 % 255 + 1).toUInt8
  ⟨shr hash &&& masks bucketPow, fingerprint⟩

def altIndex (fingerprint : Fingerprint) (i : UInt32) (bucketPow : ℕ) : UInt32 :=
  let mask := masks bucketPow
  let hash := altHashes fingerprint &&& mask
  (i &&& mask) ^^^ hash

end Indices

def nextPow2 (n : UInt64) : UInt32 :=
  let n := n - 1
  let n := n ||| (n >>> 1)
  let n := n ||| (n >>> 2)
  let n := n ||| (n >>> 4)
  let n := n ||| (n >>> 8)
  let n := n ||| (n >>> 16)
  let n := n ||| (n >>> 32)
  let n := n + 1
  n.toUInt32

def trailingZerosFrom (num : UInt32) : ℕ → ℕ → ℕ
  | 0, _ => 0
  | n+1, i => if (num >>> UInt32.ofNat i) &&& 1 ≠ 0 then 0 else trailingZerosFrom num n (i+1) + 1

def trailingZeros (num : UInt32) : ℕ := trailingZerosFrom num 32 0

/-- The number of bucket pointers `cf_new` allocates. -/
def filterCapacity (capacity : UInt32) : UInt32 :=
  let capacity := nextPow2 capacity.toUInt64 / UInt32.ofNat bucketSize
  if capacity = 0 then 1 else capacity

section Bounds

theorem masks_toNat (p : ℕ) (hp : p < 32) : (masks p).toNat = 2^p - 1 :=
  shifted_toNat p hp

variable [Tables]

theorem fp_ne_zero (shr : UInt32 → UInt32) (key : Key) (p : ℕ) :
    (indexAndFingerprint shr key p).fp ≠ 0 := by
  intro h
  obtain ⟨x, hx⟩ : ∃ x : UInt64, (indexAndFingerprint shr key p).fp = (x % 255 + 1).toUInt8 :=
    ⟨_, rfl⟩
  have hlt : x.toNat % 255 < 255 := Nat.mod_lt _ (by decide)
  have hzero : (x % 255 + 1).toUInt8.toNat = 0 := by rw [← hx, h]; rfl
  rw [UInt64.toNat_toUInt8, UInt64.toNat_add, UInt64.toNat_mod] at hzero
  have h255 : (255 : UInt64).toNat = 255 := rfl
  have h1 : (1 : UInt64).toNat = 1 := rfl
  rw [h255, h1] at hzero
  omega

theorem and_masks_lt (x : UInt32) (p : ℕ) (hp : p < 32) : (x &&& masks p).toNat < 2^p := by
  rw [UInt32.toNat_and]
  exact Nat.lt_of_le_of_lt Nat.and_le_right (Tables.bounded p hp)

theorem index_lt (shr : UInt32 → UInt32) (key : Key) (p : ℕ) (hp : p < 32) :
    (indexAndFingerprint shr key p).indices.toNat < 2^p :=
  and_masks_lt _ p hp

theorem altIndex_lt (fp : Fingerprint) (i : UInt32) (p : ℕ) (hp : p < 32) :
    (altIndex fp i p).toNat < 2^p := by
  rw [altIndex, UInt32.toNat_xor]
  exact Nat.xor_lt_two_pow (and_masks_lt _ p hp) (and_masks_lt _ p hp)

end Bounds

theorem trailingZerosFrom_bit (num : UInt32) (n i : ℕ) :
    (trailingZerosFrom num n i = n ∧
      ∀ j < n, (num >>> UInt32.ofNat (i + j)) &&& 1 = 0) ∨
    (trailingZerosFrom num n i < n ∧
      (num >>> UInt32.ofNat (i + trailingZerosFrom num n i)) &&& 1 ≠ 0) := by
  induction n generalizing i with
  | zero => exact Or.inl ⟨rfl, fun j hj => absurd hj (Nat.not_lt_zero j)⟩
  | succ n ih =>
    rw [trailingZerosFrom]
    by_cases hbit : (num >>> UInt32.ofNat i) &&& 1 ≠ 0
    · rw [if_pos hbit]
      exact Or.inr ⟨Nat.succ_pos n, hbit⟩
    · rw [if_neg hbit]
      rcases ih (i+1) with ⟨h, hall⟩ | ⟨h, hset⟩
      · refine Or.inl ⟨by rw [h], fun j hj => ?_⟩
        cases j with
        | zero => exact not_not.mp hbit
        | succ j =>
          have := hall j (Nat.lt_of_succ_lt_succ hj)
          rwa [Nat.add_right_comm, Nat.add_assoc] at this
      · refine Or.inr ⟨Nat.succ_lt_succ h, ?_⟩
        rwa [Nat.add_right_comm, Nat.add_assoc] at hset

theorem bit_eq_zero (num : UInt32) (i : ℕ) (hi : i < 32) :
    (num >>> UInt32.ofNat i) &&& 1 = 0 ↔ num.toNat.testBit i = false := by
  have h1 : (1 : UInt32).toNat = 1 := rfl
  rw [← UInt32.toNat_inj, UInt32.toNat_and, UInt32.toNat_shiftRight,
    UInt32.toNat_ofNat_of_lt' (Nat.lt_trans hi (by decide)), Nat.mod_eq_of_lt hi, h1, Nat.testBit,
    Nat.and_comm]
  simp

theorem trailingZeros_spec (num : UInt32) (hn : num ≠ 0) :
    trailingZeros num < 32 ∧ num.toNat.testBit (trailingZeros num) = true := by
  rcases trailingZerosFrom_bit num 32 0 with ⟨-, hall⟩ | ⟨hlt, hset⟩
  · have hzero : num.toNat = 0 := by
      apply Nat.eq_of_testBit_eq
      intro j
      rw [Nat.zero_testBit]
      by_cases hj : j < 32
      · have := hall j hj
        rw [Nat.zero_add] at this
        exact (bit_eq_zero num j hj).mp this
      · exact Nat.testBit_lt_two_pow (Nat.lt_of_lt_of_le num.toNat_lt
          (Nat.pow_le_pow_right (by decide) (Nat.le_of_not_lt hj)))
    exact absurd (UInt32.toNat_inj.mp hzero) hn
  · rw [Nat.zero_add, ne_eq, bit_eq_zero num _ hlt, Bool.not_eq_false] at hset
    exact ⟨hlt, hset⟩

theorem filterCapacity_ne_zero (capacity : UInt32) : filterCapacity capacity ≠ 0 := by
  unfold filterCapacity
  dsimp only
  split
  · decide
  · assumption

theorem filterCapacity_lt_pow (capacity : UInt32) : (filterCapacity capacity).toNat < 2^30 := by
  unfold filterCapacity
  dsimp only
  split
  · decide
  · have h4 : (UInt32.ofNat bucketSize).toNat = 4 := rfl
    have hlt := (nextPow2 capacity.toUInt64).toNat_lt
    rw [UInt32.toNat_div, h4]
    omega

theorem filterCapacity_lt (capacity : UInt32) : (filterCapacity capacity).toNat < 2^31 :=
  Nat.lt_trans (filterCapacity_lt_pow capacity) (by decide)

theorem nextPow2_smeared (n : UInt64) :
    ∃ y : UInt64, nextPow2 n = (y + 1).toUInt32 ∧ Smeared 64 (n - 1).toNat y.toNat := by
  obtain ⟨x, hx⟩ : ∃ x, n - 1 = x := ⟨_, rfl⟩
  have h₁ := smeared_double (smeared_one x.toNat)
  have h₂ := smeared_double h₁
  have h₃ := smeared_double h₂
  have h₄ := smeared_double h₃
  have h₅ := smeared_double h₄
  have h₆ := smeared_double h₅
  refine ⟨_, rfl, ?_⟩
  rw [hx]
  simp only [UInt64.toNat_or, UInt64.toNat_shiftRight]
  exact h₆

theorem toNat_succ_pred {y : UInt64} {k : ℕ} (hy : y.toNat = 2^k - 1) :
    (y + 1).toUInt32.toNat = 2^k % 2^64 % 2^32 := by
  have hone : (1 : UInt64).toNat = 1 := rfl
  rw [UInt64.toNat_toUInt32, UInt64.toNat_add, hy, hone, Nat.sub_add_cancel (Nat.two_pow_pos k)]

theorem nextPow2_eq (n : UInt64) : ∃ k, (nextPow2 n).toNat = 2^k % 2^64 % 2^32 := by
  obtain ⟨y, hy, hs⟩ := nextPow2_smeared n
  obtain ⟨k, hk⟩ := smeared_eq (n - 1).toNat_lt hs
  exact ⟨k, by rw [hy, toNat_succ_pred hk]⟩

theorem nextPow2_log2 {n : UInt64} (hn : (n - 1).toNat ≠ 0) :
    (nextPow2 n).toNat = 2^((n - 1).toNat.log2 + 1) % 2^64 % 2^32 := by
  obtain ⟨y, hy, hs⟩ := nextPow2_smeared n
  rw [hy, toNat_succ_pred (smeared_log2 hn (n - 1).toNat_lt hs)]

theorem filterCapacity_eq (capacity : UInt32) :
    (filterCapacity capacity).toNat = 2^trailingZeros (filterCapacity capacity) := by
  have hpow : ∃ j, (filterCapacity capacity).toNat = 2^j := by
    obtain ⟨k, hk⟩ := nextPow2_eq capacity.toUInt64
    have hfour : (UInt32.ofNat bucketSize).toNat = 4 := rfl
    unfold filterCapacity
    dsimp only
    split
    · exact ⟨0, rfl⟩
    · rename_i hne
      rw [← UInt32.toNat_inj, UInt32.toNat_div, hk, hfour] at hne
      rw [UInt32.toNat_div, hk, hfour]
      by_cases hlt : k < 32
      · have h32 : 2^k < 2^32 := Nat.pow_lt_pow_right (by decide) hlt
        rw [Nat.mod_eq_of_lt (Nat.lt_trans h32 (by decide)), Nat.mod_eq_of_lt h32] at hne ⊢
        by_cases h2 : 2 ≤ k
        · refine ⟨k - 2, ?_⟩
          have he : 2^k = 2^(k - 2) * 4 := by
            rw [← Nat.pow_sub_mul_pow 2 h2]
          rw [he, Nat.mul_div_cancel _ (by decide)]
        · exfalso
          have h4 : 2^k < 2^2 := Nat.pow_lt_pow_right (by decide) (Nat.lt_of_not_le h2)
          exact hne (Nat.div_eq_of_lt h4)
      · exfalso
        apply hne
        have hdvd : 2^32 ∣ 2^k := Nat.pow_dvd_pow 2 (Nat.le_of_not_lt hlt)
        have h64 : 2^32 ∣ 2^k % 2^64 := (Nat.dvd_mod_iff (by decide)).mpr hdvd
        rw [Nat.mod_eq_zero_of_dvd h64]
        rfl
  obtain ⟨j, hj⟩ := hpow
  obtain ⟨-, hbit⟩ := trailingZeros_spec _ (filterCapacity_ne_zero capacity)
  rw [hj, Nat.testBit_two_pow, decide_eq_true_eq] at hbit
  rw [hj, ← hbit]

end RtsCache.CuckooIndex
