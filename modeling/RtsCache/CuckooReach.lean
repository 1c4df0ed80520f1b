import RtsCache.CuckooSizing
import RtsCache.HashMixer
import Mathlib.Data.Finset.Card

/-!
# The buckets keys reach

Every 32-bit hash is the hash of a key, so the primary indices are what the
shift of a hash by its whole width leaves under the mask. Where the shift is
constant, as when all bits are moved out, the buckets of all keys are the masks
of 256 words, whatever the size of the table.
-/

set_option autoImplicit false

namespace RtsCache.CuckooReach
open RtsCache.CuckooIndex RtsCache.CuckooSpec RtsCache.CuckooSizing RtsCache.HashMixer

def Reaches (shr : UInt32 → UInt32) (p : ℕ) : Prop :=
  ∀ i < 2^p, ∃ key : Key, (indexAndFingerprint shr key p).indices.toNat = i

variable {shr : UInt32 → UInt32} {p i : ℕ}

theorem index_toNat (shr : UInt32 → UInt32) (key : Key) (hp : p < 32) :
    (indexAndFingerprint shr key p).indices.toNat =
      (shr (fnv32aBuf key fnv1_32aInit)).toNat % 2^p := by
  rw [indexAndFingerprint, UInt32.toNat_and, masks_toNat p hp, Nat.and_two_pow_sub_one_eq_mod]

theorem index_iff (shr : UInt32 → UInt32) (hp : p < 32) :
    (∃ key : Key, (indexAndFingerprint shr key p).indices.toNat = i) ↔
      ∃ hash, (shr hash).toNat % 2^p = i := by
  constructor
  · rintro ⟨key, hkey⟩
    rw [index_toNat shr key hp] at hkey
    exact ⟨_, hkey⟩
  · rintro ⟨hash, hhash⟩
    obtain ⟨key, rfl⟩ := fnv_surjective hash
    exact ⟨key, (index_toNat shr key hp).trans hhash⟩

theorem reaches_mono {q : ℕ} (hpq : p ≤ q) (hq : q < 32) (h : Reaches shr q) : Reaches shr p := by
  intro i hi
  rw [index_iff shr (Nat.lt_of_le_of_lt hpq hq)]
  have hpow : 2^p ≤ 2^q := Nat.pow_le_pow_right (by decide) hpq
  obtain ⟨hash, hhash⟩ := (index_iff shr hq).mp (h i (Nat.lt_of_lt_of_le hi hpow))
  use hash
  rw [← Nat.mod_mod_of_dvd _ (Nat.pow_dvd_pow 2 hpq), hhash, Nat.mod_eq_of_lt hi]

def reached (c : UInt32) : List UInt32 :=
  c :: (List.range 255).map fun fp => c ^^^ altHashes (UInt8.ofNat (fp + 1))

theorem masked_xor (x y m : UInt32) : (x &&& m) ^^^ (y &&& m) = (x ^^^ y) &&& m := by
  rw [← UInt32.toNat_inj]
  simp only [UInt32.toNat_xor, UInt32.toNat_and, Nat.and_xor_distrib_right]

theorem candidate_reached {c : UInt32} (hshr : ∀ hash, shr hash = c) {key : Key} {i : UInt32}
    (hi : Candidate shr p key i) : ∃ word ∈ reached c, i = word &&& masks p := by
  have hfirst : index1 shr p key = c &&& masks p := by
    show shr _ &&& masks p = _
    rw [hshr]
  rcases hi with rfl | rfl
  · exact ⟨c, List.mem_cons_self, hfirst⟩
  · have hpos := keyFp_pos shr p key
    have hlt := (keyFp shr p key).toNat_lt
    have hfp : UInt8.ofNat ((keyFp shr p key).toNat - 1 + 1) = keyFp shr p key := by
      rw [Nat.sub_add_cancel hpos, UInt8.ofNat_toNat]
    use c ^^^ altHashes (keyFp shr p key)
    constructor
    · apply List.mem_cons_of_mem
      rw [List.mem_map]
      exact ⟨(keyFp shr p key).toNat - 1, List.mem_range.mpr (by omega), by rw [hfp]⟩
    · rw [index2, altIndex, hfirst, UInt32.and_assoc, UInt32.and_self, masked_xor]

/-- The buckets insertions can use do not grow with the table. -/
theorem candidates_confined {c : UInt32} (hshr : ∀ hash, shr hash = c) :
    ∃ words : List UInt32, words.length = 256 ∧
      ∀ p key i, Candidate shr p key i → ∃ word ∈ words, i = word &&& masks p := by
  use reached c
  constructor
  · simp [reached]
  · intro p key i hi
    exact candidate_reached hshr hi

/-- The keys reach all of every table exactly where the shift of a 32-bit word
by 32 takes every value of its low 29 bits. A constant shift confines them to as many
buckets in every table. -/
theorem reaches_iff (shr : UInt32 → UInt32) :
    ((∀ p, 1 ≤ p → p ≤ 29 → ∀ i < 2^p,
        ∃ key : Key, (indexAndFingerprint shr key p).indices.toNat = i) ↔
      ∀ i < 2^29, ∃ hash, (shr hash).toNat % 2^29 = i) ∧
    ((∃ c, ∀ hash, shr hash = c) → ∃ words : List UInt32, words.length = 256 ∧
      ∀ p key i, Candidate shr p key i → ∃ word ∈ words, i = word &&& masks p) := by
  have hlargest : Reaches shr 29 ↔ ∀ i < 2^29, ∃ hash, (shr hash).toNat % 2^29 = i := by
    unfold Reaches
    simp only [index_iff shr (p := 29) (by decide)]
  constructor
  · rw [← hlargest]
    constructor
    · intro h
      exact h 29 (by decide) (Nat.le_refl 29)
    · intro h p _ hp
      exact reaches_mono hp (by decide) h
  · rintro ⟨c, hshr⟩
    exact candidates_confined hshr

/-- A word of which all bits are shifted out leaves one bucket of two unreached. -/
theorem not_reached_shifted_out : ¬ ∀ p, 1 ≤ p → p ≤ 29 → ∀ i < 2^p,
    ∃ key : Key, (indexAndFingerprint (fun _ => 0) key p).indices.toNat = i := by
  intro h
  obtain ⟨key, hkey⟩ := h 1 (by decide) (by decide) 1 (by decide)
  rw [index_toNat _ key (by decide)] at hkey
  cases hkey

end RtsCache.CuckooReach
