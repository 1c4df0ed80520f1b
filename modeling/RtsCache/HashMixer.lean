import RtsCache.CuckooIndex
import RtsCache.WordMixing
import Mathlib.Algebra.Group.Units.Basic
import Mathlib.Data.UInt

/-!
# What the hashes keep apart

`hash_fp` is a bijection on words, so fingerprints of different hashes meet
only in the remainder by 255. The hash of a key takes every 32-bit value: every
octet is a step without loss, and the steps lead from every value to 0.
-/

set_option autoImplicit false

namespace RtsCache.HashMixer
open RtsCache.CuckooIndex RtsCache.WordMixing

def fnv32Prime : UInt32 := 0x01000193

def fnvStep (hval : UInt32) (octet : UInt8) : UInt32 := (hval ^^^ octet.toUInt32) * fnv32Prime

abbrev Hashes : UInt32 → UInt32 → Prop := Leads fnvStep

theorem hashFp_injective : Function.Injective hashFp := by
  have h30 : 0 < (30 : UInt64).toNat % 64 := by decide
  have h27 : 0 < (27 : UInt64).toNat % 64 := by decide
  have h31 : 0 < (31 : UInt64).toNat % 64 := by decide
  have hunit₁ : IsUnit (0xbf58476d1ce4e5b9 : UInt64) :=
    IsUnit.of_mul_eq_one 0x96de1b173f119089 (by decide)
  have hunit₂ : IsUnit (0x94d049bb133111eb : UInt64) :=
    IsUnit.of_mul_eq_one 0x319642b2d24d8ec3 (by decide)
  intro x y h
  have h₁ := xorShift64_injective h31 h
  have h₂ := xorShift64_injective h27 (hunit₂.mul_left_injective h₁)
  exact xorShift64_injective h30 (hunit₁.mul_left_injective h₂)

theorem hashFp_surjective : Function.Surjective hashFp :=
  Finite.surjective_of_injective hashFp_injective

theorem toUInt64_inj {x y : UInt32} (h : x.toUInt64 = y.toUInt64) : x = y := by
  have hnat := congrArg UInt64.toNat h
  rw [UInt32.toNat_toUInt64, UInt32.toNat_toUInt64] at hnat
  exact UInt32.toNat_inj.mp hnat

theorem fp_inj {x y : UInt64} (h : (x % 255 + 1).toUInt8 = (y % 255 + 1).toUInt8) :
    x % 255 = y % 255 := by
  have hnat := congrArg UInt8.toNat h
  have h255 : (255 : UInt64).toNat = 255 := rfl
  have hone : (1 : UInt64).toNat = 1 := rfl
  simp only [UInt64.toNat_toUInt8, UInt64.toNat_add, UInt64.toNat_mod, h255, hone] at hnat
  rw [← UInt64.toNat_inj, UInt64.toNat_mod, UInt64.toNat_mod, h255]
  omega

/-- Nothing is merged before the remainder is taken. -/
theorem hashFp_mixes (shr : UInt32 → UInt32) :
    (∀ x y, hashFp x = hashFp y → x = y) ∧ (∀ z, ∃ x, hashFp x = z) ∧
      ∀ key key' : Key, fnv32aBuf key fnv1_32aInit ≠ fnv32aBuf key' fnv1_32aInit →
        hashFp (fnv32aBuf key fnv1_32aInit).toUInt64 ≠
            hashFp (fnv32aBuf key' fnv1_32aInit).toUInt64 ∧
          ∀ p p', (indexAndFingerprint shr key p).fp = (indexAndFingerprint shr key' p').fp →
            hashFp (fnv32aBuf key fnv1_32aInit).toUInt64 % 255 =
              hashFp (fnv32aBuf key' fnv1_32aInit).toUInt64 % 255 := by
  constructor
  · intro x y h
    exact hashFp_injective h
  constructor
  · exact hashFp_surjective
  · intro key key' hne
    constructor
    · intro h
      exact hne (toUInt64_inj (hashFp_injective h))
    · intro p p' h
      exact fp_inj h

theorem shl_eq_mul (x k m : UInt32) (hm : m.toNat = 2^(k.toNat % 32)) : x <<< k = x * m := by
  rw [← UInt32.toNat_inj, UInt32.toNat_shiftLeft, UInt32.toNat_mul, Nat.shiftLeft_eq, hm]

theorem shifts_eq_mul (x : UInt32) :
    x + ((x <<< 1) + (x <<< 4) + (x <<< 7) + (x <<< 8) + (x <<< 24)) = x * fnv32Prime := by
  have hp : fnv32Prime = 1 + (0x2 + 0x10 + 0x80 + 0x100 + 0x1000000) := rfl
  rw [hp, shl_eq_mul x 1 0x2 rfl, shl_eq_mul x 4 0x10 rfl, shl_eq_mul x 7 0x80 rfl,
    shl_eq_mul x 8 0x100 rfl, shl_eq_mul x 24 0x1000000 rfl]
  simp only [UInt32.mul_add, UInt32.mul_one]

theorem fnv32aBuf_eq (buf : List UInt8) (hval : UInt32) :
    fnv32aBuf buf hval = buf.foldl fnvStep hval := by
  simp only [fnv32aBuf, shifts_eq_mul]
  rfl

theorem prime_inv : fnv32Prime * 0x359c449b = 1 := by decide

theorem fnvStep_injective (octet : UInt8) : Function.Injective fun hval => fnvStep hval octet := by
  intro x y h
  have hunit : IsUnit fnv32Prime := IsUnit.of_mul_eq_one _ prime_inv
  have hxor := hunit.mul_left_injective h
  rw [UInt32.xor_comm x, UInt32.xor_comm y] at hxor
  exact (UInt32.xor_right_inj _).mp hxor

theorem hashes_symm {s t : UInt32} (h : Hashes s t) : Hashes t s := h.symm fnvStep_injective

theorem hashes_mul (s : UInt32) : Hashes s (s * fnv32Prime) := by
  have h := leads_input fnvStep s 0
  have hzero : fnvStep s 0 = s * fnv32Prime := by
    show (s ^^^ 0) * fnv32Prime = _
    rw [UInt32.xor_zero]
  rwa [hzero] at h

theorem hashes_xor (s : UInt32) (octet : UInt8) : Hashes s (s ^^^ octet.toUInt32) :=
  (leads_input fnvStep s octet).trans (hashes_symm (hashes_mul (s ^^^ octet.toUInt32)))

theorem hashes_octet {s t : UInt32} (h : s.toNat / 256 = t.toNat / 256) : Hashes s t := by
  have hlt : (s ^^^ t).toNat < 2^8 := by
    have hdiv : (s ^^^ t).toNat / 2^8 = 0 := by
      rw [UInt32.toNat_xor, Nat.xor_div_two_pow, h, Nat.xor_self]
    omega
  have hoctet : (s ^^^ t).toUInt8.toUInt32 = s ^^^ t := by
    rw [← UInt32.toNat_inj, UInt8.toNat_toUInt32, UInt32.toNat_toUInt8, Nat.mod_eq_of_lt hlt]
  have hx := hashes_xor s (s ^^^ t).toUInt8
  rwa [hoctet, ← UInt32.xor_assoc, UInt32.xor_self, UInt32.zero_xor] at hx

/-- A multiplication by the prime and two changes of the last octet add to the
upper three octets. -/
theorem hashes_add {s : UInt32} (h : s.toNat % 256 = 0) : Hashes s (s + 0x01000100) := by
  have hback : s * 0x359c449b * fnv32Prime = s := by
    rw [UInt32.mul_assoc, UInt32.mul_comm _ fnv32Prime, prime_inv, UInt32.mul_one]
  have hlow : (s * 0x359c449b).toNat % 256 = 0 := by
    have hm : (0x359c449b : UInt32).toNat = 899433627 := rfl
    rw [UInt32.toNat_mul, hm]
    omega
  have hone : (1 : UInt32).toNat = 1 := rfl
  have hp : fnv32Prime.toNat = 16777619 := rfl
  have hs : (0x01000100 : UInt32).toNat = 16777472 := rfl
  have hnext : Hashes (s * 0x359c449b) (s * 0x359c449b + 1) := by
    have hlt := (s * 0x359c449b).toNat_lt
    apply hashes_octet
    rw [UInt32.toNat_add, hone]
    omega
  have hmul := hashes_mul (s * 0x359c449b + 1)
  rw [UInt32.add_mul, hback, UInt32.one_mul] at hmul
  have hclear : Hashes (s + fnv32Prime) (s + 0x01000100) := by
    apply hashes_octet
    rw [UInt32.toNat_add, UInt32.toNat_add, hp, hs]
    omega
  have hfrom := hashes_mul (s * 0x359c449b)
  rw [hback] at hfrom
  exact (hashes_symm hfrom).trans (hnext.trans (hmul.trans hclear))

theorem hashes_adds {s : UInt32} (h : s.toNat % 256 = 0) (n : ℕ) :
    Hashes s (s + UInt32.ofNat n * 0x01000100) := by
  induction n generalizing s with
  | zero =>
    have hzero : s + UInt32.ofNat 0 * 0x01000100 = s := by
      show s + 0 * 0x01000100 = s
      rw [UInt32.zero_mul, UInt32.add_zero]
    rw [hzero]
    exact Leads.refl fnvStep s
  | succ n ih =>
    have hs : (0x01000100 : UInt32).toNat = 16777472 := rfl
    have hlow : (s + 0x01000100).toNat % 256 = 0 := by
      rw [UInt32.toNat_add, hs]
      omega
    have hsum : s + UInt32.ofNat (n+1) * 0x01000100 =
        s + 0x01000100 + UInt32.ofNat n * 0x01000100 := by
      rw [UInt32.ofNat_add, UInt32.add_mul, UInt32.add_comm (UInt32.ofNat n * _),
        ← UInt32.add_assoc]
      rfl
    rw [hsum]
    exact (hashes_add h).trans (ih hlow)

/-- `65537 * 65535` is -1 for 24 bits. -/
theorem hashes_zero (s : UInt32) : Hashes s 0 := by
  obtain ⟨m, hm⟩ : ∃ m : UInt32, m.toNat = s.toNat / 256 * 256 := by
    have hlt := s.toNat_lt
    use UInt32.ofNat (s.toNat / 256 * 256)
    rw [UInt32.toNat_ofNat']
    omega
  have hclear : Hashes s m := by
    apply hashes_octet
    omega
  have hlow : m.toNat % 256 = 0 := by omega
  have hend : m + UInt32.ofNat (65535 * (m.toNat / 256)) * 0x01000100 = 0 := by
    have hs : (0x01000100 : UInt32).toNat = 16777472 := rfl
    have hzero : (0 : UInt32).toNat = 0 := rfl
    rw [← UInt32.toNat_inj, UInt32.toNat_add, UInt32.toNat_mul, UInt32.toNat_ofNat', hs, hzero]
    omega
  have hadds := hashes_adds hlow (65535 * (m.toNat / 256))
  rw [hend] at hadds
  exact hclear.trans hadds

theorem fnv_surjective (hash : UInt32) : ∃ key : Key, fnv32aBuf key fnv1_32aInit = hash := by
  obtain ⟨key, hkey⟩ := (hashes_zero fnv1_32aInit).trans (hashes_symm (hashes_zero hash))
  exact ⟨key, (fnv32aBuf_eq key fnv1_32aInit).trans hkey⟩

end RtsCache.HashMixer
