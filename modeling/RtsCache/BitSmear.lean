import Mathlib.Data.Nat.Bitwise

/-!
# Smearing bits

Or-ing a number with itself shifted by 1, 2, 4 and so on sets every bit below
its highest one.
-/

set_option autoImplicit false

namespace RtsCache.BitSmear

/-- Every bit of `y` is set when one of the `w` bits of `x` from there on is. -/
def Smeared (w x y : ℕ) : Prop := ∀ i, y.testBit i = true ↔ ∃ j < w, x.testBit (i + j) = true

theorem smeared_one (x : ℕ) : Smeared 1 x x := by
  intro i
  simp

theorem smeared_double {w x y : ℕ} (h : Smeared w x y) : Smeared (2 * w) x (y ||| (y >>> w)) := by
  intro i
  rw [Nat.testBit_or, Nat.testBit_shiftRight, Bool.or_eq_true, h i, h (w + i)]
  constructor
  · rintro (⟨j, hj, hb⟩ | ⟨j, hj, hb⟩)
    · exact ⟨j, by omega, hb⟩
    · exact ⟨w + j, by omega, by rwa [← Nat.add_assoc, Nat.add_comm i w]⟩
  · rintro ⟨j, hj, hb⟩
    by_cases hlt : j < w
    · exact Or.inl ⟨j, hlt, hb⟩
    · refine Or.inr ⟨j - w, by omega, ?_⟩
      have he : w + i + (j - w) = i + j := by omega
      rwa [he]

theorem smeared_log2 {w x y : ℕ} (hzero : x ≠ 0) (hx : x < 2^w) (h : Smeared w x y) :
    y = 2^(x.log2 + 1) - 1 := by
  have hlt : x.log2 < w := (Nat.log2_lt hzero).mpr hx
  apply Nat.eq_of_testBit_eq
  intro i
  rw [Nat.testBit_two_pow_sub_one, Bool.eq_iff_iff, h i, decide_eq_true_eq]
  constructor
  · rintro ⟨j, -, hb⟩
    by_contra hle
    have hpow : x < 2^(i + j) := Nat.lt_of_lt_of_le Nat.lt_log2_self
      (Nat.pow_le_pow_right (by decide) (by omega))
    rw [Nat.testBit_lt_two_pow hpow] at hb
    cases hb
  · intro hi
    refine ⟨x.log2 - i, by omega, ?_⟩
    have he : i + (x.log2 - i) = x.log2 := by omega
    rw [he]
    exact Nat.testBit_log2 hzero

/-- Smearing over the whole width leaves no clear bit below a set one. -/
theorem smeared_eq {w x y : ℕ} (hx : x < 2^w) (h : Smeared w x y) : ∃ k, y = 2^k - 1 := by
  by_cases hzero : x = 0
  · subst hzero
    refine ⟨0, Nat.eq_of_testBit_eq fun i => ?_⟩
    rw [Bool.eq_iff_iff, h i]
    simp
  · exact ⟨x.log2 + 1, smeared_log2 hzero hx h⟩

end RtsCache.BitSmear
