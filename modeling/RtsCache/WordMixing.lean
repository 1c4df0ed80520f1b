import Mathlib.Data.Fintype.EquivFin
import Mathlib.Data.Nat.Bitwise
import Mathlib.Dynamics.PeriodicPts.Lemmas

/-!
# Mixing machine words

A xor of a word with itself shifted loses nothing. The states that steps
without loss lead to, in a finite type, lead back.
-/

set_option autoImplicit false

namespace RtsCache.WordMixing

instance finiteUInt64 : Finite UInt64 :=
  Finite.of_injective UInt64.toFin fun _ _ => UInt64.toFin_inj.mp

instance finiteUInt32 : Finite UInt32 :=
  Finite.of_injective UInt32.toFin fun _ _ => UInt32.toFin_inj.mp

theorem xorShift_inj {k x y : ℕ} (hk : 0 < k) (h : x ^^^ (x >>> k) = y ^^^ (y >>> k)) : x = y := by
  have hfix : (x ^^^ y) >>> k = x ^^^ y := by
    rw [Nat.shiftRight_xor_distrib]
    apply Nat.eq_of_testBit_eq
    intro i
    have hi := congrArg (fun z => z.testBit i) h
    simp only [Nat.testBit_xor] at hi ⊢
    revert hi
    cases x.testBit i <;> cases y.testBit i <;> cases (x >>> k).testBit i <;>
      cases (y >>> k).testBit i <;> decide
  have hzero : x ^^^ y = 0 := by
    by_contra hne
    rw [Nat.shiftRight_eq_div_pow] at hfix
    have hlt := Nat.div_lt_self (Nat.pos_of_ne_zero hne) (Nat.one_lt_two_pow (by omega : k ≠ 0))
    omega
  exact Nat.xor_eq_zero_iff.mp hzero

theorem xorShift64_injective {k : UInt64} (hk : 0 < k.toNat % 64) :
    Function.Injective fun x : UInt64 => x ^^^ (x >>> k) := by
  intro x y h
  have hnat := congrArg UInt64.toNat h
  simp only [UInt64.toNat_xor, UInt64.toNat_shiftRight] at hnat
  exact UInt64.toNat_inj.mp (xorShift_inj hk hnat)

theorem xorShift32_injective {k : UInt32} (hk : 0 < k.toNat % 32) :
    Function.Injective fun x : UInt32 => x ^^^ (x >>> k) := by
  intro x y h
  have hnat := congrArg UInt32.toNat h
  simp only [UInt32.toNat_xor, UInt32.toNat_shiftRight] at hnat
  exact UInt32.toNat_inj.mp (xorShift_inj hk hnat)

/-- What a number is changed by, where each bit of it depends on lower bits
only, can be worked out from the lowest bit on. -/
theorem xorLower_inj {g : ℕ → ℕ} (hg : ∀ x y i, (∀ j < i, x.testBit j = y.testBit j) →
    (g x).testBit i = (g y).testBit i) {x y : ℕ} (h : x ^^^ g x = y ^^^ g y) : x = y := by
  apply Nat.eq_of_testBit_eq
  intro i
  induction i using Nat.strong_induction_on with
  | _ i ih =>
    have hi := congrArg (fun z => z.testBit i) h
    simp only [Nat.testBit_xor, hg x y i ih] at hi
    exact Bool.xor_left_inj.mp hi

theorem xorShiftLeft32_injective {k : UInt32} (m : UInt32) (hk : 0 < k.toNat % 32) :
    Function.Injective fun x : UInt32 => x ^^^ ((x <<< k) &&& m) := by
  intro x y h
  have hnat := congrArg UInt32.toNat h
  simp only [UInt32.toNat_xor, UInt32.toNat_and, UInt32.toNat_shiftLeft] at hnat
  apply UInt32.toNat_inj.mp
  apply xorLower_inj (g := fun z => z <<< (k.toNat % 32) % 2^32 &&& m.toNat) _ hnat
  intro a b i hab
  simp only [Nat.testBit_and, Nat.testBit_mod_two_pow, Nat.testBit_shiftLeft]
  by_cases hki : i ≥ k.toNat % 32
  · rw [hab (i - k.toNat % 32) (by omega)]
  · simp [hki]

theorem rotate32_injective {k l : UInt32} (hsum : k.toNat + l.toNat = 32) (hk : 0 < k.toNat)
    (hl : 0 < l.toNat) : Function.Injective fun x : UInt32 => (x <<< k) ||| (x >>> l) := by
  intro x y h
  have hnat := congrArg UInt32.toNat h
  simp only [UInt32.toNat_or, UInt32.toNat_shiftLeft, UInt32.toNat_shiftRight,
    Nat.mod_eq_of_lt (by omega : k.toNat < 32), Nat.mod_eq_of_lt (by omega : l.toNat < 32)] at hnat
  have hhigh : ∀ z : UInt32, ∀ j ≥ 32, z.toNat.testBit j = false := fun z j hj =>
    Nat.testBit_lt_two_pow (z.toNat_lt.trans_le (Nat.pow_le_pow_right (by decide) hj))
  apply UInt32.toNat_inj.mp
  apply Nat.eq_of_testBit_eq
  intro j
  by_cases hj : j < 32
  · -- bits below `l` go up, the others come down
    by_cases hjl : j < l.toNat
    · have hbit := congrArg (fun z => z.testBit (j + k.toNat)) hnat
      have hlt : j + k.toNat < 32 := by omega
      have hle : j + k.toNat ≥ k.toNat := Nat.le_add_left _ _
      simp only [Nat.testBit_or, Nat.testBit_mod_two_pow, Nat.testBit_shiftLeft,
        Nat.testBit_shiftRight, hlt, hle, decide_true, Bool.true_and, Nat.add_sub_cancel,
        hhigh _ (l.toNat + (j + k.toNat)) (by omega), Bool.or_false] at hbit
      exact hbit
    · have hbit := congrArg (fun z => z.testBit (j - l.toNat)) hnat
      have hnot : ¬ j - l.toNat ≥ k.toNat := by omega
      have hback : l.toNat + (j - l.toNat) = j := by omega
      simp only [Nat.testBit_or, Nat.testBit_mod_two_pow, Nat.testBit_shiftLeft,
        Nat.testBit_shiftRight, hnot, hback, decide_false, Bool.false_and, Bool.and_false,
        Bool.false_or] at hbit
      exact hbit
  · rw [hhigh x j (by omega), hhigh y j (by omega)]

section Reach

variable {σ β : Type*} {step : σ → β → σ} {s t u : σ} {b : β}

/-- A word of inputs leads from one state to the other. -/
def Leads (step : σ → β → σ) (s t : σ) : Prop := ∃ bs : List β, bs.foldl step s = t

theorem Leads.refl (step : σ → β → σ) (s : σ) : Leads step s s := ⟨[], rfl⟩

theorem leads_input (step : σ → β → σ) (s : σ) (b : β) : Leads step s (step s b) := ⟨[b], rfl⟩

theorem Leads.trans (h : Leads step s t) (h' : Leads step t u) : Leads step s u := by
  obtain ⟨bs, rfl⟩ := h
  obtain ⟨cs, rfl⟩ := h'
  exact ⟨bs ++ cs, List.foldl_append⟩

theorem leads_iterate (step : σ → β → σ) (b : β) (n : ℕ) (s : σ) :
    Leads step s ((fun s => step s b)^[n] s) := by
  induction n generalizing s with
  | zero => exact Leads.refl step s
  | succ n ih => exact (leads_input step s b).trans (ih (step s b))

theorem leads_back [Finite σ] (hinj : Function.Injective fun s => step s b) :
    Leads step (step s b) s := by
  obtain ⟨n, hn, hper⟩ := hinj.mem_periodicPts s
  obtain ⟨m, rfl⟩ : ∃ m, n = m + 1 := ⟨n - 1, by omega⟩
  have hback := leads_iterate step b m (step s b)
  have hs : (fun s => step s b)^[m] (step s b) = s := hper
  rwa [hs] at hback

theorem Leads.symm [Finite σ] (hinj : ∀ b, Function.Injective fun s => step s b)
    (h : Leads step s t) : Leads step t s := by
  obtain ⟨bs, rfl⟩ := h
  induction bs generalizing s with
  | nil => exact Leads.refl step s
  | cons b bs ih => exact ih.trans (leads_back (hinj b))

end Reach

end RtsCache.WordMixing
