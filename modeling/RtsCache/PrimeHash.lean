import Mathlib.Combinatorics.Enumerative.DoubleCounting
import Mathlib.Data.Int.CardIntervalMod
import Mathlib.Data.Nat.Factorization.Basic
import Mathlib.Data.Nat.Prime.Basic

/-!
# Hashing integers modulo a prime

A key is mapped to `(a * x + b) % p` for a prime `p` and then reduced modulo
the number of buckets. For a fixed multiplier no bucket takes many more keys
than its share of the residues; over the multipliers no two keys meet often.
-/

set_option autoImplicit false

namespace RtsCache.PrimeHash

def affine (a b p x : ℕ) : ℕ := (a * x + b) % p

/-- How far the images of `x` and `y` are apart, going up from `x` modulo `p`. -/
def gap (p x y a : ℕ) : ℕ := a * (y + (p - x)) % p

section Residues
variable {a b p x y : ℕ}

theorem affine_lt (hp : p.Prime) : affine a b p x < p := Nat.mod_lt _ hp.pos

theorem affine_inj (hp : p.Prime) (ha : ¬ p ∣ a) (hx : x < p) (hy : y < p)
    (h : affine a b p x = affine a b p y) : x = y := by
  have hmul : a * x ≡ a * y [MOD p] := Nat.ModEq.add_right_cancel' b h
  have hcoprime : Nat.gcd p a = 1 := (hp.coprime_iff_not_dvd).mpr ha
  have hmod : x ≡ y [MOD p] := Nat.ModEq.cancel_left_of_coprime hcoprime hmul
  exact hmod.eq_of_lt_of_lt hx hy

theorem gap_lt (hp : p.Prime) : gap p x y a < p := Nat.mod_lt _ hp.pos

theorem not_dvd_diff (hx : x < p) (hy : y < p) (hne : x ≠ y) : ¬ p ∣ y + (p - x) := by
  rintro ⟨c, hc⟩
  have hlow : 0 < c := by
    by_contra h0
    have : c = 0 := by omega
    subst this
    omega
  have hhigh : c < 2 := by
    by_contra h2
    have : p * 2 ≤ p * c := Nat.mul_le_mul_left p (by omega)
    omega
  have hone : c = 1 := by omega
  subst hone
  omega

theorem gap_pos (hp : p.Prime) (ha : ¬ p ∣ a) (hx : x < p) (hy : y < p) (hne : x ≠ y) :
    0 < gap p x y a := by
  have hprod : ¬ p ∣ a * (y + (p - x)) := hp.not_dvd_mul ha (not_dvd_diff hx hy hne)
  exact Nat.pos_of_ne_zero fun h => hprod (Nat.dvd_of_mod_eq_zero h)

theorem gap_inj {a' : ℕ} (hp : p.Prime) (hx : x < p) (hy : y < p) (hne : x ≠ y)
    (ha : a < p) (ha' : a' < p) (h : gap p x y a = gap p x y a') : a = a' := by
  have hcoprime : Nat.gcd p (y + (p - x)) = 1 :=
    (hp.coprime_iff_not_dvd).mpr (not_dvd_diff hx hy hne)
  have hmod : a ≡ a' [MOD p] := Nat.ModEq.cancel_right_of_coprime hcoprime h
  exact hmod.eq_of_lt_of_lt ha ha'

theorem affine_add_gap (hx : x ≤ p) :
    (affine a b p x + gap p x y a) % p = affine a b p y := by
  have hsum : a * x + b + a * (y + (p - x)) = a * y + b + p * a := by
    have hback : x + (p - x) = p := by omega
    calc
      a * x + b + a * (y + (p - x)) = a * y + b + a * (x + (p - x)) := by ring
      _ = a * y + b + p * a := by rw [hback, mul_comm a p]
  unfold affine gap
  rw [← Nat.add_mod, hsum, Nat.add_mul_mod_self_left]

/-- Two keys share a bucket only if their distance, or what it lacks to `p`, is
a multiple of the number of buckets. -/
theorem gap_of_collision {n : ℕ} (hp : p.Prime) (hx : x < p)
    (h : affine a b p x % n = affine a b p y % n) :
    n ∣ gap p x y a ∨ n ∣ p - gap p x y a := by
  have hmod : affine a b p x ≡ affine a b p y [MOD n] := h
  have hfx : affine a b p x < p := affine_lt hp
  have hg : gap p x y a < p := gap_lt hp
  have hfy := affine_add_gap (a := a) (b := b) (y := y) hx.le
  by_cases hwrap : affine a b p x + gap p x y a < p
  · rw [Nat.mod_eq_of_lt hwrap] at hfy
    have hle : affine a b p x ≤ affine a b p y := by omega
    have hdvd := (Nat.modEq_iff_dvd' hle).mp hmod
    rw [← hfy, Nat.add_sub_cancel_left] at hdvd
    exact .inl hdvd
  · have hfy' : affine a b p y = affine a b p x + gap p x y a - p := by
      rw [← hfy, Nat.mod_eq_sub_mod (by omega), Nat.mod_eq_of_lt (by omega)]
    have hle : affine a b p y ≤ affine a b p x := by omega
    have hdvd := (Nat.modEq_iff_dvd' hle).mp hmod.symm
    have hdiff : affine a b p x - affine a b p y = p - gap p x y a := by omega
    rw [hdiff] at hdvd
    exact .inr hdvd

end Residues

section Counts
variable {α β : Type}

theorem class_card {M n j : ℕ} (hn : 0 < n) (S : Finset α) (f : α → ℕ)
    (hinj : Set.InjOn f S) (hf : ∀ x ∈ S, f x < M) :
    (S.filter fun x => f x % n = j).card ≤ M / n + 1 := by
  have hclass : (S.filter fun x => f x % n = j).card ≤
      ((Finset.range M).filter fun r => r ≡ j [MOD n]).card := by
    apply Finset.card_le_card_of_injOn f
    · intro x hx
      obtain ⟨hS, hj⟩ := Finset.mem_filter.mp hx
      have hmod : f x ≡ j [MOD n] := by rw [← hj]; exact (Nat.mod_modEq _ _).symm
      exact Finset.mem_filter.mpr ⟨Finset.mem_range.mpr (hf x hS), hmod⟩
    · exact hinj.mono fun x hx => (Finset.mem_filter.mp hx).1
  calc
    _ ≤ _ := hclass
    _ = M / n + if j % n < M % n then 1 else 0 := by
      rw [← Nat.count_eq_card_filter_range, Nat.count_modEq_card _ hn]
    _ ≤ M / n + 1 := by
      split <;> omega

theorem multiples_card {M : ℕ} (n : ℕ) (A : Finset α) (f : α → ℕ) (hinj : Set.InjOn f A)
    (hf : ∀ a ∈ A, 0 < f a ∧ f a ≤ M) : (A.filter fun a => n ∣ f a).card ≤ M / n := by
  rw [← Nat.Ioc_filter_dvd_card_eq_div]
  apply Finset.card_le_card_of_injOn f
  · intro a ha
    obtain ⟨hA, hdvd⟩ := Finset.mem_filter.mp ha
    exact Finset.mem_filter.mpr ⟨Finset.mem_Ioc.mpr (hf a hA), hdvd⟩
  · exact hinj.mono fun a ha => (Finset.mem_filter.mp ha).1

/-- Two different keys meet under at most `2 * ((p - 1) / n)` multipliers. -/
theorem collisions_card {p x y : ℕ} (b n : ℕ) (hp : p.Prime) (hx : x < p) (hy : y < p)
    (hne : x ≠ y) (A : Finset α) (v : α → ℕ) (hinj : Set.InjOn v A)
    (hv : ∀ a ∈ A, 0 < v a ∧ v a < p) :
    (A.filter fun a => affine (v a) b p x % n = affine (v a) b p y % n).card ≤
      2 * ((p - 1) / n) := by
  classical
  have hgap : ∀ a ∈ A, 0 < gap p x y (v a) ∧ gap p x y (v a) < p := by
    intro a ha
    have hdvd : ¬ p ∣ v a := Nat.not_dvd_of_pos_of_lt (hv a ha).1 (hv a ha).2
    exact ⟨gap_pos hp hdvd hx hy hne, gap_lt hp⟩
  have hup : Set.InjOn (fun a => gap p x y (v a)) A := by
    intro a ha a' ha' h
    exact hinj ha ha' (gap_inj hp hx hy hne (hv a ha).2 (hv a' ha').2 h)
  have hdown : Set.InjOn (fun a => p - gap p x y (v a)) A := by
    intro a ha a' ha' h
    have hlt := (hgap a ha).2
    have hlt' := (hgap a' ha').2
    have hback : p - gap p x y (v a) = p - gap p x y (v a') := h
    exact hup ha ha' (by show gap p x y (v a) = gap p x y (v a'); omega)
  have hcover : (A.filter fun a => affine (v a) b p x % n = affine (v a) b p y % n) ⊆
      (A.filter fun a => n ∣ gap p x y (v a)) ∪ A.filter fun a => n ∣ p - gap p x y (v a) := by
    intro a ha
    obtain ⟨hA, hcoll⟩ := Finset.mem_filter.mp ha
    simpa [hA] using gap_of_collision hp hx hcoll
  calc
    _ ≤ _ := Finset.card_le_card hcover
    _ ≤ _ := Finset.card_union_le _ _
    _ ≤ (p - 1) / n + (p - 1) / n := by
      apply Nat.add_le_add
      · refine multiples_card n A _ hup fun a ha => ?_
        have := hgap a ha
        omega
      · refine multiples_card n A _ hdown fun a ha => ?_
        have := hgap a ha
        omega
    _ = 2 * ((p - 1) / n) := by ring

/-- If each key of `K` meets a fixed one under at most `c` multipliers, then
over all of them the fixed one meets at most `c` times as many as there are. -/
theorem meetings_card (A : Finset α) (K : Finset β) (R : α → β → Prop)
    [∀ a k, Decidable (R a k)] (c : ℕ) (hc : ∀ k ∈ K, (A.filter fun a => R a k).card ≤ c) :
    ∑ a ∈ A, (K.filter fun k => R a k).card ≤ c * K.card := by
  calc
    _ = ∑ k ∈ K, (A.filter fun a => R a k).card :=
      Finset.sum_card_bipartiteAbove_eq_sum_card_bipartiteBelow R
    _ ≤ ∑ _k ∈ K, c := Finset.sum_le_sum hc
    _ = c * K.card := by simp [mul_comm]

end Counts

end RtsCache.PrimeHash
