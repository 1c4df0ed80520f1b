import Mathlib.Data.Set.Card
import Mathlib.Dynamics.PeriodicPts.Lemmas
import Mathlib.Tactic.LinearCombination
import Mathlib.Tactic.Ring

/-!
# Generators of full period

Over a ring where a power of two vanishes, a map with a slope one above a
multiple of four and an odd offset visits everything before it comes back.
Whatever a state is reduced to, each value is then seen as often as there are
states with it.
-/

set_option autoImplicit false

namespace RtsCache.FullPeriod
open Function

section Congruential
variable {R : Type*} [CommRing R] {t s : R}

def congruential (a c x : R) : R := a*x+c

/-- Twice as many steps square the slope, which stays close to one. -/
theorem congruential_doubled (t s : R) (k : ℕ) : ∃ t' s' : R, ∀ x,
    (congruential (1+4*t) (1+2*s))^[2^k] x = (1+2^(k+2)*t')*x + 2^k*(1+2*s') := by
  induction k with
  | zero =>
    use t, s
    intro x
    show (1+4*t)*x + (1+2*s) = _
    ring
  | succ k ih =>
    obtain ⟨u, v, huv⟩ := ih
    use u+2^(k+1)*u^2, v+2^k*u*(1+2*v)
    intro x
    rw [Nat.pow_succ, Nat.mul_two, iterate_add_apply, huv, huv]
    ring

theorem congruential_minimalPeriod (t s x : R) {n : ℕ} (hzero : (2 : R)^(n+1) = 0)
    (hne : (2 : R)^n ≠ 0) : minimalPeriod (congruential (1+4*t) (1+2*s)) x = 2^(n+1) := by
  have hprime : Fact (Nat.Prime 2) := ⟨Nat.prime_two⟩
  apply minimalPeriod_eq_prime_pow
  · intro hback
    obtain ⟨u, v, huv⟩ := congruential_doubled t s n
    have hstay : (1+2^(n+2)*u)*x + 2^n*(1+2*v) = x := (huv x).symm.trans hback
    apply hne
    linear_combination hstay - (2*u*x+v)*hzero
  · obtain ⟨u, v, huv⟩ := congruential_doubled t s (n+1)
    show (congruential (1+4*t) (1+2*s))^[2^(n+1)] x = x
    rw [huv]
    linear_combination (4*u*x+1+2*v)*hzero

end Congruential

section Visits
variable {α : Type*} [Finite α] {f : α → α} {x : α}

theorem iterate_visits (hf : minimalPeriod f x = Nat.card α) (y : α) :
    ∃ n < Nat.card α, f^[n] x = y := by
  have hinj : Injective fun n : Fin (Nat.card α) => f^[n] x := by
    intro m n hmn
    have hm : m.val < minimalPeriod f x := by rw [hf]; exact m.isLt
    have hn : n.val < minimalPeriod f x := by rw [hf]; exact n.isLt
    exact Fin.ext ((iterate_eq_iterate_iff_of_lt_minimalPeriod hm hn).mp hmn)
  have hbij := (Nat.bijective_iff_injective_and_card _).mpr ⟨hinj, Nat.card_fin _⟩
  obtain ⟨n, hn⟩ := hbij.surjective y
  exact ⟨n, n.isLt, hn⟩

/-- A cycle through all states meets a property as often as states have it. -/
theorem ncard_visits (hf : minimalPeriod f x = Nat.card α) (p : α → Prop) :
    {n | n < Nat.card α ∧ p (f^[n] x)}.ncard = {y | p y}.ncard := by
  have himage : (fun n => f^[n] x) '' {n | n < Nat.card α ∧ p (f^[n] x)} = {y | p y} := by
    ext y
    constructor
    · rintro ⟨n, ⟨-, hn⟩, rfl⟩
      exact hn
    · intro hy
      obtain ⟨n, hn, rfl⟩ := iterate_visits hf y
      exact ⟨n, ⟨hn, hy⟩, rfl⟩
  rw [← himage]
  symm
  apply Set.InjOn.ncard_image
  intro m hm n hn hmn
  exact (iterate_eq_iterate_iff_of_lt_minimalPeriod (hf ▸ hm.1) (hf ▸ hn.1)).mp hmn

end Visits

end RtsCache.FullPeriod
