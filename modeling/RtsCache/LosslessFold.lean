import Mathlib.Data.List.Basic
import Mathlib.Logic.Function.Basic
import Mathlib.Data.Set.Finite.Basic
import Mathlib.Data.Fintype.EquivFin

/-!
# Folds that lose nothing

A fold whose step is injective in the state tells two starting states apart
after any list. Where the step is injective in the letter as well, one changed
letter is never forgotten.
-/

set_option autoImplicit false

namespace RtsCache.LosslessFold

variable {σ β : Type*} {step step' : σ → β → σ}

theorem foldl_injective (hstate : ∀ b, Function.Injective fun s => step s b) (bs : List β) :
    Function.Injective fun s => bs.foldl step s := by
  induction bs with
  | nil => exact Function.injective_id
  | cons b bs ih => exact ih.comp (hstate b)

theorem foldl_bijective [Finite σ] (hstate : ∀ b, Function.Injective fun s => step s b)
    (bs : List β) : Function.Bijective fun s => bs.foldl step s :=
  Finite.injective_iff_bijective.mp (foldl_injective hstate bs)

theorem foldl_ne (hstate : ∀ b, Function.Injective fun s => step s b)
    (hletter : ∀ s, Function.Injective (step s)) (l r : List β) {b c : β} (hbc : b ≠ c) (s : σ) :
    (l ++ b :: r).foldl step s ≠ (l ++ c :: r).foldl step s := by
  intro h
  rw [List.foldl_append, List.foldl_append, List.foldl_cons, List.foldl_cons] at h
  exact hbc (hletter _ (foldl_injective hstate r h))

/-- A map that carries one step over to the other carries the folds. -/
theorem foldl_carried {f : σ → σ} (hf : ∀ s b, f (step s b) = step' (f s) b) (bs : List β)
    (s : σ) : f (bs.foldl step s) = bs.foldl step' (f s) := by
  induction bs generalizing s with
  | nil => rfl
  | cons b bs ih => rw [List.foldl_cons, List.foldl_cons, ih, hf]

end RtsCache.LosslessFold
