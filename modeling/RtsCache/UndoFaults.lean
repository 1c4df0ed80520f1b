import RtsCache.UndoRules

/-!
# Programs that only fail

A program raises a property of causes when every abort that leaves it has such
a cause. A failing library call runs out of memory and a store may crash; only
an explicit abort of the program names another cause.
-/

set_option autoImplicit false

namespace RtsCache.UndoFaults
open RtsCache.UndoHeap RtsCache.UndoMachine RtsCache.UndoRules

variable {I F : Type} [Layout F] {α β : Type} {P : Cause → Prop}

def Fault (c : Cause) : Prop := c = ENOMEM ∨ c = .crash

def Raises (P : Cause → Prop) (m : Prog I F α) : Prop :=
  ∀ env s c s', m env s = .abort c s' → P c

theorem wp_raises {env : Env I F} {m : Prog I F α} {Q : α → State I F → Prop}
    {E : Cause → State I F → Prop} {s : State I F} (hm : Raises P m) (h : wp env m Q E s) :
    wp env m Q (fun c s' => P c ∧ E c s') s := by
  unfold wp at *
  cases hr : m env s with
  | ok a s' => rw [hr] at h; exact h
  | abort c s' => rw [hr] at h; exact ⟨hm env s c s' hr, h⟩
  | stuck => rw [hr] at h; exact h

theorem raises_pure (a : α) : Raises P (pure a : Prog I F α) := fun _ _ _ _ h => by cases h

theorem raises_stuck : Raises P (stuck : Prog I F α) := fun _ _ _ _ h => by cases h

theorem raises_fuel : Raises P (fuel : Prog I F ℕ) := fun _ _ _ _ h => by cases h

theorem raises_bind {m : Prog I F β} {k : β → Prog I F α} (hm : Raises P m)
    (hk : ∀ b, Raises P (k b)) : Raises P (m >>= k) := by
  intro env s c s' h
  simp only [bind] at h
  cases hr : m env s with
  | ok b s₁ =>
    rw [hr] at h
    exact hk b env s₁ c s' h
  | abort c₁ s₁ =>
    rw [hr] at h
    cases h
    exact hm env s c s' hr
  | stuck =>
    rw [hr] at h
    cases h

theorem raises_load (o : I) (f : F) : Raises P (load o f) := by
  intro env s c s' h
  unfold load at h
  split at h <;> cases h

theorem raises_typeNum (o : I) : Raises P (typeNum o : Prog I F (Layout.Kind F)) := by
  intro env s c s' h
  unfold typeNum at h
  split at h <;> cases h

theorem raises_call {k : Log I F → Prog I F α} (hk : ∀ l, Raises Fault (k l)) :
    Raises Fault (call k) := by
  intro env s c s' h
  unfold call at h
  split at h
  · cases h
  · split at h
    · cases h
      exact Or.inl rfl
    · exact hk _ env _ c s' h

variable [Handle I]

theorem raises_store (o : I) (f : F) (v : Layout.ty f) : Raises Fault (store o f v) := by
  intro env s c s' h
  unfold UndoMachine.store at h
  split at h
  · cases h
  · split at h
    · cases h
      exact Or.inr rfl
    · cases h

theorem raises_copyCells (dst src : I) (p : F → Bool) : Raises Fault (copyCells dst src p) := by
  intro env s c s' h
  unfold copyCells at h
  split at h
  · split at h
    · split at h
      · cases h
        exact Or.inr rfl
      · cases h
    · cases h
  · cases h

theorem raises_txAdd (o : I) (p : F → Bool) : Raises Fault (txAdd o p) := by
  apply raises_call
  intro l env s c s' h
  dsimp only at h
  split at h <;> cases h

theorem raises_txAllocWith (kind : Layout.Kind F) (size : ℕ)
    (cells : Env I F → ℕ → (f : F) → Layout.ty f) :
    Raises Fault (txAllocWith kind size cells : Prog I F I) := by
  apply raises_call
  intro l env s c s' h
  dsimp only at h
  split at h
  · cases h
    exact Or.inl rfl
  · cases h

theorem raises_transaction {body : Prog I F α} (hb : Raises Fault body) :
    Raises Fault (transaction body) := by
  intro env s c s' h
  unfold transaction at h
  split at h
  · split at h
    · cases h
      exact Or.inl rfl
    · split at h
      · cases h
      · rename_i hr
        cases h
        exact hb env _ _ _ hr
      · cases h
  · split at h
    · cases h
    · split at h
      · split at h <;> cases h
      · cases h
      · cases h

end RtsCache.UndoFaults
