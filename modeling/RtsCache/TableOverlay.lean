import Mathlib.Logic.Function.Basic

/-!
# Overwriting a table with one value

`Overlaid z v A m m'` says that `m'` comes from `m` by writing `v`: over
whatever the cells `A` held, and elsewhere only into cells that held `z`.
-/

set_option autoImplicit false

namespace RtsCache.TableOverlay

variable {α β : Type*} {z v w : β} {A B : List α} {m m₁ m' : α → β}

structure Overlaid (z v : β) (A : List α) (m m' : α → β) : Prop where
  written : ∀ a ∈ A, m' a = v
  rest : ∀ a, a ∉ A → m' a = m a ∨ (m a = z ∧ m' a = v)

theorem overlaid_refl (z v : β) (m : α → β) : Overlaid z v [] m m :=
  ⟨fun _ h => absurd h List.not_mem_nil, fun _ _ => Or.inl rfl⟩

theorem overlaid_write [DecidableEq α] (z v : β) (m : α → β) (a : α) :
    Overlaid z v [a] m (Function.update m a v) := by
  constructor
  · intro b hb
    rw [List.mem_singleton.mp hb, Function.update_self]
  · intro b hb
    exact Or.inl (Function.update_of_ne (fun h => hb (List.mem_singleton.mpr h)) _ _)

theorem overlaid_fill [DecidableEq α] (v : β) {a : α} (ha : m a = z) :
    Overlaid z v [] m (Function.update m a v) := by
  constructor
  · exact fun _ h => absurd h List.not_mem_nil
  · intro b _
    by_cases hb : b = a
    · subst hb
      exact Or.inr ⟨ha, Function.update_self ..⟩
    · exact Or.inl (Function.update_of_ne hb _ _)

theorem Overlaid.trans (h : Overlaid z v A m m₁) (h' : Overlaid z v B m₁ m') :
    Overlaid z v (A ++ B) m m' := by
  constructor
  · intro a ha
    by_cases hb : a ∈ B
    · exact h'.written a hb
    · have hm₁ := h.written a ((List.mem_append.mp ha).resolve_right hb)
      rcases h'.rest a hb with he | ⟨-, he⟩
      · rw [he, hm₁]
      · exact he
  · intro a ha
    have hA : a ∉ A := fun h => ha (List.mem_append_left B h)
    have hB : a ∉ B := fun h => ha (List.mem_append_right A h)
    rcases h.rest a hA with he | ⟨hz, hm₁⟩
    · rw [← he]
      exact h'.rest a hB
    · rcases h'.rest a hB with he | ⟨-, he⟩
      · exact Or.inr ⟨hz, he.trans hm₁⟩
      · exact Or.inr ⟨hz, he⟩

theorem Overlaid.keeps (h : Overlaid z v A m m') {a : α} (ha : m a = v) : m' a = v := by
  by_cases hA : a ∈ A
  · exact h.written a hA
  · rcases h.rest a hA with he | ⟨-, he⟩
    · rw [he, ha]
    · exact he

theorem Overlaid.ne_of_ne (h : Overlaid z v A m m') (hv : v ≠ z) {a : α} (ha : m a ≠ z) :
    m' a ≠ z := by
  by_cases hA : a ∈ A
  · rwa [h.written a hA]
  · rcases h.rest a hA with he | ⟨hz, -⟩
    · rwa [he]
    · exact absurd hz ha

theorem Overlaid.other (h : Overlaid z v A m m') (hw : w ≠ v) (hz : w ≠ z) (a : α) :
    m' a = w ↔ m a = w ∧ a ∉ A := by
  constructor
  · intro ha
    have hA : a ∉ A := fun hA => hw (ha.symm.trans (h.written a hA))
    rcases h.rest a hA with he | ⟨-, he⟩
    · exact ⟨he.symm.trans ha, hA⟩
    · exact absurd (ha.symm.trans he) hw
  · rintro ⟨ha, hA⟩
    rcases h.rest a hA with he | ⟨he, -⟩
    · exact he.trans ha
    · exact absurd (ha.symm.trans he) hz

end RtsCache.TableOverlay
