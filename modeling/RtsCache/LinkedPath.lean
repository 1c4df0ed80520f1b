import Mathlib.Data.List.Basic

/-!
# Paths along a partial successor

`LinkPath next a xs b` says that following `next` from `a` visits exactly `xs`
and arrives at `b`. A path depends only on the successors of its own nodes.
-/

set_option autoImplicit false

namespace RtsCache.LinkedPath

variable {α : Type*} {next next' : α → Option α}

def LinkPath (next : α → Option α) : α → List α → α → Prop
  | a, [], b => a = b
  | a, x::xs, b => a = x ∧ ∃ c, next x = some c ∧ LinkPath next c xs b

theorem path_append (a b : α) (xs ys : List α) :
    LinkPath next a (xs ++ ys) b ↔ ∃ c, LinkPath next a xs c ∧ LinkPath next c ys b := by
  induction xs generalizing a with
  | nil => simp [LinkPath]
  | cons x xs ih =>
    constructor
    · rintro ⟨rfl, c, hc, hp⟩
      obtain ⟨d, hd, hy⟩ := (ih c).mp hp
      exact ⟨d, ⟨rfl, c, hc, hd⟩, hy⟩
    · rintro ⟨d, ⟨rfl, c, hc, hd⟩, hy⟩
      exact ⟨rfl, c, hc, (ih c).mpr ⟨d, hd, hy⟩⟩

theorem path_congr (a b : α) (xs : List α) (he : ∀ x ∈ xs, ∀ c, next x = some c → next' x = some c)
    (hp : LinkPath next a xs b) : LinkPath next' a xs b := by
  induction xs generalizing a with
  | nil => exact hp
  | cons x xs ih =>
    obtain ⟨rfl, c, hc, hp⟩ := hp
    have hrest := ih c (fun y hy => he y (List.mem_cons_of_mem _ hy)) hp
    exact ⟨rfl, c, he a List.mem_cons_self c hc, hrest⟩

end RtsCache.LinkedPath
