import RtsCache.UndoRules

/-!
# What a returning run has changed

A run that returns is taken apart into its steps. `Wrote W` relates two heaps
with the same objects, of the same kinds and sizes, that agree outside the
cells `W`; the heaps at the ends of a program that only loads, stores and
snapshots are related so.
-/

set_option autoImplicit false

namespace RtsCache.UndoWrites
open RtsCache.UndoHeap RtsCache.UndoMachine RtsCache.UndoRules

variable {I F : Type} [Layout F] {α β : Type} {env : Env I F} {s s' : State I F}

def shape (h : Heap I F) (o : I) : Option (Layout.Kind F × ℕ) :=
  (h o).map fun obj => (obj.kind, obj.size)

theorem shape_eq_none {h : Heap I F} {o : I} : shape h o = none ↔ h o = none := by
  simp [shape]

theorem shape_eq_some {h : Heap I F} {o : I} {obj : Obj F} (ho : h o = some obj) :
    shape h o = some (obj.kind, obj.size) := by
  simp [shape, ho]

theorem get_of_shape {h : Heap I F} {o : I} {f : F}
    (hs : ¬ ∃ size, shape h o = some (Layout.kind f, size)) : h.get o f = none := by
  cases hv : h.get o f with
  | none => rfl
  | some v =>
    obtain ⟨obj, ho, hk⟩ := Heap.live_of_get hv
    exact absurd ⟨obj.size, hk ▸ shape_eq_some ho⟩ hs

theorem shape_put [Handle I] (h : Heap I F) (o p : I) (f : F) (v : Layout.ty f) :
    shape (h.put o f v) p = shape h p := by
  by_cases hp : p = o
  · subst hp
    cases ho : h p <;> simp [shape, Heap.put, ho, Obj.put]
  · rw [shape, Heap.put_of_ne h f v hp, shape]

structure Wrote (W : I → F → Prop) (h h' : Heap I F) : Prop where
  shapes : ∀ o, shape h' o = shape h o
  cells : ∀ o f, ¬ W o f → h'.get o f = h.get o f

namespace Wrote
variable {W W' : I → F → Prop} {h h₁ h₂ : Heap I F}

theorem refl (h : Heap I F) : Wrote W h h := ⟨fun _ => rfl, fun _ _ _ => rfl⟩

theorem trans (hw : Wrote W h h₁) (hw' : Wrote W h₁ h₂) : Wrote W h h₂ where
  shapes o := (hw'.shapes o).trans (hw.shapes o)
  cells o f hf := (hw'.cells o f hf).trans (hw.cells o f hf)

theorem mono (hw : Wrote W h h₁) (hW : ∀ o f, W o f → W' o f) : Wrote W' h h₁ where
  shapes := hw.shapes
  cells o f hf := hw.cells o f fun hc => hf (hW o f hc)

theorem live (hw : Wrote W h h₁) {o : I} {obj : Obj F} (ho : h o = some obj) :
    ∃ obj', h₁ o = some obj' ∧ obj'.kind = obj.kind ∧ obj'.size = obj.size := by
  have hs := hw.shapes o
  rw [shape_eq_some ho] at hs
  cases ho' : h₁ o with
  | none =>
    rw [shape_eq_none.mpr ho'] at hs
    cases hs
  | some obj' =>
    rw [shape_eq_some ho', Option.some.injEq, Prod.mk.injEq] at hs
    exact ⟨obj', rfl, hs.1, hs.2⟩

end Wrote

theorem wrote_put [Handle I] {W : I → F → Prop} (h : Heap I F) {o : I} {f : F} (v : Layout.ty f)
    (hW : W o f) : Wrote W h (h.put o f v) where
  shapes p := shape_put h o p f v
  cells p g hg := by
    by_cases hp : p = o
    · subst hp
      apply Heap.get_put_other
      rintro rfl
      exact hg hW
    · exact Heap.get_put_of_ne h f g v hp

section Steps

theorem bind_ok {m : Prog I F β} {k : β → Prog I F α} {a : α}
    (h : (m >>= k) env s = .ok a s') : ∃ b s₁, m env s = .ok b s₁ ∧ k b env s₁ = .ok a s' := by
  simp only [bind] at h
  cases hm : m env s with
  | ok b s₁ =>
    rw [hm] at h
    exact ⟨b, s₁, rfl, h⟩
  | abort c s₁ =>
    rw [hm] at h
    cases h
  | stuck =>
    rw [hm] at h
    cases h

theorem load_ok {o : I} {f : F} {v : Layout.ty f} (h : load o f env s = .ok v s') :
    s.heap.get o f = some v ∧ s' = s := by
  unfold load at h
  split at h
  · cases h
    exact ⟨by assumption, rfl⟩
  · cases h

theorem call_ok {k : Log I F → Prog I F α} {a : α} (h : call k env s = .ok a s') :
    ∃ l, s.log = some l ∧ k l env s.tick = .ok a s' := by
  unfold call at h
  split at h
  · cases h
  · split at h
    · cases h
    · exact ⟨_, by assumption, h⟩

variable [Handle I]

theorem store_ok {o : I} {f : F} {v : Layout.ty f} (h : store o f v env s = .ok () s') :
    (∃ w, s.heap.get o f = some w) ∧ s'.heap = s.heap.put o f v := by
  unfold UndoMachine.store at h
  split at h
  · cases h
  · split at h
    · cases h
    · cases h
      exact ⟨⟨_, by assumption⟩, rfl⟩

theorem store_log {o : I} {f : F} {v : Layout.ty f} (h : store o f v env s = .ok () s') :
    s'.log = s.log := by
  unfold UndoMachine.store at h
  split at h
  · cases h
  · split at h
    · cases h
    · cases h
      rfl

theorem txAdd_ok {o : I} {p : F → Bool} (h : txAdd o p env s = .ok () s') :
    s'.heap = s.heap := by
  obtain ⟨l, -, h⟩ := call_ok h
  split at h
  · cases h
    rfl
  · cases h

theorem txAllocWith_ok {kind : Layout.Kind F} {size : ℕ}
    {cells : Env I F → ℕ → (f : F) → Layout.ty f} {o : I}
    (h : txAllocWith kind size cells env s = .ok o s') :
    s.heap o = none ∧ Handle.isNull o = false ∧ size ≤ Layout.maxAlloc F ∧
      s'.heap = Function.update s.heap o (some ⟨kind, size, cells env s.calls⟩) := by
  obtain ⟨l, -, h⟩ := call_ok h
  dsimp only at h
  split at h
  · cases h
  · rename_i hgood
    cases h
    simp only [not_or, Bool.not_eq_true, Option.isSome_eq_false_iff, Option.isNone_iff_eq_none,
      Nat.not_lt] at hgood
    exact ⟨hgood.2.1, hgood.1, hgood.2.2.2, rfl⟩

theorem txAllocWith_inTx {kind : Layout.Kind F} {size : ℕ}
    {cells : Env I F → ℕ → (f : F) → Layout.ty f} {o : I}
    (h : txAllocWith kind size cells env s = .ok o s') : s'.log.isSome := by
  obtain ⟨l, -, h⟩ := call_ok h
  dsimp only at h
  split at h
  · cases h
  · cases h
    rfl

theorem txFree_ok {o : I} (hn : Handle.isNull o = false) (h : txFree o env s = .ok () s') :
    (∃ obj, s.heap o = some obj) ∧ s'.heap = Function.update s.heap o none := by
  obtain ⟨l, -, h⟩ := call_ok h
  simp only [hn, Bool.false_eq_true, if_false] at h
  split at h
  · cases h
    exact ⟨⟨_, by assumption⟩, rfl⟩
  · cases h

/-- A transaction that returns has run its body, unless it was the outermost
one and aborted. -/
theorem transaction_ok {body : Prog I F α} {r : Option α} (h : transaction body env s = .ok r s') :
    (s.log = none ∧ ∃ ends c, s'.ends = ends ++ [.aborted c]) ∨
      ∃ a s₁ s₂, r = some a ∧ s₁.heap = s.heap ∧ s₁.log.isSome ∧ body env s₁ = .ok a s₂ ∧
        s'.heap = s₂.heap := by
  unfold transaction at h
  split at h
  · rename_i hl
    split at h
    · cases h
    · split at h
      · rename_i hb
        cases h
        have hopen : s.tick.log.isSome := Option.isSome_of_eq_some hl
        exact Or.inr ⟨_, s.tick, _, rfl, rfl, hopen, hb, rfl⟩
      · cases h
      · cases h
  · rename_i hl
    split at h
    · cases h
      exact Or.inl ⟨hl, _, _, rfl⟩
    · split at h
      · rename_i hb
        split at h
        · cases h
          exact Or.inl ⟨hl, _, _, rfl⟩
        · cases h
          exact Or.inr ⟨_, s.tick.opened, _, rfl, rfl, rfl, hb, rfl⟩
      · cases h
        exact Or.inl ⟨hl, _, _, rfl⟩
      · cases h

/-- A transaction that is not rolled back when it ends: the outermost one has
committed, and of a nested one the outer one decides. -/
def Commits (s s' : State I F) : Prop := s.log = none → s'.ends = s.ends ++ [.committed]

theorem transaction_committed {body : Prog I F α} {r : Option α}
    (h : transaction body env s = .ok r s') (hc : Commits s s') :
    ∃ a s₁ s₂, r = some a ∧ s₁.heap = s.heap ∧ s₁.log.isSome ∧ body env s₁ = .ok a s₂ ∧
      s'.heap = s₂.heap := by
  rcases transaction_ok h with ⟨hl, ends, c, he⟩ | hdone
  · have hlast := congrArg List.getLast? (he.symm.trans (hc hl))
    simp at hlast
  · exact hdone

omit [Handle I] in
theorem exitOnAbort_ok {m : Prog I F (Option α)} {a : α}
    (h : exitOnAbort m env s = .ok a s') : m env s = .ok (some a) s' := by
  unfold exitOnAbort at h
  split at h
  · rename_i hm
    cases h
    exact hm
  · cases h
  · cases h
  · cases h

theorem allocAtomic_ok {kind : Layout.Kind F} {size : ℕ}
    {init : ((f : F) → Layout.ty f) → (f : F) → Layout.ty f} {o : I}
    (h : allocAtomic kind size init env s = .ok (some o) s') :
    s.heap o = none ∧ Handle.isNull o = false ∧ size ≤ Layout.maxAlloc F ∧
      s'.heap = Function.update s.heap o (some ⟨kind, size, init (env.junk s.calls)⟩) := by
  unfold allocAtomic at h
  split at h
  · cases h
  · dsimp only at h
    split at h
    · cases h
    · rename_i hgood
      cases h
      simp only [not_or, Bool.not_eq_true, Option.isSome_eq_false_iff, Option.isNone_iff_eq_none,
        Nat.not_lt] at hgood
      exact ⟨hgood.2.2.1, hgood.2.1, hgood.2.2.2, rfl⟩

end Steps

def Writes (W : I → F → Prop) (m : Prog I F α) : Prop :=
  ∀ env s a s', m env s = .ok a s' → Wrote W s.heap s'.heap

section Writes
variable {W : I → F → Prop}

theorem writes_pure (a : α) : Writes W (pure a : Prog I F α) := by
  intro env s b s' h
  cases h
  exact .refl _

theorem writes_stuck : Writes W (stuck : Prog I F α) := fun _ _ _ _ h => by cases h

theorem writes_fuel : Writes W (fuel : Prog I F ℕ) := by
  intro env s n s' h
  cases h
  exact .refl _

theorem writes_load (o : I) (f : F) : Writes W (load o f) := by
  intro env s v s' h
  rw [(load_ok h).2]
  exact .refl _

theorem writes_bind {m : Prog I F β} {k : β → Prog I F α} (hm : Writes W m)
    (hk : ∀ b, Writes W (k b)) : Writes W (m >>= k) := by
  intro env s a s' h
  obtain ⟨b, s₁, h₁, h₂⟩ := bind_ok h
  exact (hm env s b s₁ h₁).trans (hk b env s₁ a s' h₂)

variable [Handle I]

theorem writes_store {o : I} {f : F} (v : Layout.ty f) (hW : W o f) : Writes W (store o f v) := by
  intro env s a s' h
  rw [(store_ok h).2]
  exact wrote_put _ v hW

theorem writes_txAdd (o : I) (p : F → Bool) : Writes W (txAdd o p) := by
  intro env s a s' h
  rw [txAdd_ok h]
  exact .refl _

end Writes

end RtsCache.UndoWrites
