import Mathlib.Logic.Function.Basic
import Mathlib.Data.Nat.Notation
import Mathlib.Data.Int.Notation

/-!
# Heaps of typed objects and undo logs

A heap maps handles to live objects, an object maps the members of its kind
to values. An undo log keeps the first value of every snapshotted member, the
objects allocated since it was opened and the objects freed since then. All
of it is independent of what the members mean.
-/

set_option autoImplicit false

namespace RtsCache.UndoHeap

/-- Handles, with the test the program uses for a null handle. -/
class Handle (I : Type) where
  isNull : I → Bool
  decEq : DecidableEq I

/-- The members of all object kinds, the type of each, the kind it belongs to,
the offset just past it, and the largest object the allocator serves. -/
class Layout (F : Type) where
  Kind : Type
  ty : F → Type
  kind : F → Kind
  extent : F → ℕ
  zero : (f : F) → ty f
  maxAlloc : ℕ
  decMember : DecidableEq F
  decKind : DecidableEq Kind

attribute [reducible, instance] Handle.decEq Layout.decMember Layout.decKind

variable {I F : Type} [Layout F]

structure Obj (F : Type) [Layout F] where
  kind : Layout.Kind F
  size : ℕ
  cells : (f : F) → Layout.ty f

def Obj.Has (obj : Obj F) (f : F) : Prop :=
  obj.kind = Layout.kind f ∧ Layout.extent f ≤ obj.size

instance (obj : Obj F) (f : F) : Decidable (obj.Has f) :=
  inferInstanceAs (Decidable (_ ∧ _))

def Obj.put (obj : Obj F) (f : F) (v : Layout.ty f) : Obj F :=
  { obj with cells := Function.update obj.cells f v }

abbrev Heap (I F : Type) [Layout F] := I → Option (Obj F)

namespace Heap

/-- A member can be read where a live object of its kind is large enough. -/
def get (h : Heap I F) (o : I) (f : F) : Option (Layout.ty f) :=
  (h o).bind fun obj => if obj.Has f then some (obj.cells f) else none

theorem get_eq_some {h : Heap I F} {o : I} {f : F} {v : Layout.ty f} :
    h.get o f = some v ↔ ∃ obj, h o = some obj ∧ obj.Has f ∧ obj.cells f = v := by
  simp only [get, Option.bind_eq_some_iff]
  constructor
  · rintro ⟨obj, ho, hv⟩
    split at hv
    · rename_i hf
      exact ⟨obj, ho, hf, Option.some.inj hv⟩
    · cases hv
  · rintro ⟨obj, ho, hf, rfl⟩
    exact ⟨obj, ho, by simp [hf]⟩

theorem live_of_get {h : Heap I F} {o : I} {f : F} {v : Layout.ty f}
    (hv : h.get o f = some v) : ∃ obj, h o = some obj ∧ obj.kind = Layout.kind f := by
  obtain ⟨obj, ho, hf, -⟩ := get_eq_some.mp hv
  exact ⟨obj, ho, hf.1⟩

theorem ne_of_free {h : Heap I F} {o p : I} {f : F} {v : Layout.ty f} (ho : h o = none)
    (hv : h.get p f = some v) : p ≠ o := by
  rintro rfl
  simp [get, ho] at hv

theorem get_congr {h h' : Heap I F} {o : I} (he : h' o = h o) (f : F) :
    h'.get o f = h.get o f := by
  simp [get, he]

def Keeps (P : I → F → Prop) (h h' : Heap I F) : Prop :=
  ∀ o f v, P o f → h.get o f = some v → h'.get o f = some v

theorem Keeps.trans {P : I → F → Prop} {h h₁ h₂ : Heap I F} (hk : Keeps P h h₁)
    (hk' : Keeps P h₁ h₂) : Keeps P h h₂ :=
  fun o f v hp hv => hk' o f v hp (hk o f v hp hv)

theorem Keeps.mono {P P' : I → F → Prop} {h h' : Heap I F} (hk : Keeps P h h')
    (hp : ∀ o f, P' o f → P o f) : Keeps P' h h' :=
  fun o f v ho hv => hk o f v (hp o f ho) hv

variable [Handle I]

def put (h : Heap I F) (o : I) (f : F) (v : Layout.ty f) : Heap I F :=
  Function.update h o ((h o).map fun obj => obj.put f v)

theorem put_of_ne (h : Heap I F) {o p : I} (f : F) (v : Layout.ty f) (hp : p ≠ o) :
    h.put o f v p = h p := by
  simp [put, hp]

theorem get_put_of_ne (h : Heap I F) {o p : I} (f g : F) (v : Layout.ty f) (hp : p ≠ o) :
    (h.put o f v).get p g = h.get p g :=
  get_congr (put_of_ne h f v hp) g

theorem get_put_self (h : Heap I F) {o : I} {f : F} {w : Layout.ty f} (v : Layout.ty f)
    (hw : h.get o f = some w) : (h.put o f v).get o f = some v := by
  obtain ⟨obj, ho, hf, -⟩ := get_eq_some.mp hw
  exact get_eq_some.mpr ⟨obj.put f v, by simp [put, ho], hf, by simp [Obj.put]⟩

theorem get_put_other (h : Heap I F) (o p : I) {f g : F} (v : Layout.ty f) (hg : g ≠ f) :
    (h.put o f v).get p g = h.get p g := by
  by_cases hp : p = o
  · subst hp
    cases ho : h p with
    | none => simp [get, put, ho]
    | some obj =>
      have hh : (obj.put f v).Has g ↔ obj.Has g := Iff.rfl
      have hc : (obj.put f v).cells g = obj.cells g := Function.update_of_ne hg v obj.cells
      simp [get, put, ho, hh, hc]
  · exact get_put_of_ne h f g v hp

theorem put_eq_none {h : Heap I F} {o p : I} {f : F} {v : Layout.ty f} :
    h.put o f v p = none ↔ h p = none := by
  by_cases hp : p = o
  · subst hp
    simp [put]
  · rw [put_of_ne h f v hp]

theorem put_kind (h : Heap I F) (o p : I) (f : F) (v : Layout.ty f) :
    (h.put o f v p).map Obj.kind = (h p).map Obj.kind := by
  by_cases hp : p = o
  · subst hp
    cases ho : h p <;> simp [put, ho, Obj.put]
  · rw [put_of_ne h f v hp]

theorem keeps_put (h : Heap I F) (o : I) (f : F) (v : Layout.ty f) :
    Keeps (fun p g => p ≠ o ∨ g ≠ f) h (h.put o f v) := by
  rintro p g w (hp | hg) hw
  · rwa [get_put_of_ne h f g v hp]
  · rwa [get_put_other h o p v hg]

theorem keeps_alloc (h : Heap I F) (o : I) (obj : Obj F) (ho : h o = none) :
    Keeps (fun _ _ => True) h (Function.update h o (some obj)) := by
  intro p g w _ hw
  have hp := ne_of_free ho hw
  rwa [get_congr (Function.update_of_ne hp _ h) g]

theorem keeps_free (h : Heap I F) (o : I) :
    Keeps (fun p _ => p ≠ o) h (Function.update h o none) := by
  intro p g w hp hw
  rwa [get_congr (Function.update_of_ne hp _ h) g]

end Heap

structure Log (I F : Type) [Layout F] where
  saved : I → (f : F) → Option (Layout.ty f)
  fresh : List I
  freed : I → Option (Obj F)

namespace Log

def empty : Log I F := ⟨fun _ _ => none, [], fun _ => none⟩

variable [Handle I]

def snapshot (l : Log I F) (o : I) (p : F → Bool) (obj : Obj F) : Log I F :=
  { l with
    saved := fun q f =>
      if q = o ∧ p f ∧ l.saved q f = none then some (obj.cells f) else l.saved q f }

def restore (l : Log I F) (o : I) (obj : Obj F) : Obj F :=
  { obj with cells := fun f => (l.saved o f).getD (obj.cells f) }

/-- The heap an abort leaves: fresh objects vanish, freed objects return and
snapshotted members get back their first value. Nothing else is undone. -/
def rollback (l : Log I F) (h : Heap I F) : Heap I F := fun o =>
  if o ∈ l.fresh then none else ((h o).or (l.freed o)).map (l.restore o)

def Covers (l : Log I F) (o : I) (f : F) : Prop := o ∈ l.fresh ∨ (l.saved o f).isSome

theorem rollback_empty (h : Heap I F) : (empty : Log I F).rollback h = h := by
  funext o
  cases ho : h o <;> simp [rollback, empty, ho, restore]

theorem rollback_snapshot (l : Log I F) (h : Heap I F) (o : I) (p : F → Bool) (obj : Obj F)
    (ho : h o = some obj) : (l.snapshot o p obj).rollback h = l.rollback h := by
  funext q
  by_cases hq : q = o
  · subst hq
    have hr : (l.snapshot q p obj).restore q obj = l.restore q obj := by
      simp only [restore, snapshot, Obj.mk.injEq, true_and]
      funext f
      by_cases hs : l.saved q f = none
      · by_cases hp : p f <;> simp [hs, hp]
      · simp [hs]
    simp [rollback, ho, hr, show (l.snapshot q p obj).fresh = l.fresh from rfl]
  · have hr : (l.snapshot o p obj).restore q = l.restore q := by
      funext x
      simp [restore, snapshot, hq]
    simp [rollback, hr, show (l.snapshot o p obj).fresh = l.fresh from rfl,
      show (l.snapshot o p obj).freed = l.freed from rfl]

/-- A store into a covered member does not show after an abort. -/
theorem rollback_put (l : Log I F) (h : Heap I F) (o : I) (f : F) (v : Layout.ty f)
    (hc : l.Covers o f) : l.rollback (h.put o f v) = l.rollback h := by
  funext q
  by_cases hq : q = o
  · subst hq
    by_cases hf : q ∈ l.fresh
    · simp [rollback, hf]
    · obtain ⟨w, hw⟩ := Option.isSome_iff_exists.mp (hc.resolve_left hf)
      cases ho : h q with
      | none => simp [rollback, Heap.put, ho]
      | some obj =>
        have hr : l.restore q (obj.put f v) = l.restore q obj := by
          simp only [restore, Obj.put, Obj.mk.injEq, true_and]
          funext g
          by_cases hg : g = f
          · subst hg
            simp [hw]
          · simp [Function.update_of_ne hg]
        simp [rollback, Heap.put, ho, hf, hr]
  · simp [rollback, Heap.put_of_ne h f v hq]

/-- A store into an uncovered member shows after an abort. -/
theorem rollback_put_uncovered (l : Log I F) (h : Heap I F) (o : I) (f : F) (v w : Layout.ty f)
    (hw : h.get o f = some w) (hc : ¬ l.Covers o f) :
    l.rollback (h.put o f v) = (l.rollback h).put o f v := by
  obtain ⟨obj, ho, -, -⟩ := Heap.get_eq_some.mp hw
  have hn : o ∉ l.fresh := fun hm => hc (Or.inl hm)
  have hs : l.saved o f = none := by
    by_contra hs
    exact hc (Or.inr (Option.isSome_iff_ne_none.mpr hs))
  funext q
  by_cases hq : q = o
  · subst hq
    have hr : l.restore q (obj.put f v) = (l.restore q obj).put f v := by
      simp only [restore, Obj.put, Obj.mk.injEq, true_and]
      funext g
      by_cases hg : g = f
      · subst hg
        simp [hs]
      · simp [Function.update_of_ne hg]
    simp [rollback, Heap.put, ho, hn, hr]
  · rw [Heap.put_of_ne _ f v hq]
    simp [rollback, Heap.put_of_ne h f v hq]

theorem rollback_overwrite (l : Log I F) (h : Heap I F) (o : I) (obj obj' : Obj F)
    (ho : h o = some obj) (hk : obj'.kind = obj.kind) (hs : obj'.size = obj.size)
    (hc : ∀ f, l.Covers o f) : l.rollback (Function.update h o (some obj')) = l.rollback h := by
  funext q
  by_cases hq : q = o
  · subst hq
    by_cases hf : q ∈ l.fresh
    · simp [rollback, hf]
    · have hr : l.restore q obj' = l.restore q obj := by
        simp only [restore, Obj.mk.injEq, hk, hs, true_and]
        funext f
        obtain ⟨w, hw⟩ := Option.isSome_iff_exists.mp ((hc f).resolve_left hf)
        simp [hw]
      simp [rollback, ho, hf, hr]
  · simp [rollback, hq]

theorem rollback_alloc (l : Log I F) (h : Heap I F) (o : I) (obj : Obj F)
    (ho : h o = none) (hf : l.freed o = none) :
    { l with fresh := o :: l.fresh }.rollback (Function.update h o (some obj)) =
      l.rollback h := by
  funext q
  by_cases hq : q = o
  · subst hq
    simp [rollback, ho, hf]
  · have hr : ({ l with fresh := o :: l.fresh } : Log I F).restore q = l.restore q := rfl
    simp [rollback, hq, hr]

theorem rollback_free (l : Log I F) (h : Heap I F) (o : I) (obj : Obj F)
    (ho : h o = some obj) :
    { l with freed := Function.update l.freed o (some obj) }.rollback
      (Function.update h o none) = l.rollback h := by
  funext q
  by_cases hq : q = o
  · subst hq
    have hr : ({ l with freed := Function.update l.freed q (some obj) } : Log I F).restore q =
        l.restore q := rfl
    simp [rollback, ho, hr]
  · have hr : ({ l with freed := Function.update l.freed o (some obj) } : Log I F).restore q =
        l.restore q := rfl
    simp [rollback, hq, hr]

end Log

end RtsCache.UndoHeap
