import RtsCache.UndoFrame

/-!
# A heap shared by several structures

`Parts` divides some of a heap's objects among structures, each with a part of
its own. A call that runs on one part changes that part only; the other parts
and the objects of no part stay as they are.
-/

set_option autoImplicit false

namespace RtsCache.HeapParts
open RtsCache.UndoHeap RtsCache.UndoMachine RtsCache.UndoFrame

variable {I F ι α : Type} [Layout F]

structure Parts (h : Heap I F) (P : ι → Heap I F) : Prop where
  within : ∀ i o obj, P i o = some obj → h o = some obj
  apart : ∀ i j, i ≠ j → ∀ o, P i o ≠ none → P j o = none

def rest (h p : Heap I F) : Heap I F := fun o => if (p o).isSome then none else h o

theorem rest_of_some {h p : Heap I F} {o : I} (hp : p o ≠ none) : rest h p o = none := by
  simp [rest, Option.isSome_iff_ne_none, hp]

theorem rest_of_none {h p : Heap I F} {o : I} (hp : p o = none) : rest h p o = h o := by
  simp [rest, hp]

theorem join_rest {h p : Heap I F} (hp : ∀ o obj, p o = some obj → h o = some obj) :
    join p (rest h p) = h := by
  funext o
  by_cases ho : p o = none
  · rw [join_right ho, rest_of_none ho]
  · obtain ⟨obj, hobj⟩ := Option.ne_none_iff_exists'.mp ho
    rw [join_some hobj, hp o obj hobj]

/-- A new structure joins those of the heap with objects that were not there. -/
theorem Parts.add {h h' p : Heap I F} {P : ι → Heap I F} (hp : Parts h P)
    (hold : ∀ i o obj, P i o = some obj → h' o = some obj)
    (hnew : ∀ o obj, p o = some obj → h' o = some obj) (hfresh : ∀ o, p o ≠ none → h o = none) :
    Parts h' fun i : Option ι => i.elim p P := by
  have hdead : ∀ i o, P i o ≠ none → p o = none := by
    intro i o ho
    obtain ⟨obj, hobj⟩ := Option.ne_none_iff_exists'.mp ho
    by_contra hpo
    have hs := hp.within i o obj hobj
    rw [hfresh o hpo] at hs
    cases hs
  constructor
  · intro i
    cases i with
    | none => exact hnew
    | some i => exact hold i
  · intro i j hij o ho
    cases i with
    | none =>
      cases j with
      | none => exact absurd rfl hij
      | some j =>
        by_contra hj
        exact ho (hdead j o hj)
    | some i =>
      cases j with
      | none => exact hdead i o ho
      | some j => exact hp.apart i j (fun h => hij (congrArg some h)) o ho

open Classical in
/-- The objects of `h` that are in no part. -/
noncomputable def outside (h : Heap I F) (P : ι → Heap I F) : Heap I F := fun o =>
  if ∃ i, P i o ≠ none then none else h o

theorem outside_of_part {h : Heap I F} {P : ι → Heap I F} {i : ι} {o : I} (ho : P i o ≠ none) :
    outside h P o = none :=
  if_pos ⟨i, ho⟩

theorem outside_of_none {h : Heap I F} {P : ι → Heap I F} {o : I} (ho : ∀ i, P i o = none) :
    outside h P o = h o := by
  apply if_neg
  rintro ⟨i, hi⟩
  exact hi (ho i)

theorem outside_of_dead {h : Heap I F} {P : ι → Heap I F} {o : I} (ho : h o = none) :
    outside h P o = none := by
  simp [outside, ho]

/-- The state of a structure that sees its own part only. -/
def own (s : State I F) (p : Heap I F) : State I F := { s with heap := p }

theorem own_apart {s : State I F} (hl : s.log = none) (p : Heap I F) :
    Apart (own s p) (rest s.heap p) where
  live o hr := by
    by_contra hp
    exact hr (rest_of_some hp)
  log l h := by
    rw [show (own s p).log = s.log from rfl, hl] at h
    cases h

variable {s s' : State I F} {P : ι → Heap I F} {env : Env I F} {nil : I} {i : ι}

/-- What the owner of a part can do alone it does in the whole heap. -/
theorem Parts.run {m : Prog I F α} {a : α} (hp : Parts s.heap P)
    (hm : Framed nil m) (hl : s.log = none)
    (hrun : m (alone nil (rest s.heap (P i)) env) (own s (P i)) = .ok a s') :
    m env s = .ok a (beside s' (rest s.heap (P i))) ∧ Apart s' (rest s.heap (P i)) := by
  have h := hm env (own s (P i)) (rest s.heap (P i)) (own_apart hl _)
  have hwhole : beside (own s (P i)) (rest s.heap (P i)) = s := by
    have hj := join_rest (hp.within i)
    simp only [beside, own, hj]
  rw [hrun, hwhole] at h
  exact h

variable [DecidableEq ι]

theorem Parts.update (hp : Parts s.heap P) (ha : Apart s' (rest s.heap (P i))) :
    Parts (join s'.heap (rest s.heap (P i))) (Function.update P i s'.heap) := by
  have hother : ∀ j, j ≠ i → ∀ o, P j o ≠ none → rest s.heap (P i) o = P j o ∧ P j o ≠ none := by
    intro j hj o ho
    obtain ⟨obj, hobj⟩ := Option.ne_none_iff_exists'.mp ho
    rw [rest_of_none (hp.apart j i hj o ho), hp.within j o obj hobj, hobj]
    simp
  constructor
  · intro j o obj ho
    by_cases hj : j = i
    · subst hj
      rw [Function.update_self] at ho
      exact join_some ho
    · rw [Function.update_of_ne hj] at ho
      have hne : P j o ≠ none := by simp [ho]
      have hr := (hother j hj o hne).1
      rw [join_right (ha.live o (hr ▸ hne)), hr, ho]
  · intro j k hjk o ho
    by_cases hj : j = i
    · subst hj
      rw [Function.update_self] at ho
      rw [Function.update_of_ne (Ne.symm hjk)]
      by_contra hk
      have hr := (hother k (Ne.symm hjk) o hk).1
      exact ho (ha.live o (hr ▸ hk))
    · rw [Function.update_of_ne hj] at ho
      by_cases hk : k = i
      · subst hk
        rw [Function.update_self]
        have hr := (hother j hj o ho).1
        exact ha.live o (hr ▸ ho)
      · rw [Function.update_of_ne hk]
        exact hp.apart j k hjk o ho

theorem outside_update (ha : Apart s' (rest s.heap (P i))) :
    outside (join s'.heap (rest s.heap (P i))) (Function.update P i s'.heap) =
      outside s.heap P := by
  funext o
  by_cases hj : ∃ j, j ≠ i ∧ P j o ≠ none
  · obtain ⟨j, hj, ho⟩ := hj
    have hnew : Function.update P i s'.heap j o ≠ none := by rwa [Function.update_of_ne hj]
    rw [outside_of_part hnew, outside_of_part ho]
  · simp only [not_exists, not_and, not_not] at hj
    have hnew : ∀ j, j ≠ i → Function.update P i s'.heap j o = none := by
      intro j hji
      rw [Function.update_of_ne hji]
      exact hj j hji
    by_cases hi : P i o = none
    · have hrest := rest_of_none (h := s.heap) hi
      by_cases ho : s'.heap o = none
      · rw [outside_of_none, outside_of_none, join_right ho, hrest]
        · intro j
          by_cases hji : j = i
          · subst hji
            exact hi
          · exact hj j hji
        · intro j
          by_cases hji : j = i
          · subst hji
            rwa [Function.update_self]
          · exact hnew j hji
      · have hpart : Function.update P i s'.heap i o ≠ none := by rwa [Function.update_self]
        have hold : s.heap o = none := by
          by_contra hs
          exact ho (ha.live o (hrest ▸ hs))
        rw [outside_of_part hpart, outside_of_dead hold]
    · rw [outside_of_part hi]
      by_cases ho : s'.heap o = none
      · apply outside_of_dead
        rw [join_right ho, rest_of_some hi]
      · have hpart : Function.update P i s'.heap i o ≠ none := by rwa [Function.update_self]
        exact outside_of_part hpart

end RtsCache.HeapParts
