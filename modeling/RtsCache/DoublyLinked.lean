import Mathlib.Data.List.Chain
import Mathlib.Data.List.Nodup

/-!
# Doubly linked sequences

Every two neighbours of a sequence point at each other. A sequence with a
given start and end is determined by its forward links, and taking one
node out of it changes one forward and one backward link.
-/

set_option autoImplicit false

namespace RtsCache.DoublyLinked

variable {α : Type*} {next prev next' prev' : α → Option α}

def Doubly (next prev : α → Option α) (xs : List α) : Prop :=
  xs.IsChain fun a b => next a = some b ∧ prev b = some a

theorem doubly_append (xs ys : List α) (a : α) :
    Doubly next prev (xs ++ a::ys) ↔ Doubly next prev (xs ++ [a]) ∧ Doubly next prev (a::ys) :=
  List.isChain_split

theorem doubly_pair (a b : α) (xs : List α) :
    Doubly next prev (a::b::xs) ↔
      (next a = some b ∧ prev b = some a) ∧ Doubly next prev (b::xs) :=
  List.isChain_cons_cons

theorem doubly_congr (xs : List α) (hn : ∀ a b, a ∈ xs → next a = some b → next' a = some b)
    (hp : ∀ a b, a ∈ xs → prev a = some b → prev' a = some b) (hd : Doubly next prev xs) :
    Doubly next' prev' xs := by
  apply List.IsChain.imp_of_mem_imp _ hd
  intro a b ha hb hab
  exact ⟨hn a b ha hab.1, hp b a hb hab.2⟩

def Chained (next : α → Option α) (xs : List α) : Prop :=
  xs.IsChain fun a b => next a = some b

theorem chained_pair (a b : α) (xs : List α) :
    Chained next (a::b::xs) ↔ next a = some b ∧ Chained next (b::xs) :=
  List.isChain_cons_cons

theorem doubly_iff_chained (xs : List α) :
    Doubly next prev xs ↔ Chained next xs ∧ Chained prev xs.reverse := by
  rw [Chained, Chained, List.isChain_reverse]
  induction xs with
  | nil => simp [Doubly]
  | cons a xs ih =>
    cases xs with
    | nil => simp [Doubly]
    | cons b xs =>
      rw [doubly_pair, ih, List.isChain_cons_cons, List.isChain_cons_cons]
      tauto

theorem chained_unique (a t : α) (xs ys : List α) (hx : t ∉ xs) (hy : t ∉ ys)
    (hc : Chained next (a :: (xs ++ [t]))) (hc' : Chained next (a :: (ys ++ [t]))) : xs = ys := by
  induction xs generalizing a ys with
  | nil =>
    cases ys with
    | nil => rfl
    | cons y ys =>
      have h := (chained_pair _ _ _).mp hc
      have h' := (chained_pair _ _ _).mp hc'
      have he : t = y := Option.some.inj (h.1.symm.trans h'.1)
      exact absurd (he ▸ List.mem_cons_self) hy
  | cons x xs ih =>
    have h := (chained_pair _ _ _).mp hc
    cases ys with
    | nil =>
      have h' := (chained_pair _ _ _).mp hc'
      have he : x = t := Option.some.inj (h.1.symm.trans h'.1)
      exact absurd (he ▸ List.mem_cons_self) hx
    | cons y ys =>
      have h' := (chained_pair _ _ _).mp hc'
      have he : x = y := Option.some.inj (h.1.symm.trans h'.1)
      subst he
      have hx' : t ∉ xs := fun ht => hx (List.mem_cons_of_mem _ ht)
      have hy' : t ∉ ys := fun ht => hy (List.mem_cons_of_mem _ ht)
      rw [ih x ys hx' hy' h.2 h'.2]

theorem doubly_unique (a t : α) (xs ys : List α) (hx : t ∉ xs) (hy : t ∉ ys)
    (hd : Doubly next prev (a :: (xs ++ [t]))) (hd' : Doubly next prev (a :: (ys ++ [t]))) :
    xs = ys :=
  chained_unique a t xs ys hx hy ((doubly_iff_chained _).mp hd).1 ((doubly_iff_chained _).mp hd').1

theorem chained_agree (xs : List α) (hc : Chained next xs) (hc' : Chained next' xs) (a : α)
    (ha : a ∈ xs.dropLast) : next a = next' a := by
  induction xs with
  | nil => cases ha
  | cons x xs ih =>
    cases xs with
    | nil => cases ha
    | cons y xs =>
      have h := (chained_pair _ _ _).mp hc
      have h' := (chained_pair _ _ _).mp hc'
      rw [List.dropLast_cons_cons, List.mem_cons] at ha
      rcases ha with rfl | ha
      · exact h.1.trans h'.1.symm
      · exact ih h.2 h'.2 ha

theorem doubly_unlink (xs ys : List α) (p x q : α) (hnodup : (xs ++ p::x::q::ys).Nodup)
    (hd : Doubly next prev (xs ++ p::x::q::ys))
    (hn : ∀ a b, a ≠ p → a ≠ x → next a = some b → next' a = some b)
    (hp : ∀ a b, a ≠ q → a ≠ x → prev a = some b → prev' a = some b)
    (hnp : next' p = some q) (hpq : prev' q = some p) :
    Doubly next' prev' (xs ++ p::q::ys) := by
  have hperm : (xs ++ p::x::q::ys).Perm (p::x::q::(xs ++ ys)) :=
    List.perm_middle.trans (List.Perm.cons p
      (List.perm_middle.trans (List.Perm.cons x List.perm_middle)))
  have hall := hperm.nodup_iff.mp hnodup
  simp only [List.nodup_cons, List.mem_cons, List.mem_append, not_or] at hall
  obtain ⟨⟨hpx, hpq', hpxs, hpys⟩, ⟨hxq, hxxs, hxys⟩, ⟨hqxs, hqys⟩, -⟩ := hall
  obtain ⟨hleft, hrest⟩ := (doubly_append _ _ _).mp hd
  obtain ⟨-, hrest⟩ := (doubly_pair _ _ _).mp hrest
  obtain ⟨-, hright⟩ := (doubly_pair _ _ _).mp hrest
  apply (doubly_append _ _ _).mpr
  constructor
  · rw [Doubly, List.isChain_append] at hleft ⊢
    obtain ⟨hxs, -, hlast⟩ := hleft
    refine ⟨doubly_congr xs ?_ ?_ hxs, List.isChain_singleton p, ?_⟩
    · intro a b ha hab
      exact hn a b (fun h => hpxs (h ▸ ha)) (fun h => hxxs (h ▸ ha)) hab
    · intro a b ha hab
      exact hp a b (fun h => hqxs (h ▸ ha)) (fun h => hxxs (h ▸ ha)) hab
    · intro a ha b hb
      have ha' : a ∈ xs := List.mem_of_getLast? ha
      have hb' : b = p := by simpa using hb.symm
      obtain ⟨h₁, h₂⟩ := hlast a ha b hb
      subst hb'
      exact ⟨hn a b (fun h => hpxs (h ▸ ha')) (fun h => hxxs (h ▸ ha')) h₁,
        hp b a hpq' hpx h₂⟩
  · refine (doubly_pair _ _ _).mpr ⟨⟨hnp, hpq⟩, ?_⟩
    cases ys with
    | nil => exact List.isChain_singleton q
    | cons y ys =>
      obtain ⟨⟨h₁, h₂⟩, hys⟩ := (doubly_pair _ _ _).mp hright
      simp only [List.mem_cons, not_or] at hpys hxys hqys
      refine (doubly_pair _ _ _).mpr ⟨⟨?_, ?_⟩, doubly_congr _ ?_ ?_ hys⟩
      · exact hn q y (Ne.symm hpq') (Ne.symm hxq) h₁
      · exact hp y q (Ne.symm hqys.1) (Ne.symm hxys.1) h₂
      · intro a b ha hab
        have hap : a ≠ p := by
          rintro rfl
          rcases List.mem_cons.mp ha with rfl | ha
          · exact hpys.1 rfl
          · exact hpys.2 ha
        have hax : a ≠ x := by
          rintro rfl
          rcases List.mem_cons.mp ha with rfl | ha
          · exact hxys.1 rfl
          · exact hxys.2 ha
        exact hn a b hap hax hab
      · intro a b ha hab
        have haq : a ≠ q := by
          rintro rfl
          rcases List.mem_cons.mp ha with rfl | ha
          · exact hqys.1 rfl
          · exact hqys.2 ha
        have hax : a ≠ x := by
          rintro rfl
          rcases List.mem_cons.mp ha with rfl | ha
          · exact hxys.1 rfl
          · exact hxys.2 ha
        exact hp a b haq hax hab

end RtsCache.DoublyLinked
