import Mathlib.Data.List.Basic
import Mathlib.Logic.Function.Basic

/-!
# Texts that delimit themselves

A way of writing values down delimits itself if no text is the start of another
one's, so a sequence of fields can be read back in one way only. Words over
some letters become such a text by a closing letter that is none of them.
-/

set_option autoImplicit false

namespace RtsCache.DelimitedText

variable {α β γ : Type} {f : α → List γ} {g : β → List γ}

/-- Whatever follows, the text tells the value and where it ends. -/
def Delimited (f : α → List γ) : Prop := ∀ x y r s, f x ++ r = f y ++ s → x = y ∧ r = s

theorem Delimited.comp (hf : Delimited f) {h : β → α} (hh : Function.Injective h) :
    Delimited fun x => f (h x) := by
  intro x y r s heq
  obtain ⟨hxy, hrs⟩ := hf _ _ _ _ heq
  exact ⟨hh hxy, hrs⟩

theorem Delimited.append (hf : Delimited f) (hg : Delimited g) :
    Delimited fun x : α × β => f x.1 ++ g x.2 := by
  intro x y r s heq
  rw [List.append_assoc, List.append_assoc] at heq
  obtain ⟨hfst, hrest⟩ := hf _ _ _ _ heq
  obtain ⟨hsnd, hrs⟩ := hg _ _ _ _ hrest
  exact ⟨Prod.ext hfst hsnd, hrs⟩

theorem Delimited.after (hf : Delimited f) (t : List γ) : Delimited fun x => t ++ f x := by
  intro x y r s heq
  rw [List.append_assoc, List.append_assoc] at heq
  exact hf x y r s (List.append_cancel_left heq)

theorem Delimited.followed (hf : Delimited f) (t : α → List γ) :
    Delimited fun x => f x ++ t x := by
  intro x y r s heq
  rw [List.append_assoc, List.append_assoc] at heq
  obtain ⟨rfl, hrest⟩ := hf _ _ _ _ heq
  exact ⟨rfl, List.append_cancel_left hrest⟩

theorem word_split {P : γ → Prop} {v w r s : List γ} {c : γ} (hv : ∀ x ∈ v, P x)
    (hw : ∀ x ∈ w, P x) (hc : ¬ P c) (heq : v ++ c :: r = w ++ c :: s) : v = w ∧ r = s := by
  induction v generalizing w with
  | nil =>
    cases w with
    | nil => simpa using heq
    | cons y w =>
      obtain ⟨rfl, -⟩ : c = y ∧ r = w ++ c :: s := by simpa using heq
      exact absurd (hw c (by simp)) hc
  | cons x v ih =>
    cases w with
    | nil =>
      obtain ⟨rfl, -⟩ : x = c ∧ v ++ c :: r = s := by simpa using heq
      exact absurd (hv x (by simp)) hc
    | cons y w =>
      obtain ⟨rfl, hrest⟩ : x = y ∧ v ++ c :: r = w ++ c :: s := by simpa using heq
      have hv' : ∀ z ∈ v, P z := fun z hz => hv z (List.mem_cons_of_mem x hz)
      have hw' : ∀ z ∈ w, P z := fun z hz => hw z (List.mem_cons_of_mem x hz)
      obtain ⟨rfl, hrs⟩ := ih hv' hw' hrest
      exact ⟨rfl, hrs⟩

theorem delimited_word {P : γ → Prop} (hf : Function.Injective f) (hP : ∀ x, ∀ c ∈ f x, P c)
    {c : γ} (hc : ¬ P c) : Delimited fun x => f x ++ [c] := by
  intro x y r s heq
  rw [List.append_assoc, List.append_assoc] at heq
  obtain ⟨hxy, hrs⟩ := word_split (hP x) (hP y) hc heq
  exact ⟨hf hxy, hrs⟩

theorem Delimited.list (hf : Delimited f) {t : List γ} (ht : ∀ x r s, f x ++ r ≠ t ++ s) :
    Delimited fun xs : List α => xs.flatMap f ++ t := by
  intro xs ys r s heq
  induction xs generalizing ys with
  | nil =>
    cases ys with
    | nil => exact ⟨rfl, List.append_cancel_left heq⟩
    | cons y ys =>
      have h : f y ++ (ys.flatMap f ++ t ++ s) = t ++ r := by simpa using heq.symm
      exact absurd h (ht y _ r)
  | cons x xs ih =>
    cases ys with
    | nil =>
      have h : f x ++ (xs.flatMap f ++ t ++ r) = t ++ s := by simpa using heq
      exact absurd h (ht x _ s)
    | cons y ys =>
      have h : f x ++ (xs.flatMap f ++ t ++ r) = f y ++ (ys.flatMap f ++ t ++ s) := by
        simpa using heq
      obtain ⟨rfl, hrest⟩ := hf _ _ _ _ h
      obtain ⟨rfl, hrs⟩ := ih ys hrest
      exact ⟨rfl, hrs⟩

theorem Delimited.flatMap_inj (hf : Delimited f) (hne : ∀ x, f x ≠ []) {xs ys : List α}
    (heq : xs.flatMap f = ys.flatMap f) : xs = ys := by
  induction xs generalizing ys with
  | nil =>
    cases ys with
    | nil => rfl
    | cons y ys =>
      have h : f y = [] := (List.append_eq_nil_iff.mp heq.symm).1
      exact absurd h (hne y)
  | cons x xs ih =>
    cases ys with
    | nil =>
      have h : f x = [] := (List.append_eq_nil_iff.mp heq).1
      exact absurd h (hne x)
    | cons y ys =>
      obtain ⟨rfl, hrest⟩ := hf x y _ _ heq
      rw [ih hrest]

end RtsCache.DelimitedText
