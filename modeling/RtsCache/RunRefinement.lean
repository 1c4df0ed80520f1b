import Mathlib.Data.List.Infix

/-!
# Runs and their specification

A run lists the operations of a machine with the results they returned. A
specification answers every operation from an abstract state. A relation that
every step keeps makes the results of a run the answers of the specification.
-/

set_option autoImplicit false

namespace RtsCache.RunRefinement

variable {S A O R : Type*}

inductive Run (step : S → O → R → S → Prop) (s₀ : S) : List (O × R) → S → Prop
  | nil : Run step s₀ [] s₀
  | snoc {xs : List (O × R)} {s s' : S} {o : O} {r : R} (run : Run step s₀ xs s)
      (last : step s o r s') : Run step s₀ (xs ++ [(o, r)]) s'

def specState (spec : A → O → R × A) (a : A) (os : List O) : A :=
  os.foldl (fun a o => (spec a o).2) a

def specResults (spec : A → O → R × A) (a : A) : List O → List R
  | [] => []
  | o::os => (spec a o).1 :: specResults spec (spec a o).2 os

variable {step : S → O → R → S → Prop} {s₀ s : S} {spec : A → O → R × A} {xs : List (O × R)}

theorem specState_snoc (a : A) (os : List O) (o : O) :
    specState spec a (os ++ [o]) = (spec (specState spec a os) o).2 := by
  simp [specState]

theorem specResults_snoc (a : A) (os : List O) (o : O) :
    specResults spec a (os ++ [o]) =
      specResults spec a os ++ [(spec (specState spec a os) o).1] := by
  induction os generalizing a with
  | nil => rfl
  | cons o' os ih => simp [specResults, specState, ih]

theorem Run.invariant {I : S → Prop} (hinit : I s₀)
    (hstep : ∀ s o r s', I s → step s o r s' → I s') (hrun : Run step s₀ xs s) : I s := by
  induction hrun with
  | nil => exact hinit
  | snoc _ hlast ih => exact hstep _ _ _ _ ih hlast

/-- `ok` restricts the abstract states the run may pass through. -/
theorem Run.refines (rel : S → A → Prop) (ok : A → Prop) {a₀ : A} (hinit : rel s₀ a₀)
    (hstep : ∀ s a o r s', rel s a → ok (spec a o).2 → step s o r s' →
      r = (spec a o).1 ∧ rel s' (spec a o).2)
    (hrun : Run step s₀ xs s)
    (hok : ∀ os, os <+: xs.map Prod.fst → ok (specState spec a₀ os)) :
    xs.map Prod.snd = specResults spec a₀ (xs.map Prod.fst) ∧
      rel s (specState spec a₀ (xs.map Prod.fst)) := by
  induction hrun with
  | nil => exact ⟨rfl, hinit⟩
  | @snoc xs s s' o r _ hlast ih =>
    have hpre : xs.map Prod.fst <+: (xs ++ [(o, r)]).map Prod.fst := by simp
    obtain ⟨hres, hrel⟩ := ih fun os hos => hok os (hos.trans hpre)
    have hlast' : ok (spec (specState spec a₀ (xs.map Prod.fst)) o).2 := by
      have := hok _ (List.prefix_refl _)
      rwa [List.map_append, List.map_cons, List.map_nil, specState_snoc] at this
    obtain ⟨hr, hs⟩ := hstep _ _ _ _ _ hrel hlast' hlast
    simp only [List.map_append, List.map_cons, List.map_nil, specState_snoc, specResults_snoc]
    exact ⟨by rw [hres, hr], hs⟩

theorem Run.last {ys : List (O × R)} {o : O} {r : R} {u : S}
    (hrun : Run step s₀ (ys ++ [(o, r)]) u) : ∃ t, Run step s₀ ys t ∧ step t o r u := by
  generalize hz : ys ++ [(o, r)] = zs at hrun
  cases hrun with
  | nil => simp at hz
  | snoc run last =>
    obtain ⟨rfl, he⟩ := List.append_inj' hz rfl
    cases List.singleton_inj.mp he
    exact ⟨_, run, last⟩

theorem Run.eq_of_nil (hrun : Run step s₀ [] s) : s = s₀ := by
  generalize hz : ([] : List (O × R)) = zs at hrun
  cases hrun with
  | nil => rfl
  | snoc run last => simp at hz

theorem Run.prefixRun {ys : List (O × R)} (hrun : Run step s₀ xs s) (hp : ys <+: xs) :
    ∃ t, Run step s₀ ys t := by
  induction hrun with
  | nil => exact ⟨s₀, List.prefix_nil.mp hp ▸ .nil⟩
  | snoc run last ih =>
    rcases List.prefix_concat_iff.mp hp with rfl | hp
    · exact ⟨_, .snoc run last⟩
    · exact ih hp

theorem Run.unique (hdet : ∀ s o r t t', step s o r t → step s o r t' → t = t') {t : S}
    (hrun : Run step s₀ xs s) (hrun' : Run step s₀ xs t) : s = t := by
  induction hrun generalizing t with
  | nil => exact hrun'.eq_of_nil.symm
  | snoc run last ih =>
    obtain ⟨u, hu, hlast⟩ := hrun'.last
    rw [← ih hu] at hlast
    exact hdet _ _ _ _ _ last hlast

/-- Where `ok` says exactly which steps keep `I` and meet `J`, it says exactly
in which runs `I` holds all along and every step meets `J`. `G` is an invariant
of the machine itself. -/
theorem Run.always_steps_iff (G : S → Prop) (J : S → O → R → S → Prop) {I : S → Prop}
    {ok : S → O → Prop} (hG : G s₀) (hGstep : ∀ s o r s', G s → step s o r s' → G s') (hinit : I s₀)
    (hstep : ∀ s o r s', G s → I s → step s o r s' → (I s' ∧ J s o r s' ↔ ok s o))
    (hdet : ∀ s o r t t', step s o r t → step s o r t' → t = t') (hrun : Run step s₀ xs s) :
    ((∀ ys t, ys <+: xs → Run step s₀ ys t → I t) ∧
      ∀ ys o r t t', ys ++ [(o, r)] <+: xs → Run step s₀ ys t → step t o r t' → J t o r t') ↔
    ∀ ys o r t, ys ++ [(o, r)] <+: xs → Run step s₀ ys t → ok t o := by
  constructor
  · rintro ⟨hI, hJ⟩ ys o r t hp hy
    obtain ⟨u, hu⟩ := hrun.prefixRun hp
    obtain ⟨t', ht, hlast⟩ := hu.last
    cases Run.unique hdet hy ht
    have hIt := hI ys t ((List.prefix_append _ _).trans hp) hy
    exact (hstep _ _ _ _ (hy.invariant hG hGstep) hIt hlast).mp
      ⟨hI _ u hp hu, hJ _ _ _ _ _ hp hy hlast⟩
  · intro h
    have hI : ∀ ys t, ys <+: xs → Run step s₀ ys t → I t := by
      intro ys t hp hy
      induction hy with
      | nil => exact hinit
      | snoc run last ih =>
        have hIt := ih ((List.prefix_append _ _).trans hp)
        exact ((hstep _ _ _ _ (run.invariant hG hGstep) hIt last).mpr (h _ _ _ _ hp run)).1
    refine ⟨hI, fun ys o r t t' hp hy hlast => ?_⟩
    have hIt := hI ys t ((List.prefix_append _ _).trans hp) hy
    exact ((hstep _ _ _ _ (hy.invariant hG hGstep) hIt hlast).mpr (h _ _ _ _ hp hy)).2

theorem Run.always_iff {I : S → Prop} {ok : S → O → Prop} (hinit : I s₀)
    (hstep : ∀ s o r s', I s → step s o r s' → (I s' ↔ ok s o))
    (hdet : ∀ s o r t t', step s o r t → step s o r t' → t = t') (hrun : Run step s₀ xs s) :
    (∀ ys t, ys <+: xs → Run step s₀ ys t → I t) ↔
      ∀ ys o r t, ys ++ [(o, r)] <+: xs → Run step s₀ ys t → ok t o := by
  have h := hrun.always_steps_iff (fun _ => True) (fun _ _ _ _ => True) trivial
    (fun _ _ _ _ _ _ => trivial) hinit (fun s o r s' _ hI hs => by
      rw [and_iff_left trivial]
      exact hstep s o r s' hI hs) hdet
  rw [← h, and_iff_left fun _ _ _ _ _ _ _ _ => trivial]

theorem Run.cons {s₁ : S} {o : O} {r : R} (h : step s₀ o r s₁) (hrun : Run step s₁ xs s) :
    Run step s₀ ((o, r)::xs) s := by
  induction hrun with
  | nil => exact .snoc .nil h
  | snoc _ last ih => exact .snoc ih last

theorem Run.uncons {o : O} {r : R} {ys : List (O × R)} (hrun : Run step s₀ ((o, r)::ys) s) :
    ∃ s₁, step s₀ o r s₁ ∧ Run step s₁ ys s := by
  generalize hz : (o, r)::ys = zs at hrun
  induction hrun generalizing ys with
  | nil => cases hz
  | snoc run last ih =>
    rcases List.cons_eq_append_iff.mp hz with ⟨rfl, h⟩ | ⟨ys', rfl, rfl⟩
    · cases h
      rw [run.eq_of_nil] at last
      exact ⟨_, last, .nil⟩
    · obtain ⟨s₁, hs, hys⟩ := ih rfl
      exact ⟨s₁, hs, .snoc hys last⟩

theorem Run.steps_nil {ok : S → O → Prop} (ys : List (O × R)) (o : O) (r : R) (t : S)
    (hp : ys ++ [(o, r)] <+: []) (_ : Run step s₀ ys t) : ok t o := by
  simp at hp

/-- All steps of a run are as they should be, if the first one and those of the
rest are. -/
theorem Run.steps_cons (hdet : ∀ s o r t t', step s o r t → step s o r t' → t = t')
    {ok : S → O → Prop} {o : O} {r : R} {s₁ : S} (hstep : step s₀ o r s₁) (hok : ok s₀ o)
    (hrest : ∀ ys o r t, ys ++ [(o, r)] <+: xs → Run step s₁ ys t → ok t o)
    (ys : List (O × R)) (o' : O) (r' : R) (t : S) (hp : ys ++ [(o', r')] <+: (o, r)::xs)
    (hrun : Run step s₀ ys t) : ok t o' := by
  cases ys with
  | nil =>
    obtain ⟨h, -⟩ := List.cons_prefix_cons.mp hp
    cases h
    rwa [hrun.eq_of_nil]
  | cons y ys =>
    obtain ⟨rfl, hrestp⟩ := List.cons_prefix_cons.mp hp
    obtain ⟨u, hu, hys⟩ := hrun.uncons
    cases hdet _ _ _ _ _ hstep hu
    exact hrest ys o' r' t hrestp hys

section Replay
variable [DecidableEq R] {exec : S → O → Option (R × S)}

def replay (exec : S → O → Option (R × S)) (s : S) : List (O × R) → Option S
  | [] => some s
  | (o, r)::xs => (exec s o).bind fun x => if x.1 = r then replay exec x.2 xs else none

theorem replay_run (hexec : ∀ s o r s', exec s o = some (r, s') → step s o r s')
    (h : replay exec s₀ xs = some s) : Run step s₀ xs s := by
  induction xs generalizing s₀ with
  | nil =>
    cases h
    exact .nil
  | cons x xs ih =>
    obtain ⟨⟨r', s₁⟩, hstep, h⟩ := Option.bind_eq_some_iff.mp h
    dsimp only at h
    split at h
    · rename_i hr
      subst hr
      exact (ih h).cons (hexec _ _ _ _ hstep)
    · cases h

end Replay

end RtsCache.RunRefinement
