import Mathlib.Data.Int.Notation
import Mathlib.Data.List.Basic
import Mathlib.Data.List.Infix
import Mathlib.Data.List.Nodup
import Mathlib.Data.Nat.Notation

/-!
# Visits that may stop

A callback is called on the elements of a list, with a state it changes, until
a reply is not 0. `walk` goes through several lists in turn, stops within a
list only and keeps the reply of the last list that is not empty. It is the
visit of all lists exactly where nothing follows the list that stops it.
-/

set_option autoImplicit false

namespace RtsCache.StoppingVisits

variable {α σ : Type*}

abbrev Callback (α σ : Type*) := α → σ → ℤ × σ

structure Outcome (α σ : Type*) where
  ret : ℤ
  arg : σ
  calls : List α

def visit (f : Callback α σ) : List α → σ → Outcome α σ
  | [], arg => ⟨0, arg, []⟩
  | x::xs, arg =>
    let (ret, arg') := f x arg
    if ret ≠ 0 then ⟨ret, arg', [x]⟩
    else
      let rest := visit f xs arg'
      ⟨rest.ret, rest.arg, x :: rest.calls⟩

def walk (f : Callback α σ) (B : ℕ → List α) (arg : σ) : ℕ → Outcome α σ
  | 0 => ⟨0, arg, []⟩
  | n+1 =>
    let done := walk f B arg n
    if B n = [] then done
    else
      let list := visit f (B n) done.arg
      ⟨list.ret, list.arg, done.calls ++ list.calls⟩

def replies (f : Callback α σ) : List α → σ → List ℤ
  | [], _ => []
  | x::xs, arg => (f x arg).1 :: replies f xs (f x arg).2

/-- The calls go through `xs` in order up to the first reply other than 0,
which is returned. -/
structure Stops (f : Callback α σ) (arg : σ) (xs : List α) (ret : ℤ) (calls : List α) : Prop where
  order : calls <+: xs
  passes : ∀ r ∈ (replies f calls arg).dropLast, r = 0
  returns : ret = (replies f calls arg).getLastD 0
  all : ret = 0 → calls = xs

def lists (B : ℕ → List α) (n : ℕ) : List α := (List.range n).flatMap B

def StopsLast (f : Callback α σ) (B : ℕ → List α) (arg : σ) (n : ℕ) : Prop :=
  ∀ i < n, (visit f (lists B (i+1)) arg).ret ≠ 0 → ∀ j < n, i < j → B j = []

variable {f : Callback α σ} {B : ℕ → List α} {arg : σ} {n : ℕ} {xs ys : List α}

theorem lists_succ (B : ℕ → List α) (n : ℕ) : lists B (n+1) = lists B n ++ B n := by
  simp [lists, List.range_succ]

theorem replies_append (f : Callback α σ) (xs ys : List α) (arg : σ) :
    ∃ arg', replies f (xs ++ ys) arg = replies f xs arg ++ replies f ys arg' := by
  induction xs generalizing arg with
  | nil => exact ⟨arg, rfl⟩
  | cons x xs ih =>
    obtain ⟨arg', h⟩ := ih (f x arg).2
    exact ⟨arg', congrArg ((f x arg).1 :: ·) h⟩

theorem replies_eq_nil : replies f xs arg = [] ↔ xs = [] := by
  cases xs <;> simp [replies]

theorem visit_cons_stop {x : α} (h : (f x arg).1 ≠ 0) :
    visit f (x::xs) arg = ⟨(f x arg).1, (f x arg).2, [x]⟩ := by
  rw [visit]
  exact if_pos h

theorem visit_cons_pass {x : α} (h : (f x arg).1 = 0) :
    visit f (x::xs) arg = ⟨(visit f xs (f x arg).2).ret, (visit f xs (f x arg).2).arg,
      x :: (visit f xs (f x arg).2).calls⟩ := by
  rw [visit]
  exact if_neg (not_not.mpr h)

theorem visit_stops (f : Callback α σ) (xs : List α) (arg : σ) :
    Stops f arg xs (visit f xs arg).ret (visit f xs arg).calls := by
  induction xs generalizing arg with
  | nil => exact ⟨List.prefix_rfl, fun r hr => absurd hr List.not_mem_nil, rfl, fun _ => rfl⟩
  | cons x xs ih =>
    by_cases h : (f x arg).1 = 0
    · rw [visit_cons_pass h]
      obtain ⟨order, passes, returns, all⟩ := ih (f x arg).2
      constructor
      · exact List.cons_prefix_cons.mpr ⟨rfl, order⟩
      · intro r hr
        rw [replies] at hr
        cases hcalls : replies f (visit f xs (f x arg).2).calls (f x arg).2 with
        | nil =>
          rw [hcalls] at hr
          exact absurd hr List.not_mem_nil
        | cons s ss =>
          rw [hcalls, List.dropLast_cons_cons] at hr
          rcases List.mem_cons.mp hr with rfl | hr
          · exact h
          · rw [hcalls] at passes
            exact passes r hr
      · rw [replies, List.getLastD_cons, h]
        exact returns
      · intro hret
        rw [all hret]
    · rw [visit_cons_stop h]
      constructor
      · exact ⟨xs, rfl⟩
      · exact fun r hr => absurd hr List.not_mem_nil
      · rfl
      · exact fun hret => absurd hret h

theorem visit_append_pass (h : (visit f xs arg).ret = 0) :
    visit f (xs ++ ys) arg = ⟨(visit f ys (visit f xs arg).arg).ret,
      (visit f ys (visit f xs arg).arg).arg,
      (visit f xs arg).calls ++ (visit f ys (visit f xs arg).arg).calls⟩ := by
  induction xs generalizing arg with
  | nil => rfl
  | cons x xs ih =>
    by_cases hx : (f x arg).1 = 0
    · rw [visit_cons_pass hx] at h ⊢
      rw [List.cons_append, visit_cons_pass hx, ih h]
      rfl
    · rw [visit_cons_stop hx] at h
      exact absurd h hx

theorem visit_append_stop (h : (visit f xs arg).ret ≠ 0) :
    visit f (xs ++ ys) arg = visit f xs arg := by
  induction xs generalizing arg with
  | nil => exact absurd rfl h
  | cons x xs ih =>
    by_cases hx : (f x arg).1 = 0
    · rw [visit_cons_pass hx] at h ⊢
      rw [List.cons_append, visit_cons_pass hx, ih h]
    · rw [List.cons_append, visit_cons_stop hx, visit_cons_stop hx]

theorem visit_lists_succ (h : (visit f (lists B n) arg).ret = 0)
    (hwalk : walk f B arg n = visit f (lists B n) arg) :
    walk f B arg (n+1) = visit f (lists B (n+1)) arg := by
  rw [lists_succ, visit_append_pass h, walk, hwalk]
  dsimp only
  by_cases hB : B n = []
  · rw [if_pos hB, hB]
    simp only [visit, List.append_nil]
    rw [← h]
  · rw [if_neg hB]

theorem visit_pass_of_succ (h : (visit f (lists B (n+1)) arg).ret = 0) :
    (visit f (lists B n) arg).ret = 0 := by
  by_contra hne
  rw [lists_succ, visit_append_stop hne] at h
  exact hne h

/-- Where nothing stops the visit, the walk is the visit. -/
theorem walk_pass (h : (visit f (lists B n) arg).ret = 0) :
    walk f B arg n = visit f (lists B n) arg := by
  induction n with
  | zero => rfl
  | succ n ih =>
    have hn := visit_pass_of_succ h
    exact visit_lists_succ hn (ih hn)

theorem walk_stopsLast (h : StopsLast f B arg n) : walk f B arg n = visit f (lists B n) arg := by
  induction n with
  | zero => rfl
  | succ n ih =>
    have hn : StopsLast f B arg n := fun i hi hr j hj hij =>
      h i (Nat.lt_succ_of_lt hi) hr j (Nat.lt_succ_of_lt hj) hij
    by_cases hret : (visit f (lists B n) arg).ret = 0
    · exact visit_lists_succ hret (ih hn)
    · cases n with
      | zero => exact absurd rfl hret
      | succ k =>
        have hB : B (k+1) = [] := h k (by omega) hret (k+1) (by omega) (by omega)
        rw [lists_succ, hB, List.append_nil, walk, ← ih hn]
        exact if_pos hB

theorem walk_calls_succ (f : Callback α σ) (B : ℕ → List α) (arg : σ) (n : ℕ) :
    (walk f B arg n).calls <+: (walk f B arg (n+1)).calls := by
  rw [walk]
  dsimp only
  split
  · exact List.prefix_rfl
  · exact List.prefix_append _ _

theorem walk_calls_mono (f : Callback α σ) (B : ℕ → List α) (arg : σ) {m : ℕ} (h : m ≤ n) :
    (walk f B arg m).calls <+: (walk f B arg n).calls := by
  induction h with
  | refl => exact List.prefix_rfl
  | step _ ih => exact ih.trans (walk_calls_succ f B arg _)

theorem visit_calls_walk (f : Callback α σ) (B : ℕ → List α) (arg : σ) (n : ℕ) :
    (visit f (lists B n) arg).calls <+: (walk f B arg n).calls := by
  induction n with
  | zero => exact List.prefix_rfl
  | succ n ih =>
    by_cases hret : (visit f (lists B n) arg).ret = 0
    · rw [visit_lists_succ hret (walk_pass hret)]
    · rw [lists_succ, visit_append_stop hret]
      exact ih.trans (walk_calls_succ f B arg n)

theorem visit_calls_ne (h : xs ≠ []) : (visit f xs arg).calls ≠ [] := by
  cases xs with
  | nil => exact absurd rfl h
  | cons x xs =>
    by_cases hx : (f x arg).1 = 0
    · rw [visit_cons_pass hx]
      exact List.cons_ne_nil _ _
    · rw [visit_cons_stop hx]
      exact List.cons_ne_nil _ _

theorem walk_calls_more (f : Callback α σ) (arg : σ) (hB : B n ≠ []) : ∃ ys, ys ≠ [] ∧
    (walk f B arg (n+1)).calls = (walk f B arg n).calls ++ ys := by
  refine ⟨(visit f (B n) (walk f B arg n).arg).calls, visit_calls_ne hB, ?_⟩
  rw [walk]
  dsimp only
  rw [if_neg hB]

theorem not_passes (hret : (visit f xs arg).ret ≠ 0) (hys : ys ≠ []) :
    ¬ ∀ r ∈ (replies f ((visit f xs arg).calls ++ ys) arg).dropLast, r = 0 := by
  intro h
  have hvisit := visit_stops f xs arg
  obtain ⟨arg', happ⟩ := replies_append f (visit f xs arg).calls ys arg
  have hne : replies f ys arg' ≠ [] := fun he => hys (replies_eq_nil.mp he)
  have hcalls : replies f (visit f xs arg).calls arg ≠ [] := by
    intro he
    apply hret
    rw [hvisit.returns, he]
    rfl
  rw [happ, List.dropLast_append_of_ne_nil hne] at h
  apply hret
  rw [hvisit.returns, List.getLastD_eq_getLast?, List.getLast?_eq_getLast_of_ne_nil hcalls]
  exact h _ (List.mem_append_left _ (List.getLast_mem hcalls))

theorem walk_stops_iff (f : Callback α σ) (B : ℕ → List α) (arg : σ) (n : ℕ) :
    Stops f arg (lists B n) (walk f B arg n).ret (walk f B arg n).calls ↔
      StopsLast f B arg n := by
  constructor
  · intro h i _ hret j hj hij
    by_contra hB
    obtain ⟨ys, hys, hmore⟩ := walk_calls_more f arg hB
    obtain ⟨zs, hzs⟩ := (visit_calls_walk f B arg (i+1)).trans
      (walk_calls_mono f B arg (Nat.succ_le_of_lt hij))
    obtain ⟨ws, hws⟩ := walk_calls_mono f B arg (Nat.succ_le_of_lt hj)
    have hall : (walk f B arg n).calls =
        (visit f (lists B (i+1)) arg).calls ++ (zs ++ (ys ++ ws)) := by
      rw [← hws, hmore, ← hzs, List.append_assoc, List.append_assoc]
    have hpasses := h.passes
    rw [hall] at hpasses
    refine not_passes hret ?_ hpasses
    simp [hys]
  · intro h
    rw [walk_stopsLast h]
    exact visit_stops f (lists B n) arg

end RtsCache.StoppingVisits
