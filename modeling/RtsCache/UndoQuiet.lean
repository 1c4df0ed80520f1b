import RtsCache.UndoRules

/-!
# Runs in which nothing fails

A program aborts only where a library call fails, the machine crashes at a
store or an allocation finds its place taken. `calm` says of a program that it
does not abort; a stuck run is left to `wp`, so that nothing `wp` knows of the
heap is proved again.
-/

set_option autoImplicit false

namespace RtsCache.UndoQuiet
open RtsCache.UndoHeap RtsCache.UndoMachine RtsCache.UndoRules

variable {I F : Type} [Layout F] {α β : Type}

/-- The next library calls and the next stores go through. -/
structure Serves (env : Env I F) (s : State I F) (calls stores : ℕ) : Prop where
  calls : ∀ n < calls, env.fails (s.calls + n) = false
  stores : ∀ n < stores, env.crashes (s.stores + n) = false

/-- The allocator finds a free place, should call `n` from here on ask for one. -/
structure Offers [Handle I] (env : Env I F) (s : State I F) (n : ℕ) : Prop where
  notNull : Handle.isNull (env.place (s.calls + n)) = false
  free : s.heap (env.place (s.calls + n)) = none

def calm (env : Env I F) (m : Prog I F α) (Q : α → State I F → Prop) (s : State I F) : Prop :=
  match m env s with
  | .ok a s' => Q a s'
  | .abort _ _ => False
  | .stuck => True

variable {env : Env I F} {Q : α → State I F → Prop} {s : State I F}

theorem calm_bind (m : Prog I F β) (k : β → Prog I F α) :
    calm env (m >>= k) Q s ↔ calm env m (fun b s' => calm env (k b) Q s') s := by
  simp only [calm, bind]
  cases m env s <;> rfl

theorem calm_mono {m : Prog I F α} {Q' : α → State I F → Prop} (h : calm env m Q s)
    (hQ : ∀ a s', Q a s' → Q' a s') : calm env m Q' s := by
  unfold calm at *
  cases hm : m env s with
  | ok a s' =>
    rw [hm] at h
    exact hQ a s' h
  | abort c s' =>
    rw [hm] at h
    exact h
  | stuck => trivial

theorem calm_load {o : I} {f : F} {Q : Layout.ty f → State I F → Prop} (h : ∀ v, Q v s) :
    calm env (load o f) Q s := by
  unfold calm load
  cases s.heap.get o f with
  | none => trivial
  | some v => exact h v

/-- What `calm` excludes no longer has to be asked of the abort postcondition. -/
theorem wp_calm {m : Prog I F α} {P : α → State I F → Prop} {E : Cause → State I F → Prop}
    (h : wp env m P E s) (hc : calm env m Q s) :
    wp env m (fun a s' => P a s' ∧ Q a s') (fun _ _ => False) s := by
  unfold wp calm at *
  cases hm : m env s with
  | ok a s' =>
    rw [hm] at h hc
    exact ⟨h, hc⟩
  | abort c s' =>
    rw [hm] at hc
    exact hc
  | stuck =>
    rw [hm] at h
    exact h

theorem Serves.enter {n m : ℕ} (hs : Serves env s (n + 1) m) : Serves env s.tick.opened n m where
  calls k hk := by
    have h := hs.calls (k + 1) (Nat.succ_lt_succ hk)
    rwa [Nat.add_comm k, ← Nat.add_assoc] at h
  stores := hs.stores

theorem Serves.first {n m : ℕ} (hs : Serves env s (n + 1) m) : env.fails s.calls = false :=
  hs.calls 0 (Nat.succ_pos n)

variable [Handle I]

theorem Offers.enter {n : ℕ} (ho : Offers env s (n + 1)) : Offers env s.tick.opened n := by
  have hplace : s.tick.opened.calls + n = s.calls + (n + 1) := by
    rw [Nat.add_comm n, ← Nat.add_assoc]
    rfl
  constructor
  · rw [hplace]
    exact ho.notNull
  · rw [hplace]
    exact ho.free

section Steps

theorem calm_store {o : I} {f : F} {v : Layout.ty f} {Q : Unit → State I F → Prop}
    (hs : env.crashes s.stores = false) (h : Q () (s.tock.store o f v)) :
    calm env (store o f v) Q s := by
  unfold calm UndoMachine.store
  cases s.heap.get o f with
  | none => trivial
  | some w => simpa [hs] using h

omit [Handle I] in
theorem calm_call {k : Log I F → Prog I F α} (hc : env.fails s.calls = false)
    (h : ∀ l, s.log = some l → calm env (k l) Q s.tick) : calm env (call k) Q s := by
  unfold calm call at *
  cases hl : s.log with
  | none => trivial
  | some l => simpa [hc] using h l hl

theorem calm_txAdd {o : I} {p : F → Bool} {Q : Unit → State I F → Prop}
    (hc : env.fails s.calls = false)
    (h : ∀ l obj, s.log = some l → Q () (s.tick.snapshot l o p obj)) :
    calm env (txAdd o p) Q s := by
  apply calm_call hc
  intro l hl
  cases ho : s.tick.heap o with
  | none => simp [calm, ho]
  | some obj => simpa only [calm, ho] using h l obj hl

theorem calm_txFree {o : I} {Q : Unit → State I F → Prop} (hc : env.fails s.calls = false)
    (hnull : Q () s.tick) (h : ∀ l obj, s.log = some l → Q () (s.tick.free l o obj)) :
    calm env (txFree o) Q s := by
  apply calm_call hc
  intro l hl
  by_cases hn : Handle.isNull o = true
  · simpa only [calm, hn, if_true] using hnull
  · cases ho : s.tick.heap o with
    | none => simp [calm, hn, ho]
    | some obj => simpa only [calm, hn, Bool.false_eq_true, if_false, ho] using h l obj hl

theorem calm_txAllocWith {kind : Layout.Kind F} {size : ℕ}
    {cells : Env I F → ℕ → (f : F) → Layout.ty f} {Q : I → State I F → Prop}
    (hc : env.fails s.calls = false)
    (hnull : Handle.isNull (env.place s.calls) = false) (hfree : s.heap (env.place s.calls) = none)
    (hfreed : ∀ l, s.log = some l → l.freed (env.place s.calls) = none)
    (hsize : size ≤ Layout.maxAlloc F)
    (h : ∀ l, s.log = some l →
      Q (env.place s.calls) (s.tick.alloc l (env.place s.calls) ⟨kind, size, cells env s.calls⟩)) :
    calm env (txAllocWith kind size cells) Q s := by
  apply calm_call hc
  intro l hl
  have hgood : ¬ (Handle.isNull (env.place s.calls) = true ∨ (s.heap (env.place s.calls)).isSome ∨
      (l.freed (env.place s.calls)).isSome ∨ Layout.maxAlloc F < size) := by
    simp [hnull, hfree, hfreed l hl, hsize]
  simp only [calm, State.tick, Nat.add_sub_cancel, hgood, if_false]
  exact h l hl

end Steps

section Transactions
variable {body : Prog I F α}

theorem wp_transaction_calm {P : α → State I F → Prop} {Q : Option α → State I F → Prop}
    {E E' : Cause → State I F → Prop} {R : α → State I F → Prop} (hl : s.log = none)
    (hstart : env.fails s.calls = false) (hb : wp env body P E' s.tick.opened)
    (hc : calm env body (fun a s' => env.crashes s'.stores = false ∧ R a s') s.tick.opened)
    (hQ : ∀ a s', P a s' → R a s' → Q (some a) s'.tock.commit) :
    wp env (transaction body) Q E s := by
  have h := wp_calm hb hc
  unfold wp at *
  simp only [transaction, hl, hstart, Bool.false_eq_true, if_false]
  cases hm : body env s.tick.opened with
  | ok a s' =>
    rw [hm] at h
    obtain ⟨hp, hcrash, hr⟩ := h
    simp only [hcrash, Bool.false_eq_true, if_false]
    exact hQ a s' hp hr
  | abort c s' =>
    rw [hm] at h
    exact h.elim
  | stuck =>
    rw [hm] at h
    exact h

/-- A confined body makes its outermost transaction atomic, and the transaction
commits when the environment serves it. -/
theorem wp_transaction_served {K : Layout.Kind F → Prop} {R : α → Heap I F → Prop}
    {Q : Option α → State I F → Prop} {E : Cause → State I F → Prop} {S : Prop}
    (hl : s.log = none)
    (hb : wp env body (fun a s' => Confined K s.tick.opened s' ∧ R a s'.heap)
      (fun _ s' => Confined K s.tick.opened s') s.tick.opened)
    (hstart : S → env.fails s.calls = false)
    (hc : S → calm env body (fun _ s' => env.crashes s'.stores = false) s.tick.opened)
    (hnone : ∀ s', Aborted s s' → ¬ S → Q none s')
    (hsome : ∀ a s', Committed s s' → R a s'.heap → Q (some a) s') :
    wp env (transaction body) Q E s := by
  by_cases hs : S
  · apply wp_transaction_calm hl (hstart hs) hb (R := fun _ _ => True)
    · simpa only [and_true] using hc hs
    · intro a s' hp _
      obtain ⟨h, hr⟩ := hp
      exact hsome a _ ⟨rfl, congrArg (· ++ [TxEnd.committed]) h.ends⟩ hr
  · exact wp_transaction_atomic hl hb (fun s' ha => hnone s' ha hs) hsome

end Transactions

structure Quiet (env : Env I F) : Prop where
  calls : ∀ n, env.fails n = false
  stores : ∀ n, env.crashes n = false

omit [Handle I] in
theorem Quiet.serves (hq : Quiet env) (n m : ℕ) : Serves env s n m :=
  ⟨fun _ _ => hq.calls _, fun _ _ => hq.stores _⟩

end RtsCache.UndoQuiet
