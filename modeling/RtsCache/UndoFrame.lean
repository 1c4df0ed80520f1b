import RtsCache.UndoMachine

/-!
# Programs beside other objects

A program that runs on a part of a heap runs in the same way on the whole of
it and leaves the rest alone. All the rest can do to the program is to occupy
the place of an allocation; seen from the part, that allocation finds none.
-/

set_option autoImplicit false

namespace RtsCache.UndoFrame
open RtsCache.UndoHeap RtsCache.UndoMachine

variable {I F : Type} [Layout F] {α β : Type}

def join (h r : Heap I F) : Heap I F := fun o => (h o).or (r o)

def beside (s : State I F) (r : Heap I F) : State I F := { s with heap := join s.heap r }

/-- A log that knows nothing of the objects `r`. -/
structure Avoids (l : Log I F) (r : Heap I F) : Prop where
  fresh : ∀ o, r o ≠ none → o ∉ l.fresh
  freed : ∀ o, r o ≠ none → l.freed o = none
  saved : ∀ o, r o ≠ none → ∀ f, l.saved o f = none

structure Apart (s : State I F) (r : Heap I F) : Prop where
  live : ∀ o, r o ≠ none → s.heap o = none
  log : ∀ l, s.log = some l → Avoids l r

theorem join_left {h r : Heap I F} {o : I} (hr : r o = none) : join h r o = h o := by
  simp [join, hr]

theorem join_right {h r : Heap I F} {o : I} (hh : h o = none) : join h r o = r o := by
  simp [join, hh]

theorem join_some {h r : Heap I F} {o : I} {obj : Obj F} (ho : h o = some obj) :
    join h r o = some obj := by
  simp [join, ho]

theorem get_join {h r : Heap I F} {o : I} {f : F} {v : Layout.ty f} (hv : h.get o f = some v) :
    (join h r).get o f = some v := by
  obtain ⟨obj, ho, hf, hc⟩ := Heap.get_eq_some.mp hv
  exact Heap.get_eq_some.mpr ⟨obj, join_some ho, hf, hc⟩

theorem Apart.rest {s : State I F} {r : Heap I F} (ha : Apart s r) {o : I} {obj : Obj F}
    (ho : s.heap o = some obj) : r o = none := by
  by_contra hr
  rw [ha.live o hr] at ho
  cases ho

def Agrees (r : Heap I F) : Res I F α → Res I F α → Prop
  | .ok a s, whole => whole = .ok a (beside s r) ∧ Apart s r
  | .abort c s, whole => whole = .abort c (beside s r) ∧ Apart s r
  | .stuck, _ => True

/-- The environment as the part sees it: `nil` is a null handle. -/
def alone (nil : I) (r : Heap I F) (env : Env I F) : Env I F :=
  { env with place := fun n => if (r (env.place n)).isSome then nil else env.place n }

/-- The program does on any heap what it does on any part it can run on. -/
def Framed (nil : I) (m : Prog I F α) : Prop :=
  ∀ env s r, Apart s r → Agrees r (m (alone nil r env) s) (m env (beside s r))

section Control
variable {nil : I}

theorem framed_pure (a : α) : Framed nil (pure a : Prog I F α) := fun _ _ _ ha => ⟨rfl, ha⟩

theorem framed_stuck : Framed nil (stuck : Prog I F α) := fun _ _ _ _ => trivial

theorem framed_fuel : Framed nil (fuel : Prog I F ℕ) := fun _ _ _ ha => ⟨rfl, ha⟩

theorem framed_bind {m : Prog I F β} {k : β → Prog I F α} (hm : Framed nil m)
    (hk : ∀ b, Framed nil (k b)) : Framed nil (m >>= k) := by
  intro env s r ha
  have h := hm env s r ha
  simp only [bind]
  cases hs : m (alone nil r env) s with
  | ok b s' =>
    rw [hs] at h
    rw [h.1]
    exact hk b env s' r h.2
  | abort c s' =>
    rw [hs] at h
    rw [h.1]
    exact ⟨rfl, h.2⟩
  | stuck => trivial

theorem framed_ite {c : Prop} [Decidable c] {m m' : Prog I F α} (hm : Framed nil m)
    (hm' : Framed nil m') : Framed nil (if c then m else m') := by
  by_cases hc : c
  · rwa [if_pos hc]
  · rwa [if_neg hc]

theorem framed_load (o : I) (f : F) : Framed nil (load o f) := by
  intro env s r ha
  unfold load
  cases hv : s.heap.get o f with
  | none => trivial
  | some v =>
    have hw : (beside s r).heap.get o f = some v := get_join hv
    rw [hw]
    exact ⟨rfl, ha⟩

theorem Apart.tick {s : State I F} {r : Heap I F} (ha : Apart s r) : Apart s.tick r := ⟨ha.1, ha.2⟩

theorem Apart.tock {s : State I F} {r : Heap I F} (ha : Apart s r) : Apart s.tock r := ⟨ha.1, ha.2⟩

theorem avoids_empty (r : Heap I F) : Avoids (Log.empty : Log I F) r := by
  constructor
  · intro o _
    exact List.not_mem_nil
  · intro o _
    rfl
  · intro o _ f
    rfl

theorem Apart.opened {s : State I F} {r : Heap I F} (ha : Apart s r) : Apart s.opened r where
  live := ha.live
  log := by
    rintro l hl
    cases hl
    exact avoids_empty r

theorem Apart.closed {s s' : State I F} {r : Heap I F} (ha : Apart s r) (hh : s'.heap = s.heap)
    (hl : s'.log = none) : Apart s' r where
  live := hh ▸ ha.live
  log l h := by
    rw [hl] at h
    cases h

theorem framed_call {k : Log I F → Prog I F α}
    (hk : ∀ l env s r, Apart s r → s.log = some l →
      Agrees r (k l (alone nil r env) s) (k l env (beside s r))) : Framed nil (call k) := by
  intro env s r ha
  unfold call
  have hlog : (beside s r).log = s.log := rfl
  rw [hlog]
  cases hl : s.log with
  | none => trivial
  | some l =>
    simp only
    by_cases hf : env.fails s.calls
    · rw [if_pos (show (alone nil r env).fails s.calls = true from hf),
        if_pos (show env.fails (beside s r).calls = true from hf)]
      exact ⟨rfl, ha.tick⟩
    · rw [if_neg (show ¬ (alone nil r env).fails s.calls = true from hf),
        if_neg (show ¬ env.fails (beside s r).calls = true from hf)]
      exact hk l env s.tick r ha.tick hl

theorem framed_exited : Framed nil (exited : Prog I F Bool) := fun _ _ _ ha => ⟨rfl, ha⟩

theorem framed_exitOnAbort {m : Prog I F (Option α)} (hm : Framed nil m) :
    Framed nil (exitOnAbort m) := by
  intro env s r ha
  have h := hm env s r ha
  unfold exitOnAbort
  cases hs : m (alone nil r env) s with
  | ok x s' =>
    rw [hs] at h
    rw [h.1]
    cases x with
    | none => trivial
    | some a => exact ⟨rfl, h.2⟩
  | abort c s' =>
    rw [hs] at h
    rw [h.1]
    exact ⟨rfl, h.2⟩
  | stuck => trivial

end Control

variable [Handle I]

section Steps
variable {s : State I F} {r : Heap I F} {l : Log I F} {o : I} {obj : Obj F}

theorem join_put {f : F} (v : Layout.ty f) (h r : Heap I F) (ho : h o = some obj) :
    join (h.put o f v) r = (join h r).put o f v := by
  funext q
  by_cases hq : q = o
  · subst hq
    simp [join, Heap.put, ho]
  · simp [join, Heap.put_of_ne _ f v hq]

theorem join_update (h r : Heap I F) (x : Option (Obj F)) (hr : r o = none) :
    join (Function.update h o x) r = Function.update (join h r) o x := by
  funext q
  by_cases hq : q = o
  · subst hq
    simp [join, hr]
  · simp [join, Function.update_of_ne hq]

theorem apart_update (ha : Apart s r) (hr : r o = none) (x : Option (Obj F)) (p : I)
    (hp : r p ≠ none) : (Function.update s.heap o x : Heap I F) p = none := by
  have hne : p ≠ o := by
    rintro rfl
    exact hp hr
  rw [Function.update_of_ne hne]
  exact ha.live p hp

theorem Apart.store {f : F} (v : Layout.ty f) (ha : Apart s r) : Apart (s.store o f v) r where
  live p hp := Heap.put_eq_none.mpr (ha.live p hp)
  log := ha.log

theorem Apart.snapshot (ha : Apart s r) (hl : s.log = some l) (hr : r o = none) (p : F → Bool)
    (obj : Obj F) : Apart (s.snapshot l o p obj) r where
  live := ha.live
  log := by
    rintro l' hl'
    cases hl'
    have hav := ha.log l hl
    constructor
    · exact hav.fresh
    · exact hav.freed
    · intro q hq f
      have hne : q ≠ o := by
        rintro rfl
        exact hq hr
      simpa [Log.snapshot, hne] using hav.saved q hq f

theorem Apart.alloc (ha : Apart s r) (hl : s.log = some l) (hr : r o = none) (obj : Obj F) :
    Apart (s.alloc l o obj) r where
  live := apart_update ha hr _
  log := by
    rintro l' hl'
    cases hl'
    have hav := ha.log l hl
    constructor
    · intro q hq hmem
      rcases List.mem_cons.mp hmem with rfl | hmem
      · exact hq hr
      · exact hav.fresh q hq hmem
    · exact hav.freed
    · exact hav.saved

theorem Apart.free (ha : Apart s r) (hl : s.log = some l) (hr : r o = none) (obj : Obj F) :
    Apart (s.free l o obj) r where
  live := apart_update ha hr _
  log := by
    rintro l' hl'
    cases hl'
    have hav := ha.log l hl
    constructor
    · exact hav.fresh
    · intro q hq
      have hne : q ≠ o := by
        rintro rfl
        exact hq hr
      exact (Function.update_of_ne hne _ _).trans (hav.freed q hq)
    · exact hav.saved

theorem join_rollback {h r : Heap I F} (hlive : ∀ o, r o ≠ none → h o = none) (hav : Avoids l r) :
    l.rollback (join h r) = join (l.rollback h) r := by
  funext o
  by_cases hr : r o = none
  · rw [join_left hr]
    simp only [Log.rollback, join_left hr]
  · obtain ⟨obj, ho⟩ := Option.ne_none_iff_exists'.mp hr
    have hsame : l.restore o obj = obj := by
      simp [Log.restore, hav.saved o hr]
    have hpart : l.rollback h o = none := by
      simp [Log.rollback, hlive o hr, hav.freed o hr]
    rw [join_right hpart]
    simp only [Log.rollback, join_right (hlive o hr), if_neg (hav.fresh o hr), ho]
    simp [hsame]

theorem Apart.rollback (ha : Apart s r) (c : Cause) : Apart (s.rollback c) r where
  live o hr := by
    show s.undone o = none
    unfold State.undone
    cases hl : s.log with
    | none => exact ha.live o hr
    | some l => simp [Log.rollback, ha.live o hr, (ha.log l hl).freed o hr]
  log l h := by cases h

theorem beside_rollback (ha : Apart s r) (c : Cause) :
    (beside s r).rollback c = beside (s.rollback c) r := by
  have hundone : (beside s r).undone = join s.undone r := by
    unfold State.undone
    have hlog : (beside s r).log = s.log := rfl
    rw [hlog]
    cases hl : s.log with
    | none => rfl
    | some l => exact join_rollback ha.live (ha.log l hl)
  simp only [State.rollback, hundone]
  rfl

end Steps

section Rules
variable {nil : I}

theorem framed_store (o : I) (f : F) (v : Layout.ty f) : Framed nil (store o f v) := by
  intro env s r ha
  unfold UndoMachine.store
  cases hv : s.heap.get o f with
  | none => trivial
  | some w =>
    have hw : (beside s r).heap.get o f = some w := get_join hv
    obtain ⟨obj, ho, -⟩ := Heap.live_of_get hv
    rw [hw]
    simp only
    by_cases hc : s.log.isSome ∧ env.crashes s.stores
    · have hc' : (beside s r).log.isSome ∧ env.crashes (beside s r).stores := hc
      rw [if_pos hc', if_pos (show s.log.isSome ∧ (alone nil r env).crashes s.stores from hc)]
      exact ⟨rfl, ha.tock⟩
    · have hc' : ¬ ((beside s r).log.isSome ∧ env.crashes (beside s r).stores) := hc
      rw [if_neg hc', if_neg (show ¬ (s.log.isSome ∧ (alone nil r env).crashes s.stores) from hc)]
      constructor
      · have hput := join_put v s.heap r ho
        simp only [State.store, State.tock, beside, hput]
      · exact ha.tock.store v

theorem framed_txAdd (o : I) (p : F → Bool) : Framed nil (txAdd o p) := by
  apply framed_call
  intro l env s r ha hl
  cases ho : s.heap o with
  | none => trivial
  | some obj =>
    have hw : (beside s r).heap o = some obj := join_some ho
    simp only [hw]
    exact ⟨rfl, ha.snapshot hl (ha.rest ho) p obj⟩

theorem framed_txFree (o : I) : Framed nil (txFree o : Prog I F Unit) := by
  apply framed_call
  intro l env s r ha hl
  by_cases hn : Handle.isNull o = true
  · simp only [if_pos hn]
    exact ⟨rfl, ha⟩
  · simp only [if_neg hn]
    cases ho : s.heap o with
    | none => trivial
    | some obj =>
      have hw : (beside s r).heap o = some obj := join_some ho
      simp only [hw]
      have hr := ha.rest ho
      constructor
      · simp only [State.free, beside, join_update s.heap r none hr]
      · exact ha.free hl hr obj

theorem framed_txAllocWith (hnil : Handle.isNull nil = true) (kind : Layout.Kind F) (size : ℕ)
    (cells : Env I F → ℕ → (f : F) → Layout.ty f)
    (hcells : ∀ env r n, cells (alone nil r env) n = cells env n) :
    Framed nil (txAllocWith kind size cells) := by
  apply framed_call
  intro l env s r ha hl
  have hcalls : (beside s r).calls = s.calls := rfl
  simp only [hcalls]
  by_cases hr : (r (env.place (s.calls - 1))).isSome
  · have hplace : (alone nil r env).place (s.calls - 1) = nil := if_pos hr
    have hlive : ((beside s r).heap (env.place (s.calls - 1))).isSome := by
      simp [beside, join, hr]
    rw [hplace, if_pos (Or.inl hnil), if_pos (Or.inr (Or.inl hlive))]
    exact ⟨rfl, ha⟩
  · have hplace : (alone nil r env).place (s.calls - 1) = env.place (s.calls - 1) := if_neg hr
    have hr' : r (env.place (s.calls - 1)) = none := by simpa using hr
    have hheap : (beside s r).heap (env.place (s.calls - 1)) = s.heap (env.place (s.calls - 1)) :=
      join_left hr'
    rw [hplace, hheap]
    split
    · exact ⟨rfl, ha⟩
    · constructor
      · simp only [State.alloc, beside, join_update s.heap r _ hr', hcells]
      · exact ha.alloc hl hr' _

theorem framed_txAlloc (hnil : Handle.isNull nil = true) (kind : Layout.Kind F) (size : ℕ) :
    Framed nil (txAlloc kind size : Prog I F I) :=
  framed_txAllocWith hnil kind size _ fun _ _ _ => rfl

theorem framed_txZalloc (hnil : Handle.isNull nil = true) (kind : Layout.Kind F) (size : ℕ) :
    Framed nil (txZalloc kind size : Prog I F I) :=
  framed_txAllocWith hnil kind size _ fun _ _ _ => rfl

theorem framed_transaction {body : Prog I F α} (hb : Framed nil body) :
    Framed nil (transaction body) := by
  intro env s r ha
  have hlog : (beside s r).log = s.log := rfl
  have hfails : ∀ n, (alone nil r env).fails n = env.fails n := fun _ => rfl
  have hcrashes : ∀ n, (alone nil r env).crashes n = env.crashes n := fun _ => rfl
  have hcalls : (beside s r).calls = s.calls := rfl
  unfold transaction
  rw [hlog]
  cases hl : s.log with
  | some l =>
    simp only [hfails, hcalls]
    split
    · exact ⟨rfl, ha.tick⟩
    · have h := hb env s.tick r ha.tick
      have htick : (beside s r).tick = beside s.tick r := rfl
      rw [htick]
      cases hs : body (alone nil r env) s.tick with
      | ok a s' =>
        rw [hs] at h
        rw [h.1]
        exact ⟨rfl, h.2⟩
      | abort c s' =>
        rw [hs] at h
        rw [h.1]
        exact ⟨rfl, h.2⟩
      | stuck => trivial
  | none =>
    simp only [hfails, hcalls]
    split
    · exact ⟨rfl, ha.closed rfl rfl⟩
    · have h := hb env s.tick.opened r ha.tick.opened
      have hopen : (beside s r).tick.opened = beside s.tick.opened r := rfl
      rw [hopen]
      cases hs : body (alone nil r env) s.tick.opened with
      | ok a s' =>
        rw [hs] at h
        rw [h.1]
        have hstores : (beside s' r).stores = s'.stores := rfl
        simp only [hcrashes, hstores]
        split
        · have hback := beside_rollback h.2.tock .crash
          exact ⟨congrArg (Res.ok none) hback, h.2.tock.rollback .crash⟩
        · exact ⟨rfl, h.2.tock.closed rfl rfl⟩
      | abort c s' =>
        rw [hs] at h
        rw [h.1]
        exact ⟨congrArg (Res.ok none) (beside_rollback h.2 c), h.2.rollback c⟩
      | stuck => trivial

end Rules

end RtsCache.UndoFrame
