import RtsCache.UndoMachine

/-!
# Rules for programs over an undo-log heap

`wp` is the weakest precondition of a program for a normal and an abort
postcondition; a stuck program has none. `Confined K` relates two states of
one transaction when everything between them touched objects of the kinds `K`
only and every store was covered, so that an abort would undo the same heap.
-/

set_option autoImplicit false

namespace RtsCache.UndoRules
open RtsCache.UndoHeap RtsCache.UndoMachine

variable {I F : Type} [Layout F] {α β : Type} {env : Env I F}

def wp (env : Env I F) (m : Prog I F α) (Q : α → State I F → Prop)
    (E : Cause → State I F → Prop) (s : State I F) : Prop :=
  match m env s with
  | .ok a s' => Q a s'
  | .abort c s' => E c s'
  | .stuck => False

variable {Q : α → State I F → Prop} {E : Cause → State I F → Prop} {s s₁ s₂ : State I F}

theorem wp_bind (m : Prog I F β) (k : β → Prog I F α) :
    wp env (m >>= k) Q E s ↔ wp env m (fun b s' => wp env (k b) Q E s') E s := by
  simp only [wp, bind]
  cases m env s <;> rfl

theorem wp_pure (a : α) : wp env (pure a) Q E s ↔ Q a s := Iff.rfl

theorem wp_fuel {Q : ℕ → State I F → Prop} : wp env fuel Q E s ↔ Q env.fuel s := Iff.rfl

theorem wp_mono {m : Prog I F α} {Q' : α → State I F → Prop} {E' : Cause → State I F → Prop}
    (h : wp env m Q E s) (hQ : ∀ a s', Q a s' → Q' a s') (hE : ∀ c s', E c s' → E' c s') :
    wp env m Q' E' s := by
  unfold wp at *
  cases hm : m env s with
  | ok a s' => rw [hm] at h; exact hQ a s' h
  | abort c s' => rw [hm] at h; exact hE c s' h
  | stuck => rw [hm] at h; exact h.elim

theorem wp_returns {m : Prog I F α} (h : wp env m Q (fun _ _ => False) s) :
    ∃ a s', m env s = .ok a s' ∧ Q a s' := by
  unfold wp at h
  cases hm : m env s with
  | ok a s' => rw [hm] at h; exact ⟨a, s', rfl, h⟩
  | abort c s' => rw [hm] at h; exact h.elim
  | stuck => rw [hm] at h; exact h.elim

theorem wp_result {m : Prog I F α} {a : α} {s' : State I F} (h : wp env m Q E s)
    (hm : m env s = .ok a s') : Q a s' := by
  simpa [wp, hm] using h

theorem wp_run {m : Prog I F α} (h : wp env m Q E s) :
    wp env m (fun a s' => Q a s' ∧ m env s = .ok a s') E s := by
  unfold wp at *
  cases hm : m env s with
  | ok a s' => rw [hm] at h; exact ⟨h, rfl⟩
  | abort c s' => rw [hm] at h; exact h
  | stuck => rw [hm] at h; exact h

theorem wp_load {o : I} {f : F} {v : Layout.ty f} {Q : Layout.ty f → State I F → Prop}
    (hv : s.heap.get o f = some v) : wp env (load o f) Q E s ↔ Q v s := by
  simp [wp, load, hv]

theorem wp_typeNum {o : I} {obj : Obj F} {Q : Layout.Kind F → State I F → Prop}
    (ho : s.heap o = some obj) : wp env (typeNum o) Q E s ↔ Q obj.kind s := by
  simp [wp, typeNum, ho]

theorem wp_txAbort {n : ℤ} (hl : s.log.isSome) (hE : E (.errno n) s.tick) :
    wp env (txAbort n : Prog I F α) Q E s := by
  obtain ⟨l, hl⟩ := Option.isSome_iff_exists.mp hl
  simpa [wp, txAbort, hl] using hE

variable [Handle I]

/-- A nested transaction only adds the failure of its own start. -/
theorem wp_transaction_nested {body : Prog I F α} {Q : Option α → State I F → Prop}
    (hl : s.log.isSome) (hf : E ENOMEM s.tick)
    (hb : wp env body (fun a s' => Q (some a) s') E s.tick) :
    wp env (transaction body) Q E s := by
  obtain ⟨l, hl⟩ := Option.isSome_iff_exists.mp hl
  unfold wp at *
  simp only [transaction, hl]
  by_cases hb' : env.fails s.calls
  · simpa [hb'] using hf
  · simp only [hb', Bool.false_eq_true, if_false]
    cases hm : body env s.tick <;> rw [hm] at hb <;> exact hb

/-- An outermost transaction commits its body's state, or rolls it back. -/
theorem wp_transaction_top {body : Prog I F α} {Q : Option α → State I F → Prop}
    (hl : s.log = none) (hf : Q none (s.tick.record ENOMEM))
    (hb : wp env body
      (fun a s' => (env.crashes s'.stores = true → Q none (s'.tock.rollback .crash)) ∧
        Q (some a) s'.tock.commit)
      (fun c s' => Q none (s'.rollback c)) s.tick.opened) :
    wp env (transaction body) Q E s := by
  unfold wp at *
  simp only [transaction, hl]
  by_cases hb' : env.fails s.calls
  · simpa [hb'] using hf
  · simp only [hb', Bool.false_eq_true, if_false]
    cases hm : body env s.tick.opened with
    | ok a s' =>
      rw [hm] at hb
      by_cases hc : env.crashes s'.stores
      · simpa [hc] using hb.1 hc
      · simpa [hc] using hb.2
    | abort c s' => rw [hm] at hb; exact hb
    | stuck => rw [hm] at hb; exact hb

theorem wp_exitOnAbort_nested {body : Prog I F α} (hl : s.log.isSome) (hf : E .exit s.tick)
    (hb : wp env body Q (fun _ s' => E .exit s') s.tick) :
    wp env (exitOnAbort (transaction body)) Q E s := by
  have ht : wp env (transaction body) (fun r s' => ∃ a, r = some a ∧ Q a s')
      (fun _ s' => E .exit s') s := by
    apply wp_transaction_nested hl hf
    apply wp_mono hb
    · intro a s' h
      exact ⟨a, rfl, h⟩
    · intro c s' h
      exact h
  unfold wp exitOnAbort at *
  cases hm : transaction body env s with
  | ok r s' =>
    rw [hm] at ht
    obtain ⟨a, rfl, h⟩ := ht
    exact h
  | abort c s' =>
    rw [hm] at ht
    exact ht
  | stuck =>
    rw [hm] at ht
    exact ht

def Covers (s : State I F) (o : I) (f : F) : Prop := ∃ l, s.log = some l ∧ l.Covers o f

structure Confined (K : Layout.Kind F → Prop) (s s' : State I F) : Prop where
  undone : s'.undone = s.undone
  inTx : s'.log.isSome = s.log.isSome
  frame : ∀ o obj, ¬ K obj.kind → (s'.heap o = some obj ↔ s.heap o = some obj)
  covers : ∀ o f, Covers s o f → Covers s' o f
  quiet : ∀ o obj f, s.heap o = some obj → ¬ K obj.kind → Covers s' o f → Covers s o f
  ends : s'.ends = s.ends
  calls : s.calls ≤ s'.calls

variable {K : Layout.Kind F → Prop}

namespace Confined

theorem refl (s : State I F) : Confined K s s :=
  ⟨rfl, rfl, fun _ _ _ => Iff.rfl, fun _ _ h => h, fun _ _ _ _ _ h => h, rfl, Nat.le_refl _⟩

theorem trans (h : Confined K s s₁) (h' : Confined K s₁ s₂) : Confined K s s₂ where
  undone := h'.undone.trans h.undone
  inTx := h'.inTx.trans h.inTx
  frame o obj hk := (h'.frame o obj hk).trans (h.frame o obj hk)
  covers o f hc := h'.covers o f (h.covers o f hc)
  quiet o obj f ho hk hc :=
    h.quiet o obj f ho hk (h'.quiet o obj f ((h.frame o obj hk).mpr ho) hk hc)
  ends := h'.ends.trans h.ends
  calls := Nat.le_trans h.calls h'.calls

theorem tick (s : State I F) : Confined K s s.tick :=
  { refl s with calls := Nat.le_succ _ }

theorem tock (s : State I F) : Confined K s s.tock := { refl s with }

theorem get_outside (h : Confined K s s₁) {o : I} {f : F} {v : Layout.ty f}
    (hk : ¬ K (Layout.kind f)) : s₁.heap.get o f = some v ↔ s.heap.get o f = some v := by
  simp only [Heap.get_eq_some]
  constructor
  · rintro ⟨obj, ho, hf, hv⟩
    exact ⟨obj, (h.frame o obj (hf.1 ▸ hk)).mp ho, hf, hv⟩
  · rintro ⟨obj, ho, hf, hv⟩
    exact ⟨obj, (h.frame o obj (hf.1 ▸ hk)).mpr ho, hf, hv⟩

theorem store {o : I} {f : F} {v w : Layout.ty f} (hw : s.heap.get o f = some w)
    (hc : Covers s o f) (hk : K (Layout.kind f)) : Confined K s (s.store o f v) := by
  obtain ⟨l, hl, hc⟩ := hc
  obtain ⟨old, ho, hkind⟩ := Heap.live_of_get hw
  refine { refl (K := K) s with undone := ?_, frame := ?_ }
  · simpa [State.undone, State.store, hl] using l.rollback_put s.heap o f v hc
  · intro p obj hp
    by_cases hpo : p = o
    · subst hpo
      constructor
      · intro hs
        have hm := s.heap.put_kind p p f v
        have hs' : s.heap.put p f v p = some obj := hs
        rw [hs', ho] at hm
        have : obj.kind = old.kind := Option.some.inj hm
        exact absurd (this.trans hkind ▸ hk) hp
      · intro hs
        cases Option.some.inj (hs.symm.trans ho)
        exact absurd (hkind ▸ hk) hp
    · simp [State.store, Heap.put_of_ne s.heap f v hpo]

theorem overwrite {l : Log I F} {o : I} {obj obj' : Obj F} (hl : s.log = some l)
    (ho : s.heap o = some obj) (hkind : obj'.kind = obj.kind) (hsize : obj'.size = obj.size)
    (hc : ∀ f, l.Covers o f) (hk : K obj.kind) :
    Confined K s { s with heap := Function.update s.heap o (some obj') } := by
  refine { refl (K := K) s with undone := ?_, frame := ?_ }
  · simpa [State.undone, hl] using l.rollback_overwrite s.heap o obj obj' ho hkind hsize hc
  · intro p other hp
    by_cases hpo : p = o
    · subst hpo
      have hne : obj ≠ other := fun h => hp (h ▸ hk)
      have hne' : obj' ≠ other := fun h => hp (h ▸ hkind ▸ hk)
      simp [ho, hne, hne']
    · simp [hpo]

theorem snapshot {l : Log I F} {o : I} {p : F → Bool} {obj : Obj F} (hl : s.log = some l)
    (ho : s.heap o = some obj) (hk : K obj.kind) :
    Confined K s (s.snapshot l o p obj) where
  undone := by simpa [State.undone, State.snapshot, hl] using
    l.rollback_snapshot s.heap o p obj ho
  inTx := by simp [State.snapshot, hl]
  frame _ _ _ := Iff.rfl
  covers q f := by
    rintro ⟨l', hl', hc⟩
    cases hl.symm.trans hl'
    refine ⟨_, rfl, hc.imp_right fun hs => ?_⟩
    have : l.saved q f ≠ none := Option.isSome_iff_ne_none.mp hs
    simpa [Log.snapshot, this] using hs
  quiet q obj' f hq hk' := by
    rintro ⟨l', hl', hc⟩
    cases (Option.some.inj hl').symm
    have hqo : q ≠ o := by
      rintro rfl
      cases Option.some.inj (ho.symm.trans hq)
      exact hk' hk
    refine ⟨l, hl, hc.imp_right fun hs => ?_⟩
    simpa [Log.snapshot, hqo] using hs
  ends := rfl
  calls := Nat.le_refl _

theorem alloc {l : Log I F} {o : I} {obj : Obj F} (hl : s.log = some l)
    (ho : s.heap o = none) (hf : l.freed o = none) (hk : K obj.kind) :
    Confined K s (s.alloc l o obj) where
  undone := by simpa [State.undone, State.alloc, hl] using
    l.rollback_alloc s.heap o obj ho hf
  inTx := by simp [State.alloc, hl]
  frame p obj' hp := by
    by_cases hpo : p = o
    · subst hpo
      have : obj ≠ obj' := fun h => hp (h ▸ hk)
      simp [State.alloc, ho, this]
    · simp [State.alloc, hpo]
  covers q f := by
    rintro ⟨l', hl', hc⟩
    cases hl.symm.trans hl'
    exact ⟨_, rfl, hc.imp_left fun h => List.mem_cons_of_mem _ h⟩
  quiet q obj' f hq hk' := by
    rintro ⟨l', hl', hc⟩
    cases (Option.some.inj hl').symm
    have hqo : q ≠ o := by
      rintro rfl
      simp [ho] at hq
    exact ⟨l, hl, hc.imp_left fun h => (List.mem_cons.mp h).resolve_left hqo⟩
  ends := rfl
  calls := Nat.le_refl _

theorem free {l : Log I F} {o : I} {obj : Obj F} (hl : s.log = some l)
    (ho : s.heap o = some obj) (hk : K obj.kind) : Confined K s (s.free l o obj) where
  undone := by simpa [State.undone, State.free, hl] using l.rollback_free s.heap o obj ho
  inTx := by simp [State.free, hl]
  frame p obj' hp := by
    by_cases hpo : p = o
    · subst hpo
      have : obj ≠ obj' := fun h => hp (h ▸ hk)
      simp [State.free, ho, this]
    · simp [State.free, hpo]
  covers q f := by
    rintro ⟨l', hl', hc⟩
    cases hl.symm.trans hl'
    exact ⟨_, rfl, hc⟩
  quiet q obj' f hq hk' := by
    rintro ⟨l', hl', hc⟩
    cases (Option.some.inj hl').symm
    exact ⟨l, hl, hc⟩
  ends := rfl
  calls := Nat.le_refl _

end Confined

/-- An outermost transaction that ended in an abort left the heap as it was. -/
structure Aborted (s s' : State I F) : Prop where
  heap : s'.heap = s.heap
  log : s'.log = none
  ends : ∃ c, s'.ends = s.ends ++ [.aborted c]

structure Committed (s s' : State I F) : Prop where
  log : s'.log = none
  ends : s'.ends = s.ends ++ [.committed]

/-- A confined body makes its outermost transaction atomic. -/
theorem wp_transaction_atomic {body : Prog I F α} {R : α → Heap I F → Prop}
    {Q : Option α → State I F → Prop} (hl : s.log = none)
    (hb : wp env body (fun a s' => Confined K s.tick.opened s' ∧ R a s'.heap)
      (fun _ s' => Confined K s.tick.opened s') s.tick.opened)
    (hnone : ∀ s', Aborted s s' → Q none s')
    (hsome : ∀ a s', Committed s s' → R a s'.heap → Q (some a) s') :
    wp env (transaction body) Q E s := by
  have hback : ∀ {s'}, Confined K s.tick.opened s' → s'.undone = s.heap := fun h =>
    h.undone.trans (Log.rollback_empty s.heap)
  refine wp_transaction_top hl ?_ (wp_mono hb ?_ ?_)
  · exact hnone _ ⟨rfl, rfl, _, rfl⟩
  · rintro a s' ⟨h, hr⟩
    refine ⟨fun _ => hnone _ ⟨hback (h.trans (.tock s')), rfl, .crash, ?_⟩, hsome a _ ⟨rfl, ?_⟩ hr⟩
    · exact congrArg (· ++ [TxEnd.aborted .crash]) h.ends
    · exact congrArg (· ++ [TxEnd.committed]) h.ends
  · intro c s' h
    exact hnone _ ⟨hback h, rfl, c, congrArg (· ++ [TxEnd.aborted c]) h.ends⟩

/-! Each rule below names the state after one step by what is known of it:
its heap, what is covered and how many library calls were made. -/

theorem wp_store {o : I} {f : F} {v w : Layout.ty f} {Q : Unit → State I F → Prop}
    (hw : s.heap.get o f = some w) (hc : Covers s o f) (hk : K (Layout.kind f))
    (hE : ∀ c s', Confined K s s' → s'.calls = s.calls → E c s')
    (hQ : ∀ s', Confined K s s' → s'.heap = s.heap.put o f v → s'.calls = s.calls → Q () s') :
    wp env (store o f v) Q E s := by
  unfold wp UndoMachine.store
  simp only [hw]
  by_cases hcr : s.log.isSome ∧ env.crashes s.stores
  · simp only [hcr, and_self, if_true]
    exact hE _ _ (.tock s) rfl
  · simp only [hcr, if_false]
    exact hQ _ (Confined.trans (.tock s) (.store (s := s.tock) hw hc hk)) rfl rfl

/-- A store without a snapshot shows in the heap an abort would leave. -/
theorem wp_storeBare {o : I} {f : F} {v w : Layout.ty f} {Q : Unit → State I F → Prop}
    (hw : s.heap.get o f = some w)
    (hE : env.crashes s.stores = true → ∀ s', s'.ends = s.ends → s'.log = s.log → E .crash s')
    (hQ : ∀ s', s'.heap = s.heap.put o f v → s'.log = s.log →
      (s.log.isSome → ¬ Covers s o f → s'.undone = s.undone.put o f v) →
      s'.calls = s.calls → s'.ends = s.ends → Q () s') :
    wp env (store o f v) Q E s := by
  unfold wp UndoMachine.store
  simp only [hw]
  by_cases hcr : s.log.isSome ∧ env.crashes s.stores
  · simp only [hcr, and_self, if_true]
    exact hE hcr.2 _ rfl rfl
  · simp only [hcr, if_false]
    refine hQ _ rfl rfl (fun hl hc => ?_) rfl rfl
    obtain ⟨l, hl⟩ := Option.isSome_iff_exists.mp hl
    have hc' : ¬ l.Covers o f := fun h => hc ⟨l, hl, h⟩
    simpa [State.undone, State.store, State.tock, hl] using
      l.rollback_put_uncovered s.heap o f v w hw hc'

theorem wp_copyCells {dst src : I} {p : F → Bool} {d c : Obj F} {Q : Unit → State I F → Prop}
    (hl : s.log.isSome) (hd : s.heap dst = some d) (hs : s.heap src = some c)
    (hkind : d.kind = c.kind) (hcov : ∀ f, Covers s dst f) (hk : K d.kind)
    (hE : ∀ c s', Confined K s s' → s'.calls = s.calls → E c s')
    (hQ : ∀ s', Confined K s s' → s'.heap = Function.update s.heap dst
        (some { d with cells := fun f => if p f then c.cells f else d.cells f }) →
      s'.calls = s.calls → Q () s') :
    wp env (copyCells dst src p) Q E s := by
  obtain ⟨l, hl⟩ := Option.isSome_iff_exists.mp hl
  have hcov' : ∀ f, l.Covers dst f := fun f => by
    obtain ⟨l', hl', hc⟩ := hcov f
    cases hl.symm.trans hl'
    exact hc
  unfold wp copyCells
  simp only [hd, hs, if_pos hkind]
  by_cases hcr : s.log.isSome ∧ env.crashes s.stores
  · simp only [hcr, and_self, if_true]
    exact hE _ _ (.tock s) rfl
  · simp only [hcr, if_false]
    exact hQ _ (Confined.trans (.tock s)
      (.overwrite (s := s.tock) hl hd rfl rfl hcov' hk)) rfl rfl

theorem wp_call {k : Log I F → Prog I F α} (hl : s.log.isSome)
    (hE : ∀ c s', Confined K s s' → s'.calls = s.calls + 1 → E c s')
    (hk : ∀ l, s.log = some l → wp env (k l) Q E s.tick) : wp env (call k) Q E s := by
  obtain ⟨l, hl⟩ := Option.isSome_iff_exists.mp hl
  have hl' := hk l hl
  unfold wp call at *
  simp only [hl]
  by_cases hf : env.fails s.calls
  · simpa only [hf, if_true] using hE _ _ (.tick s) rfl
  · simpa only [hf, Bool.false_eq_true, if_false] using hl'

theorem wp_txAdd {o : I} {p : F → Bool} {obj : Obj F} {Q : Unit → State I F → Prop}
    (hl : s.log.isSome) (ho : s.heap o = some obj) (hk : K obj.kind)
    (hE : ∀ c s', Confined K s s' → s'.calls = s.calls + 1 → E c s')
    (hQ : ∀ s', Confined K s s' → s'.heap = s.heap → (∀ f, p f → Covers s' o f) →
      s'.calls = s.calls + 1 → Q () s') :
    wp env (txAdd o p) Q E s := by
  apply wp_call hl hE
  intro l hl
  have ho' : s.tick.heap o = some obj := ho
  simp only [wp, ho']
  refine hQ _ (Confined.trans (.tick s) (.snapshot (s := s.tick) hl ho hk)) rfl ?_ rfl
  intro f hp
  refine ⟨_, rfl, Or.inr ?_⟩
  by_cases hs : l.saved o f = none
  · simp [Log.snapshot, hp, hs]
  · simpa [Log.snapshot, hs] using Option.isSome_iff_ne_none.mpr hs

theorem wp_txAllocWith {kind : Layout.Kind F} {size : ℕ}
    {cells : Env I F → ℕ → (f : F) → Layout.ty f} {Q : I → State I F → Prop}
    (hl : s.log.isSome) (hk : K kind)
    (hE : ∀ c s', Confined K s s' → s'.calls = s.calls + 1 → E c s')
    (hQ : ∀ o s', Confined K s s' → s.heap o = none → Handle.isNull o = false →
      size ≤ Layout.maxAlloc F →
      s'.heap = Function.update s.heap o (some ⟨kind, size, cells env s.calls⟩) →
      (∀ f, Covers s' o f) → s'.calls = s.calls + 1 → Q o s') :
    wp env (txAllocWith kind size cells) Q E s := by
  apply wp_call hl hE
  intro l hl
  simp only [wp, State.tick, Nat.add_sub_cancel]
  by_cases hbad : Handle.isNull (env.place s.calls) = true ∨
      (s.heap (env.place s.calls)).isSome ∨ (l.freed (env.place s.calls)).isSome ∨
      Layout.maxAlloc F < size
  · simp only [hbad, if_true]
    exact hE _ _ (.tick s) rfl
  · simp only [hbad, if_false]
    simp only [not_or, Bool.not_eq_true, Option.isSome_eq_false_iff, Option.isNone_iff_eq_none,
      Nat.not_lt] at hbad
    obtain ⟨hn, ho, hf, hs⟩ := hbad
    refine hQ _ _ (Confined.trans (.tick s) (.alloc (s := s.tick) hl ho hf hk)) ho hn hs rfl ?_ rfl
    exact fun f => ⟨_, rfl, Or.inl (List.mem_cons_self ..)⟩

theorem wp_txFree {o : I} {obj : Obj F} {Q : Unit → State I F → Prop}
    (hl : s.log.isSome) (hn : Handle.isNull o = false) (ho : s.heap o = some obj)
    (hk : K obj.kind)
    (hE : ∀ c s', Confined K s s' → s'.calls = s.calls + 1 → E c s')
    (hQ : ∀ s', Confined K s s' → s'.heap = Function.update s.heap o none →
      s'.calls = s.calls + 1 → Q () s') :
    wp env (txFree o) Q E s := by
  apply wp_call hl hE
  intro l hl
  have ho' : s.tick.heap o = some obj := ho
  simp only [wp, hn, Bool.false_eq_true, if_false, ho']
  exact hQ _ (Confined.trans (.tick s) (.free (s := s.tick) hl ho hk)) rfl rfl

end RtsCache.UndoRules
