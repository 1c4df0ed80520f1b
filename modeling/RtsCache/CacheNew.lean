import RtsCache.CacheRuns

/-!
# A new cache

`cache_new` passes `hm_tx_create` the address of a local variable. The
snapshot of an address outside the pool aborts the transaction, and with it
the enclosing one, so a cache is never made.
-/

set_option autoImplicit false

namespace RtsCache.CacheNew
open RtsCache.UndoHeap RtsCache.UndoMachine RtsCache.UndoRules RtsCache.PoolLayout
open RtsCache.HashmapMachine RtsCache.HashmapCreate RtsCache.HashmapRuns RtsCache.RunRefinement
open RtsCache.CacheMachine RtsCache.CacheInvariant RtsCache.CacheRuns

structure ToidPtr where
  oid : PMEMoid
  member : Member
  isToid : member.ty = PMEMoid

namespace ToidPtr

def deref (ptr : ToidPtr) (h : Pool) : Option PMEMoid :=
  (h.get ptr.oid ptr.member).map (cast ptr.isToid)

def read (ptr : ToidPtr) : Pmem PMEMoid := do
  let o ← dRo ptr.oid ptr.member
  pure (cast ptr.isToid o)

def write (ptr : ToidPtr) (o : PMEMoid) : Pmem Unit :=
  dRw ptr.oid ptr.member (cast ptr.isToid.symm o)

end ToidPtr

/-- `TX_ADD_DIRECT` of an address outside the pool. -/
def txAddOutside : Pmem Unit := txAbort EINVAL

/-- `hm_tx_create` for a variable outside the pool, whose value comes back with
the return code. -/
def hmTxCreateOutside (map : PMEMoid) (seed : UInt32) (rand : ℕ → UInt32) :
    Pmem (ℤ × PMEMoid) := do
  match ← transaction (do
    txAddOutside
    let hashmap ← txZalloc .hashmapTx Kind.hashmapTx.sizeof
    createHashmap hashmap seed rand
    pure hashmap) with
  | none => pure (-1, map)
  | some hashmap => pure (0, hashmap)

/-- `uninit` is what the local variable `hashmap` holds at first. -/
def cacheNewBody (cache : ToidPtr) (capacity : Int32) (uninit : PMEMoid) (rand : ℕ → UInt32) :
    Pmem Unit := do
  txAddField cache.oid cache.member
  let new ← txNew .cache
  cache.write new
  let made ← cache.read
  dRw made .capacity capacity.toInt64.toUInt64
  let (err, hashmap) ← hmTxCreateOutside uninit 0 rand
  if err = -1 then txAbort err
  else do
    let made ← cache.read
    dRw made .hashmap hashmap

def cacheNew (cache : ToidPtr) (capacity : Int32) (uninit : PMEMoid) (rand : ℕ → UInt32) :
    Pmem ℤ := do
  match ← transaction (cacheNewBody cache capacity uninit rand) with
  | none => pure (-1)
  | some _ => pure 0

section Contract

def newCalls : ℕ := 9

/-- Library call `i` fails; every third one is an allocation and fails without
a place of its own. -/
def Failing (env : PoolEnv) (s : PoolState) (i : ℕ) : Prop :=
  env.fails (s.calls + i) = true ∨ i % 3 = 2 ∧
    ((env.place (s.calls + i)).isNull = true ∨ (s.heap (env.place (s.calls + i))).isSome ∨
      ∃ j < i, j % 3 = 2 ∧ env.place (s.calls + j) = env.place (s.calls + i))

structure Unfailing (env : PoolEnv) (s : PoolState) (rand : ℕ → UInt32) : Prop where
  calls : ∀ i < newCalls, ¬ Failing env s i
  stores : ∀ i, env.crashes i = false
  draws : ∃ k < env.fuel, rand k ≠ 0

def ServedCall (cache : PMEMoid) (s : PoolState) (o : LruOp) (r : ℤ × Option Int32)
    (s' : PoolState) : Prop :=
  ∃ env : PoolEnv, 2^64 < env.fuel ∧ lruStep cache o env s = .ok r s'

/-- A well-formed empty cache from which no run of calls gets stuck. -/
def MakesCache (cache : ToidPtr) (capacity : Int32) (s' : PoolState) : Prop :=
  ∃ made head tail hm, cache.deref s'.heap = some made ∧
    CacheWf s'.heap made head tail hm capacity.toInt64.toUInt64 [] (fun _ => none) ∧
    ∀ xs t, Run (ServedCall made) s' xs t → ∀ (o : LruOp) (env : PoolEnv), 2^64 < env.fuel →
      lruStep made o env t ≠ .stuck

structure Contract (cache : ToidPtr) (capacity : Int32) (uninit : PMEMoid) (rand : ℕ → UInt32)
    (env : PoolEnv) (s : PoolState) : Prop where
  success : Unfailing env s rand → 0 < capacity → ∃ s',
    cacheNew cache capacity uninit rand env s = .ok 0 s' ∧ MakesCache cache capacity s'
  failure : ∀ i < newCalls, Failing env s i → ∃ s',
    cacheNew cache capacity uninit rand env s = .ok (-1) s' ∧ s'.heap = s.heap

end Contract

section New
variable {env : PoolEnv} {s : PoolState} {cache : ToidPtr} {capacity : Int32} {uninit : PMEMoid}
  {rand : ℕ → UInt32} {E : Cause → PoolState → Prop}

theorem deref_eq_some {h : Pool} {o : PMEMoid} :
    cache.deref h = some o ↔ h.get cache.oid cache.member = some (cast cache.isToid.symm o) := by
  rw [ToidPtr.deref, Option.map_eq_some_iff]
  constructor
  · rintro ⟨v, hv, rfl⟩
    rw [hv, cast_cast, cast_eq]
  · intro hv
    refine ⟨_, hv, ?_⟩
    rw [cast_cast, cast_eq]

theorem wp_read {o : PMEMoid} {Q : PMEMoid → PoolState → Prop}
    (ho : cache.deref s.heap = some o) : wp env cache.read Q E s ↔ Q o s := by
  rw [ToidPtr.read, wp_bind, wp_dRo (deref_eq_some.mp ho), wp_pure, cast_cast, cast_eq]

theorem wp_write {o w : PMEMoid} {Q : Unit → PoolState → Prop}
    (hw : cache.deref s.heap = some w) (hc : Covers s cache.oid cache.member)
    (hE : ∀ c s', Confined (I := PMEMoid) (F := Member) AnyKind s s' → E c s')
    (hQ : ∀ s', Confined (I := PMEMoid) (F := Member) AnyKind s s' →
      cache.deref s'.heap = some o → (∀ p, p ≠ cache.oid → s'.heap p = s.heap p) → Q () s') :
    wp env (cache.write o) Q E s := by
  have hv := deref_eq_some.mp hw
  apply wp_dRw (K := AnyKind) hv hc trivial
  · intro c s' h _
    exact hE c s' h
  · intro s' h he _
    apply hQ s' h
    · rw [deref_eq_some, he]
      exact Heap.get_put_self _ _ hv
    · intro p hp
      rw [he, Heap.put_of_ne _ _ _ hp]

theorem wp_hmTxCreateOutside {Q : ℤ × PMEMoid → PoolState → Prop} (hl : s.log.isSome)
    (hE : ∀ c s', Confined (I := PMEMoid) (F := Member) AnyKind s s' → E c s') :
    wp env (hmTxCreateOutside uninit 0 rand) Q E s := by
  have htick : Confined (I := PMEMoid) (F := Member) AnyKind s s.tick := .tick s
  rw [hmTxCreateOutside, wp_bind]
  apply wp_transaction_nested hl (hE _ _ htick)
  rw [wp_bind]
  apply wp_txAbort
  · exact hl
  · exact hE _ _ (htick.trans (.tick s.tick))

theorem wp_cacheNewBody {old : PMEMoid} (hl : s.log.isSome) (hin : cache.deref s.heap = some old) :
    wp env (cacheNewBody cache capacity uninit rand) (fun _ _ => False)
      (fun _ s' => Confined (I := PMEMoid) (F := Member) AnyKind s s') s := by
  rw [cacheNewBody, wp_bind]
  apply wp_txAddField (K := AnyKind) hl (deref_eq_some.mp hin) trivial (fun c s' h _ => h)
  intro s₁ h₁ e₁ c₁ _
  rw [wp_bind]
  apply wp_txAllocWith (K := AnyKind) (h₁.inTx ▸ hl) trivial (fun c s' h _ => h₁.trans h)
  intro made s₂ h₂ hfree _ _ e₂ c₂ _
  have h₁₂ := h₁.trans h₂
  rw [e₁] at hfree e₂
  have hne : made ≠ cache.oid := (Heap.ne_of_free hfree (deref_eq_some.mp hin)).symm
  have hin₂ : cache.deref s₂.heap = some old := by
    rw [deref_eq_some, e₂, Heap.get_congr (Function.update_of_ne hne.symm _ _)]
    exact deref_eq_some.mp hin
  rw [wp_bind]
  apply wp_write hin₂ (h₂.covers _ _ c₁)
  · intro c s' h
    exact h₁₂.trans h
  intro s₃ h₃ hmade hsame
  have h₁₃ := h₁₂.trans h₃
  have hcap : s₃.heap.get made .capacity = some (env.junk s₁.calls .capacity) := by
    rw [Heap.get_congr (hsame made hne)]
    have hobj : s₂.heap made = some ⟨.cache, Kind.cache.sizeof, env.junk s₁.calls⟩ := by
      rw [e₂, Function.update_self]
    exact get_fresh hobj .capacity rfl (by decide)
  rw [wp_bind, wp_read hmade, wp_bind]
  apply wp_dRw (K := AnyKind) hcap (h₃.covers _ _ (c₂ _)) trivial (fun c s' h _ => h₁₃.trans h)
  intro s₄ h₄ _ _
  have h₁₄ := h₁₃.trans h₄
  rw [wp_bind]
  apply wp_hmTxCreateOutside (h₁₄.inTx ▸ hl)
  intro c s' h
  exact h₁₄.trans h

theorem cacheNew_aborts {old : PMEMoid} (env : PoolEnv) (capacity : Int32) (uninit : PMEMoid)
    (rand : ℕ → UInt32) (hl : s.log = none) (hin : cache.deref s.heap = some old) :
    ∃ s', cacheNew cache capacity uninit rand env s = .ok (-1) s' ∧ Aborted s s' := by
  have hcall : wp env (cacheNew cache capacity uninit rand)
      (fun r s' => r = -1 ∧ Aborted s s') (fun _ _ => False) s := by
    rw [cacheNew, wp_bind]
    apply wp_transaction_atomic (K := AnyKind) (R := fun _ _ => False) hl
    · apply wp_mono (wp_cacheNewBody (s := s.tick.opened) rfl hin)
      · intro a s' h
        exact h.elim
      · intro c s' h
        exact h
    · intro s' h
      exact ⟨rfl, h⟩
    · intro a s' _ h
      exact h.elim
  obtain ⟨r, s', hrun, rfl, h⟩ := wp_returns hcall
  exact ⟨s', hrun, h⟩

/-- `cache_new` keeps its contract exactly where the contract asks for no
cache: it fails, without a trace, on every input. -/
theorem makes_cache_iff {old : PMEMoid} (hl : s.log = none)
    (hin : cache.deref s.heap = some old) :
    (∃ s', cacheNew cache capacity uninit rand env s = .ok (-1) s' ∧ Aborted s s') ∧
      (Contract cache capacity uninit rand env s ↔ ¬ (Unfailing env s rand ∧ 0 < capacity)) := by
  obtain ⟨s', hrun, h⟩ := cacheNew_aborts env capacity uninit rand hl hin
  constructor
  · exact ⟨s', hrun, h⟩
  · constructor
    · rintro hc ⟨hu, hcap⟩
      obtain ⟨t, ht, -⟩ := hc.success hu hcap
      rw [hrun] at ht
      cases ht
    · intro hno
      constructor
      · intro hu hcap
        exact absurd ⟨hu, hcap⟩ hno
      · intro i _ _
        exact ⟨s', hrun, h.heap⟩

end New

section Sample

def rootOid : PMEMoid := ⟨1, 512⟩

def rootState : PoolState :=
  ⟨fun o => if o = rootOid then some ⟨.entry, 40, Layout.zero⟩ else none, none, 0, 0, []⟩

def rootPtr : ToidPtr := ⟨rootOid, .value, rfl⟩

theorem rootState_unfailing : Unfailing quietEnv rootState fun _ => 1 where
  calls i hi := by
    have hnull : ∀ i < newCalls, (quietEnv.place (0 + i)).isNull = false := by decide
    have hfree : ∀ i < newCalls, (rootState.heap (quietEnv.place (0 + i))).isSome = false := by
      decide
    have hapart : ∀ i < newCalls, ∀ j < i, quietEnv.place (0 + j) ≠ quietEnv.place (0 + i) := by
      decide
    rintro (h | ⟨-, h | h | ⟨j, hj, -, h⟩⟩)
    · cases h
    · cases (hnull i hi).symm.trans h
    · cases (hfree i hi).symm.trans h
    · exact hapart i hi j hj h
  stores _ := rfl
  draws := ⟨0, by decide, by decide⟩

theorem makes_cache_iff_root : ¬ Contract rootPtr 5 oidNull (fun _ => 1) quietEnv rootState := by
  have hin : rootPtr.deref rootState.heap = some oidNull := rfl
  rw [(makes_cache_iff rfl hin).2, not_not]
  exact ⟨rootState_unfailing, by decide⟩

/-- Nothing fails in a pool with room, and the call still aborts with `EINVAL`. -/
theorem not_makes_cache : Unfailing quietEnv rootState (fun _ => 1) ∧
    ∃ s', cacheNew rootPtr 5 oidNull (fun _ => 1) quietEnv rootState = .ok (-1) s' ∧
      s'.ends = [.aborted (.errno EINVAL)] ∧ ¬ MakesCache rootPtr 5 s' := by
  refine ⟨rootState_unfailing, _, rfl, rfl, ?_⟩
  rintro ⟨made, head, tail, hm, hmade, hw, -⟩
  cases hmade
  cases hw.fields.notNull

end Sample

end RtsCache.CacheNew
