import RtsCache.HashmapNodes
import RtsCache.HashmapShared

/-!
# What a hash map owns

A map owns its header, one bucket array and one entry for each key. An
insertion allocates one entry, a removal frees one, a rebuild exchanges the
arrays, and whatever aborts takes its objects along; so no run leaks any.
-/

set_option autoImplicit false

namespace RtsCache.HashmapFootprint
open RtsCache.UndoHeap RtsCache.UndoMachine RtsCache.UndoRules RtsCache.UndoWrites
open RtsCache.PoolLayout RtsCache.HashmapMachine RtsCache.HashmapInvariant
open RtsCache.HashmapScan RtsCache.HashmapRebuild RtsCache.HashmapOps RtsCache.HashmapRuns
open RtsCache.HashmapNodes RtsCache.HashmapCreate RtsCache.HashmapShared RtsCache.RunRefinement
open RtsCache.HeapParts

/-- The objects of the heap, with their sizes in bytes, are those of the map at
`hm` with the array `bs` of `n` slots and the nodes `N`. -/
def Accounts (h : Pool) (hm bs : PMEMoid) (n : UInt64) (N : List Node) : Prop :=
  ∀ o, shape h o =
    if o = hm then some (Kind.hashmapTx, 48)
    else if o = bs then some (Kind.buckets, 8 + 16 * n.toNat)
    else if o ∈ N.map Node.oid then some (Kind.entry, 40)
    else none

def Footprint (h : Pool) (hm bs : PMEMoid) (N : List Node) : Prop :=
  ∃ a b p n, (∃ T, Table h hm bs a b p n T ∧ (nodes n.toNat T).Perm N) ∧ Accounts h hm bs n N

section Shapes
variable {env : PoolEnv} {s s' : PoolState} {hm bs : PMEMoid}

theorem insertBody_shape {i : ℕ} {key : UInt64} {value : PMEMoid}
    (hrun : insertBody hm bs i key value env s = .ok () s') :
    ∃ e, s.heap e = none ∧ e.isNull = false ∧ s'.heap.get bs (.bucket i) = some e ∧
      (∀ v, s.heap.get hm .buckets = some v → s'.heap.get hm .buckets = some v) ∧
      ∀ o, shape s'.heap o = if o = e then some (Kind.entry, 40) else shape s.heap o := by
  obtain ⟨current, s₁, h₁, hrun⟩ := bind_ok hrun
  obtain ⟨_, s₂, h₂, hrun⟩ := bind_ok hrun
  obtain ⟨_, s₃, h₃, hrun⟩ := bind_ok hrun
  obtain ⟨e, s₄, h₄, hrun⟩ := bind_ok hrun
  obtain ⟨_, s₅, h₅, hrun⟩ := bind_ok hrun
  obtain ⟨_, s₆, h₆, hrun⟩ := bind_ok hrun
  obtain ⟨front, s₇, h₇, hrun⟩ := bind_ok hrun
  obtain ⟨_, s₈, h₈, hrun⟩ := bind_ok hrun
  obtain ⟨_, s₉, h₉, hrun⟩ := bind_ok hrun
  obtain ⟨count, s₁₀, h₁₀, h₁₁⟩ := bind_ok hrun
  have e₁ := (load_ok h₁).2
  have e₂ := txAdd_ok h₂
  have e₃ := txAdd_ok h₃
  obtain ⟨hfree, hnull, -, e₄⟩ := txAllocWith_ok h₄
  have e₅ := (store_ok h₅).2
  have e₆ := (store_ok h₆).2
  have e₇ := (load_ok h₇).2
  have e₈ := (store_ok h₈).2
  obtain ⟨⟨w, hw⟩, e₉⟩ := store_ok h₉
  have e₁₀ := (load_ok h₁₀).2
  have e₁₁ := (store_ok h₁₁).2
  rw [e₃, e₂, e₁] at hfree e₄
  refine ⟨e, hfree, hnull, ?_, ?_, ?_⟩
  · rw [e₁₁, e₁₀, Heap.get_put_other _ _ _ _ (by simp), e₉]
    exact Heap.get_put_self _ _ hw
  · intro v hv
    have hne := Heap.ne_of_free hfree hv
    rw [e₁₁, e₁₀, Heap.get_put_other _ _ _ _ (by simp), e₉, Heap.get_put_other _ _ _ _ (by simp),
      e₈, e₇, Heap.get_put_of_ne _ _ _ _ hne, e₆, Heap.get_put_of_ne _ _ _ _ hne, e₅,
      Heap.get_put_of_ne _ _ _ _ hne, e₄, Heap.get_congr (Function.update_of_ne hne _ _)]
    exact hv
  · intro o
    rw [e₁₁, shape_put, e₁₀, e₉, shape_put, e₈, shape_put, e₇, e₆, shape_put, e₅, shape_put, e₄]
    by_cases ho : o = e
    · subst ho
      rw [if_pos rfl, shape, Function.update_self]
      rfl
    · rw [if_neg ho, shape, Function.update_of_ne ho, shape]

theorem removeAdd_heap {i : ℕ} {prev : PMEMoid}
    (hrun : removeAdd hm i prev env s = .ok () s') : s'.heap = s.heap := by
  unfold removeAdd at hrun
  split at hrun
  · obtain ⟨current, s₁, h₁, h₂⟩ := bind_ok hrun
    rw [txAdd_ok h₂, (load_ok h₁).2]
  · exact txAdd_ok hrun

theorem removeLink_shape {i : ℕ} {prev next : PMEMoid}
    (hrun : removeLink bs i prev next env s = .ok () s') (o : PMEMoid) :
    shape s'.heap o = shape s.heap o := by
  unfold removeLink at hrun
  split at hrun
  · rw [(store_ok hrun).2, shape_put]
  · rw [(store_ok hrun).2, shape_put]

theorem removeLink_buckets {i : ℕ} {prev next : PMEMoid}
    (hrun : removeLink bs i prev next env s = .ok () s') (o : PMEMoid) :
    s'.heap.get o .buckets = s.heap.get o .buckets := by
  unfold removeLink at hrun
  split at hrun
  · rw [(store_ok hrun).2, Heap.get_put_other _ _ _ _ (by simp)]
  · rw [(store_ok hrun).2, Heap.get_put_other _ _ _ _ (by simp)]

theorem removeBody_shape {i : ℕ} {prev var : PMEMoid} (hnull : var.isNull = false)
    (hrun : removeBody hm bs i prev var env s = .ok () s') :
    (∀ o, o ≠ var → s'.heap.get o .buckets = s.heap.get o .buckets) ∧
      ∀ o, shape s'.heap o = if o = var then none else shape s.heap o := by
  obtain ⟨_, s₁, h₁, hrun⟩ := bind_ok hrun
  obtain ⟨_, s₂, h₂, hrun⟩ := bind_ok hrun
  obtain ⟨next, s₃, h₃, hrun⟩ := bind_ok hrun
  obtain ⟨_, s₄, h₄, hrun⟩ := bind_ok hrun
  obtain ⟨count, s₅, h₅, hrun⟩ := bind_ok hrun
  obtain ⟨_, s₆, h₆, h₇⟩ := bind_ok hrun
  have e₁ := removeAdd_heap h₁
  have e₂ := txAdd_ok h₂
  have e₃ := (load_ok h₃).2
  have e₅ := (load_ok h₅).2
  have e₆ := (store_ok h₆).2
  obtain ⟨-, e₇⟩ := txFree_ok hnull h₇
  constructor
  · intro o ho
    rw [e₇, Heap.get_congr (Function.update_of_ne ho _ _), e₆, Heap.get_put_other _ _ _ _ (by simp),
      e₅, removeLink_buckets h₄, e₃, e₂, e₁]
  · intro o
    rw [e₇]
    by_cases ho : o = var
    · subst ho
      rw [if_pos rfl, shape, Function.update_self]
      rfl
    · rw [if_neg ho, shape, Function.update_of_ne ho, ← shape, e₆, shape_put, e₅,
        removeLink_shape h₄, e₃, e₂, e₁]

end Shapes

section Steps
variable {env : PoolEnv} {s s' : PoolState} {h h' : Pool} {hm bs nw : PMEMoid} {a b : UInt32}
  {p n n' : UInt64} {T : ℕ → List Node} {N : List Node}

theorem accounts_perm {N' : List Node} (ha : Accounts h hm bs n N) (hp : N.Perm N') :
    Accounts h hm bs n N' := by
  intro o
  rw [ha o]
  simp only [(hp.map Node.oid).mem_iff]

theorem Table.oid_ne (ht : Table h hm bs a b p n T) {x : Node} (hx : x ∈ nodes n.toNat T) :
    x.oid ≠ hm ∧ x.oid ≠ bs := by
  have hat := ht.nodeAt hx
  exact ⟨node_ne hat ht.buckets (by decide), node_ne hat ht.nbuckets (by decide)⟩

theorem Table.same_array {bs' : PMEMoid} (ht : Table h' hm bs' a b p n T)
    (hbs : h'.get hm .buckets = some bs) : bs' = bs := by
  have h := ht.buckets
  rw [hbs] at h
  exact (Option.some.inj h).symm

theorem created_footprint (hc : Created h hm)
    (hbs : h.get hm .buckets = some bs)
    (hshape : shape h hm = some (Kind.hashmapTx, 48) ∧ shape h bs = some (Kind.buckets, 168))
    (honly : ∀ o, h o ≠ none → o = hm ∨ o = bs) : Footprint h hm bs [] := by
  obtain ⟨bs', a, b, ht⟩ := hc.table
  cases Table.same_array ht hbs
  refine ⟨a, b, _, _, ⟨_, ht, ?_⟩, ?_⟩
  · rw [nodes_empty]
  · intro o
    by_cases ho : o = hm
    · subst ho
      rw [if_pos rfl, hshape.1]
    · by_cases hb : o = bs
      · subst hb
        rw [if_neg ho, if_pos rfl, hshape.2]
        rfl
      · have hnone : h o = none := by
          by_contra hlive
          rcases honly o hlive with h | h
          · exact ho h
          · exact hb h
        rw [if_neg ho, if_neg hb, shape_eq_none.mpr hnone]
        rfl

theorem footprint_insert {e e' : PMEMoid} {key : UInt64} {value : PMEMoid}
    (ht : Table h hm bs a b p n T) (ha : Accounts h hm bs n (nodes n.toNat T))
    (hfree : h e' = none) (hnull : e'.isNull = false)
    (hslot : h'.get bs (.bucket (hashOf a b p n key).toNat) = some e')
    (hbs : h'.get hm .buckets = some bs)
    (hshape : ∀ o, shape h' o = if o = e' then some (Kind.entry, 40) else shape h o)
    (hh : Holds h' hm a b p n (⟨e, key, value⟩ :: nodes n.toNat T)) :
    Footprint h' hm bs (⟨e, key, value⟩ :: nodes n.toNat T) := by
  obtain ⟨bs', T', ht', hN⟩ := hh
  cases Table.same_array ht' hbs
  have hdead : ∀ {f : Member} {o : PMEMoid} {v : f.ty}, h.get o f = some v → o ≠ e' :=
    fun hv => Heap.ne_of_free hfree hv
  -- the entry in front of the chain is the one that has been allocated
  have he : e' = e := by
    obtain ⟨o, ho, hc⟩ := ht'.slot _ (hashOf_lt a b p n key ht.pos)
    cases hslot.symm.trans ho
    have hmem : e' ∈ (nodes n.toNat T').map Node.oid := by
      cases hT : T' (hashOf a b p n key).toNat with
      | nil =>
        rw [hT, chain_nil, hnull] at hc
        cases hc
      | cons x xs =>
        rw [hT, chain_cons] at hc
        rw [hc.1]
        apply List.mem_map_of_mem
        apply mem_nodes.mpr
        exact ⟨_, hashOf_lt a b p n key ht.pos, hT ▸ List.mem_cons_self⟩
    rw [(hN.map Node.oid).mem_iff, List.map_cons, List.mem_cons] at hmem
    rcases hmem with he | hmem
    · exact he
    · obtain ⟨x, hx, hxe⟩ := List.mem_map.mp hmem
      exact absurd hxe (hdead (ht.nodeAt hx).key)
  refine ⟨a, b, p, n, ⟨T', ht', hN⟩, ?_⟩
  intro o
  rw [hshape o, ha o]
  by_cases ho : o = e'
  · subst ho
    have hm_ne : o ≠ hm := (hdead ht.buckets).symm
    have bs_ne : o ≠ bs := (hdead ht.nbuckets).symm
    cases he
    simp [hm_ne, bs_ne]
  · simp [ho, ← he]

theorem footprint_remove {x : Node} (ht : Table h hm bs a b p n T)
    (ha : Accounts h hm bs n (nodes n.toNat T)) (hp : (x::N).Perm (nodes n.toNat T))
    (hbs : h'.get hm .buckets = some bs)
    (hshape : ∀ o, shape h' o = if o = x.oid then none else shape h o)
    (hh : Holds h' hm a b p n N) : Footprint h' hm bs N := by
  obtain ⟨bs', T', ht', hN⟩ := hh
  cases Table.same_array ht' hbs
  have hx : x ∈ nodes n.toNat T := hp.mem_iff.mp List.mem_cons_self
  have hnodup := (hp.map Node.oid).nodup_iff.mpr (Table.oids_nodup ht)
  have hnot : x.oid ∉ N.map Node.oid := (List.nodup_cons.mp hnodup).1
  refine ⟨a, b, p, n, ⟨T', ht', hN⟩, ?_⟩
  intro o
  rw [hshape o, accounts_perm ha hp.symm o]
  by_cases ho : o = x.oid
  · subst ho
    have hne := Table.oid_ne ht hx
    rw [if_pos rfl, if_neg hne.1, if_neg hne.2, if_neg hnot]
  · simp [ho]

theorem footprint_replaced (ht : Table h hm bs a b p n T) (hN : (nodes n.toNat T).Perm N)
    (ha : Accounts h hm bs n N) (hr : Replaced h h' hm bs nw n')
    (hh : ∃ a b p n, Holds h' hm a b p n N) : Footprint h' hm nw N := by
  obtain ⟨a', b', p', n'', bs', T', ht', hN'⟩ := hh
  cases Table.same_array ht' hr.buckets
  have hlen : n'' = n' := by
    have h := ht'.nbuckets
    rw [hr.nbuckets] at h
    exact (Option.some.inj h).symm
  subst hlen
  have hsize : (bucketsSize n'').toNat = 8 + 16 * n''.toNat := by
    apply bucketsSize_toNat
    have := ht'.fits
    unfold pmemobjMaxAllocSize at this
    omega
  have hdead : ∀ {f : Member} {o : PMEMoid} {v : f.ty}, h.get o f = some v → o ≠ nw :=
    fun hv => Heap.ne_of_free hr.fresh hv
  refine ⟨a', b', p', n'', ⟨T', ht', hN'⟩, ?_⟩
  intro o
  by_cases hw : o = nw
  · subst hw
    rw [hr.array, hsize, if_neg (hdead ht.buckets).symm, if_pos rfl]
  · by_cases hb : o = bs
    · subst hb
      have hnot : o ∉ N.map Node.oid := by
        intro hmem
        obtain ⟨x, hx, hxo⟩ := List.mem_map.mp hmem
        exact (Table.oid_ne ht (hN.mem_iff.mpr hx)).2 hxo
      rw [shape_eq_none.mpr hr.freed, if_neg ht.bs_ne_hm, if_neg hw, if_neg hnot]
    · rw [hr.others o hw hb, ha o, if_neg hb, if_neg hw]

theorem footprint_resized (hf : Footprint s.heap hm bs N)
    (hr : Resized env hm N s s') : ∃ bs', Footprint s'.heap hm bs' N := by
  cases hr with
  | kept h => exact ⟨bs, h ▸ hf⟩
  | aborted len run h => exact ⟨bs, h.heap ▸ hf⟩
  | rebuilt len run h holds =>
    obtain ⟨a, b, p, n, ⟨T, ht, hN⟩, ha⟩ := hf
    rcases hmTxRebuild_replaced ht.notNull ht.buckets ht.nbuckets run with habort | ⟨nw, hr⟩
    · obtain ⟨-, ends, c, he⟩ := habort
      rw [h.ends] at he
      simp at he
    · exact ⟨nw, footprint_replaced ht hN ha hr holds⟩

end Steps

/-- Every call of a map alone in its heap leaves it alone in its heap. -/
theorem wp_hmStep_footprint {env : PoolEnv} {s : PoolState} {hm bs : PMEMoid} {N : List Node}
    {o : Op} {E : Cause → PoolState → Prop} (hl : s.log = none) (hf : Footprint s.heap hm bs N)
    (hv : o.Valid) (hfuel : 2^64 < env.fuel) :
    wp env (hmStep hm o) (fun _ s' => ∃ bs' N', Footprint s'.heap hm bs' N') E s := by
  obtain ⟨a, b, p, n, ⟨T, ht, hN⟩, ha⟩ := id hf
  have ha' := accounts_perm ha hN.symm
  have hmap : MapIs s.heap hm (binds (nodes n.toNat T)) := ⟨bs, a, b, p, n, T, ht, rfl⟩
  cases o with
  | insert key value =>
    rw [hmStep, wp_bind]
    apply wp_hmTxInsert_top hl ht hfuel
    · intro _
      exact ⟨bs, N, hf⟩
    · intro s' _ habort _
      exact ⟨bs, N, habort.heap ▸ hf⟩
    · intro e s₁ s' _ hrun hc hh hr
      obtain ⟨u, t, t', -, et, -, hbody, et'⟩ := transaction_committed hrun fun _ => hc.ends
      obtain ⟨e', hfree, hnull, hslot, hkeep, hshape⟩ := insertBody_shape hbody
      rw [← et'] at hslot hkeep hshape
      rw [et] at hfree hkeep hshape
      have hf₁ := footprint_insert ht ha' hfree hnull hslot (hkeep bs ht.buckets) hshape hh
      obtain ⟨bs', hf'⟩ := footprint_resized hf₁ hr
      exact ⟨bs', _, hf'⟩
  | remove key =>
    rw [hmStep, wp_bind]
    apply wp_hmTxRemove_top hl ht hfuel
    · intro _
      exact ⟨bs, N, hf⟩
    · intro s' _ habort _
      exact ⟨bs, N, habort.heap ▸ hf⟩
    · intro i pre x post N' s₁ s' hk hp hrun hT hc hh hr
      have hx : x ∈ nodes n.toNat T := hp.mem_iff.mp List.mem_cons_self
      obtain ⟨u, t, t', -, et, -, hbody, et'⟩ := transaction_committed hrun fun _ => hc.ends
      obtain ⟨hkeep, hshape⟩ := removeBody_shape (ht.nodeAt hx).notNull hbody
      rw [← et'] at hkeep hshape
      rw [et] at hkeep hshape
      have hbs : s₁.heap.get hm .buckets = some bs := by
        rw [hkeep hm (Table.oid_ne ht hx).1.symm]
        exact ht.buckets
      obtain ⟨bs', hf'⟩ := footprint_resized (footprint_remove ht ha' hp hbs hshape hh) hr
      exact ⟨bs', _, hf'⟩
  | get key =>
    rw [hmStep, wp_bind]
    exact wp_hmTxGet hmap hfuel ⟨bs, N, hf⟩
  | lookup key =>
    rw [hmStep, wp_bind]
    exact wp_hmTxLookup hmap hfuel ⟨bs, N, hf⟩
  | count =>
    rw [hmStep, wp_bind, hmTxCount, wp_dRo ht.count]
    exact ⟨bs, N, hf⟩
  | rebuild newLen =>
    rw [hmStep, wp_bind, hmTxCmd, if_pos rfl, wp_bind]
    have hresized := wp_resized (E := E) hl ht hN hv hfuel
    apply wp_mono hresized
    · intro _ s' hr
      obtain ⟨bs', hf'⟩ := footprint_resized hf hr
      exact ⟨bs', N, hf'⟩
    · intro _ _ h
      exact h

section Runs
variable {ι : Type} [DecidableEq ι] {hm : ι → PMEMoid} {s₀ s : PoolState}
  {P₀ : ι → Pool} {m₀ : ι → Bindings} {xs : List ((ι × Try) × Ret)}

theorem heapRun_footprint {hm bs : PMEMoid} {N : List Node} {h₀ h : Pool} {xs : List (Try × Ret)}
    (hf : Footprint h₀ hm bs N) (hrun : Run (HeapCall hm) h₀ xs h) :
    ∃ bs N, Footprint h hm bs N := by
  apply Run.invariant (I := fun h => ∃ bs N, Footprint h hm bs N) ⟨bs, N, hf⟩ _ hrun
  rintro h t r h' ⟨bs, N, hf⟩ ⟨s, s', hl, -, rfl, rfl, hv, env, hfuel, hok, -⟩
  exact wp_result (wp_hmStep_footprint (E := fun _ _ => False) hl hf hv hfuel) hok

theorem Footprint.live_iff {h : Pool} {hm bs : PMEMoid} {N : List Node}
    (hf : Footprint h hm bs N) (o : PMEMoid) :
    h o ≠ none ↔ o = hm ∨ o = bs ∨ o ∈ N.map Node.oid := by
  obtain ⟨a, b, p, n, -, ha⟩ := hf
  rw [ne_eq, ← shape_eq_none, ha o]
  split
  · simp_all
  · split
    · simp_all
    · split <;> simp_all

theorem Footprint.mapIs {h : Pool} {hm bs : PMEMoid} {N : List Node} (hf : Footprint h hm bs N) :
    MapIs h hm (binds N) := by
  obtain ⟨a, b, p, n, ⟨T, ht, hN⟩, -⟩ := hf
  exact ⟨bs, a, b, p, n, T, ht, (binds_perm hN ht.distinct).symm⟩

theorem Footprint.nodup {h : Pool} {hm bs : PMEMoid} {N : List Node} (hf : Footprint h hm bs N) :
    (N.map Node.key).Nodup ∧ (N.map Node.oid).Nodup := by
  obtain ⟨a, b, p, n, ⟨T, ht, hN⟩, -⟩ := hf
  exact ⟨(hN.map Node.key).nodup_iff.mp ht.distinct,
    (hN.map Node.oid).nodup_iff.mp (Table.oids_nodup ht)⟩

/-- A heap determines the map: its own queries would tell two maps apart. -/
theorem MapIs.unique {h : Pool} {hm : PMEMoid} {m m' : Bindings} (hmap : MapIs h hm m)
    (hmap' : MapIs h hm m') : m = m' := by
  have hfuel : 2^64 < quietEnv.fuel := Nat.lt_succ_self _
  let s : PoolState := ⟨h, none, 0, 0, []⟩
  funext key
  have hget : wp quietEnv (hmTxGet hm key) (fun r _ => r = (m key).getD oidNull)
      (fun _ _ => False) s := wp_hmTxGet hmap hfuel rfl
  have hlookup : wp quietEnv (hmTxLookup hm key) (fun r _ => r = if (m key).isSome then 1 else 0)
      (fun _ _ => False) s := wp_hmTxLookup hmap hfuel rfl
  obtain ⟨v, t, hrun, hv⟩ := wp_returns hget
  obtain ⟨r, t', hrun', hr⟩ := wp_returns hlookup
  have hget' : wp quietEnv (hmTxGet hm key) (fun r _ => r = (m' key).getD oidNull)
      (fun _ _ => False) s := wp_hmTxGet hmap' hfuel rfl
  have hlookup' : wp quietEnv (hmTxLookup hm key) (fun r _ => r = if (m' key).isSome then 1 else 0)
      (fun _ _ => False) s := wp_hmTxLookup hmap' hfuel rfl
  have hv' := hv.symm.trans (wp_result hget' hrun)
  have hr' := hr.symm.trans (wp_result hlookup' hrun')
  cases hm : m key <;> cases hm' : m' key <;> simp_all

/-- However the calls on the maps of a pool are interleaved, the live objects
are those that belong to no map, the headers, one array for each map and one
entry for each of its keys. -/
theorem maps_leak_nothing {bs₀ : ι → PMEMoid} {N₀ : ι → List Node} (hl : s₀.log = none)
    (hp : Parts s₀.heap P₀) (hfoot : ∀ i, Footprint (P₀ i) (hm i) (bs₀ i) (N₀ i))
    (hrun : Run (PoolCall hm) s₀ xs s) (hsmall : Small (fun i => binds (N₀ i)) xs) :
    ∃ (P : ι → Pool) (bs : ι → PMEMoid) (N : ι → List Node),
      Parts s.heap P ∧ outside s.heap P = outside s₀.heap P₀ ∧
      (∀ i, Footprint (P i) (hm i) (bs i) (N i)) ∧
      (∀ i, (N i).length =
        liveKeys (specState trySpec (binds (N₀ i)) ((callsOf i xs).map Prod.fst))) ∧
      ∀ o, s.heap o ≠ none ↔ outside s₀.heap P₀ o ≠ none ∨
        ∃ i, o = hm i ∨ o = bs i ∨ o ∈ (N i).map Node.oid := by
  obtain ⟨-, P, hp', hout, hruns⟩ := poolRun_parts hl hp (fun i => (hfoot i).mapIs) hrun hsmall
  have hends : ∀ i, ∃ bs N, Footprint (P i) (hm i) bs N := fun i =>
    heapRun_footprint (hfoot i) (hruns i)
  choose bs N hfoot' using hends
  refine ⟨P, bs, N, hp', hout, hfoot', ?_, ?_⟩
  · intro i
    have hmap := (heapRun_refines (hfoot i).mapIs (hruns i) (hsmall i)).2
    rw [MapIs.unique hmap (hfoot' i).mapIs, liveKeys_binds (hfoot' i).nodup.1]
  · intro o
    rw [← hout]
    simp only [← (hfoot' _).live_iff]
    constructor
    · intro ho
      by_cases hpart : ∃ i, P i o ≠ none
      · exact Or.inr hpart
      · left
        rwa [outside_of_none (fun i => by_contra fun hi => hpart ⟨i, hi⟩)]
    · rintro (ho | ⟨i, hi⟩)
      · intro hdead
        exact ho (outside_of_dead hdead)
      · obtain ⟨obj, hobj⟩ := Option.ne_none_iff_exists'.mp hi
        rw [hp'.within i o obj hobj]
        simp

end Runs

section Sample

def pairArrays : Bool → PMEMoid
  | false => newBuckets
  | true => otherBuckets

theorem pairParts_footprint (i : Bool) :
    Footprint (pairParts i) (pairMaps i) (pairArrays i) [] := by
  cases i with
  | false => exact created_footprint newHeap_created rfl ⟨rfl, rfl⟩ fun o ho => newHeap_live ho
  | true => exact created_footprint otherHeap_created rfl ⟨rfl, rfl⟩ fun o ho => otherHeap_live ho

theorem maps_leak_nothing_pair : ∃ (s : PoolState) (bs : Bool → PMEMoid) (N : Bool → List Node),
    Run (PoolCall pairMaps) pairState pairCalls s ∧
    (N false).length = 0 ∧ (N true).length = 1 ∧
    ∀ o, s.heap o ≠ none ↔ outside pairState.heap pairParts o ≠ none ∨
      ∃ i, o = pairMaps i ∨ o = bs i ∨ o ∈ (N i).map Node.oid := by
  obtain ⟨s, hrun, -⟩ := pairCalls_run
  obtain ⟨P, bs, N, -, -, -, hlen, hlive⟩ := maps_leak_nothing rfl pairState_parts
    pairParts_footprint hrun (small_of_length _ (by decide))
  have hnone : specState trySpec (fun _ => none) ((callsOf false pairCalls).map Prod.fst) =
      binds [] := by
    funext k
    by_cases hk : k = 3 <;>
      simp [callsOf, pairCalls, specState, trySpec, mapSpec, hk, binds]
  have hone : specState trySpec (fun _ => none) ((callsOf true pairCalls).map Prod.fst) =
      binds [⟨oidNull, 3, ⟨1, 8⟩⟩] := by
    rw [binds_cons]
    simp [callsOf, pairCalls, specState, trySpec, mapSpec]
    rfl
  refine ⟨s, bs, N, hrun, ?_, ?_, hlive⟩
  · have h := hlen false
    rw [h]
    exact (congrArg liveKeys hnone).trans (liveKeys_binds (by simp))
  · have h := hlen true
    rw [h]
    exact (congrArg liveKeys hone).trans (liveKeys_binds (by simp))

end Sample

end RtsCache.HashmapFootprint
