import RtsCache.HashmapNodes
import RtsCache.QueueRuns

/-!
# The room of flexible arrays

The bucket array and the queue are allocated with a size computed modulo
2^64, while their slots are addressed modulo the count they store. The slots
lie within the object exactly when the computation of its size did not wrap.
-/

set_option autoImplicit false

namespace RtsCache.FlexibleArrays
open RtsCache.UndoHeap RtsCache.UndoMachine RtsCache.UndoRules RtsCache.UndoWrites
open RtsCache.PoolLayout RtsCache.HashmapMachine RtsCache.HashmapInvariant RtsCache.HashmapOps
open RtsCache.HashmapNodes RtsCache.HashmapRuns RtsCache.QueueMachine RtsCache.QueueRuns

/-- The bucket array of the map has room for its slots, and every slot a key
can hash to can be read. -/
def BucketsFit (h : Pool) (hm : PMEMoid) : Prop :=
  ∃ bs len size, h.get hm .buckets = some bs ∧ h.get bs .nbuckets = some len ∧
    shape h bs = some (Kind.buckets, size) ∧ 8 + 16 * len.toNat ≤ size ∧
    ∀ a b p key, (h.get bs (.bucket (hashOf a b p len key).toNat)).isSome

/-- The queue has room for its slots, and every slot a counter can point to
can be read. -/
def EntriesFit (h : QueuePool) (q : PMEMoid) : Prop :=
  ∃ (capacity : UInt64) (size : ℕ), h.get q .capacity = some capacity ∧
    shape h q = some (QueueKind.queue, size) ∧ 24 + 16 * capacity.toNat ≤ size ∧
    ∀ back : UInt64, (h.get q (.entries (back % capacity).toNat)).isSome

structure Resized (n : UInt64) (hm : PMEMoid) (env : PoolEnv) (s s' : PoolState) : Prop where
  wellFormed : ∃ bs a b p len T, Table s.heap hm bs a b p len T
  returns : hmTxCmd hm 0 n env s = .ok 0 s'
  committed : s.log = none → Committed s s'

structure Allocated (n : UInt64) (q : PMEMoid) (env : QueueEnv) (s s' : QueueState) : Prop where
  pos : n ≠ 0
  returns : queueNew n env s = .ok (some q) s'

theorem get_isSome_of_shape {F : Type} [Layout F] {h : Heap PMEMoid F} {o : PMEMoid} {f : F}
    {size : ℕ} (hs : shape h o = some (Layout.kind f, size)) (he : Layout.extent f ≤ size) :
    (h.get o f).isSome := by
  cases ho : h o with
  | none =>
    rw [shape_eq_none.mpr ho] at hs
    cases hs
  | some obj =>
    rw [shape_eq_some ho, Option.some.injEq, Prod.mk.injEq] at hs
    rw [Heap.get_eq_some.mpr ⟨obj, ho, ⟨hs.1, hs.2 ▸ he⟩, rfl⟩]
    rfl

section Buckets
variable {n : UInt64} {hm : PMEMoid} {env : PoolEnv} {s s' : PoolState}

theorem bucketsSize_mod (n : UInt64) : (bucketsSize n).toNat = (8 + 16 * n.toNat) % 2^64 := by
  simp only [bucketsSize, sizeofBuckets, HashmapMachine.sizeofToid, UInt64.toNat_add,
    UInt64.toNat_mul, UInt64.reduceToNat]
  omega

theorem le_mod_iff {k m : ℕ} (hm : 0 < m) : k ≤ k % m ↔ k < m := by
  constructor
  · intro h
    exact Nat.lt_of_le_of_lt h (Nat.mod_lt k hm)
  · intro h
    rw [Nat.mod_eq_of_lt h]

theorem bucketsFit_iff {h h' : Pool} {bs nw : PMEMoid} {n' : UInt64}
    (hr : Replaced h h' hm bs nw n') (hpos : n' ≠ 0) :
    BucketsFit h' hm ↔ 8 + 16 * n'.toNat < 2^64 := by
  rw [← le_mod_iff (Nat.two_pow_pos 64), ← bucketsSize_mod]
  constructor
  · rintro ⟨bs', len, size, hb, hn, hs, hroom, -⟩
    cases hr.buckets.symm.trans hb
    cases hr.nbuckets.symm.trans hn
    cases hr.array.symm.trans hs
    exact hroom
  · intro hroom
    refine ⟨nw, n', _, hr.buckets, hr.nbuckets, hr.array, hroom, ?_⟩
    intro a b p key
    apply get_isSome_of_shape (f := Member.bucket _) hr.array
    have hlt := hashOf_lt a b p n' key hpos
    show 8 + 16 * (_ + 1) ≤ _
    omega

theorem Resized.replaced (hc : Resized n hm env s s') :
    ∃ bs nw n', Replaced s.heap s'.heap hm bs nw n' ∧ n' ≠ 0 ∧
      (8 + 16 * n'.toNat < 2^64 ↔ n.toNat < 2^60) := by
  obtain ⟨bs, a, b, p, len, T, ht⟩ := hc.wellFormed
  have hrun := hc.returns
  rw [hmTxCmd, if_pos rfl] at hrun
  obtain ⟨_, s₁, hrun, hdone⟩ := bind_ok hrun
  cases hdone
  rcases hmTxRebuild_replaced ht.notNull ht.buckets ht.nbuckets hrun with habort | ⟨nw, hr⟩
  · obtain ⟨hl, ends, c, he⟩ := habort
    rw [(hc.committed hl).ends] at he
    simp at he
  · refine ⟨bs, nw, _, hr, rebuiltLen_pos ht.pos, ?_⟩
    have hfits := ht.fits
    unfold pmemobjMaxAllocSize at hfits
    unfold rebuiltLen
    split
    · rename_i hzero
      rw [hzero, UInt64.toNat_zero]
      omega
    · omega

theorem resized_fits_iff (hc : Resized n hm env s s') :
    BucketsFit s'.heap hm ↔ n.toNat < 2^60 := by
  obtain ⟨bs, nw, n', hr, hpos, hlen⟩ := hc.replaced
  rw [bucketsFit_iff hr hpos, hlen]

/-- Below the bound no step of the rebuild leaves the object either. -/
theorem rebuild_not_stuck (hc : ∃ bs a b p len T, Table s.heap hm bs a b p len T)
    (hn : n.toNat < 2^60) (hfuel : 2^64 < env.fuel) : hmTxCmd hm 0 n env s ≠ .stuck := by
  obtain ⟨bs, a, b, p, len, T, ht⟩ := hc
  have hlen : 8 + 16 * n.toNat < 2^64 := by omega
  have hrebuild : ∃ Q E, wp env (hmTxRebuild hm n) Q E s := by
    cases hl : s.log with
    | none =>
      refine ⟨fun _ _ => True, fun _ _ => True, ?_⟩
      apply wp_hmTxRebuild_top hl ht hlen hfuel
      · intro s' h
        trivial
      · intro s' h hh
        trivial
    | some l =>
      have hin : s.log.isSome := by
        rw [hl]
        rfl
      exact ⟨_, _, wp_hmTxRebuild_nested hin ht hlen hfuel⟩
  obtain ⟨Q, E, hrebuild⟩ := hrebuild
  have hcall : wp env (hmTxCmd hm 0 n) (fun _ _ => True) (fun _ _ => True) s := by
    rw [hmTxCmd, if_pos rfl, wp_bind]
    apply wp_mono hrebuild
    · intro a s' h
      trivial
    · intro c s' h
      trivial
  intro hstuck
  rw [wp, hstuck] at hcall
  exact hcall

end Buckets

section Queue
variable {n : UInt64} {q : PMEMoid} {env : QueueEnv} {s s' : QueueState}

theorem queueSize_mod (n : UInt64) :
    (sizeofQueue + QueueMachine.sizeofToid * n).toNat = (24 + 16 * n.toNat) % 2^64 := by
  simp only [sizeofQueue, QueueMachine.sizeofToid, UInt64.toNat_add, UInt64.toNat_mul,
    UInt64.reduceToNat]
  omega

theorem allocated_fits_iff (hc : Allocated n q env s s') :
    EntriesFit s'.heap q ↔ n.toNat < 2^60 - 1 := by
  obtain ⟨-, -, -, hheap⟩ := allocAtomic_ok hc.returns
  have hobj : s'.heap q = some ⟨.queue, (sizeofQueue + QueueMachine.sizeofToid * n).toNat,
      queueConstructor n (env.junk s.calls)⟩ := by
    rw [hheap, Function.update_self]
  have hshape : shape s'.heap q = some (QueueKind.queue, (24 + 16 * n.toNat) % 2^64) := by
    rw [shape_eq_some hobj, queueSize_mod]
  have hlen : 24 + 16 * n.toNat < 2^64 ↔ n.toNat < 2^60 - 1 := by omega
  rw [← hlen, ← le_mod_iff (Nat.two_pow_pos 64)]
  constructor
  · rintro ⟨capacity, size, hcap, hs, hroom, -⟩
    obtain ⟨obj, hobj', -, hval⟩ := Heap.get_eq_some.mp hcap
    cases hobj.symm.trans hobj'
    cases hshape.symm.trans hs
    cases hval
    exact hroom
  · intro hroom
    have hcap : s'.heap.get q .capacity = some n := by
      apply Heap.get_eq_some.mpr
      refine ⟨_, hobj, ⟨rfl, ?_⟩, rfl⟩
      show 24 ≤ (sizeofQueue + QueueMachine.sizeofToid * n).toNat
      rw [queueSize_mod]
      omega
    refine ⟨n, _, hcap, hshape, hroom, ?_⟩
    intro back
    apply get_isSome_of_shape (f := QueueMember.entries _) hshape
    have hpos : 0 < n.toNat := Nat.pos_of_ne_zero fun h => hc.pos (UInt64.toNat_inj.mp h)
    have hlt := Nat.mod_lt back.toNat hpos
    show 24 + 16 * ((back % n).toNat + 1) ≤ (24 + 16 * n.toNat) % 2^64
    rw [UInt64.toNat_mod]
    omega

end Queue

/-- The room of a rebuilt map and of a new queue: it suffices exactly for the
counts whose size in bytes is below 2^64. -/
theorem slots_fit_iff (n : UInt64) :
    (∀ hm env s s', Resized n hm env s s' → (BucketsFit s'.heap hm ↔ n.toNat < 2^60)) ∧
      (∀ hm env s, (∃ bs a b p len T, Table s.heap hm bs a b p len T) → n.toNat < 2^60 →
        2^64 < env.fuel → hmTxCmd hm 0 n env s ≠ .stuck) ∧
      ∀ q env s s', Allocated n q env s s' → (EntriesFit s'.heap q ↔ n.toNat < 2^60 - 1) := by
  refine ⟨?_, ?_, ?_⟩
  · intro hm env s s' hc
    exact resized_fits_iff hc
  · intro hm env s hc hn hfuel
    exact rebuild_not_stuck hc hn hfuel
  · intro q env s s' hc
    exact allocated_fits_iff hc

section Sample

theorem resized_new {n : UInt64} {s' : PoolState}
    (hok : hmTxCmd newMap 0 n quietEnv newState = .ok 0 s') (hends : s'.ends = [.committed])
    (hlog : s'.log = none) : Resized n newMap quietEnv newState s' := by
  obtain ⟨bs, a, b, ht⟩ := newHeap_created.table
  exact ⟨⟨bs, a, b, _, _, _, ht⟩, hok, fun _ => ⟨hlog, hends⟩⟩

theorem slots_fit_iff_three : (∃ s', hmTxCmd newMap 0 3 quietEnv newState = .ok 0 s' ∧
      BucketsFit s'.heap newMap) ∧
    ∃ q s', queueNew 3 quietQueueEnv emptyQueuePool = .ok (some q) s' ∧ EntriesFit s'.heap q := by
  constructor
  · obtain ⟨s', hok, hends, hlog⟩ : ∃ s', hmTxCmd newMap 0 3 quietEnv newState = .ok 0 s' ∧
      s'.ends = [.committed] ∧ s'.log = none := ⟨_, rfl, rfl, rfl⟩
    exact ⟨s', hok, ((slots_fit_iff 3).1 _ _ _ _ (resized_new hok hends hlog)).mpr (by decide)⟩
  · obtain ⟨q, s', hok⟩ : ∃ q s', queueNew 3 quietQueueEnv emptyQueuePool = .ok (some q) s' :=
      ⟨_, _, rfl⟩
    exact ⟨q, s', hok, ((slots_fit_iff 3).2.2 _ _ _ _ ⟨by decide, hok⟩).mpr (by decide)⟩

/-- With 2^60 slots the sizes wrap to those of objects without slots. -/
theorem not_slots_fit : (∃ s', Resized 0x1000000000000000 newMap quietEnv newState s' ∧
      ¬ BucketsFit s'.heap newMap) ∧
    ∃ q s', Allocated 0x1000000000000000 q quietQueueEnv emptyQueuePool s' ∧
      ¬ EntriesFit s'.heap q := by
  constructor
  · obtain ⟨s', hok, hends, hlog⟩ : ∃ s',
      hmTxCmd newMap 0 0x1000000000000000 quietEnv newState = .ok 0 s' ∧
        s'.ends = [.committed] ∧ s'.log = none := ⟨_, rfl, rfl, rfl⟩
    have hc := resized_new hok hends hlog
    refine ⟨s', hc, ?_⟩
    rw [resized_fits_iff hc]
    decide
  · obtain ⟨q, s', hok⟩ : ∃ q s', queueNew 0x1000000000000000 quietQueueEnv emptyQueuePool =
      .ok (some q) s' := ⟨_, _, rfl⟩
    have hc : Allocated 0x1000000000000000 q quietQueueEnv emptyQueuePool s' := ⟨by decide, hok⟩
    refine ⟨q, s', hc, ?_⟩
    rw [allocated_fits_iff hc]
    decide

end Sample

end RtsCache.FlexibleArrays
