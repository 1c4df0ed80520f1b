import RtsCache.HashmapRuns

/-!
# Aborts of the hash map

Whichever library call fails and wherever the machine crashes, a transaction
of an outermost call is all or nothing: an aborted insertion or removal leaves
the heap of the call, an aborted rebuild the heap it started from.
-/

set_option autoImplicit false

namespace RtsCache.HashmapAborts
open RtsCache.UndoHeap RtsCache.UndoMachine RtsCache.UndoRules RtsCache.PoolLayout
open RtsCache.HashmapMachine RtsCache.HashmapInvariant RtsCache.HashmapOps RtsCache.HashmapRuns

variable {R : Type}

/-- A call that returns `r` from `s` in `s'`. When its own transaction aborts it
returns `failed`; when that commits it returns `done` and the map is `m'`. -/
structure AbortAtomic (env : PoolEnv) (hm : PMEMoid) (m' : Bindings) (failed done : R)
    (s : PoolState) (r : R) (s' : PoolState) : Prop where
  own : FirstAborts s s' → s'.heap = s.heap ∧ r = failed
  rebuild : ∀ c, s'.ends = s.ends ++ [.committed, .aborted c] → ∃ s₁ len, Committed s s₁ ∧
    MapIs s₁.heap hm m' ∧ hmTxRebuild hm len env s₁ = .ok () s' ∧ s'.heap = s₁.heap ∧ r = done
  ends : s' = s ∨ (∃ t, s'.ends = s.ends ++ [t]) ∨ ∃ t, s'.ends = s.ends ++ [.committed, t]

variable {env : PoolEnv} {hm : PMEMoid} {m m' : Bindings} {failed done r : R} {s s₁ s' : PoolState}

theorem abortAtomic_untouched : AbortAtomic env hm m' failed done s r s where
  own := fun ⟨c, hc⟩ => by simp at hc
  rebuild c hc := by simp at hc
  ends := Or.inl rfl

theorem abortAtomic_aborted (h : Aborted s s') (hr : r = failed) :
    AbortAtomic env hm m' failed done s r s' where
  own _ := ⟨h.heap, hr⟩
  rebuild c hc := by
    obtain ⟨d, hd⟩ := h.ends
    simp [hd] at hc
  ends := by
    obtain ⟨d, hd⟩ := h.ends
    exact Or.inr (Or.inl ⟨_, hd⟩)

theorem abortAtomic_resized {N : List Node} (h : Committed s s₁) (hm' : MapIs s₁.heap hm m')
    (hr : Resized env hm N s₁ s') : AbortAtomic env hm m' failed r s r s' := by
  cases hr with
  | kept he =>
    subst he
    refine ⟨fun hf => absurd hf (not_firstAborts_of_committed h.ends), fun c hc => ?_,
      Or.inr (Or.inl ⟨_, h.ends⟩)⟩
    simp [h.ends] at hc
  | aborted len run ha =>
    obtain ⟨d, hd⟩ := ha.ends
    rw [h.ends, List.append_assoc] at hd
    exact ⟨fun hf => absurd hf (not_firstAborts_of_committed hd),
      fun _ _ => ⟨s₁, len, h, hm', run, ha.heap, rfl⟩, Or.inr (Or.inr ⟨_, hd⟩)⟩
  | rebuilt len run hc _ =>
    have hd := hc.ends
    rw [h.ends, List.append_assoc] at hd
    refine ⟨fun hf => absurd hf (not_firstAborts_of_committed hd), fun c hc => ?_,
      Or.inr (Or.inr ⟨_, hd⟩)⟩
    simp [hd] at hc

theorem insert_abortAtomic {key : UInt64} {value : PMEMoid} (hl : s.log = none)
    (hm' : MapIs s.heap hm m) (hfuel : 2^64 < env.fuel) :
    ∃ r s', hmTxInsert hm key value env s = .ok r s' ∧
      AbortAtomic env hm (Function.update m key (some value)) (-1) 0 s r s' := by
  obtain ⟨bs, a, b, p, n, T, ht, rfl⟩ := hm'
  refine wp_returns (wp_hmTxInsert_top hl ht hfuel (fun _ => abortAtomic_untouched)
    (fun s' _ ha _ => abortAtomic_aborted ha rfl) fun e s₁ s' hk _ hc hh hr => ?_)
  have := hh.mapIs
  rw [binds_cons] at this
  exact abortAtomic_resized hc this hr

theorem remove_abortAtomic {key : UInt64} (hl : s.log = none) (hm' : MapIs s.heap hm m)
    (hfuel : 2^64 < env.fuel) :
    ∃ r s', hmTxRemove hm key env s = .ok r s' ∧
      AbortAtomic env hm (Function.update m key none) oidNull ((m key).getD oidNull) s r s' := by
  obtain ⟨bs, a, b, p, n, T, ht, rfl⟩ := hm'
  refine wp_returns (wp_hmTxRemove_top hl ht hfuel (fun _ => abortAtomic_untouched)
    (fun s' _ ha _ => abortAtomic_aborted ha rfl) fun i pre x post N s₁ s' hk hp _ _ hc hh hr => ?_)
  have hbind : binds (nodes n.toNat T) = binds (x::N) := binds_perm hp.symm ht.distinct
  have hget : (binds (x::N) key).getD oidNull = x.value := by
    rw [binds_cons, hk, Function.update_self]
    rfl
  have := hh.mapIs
  rw [binds_erase ((hp.map Node.key).nodup_iff.mpr ht.distinct), hk] at this
  rw [hbind, hget]
  exact abortAtomic_resized hc this hr

theorem rebuild_abortAtomic {newLen : UInt64} (hl : s.log = none) (hm' : MapIs s.heap hm m)
    (hlen : 8 + 16 * newLen.toNat < 2^64) (hfuel : 2^64 < env.fuel) :
    ∃ s', hmTxRebuild hm newLen env s = .ok () s' ∧ (FirstAborts s s' → s'.heap = s.heap) := by
  obtain ⟨bs, a, b, p, n, T, ht, rfl⟩ := hm'
  obtain ⟨_, s', hrun, h⟩ := wp_returns (wp_hmTxRebuild_top
    (Q := fun _ s' => FirstAborts s s' → s'.heap = s.heap) hl ht hlen hfuel (fun s' ha _ => ha.heap)
    fun s' hc _ hf => absurd hf (not_firstAborts_of_committed hc.ends))
  exact ⟨s', hrun, h⟩

/-- Abort atomicity of the three transactions of a well-formed map, for every
environment. -/
theorem hashmap_aborts_atomic (env : PoolEnv) (key : UInt64) (value : PMEMoid) (newLen : UInt64)
    (hl : s.log = none) (hm' : MapIs s.heap hm m) (hlen : 8 + 16 * newLen.toNat < 2^64)
    (hfuel : 2^64 < env.fuel) :
    (∃ r s', hmTxInsert hm key value env s = .ok r s' ∧
      AbortAtomic env hm (Function.update m key (some value)) (-1) 0 s r s') ∧
    (∃ o s', hmTxRemove hm key env s = .ok o s' ∧
      AbortAtomic env hm (Function.update m key none) oidNull ((m key).getD oidNull) s o s') ∧
    ∃ s', hmTxRebuild hm newLen env s = .ok () s' ∧ (FirstAborts s s' → s'.heap = s.heap) :=
  ⟨insert_abortAtomic hl hm' hfuel, remove_abortAtomic hl hm' hfuel,
    rebuild_abortAtomic hl hm' hlen hfuel⟩

def crashingEnv : PoolEnv := { quietEnv with crashes := fun n => n = 4 }

theorem hashmap_aborts_atomic_two :
    (∃ s', hmTxInsert newMap 3 ⟨1, 9⟩ crashingEnv twoState = .ok (-1) s' ∧
      s'.ends = [.aborted .crash] ∧ s'.heap = twoHeap) ∧
    (∃ s', hmTxRebuild newMap 1 crashingEnv twoState = .ok () s' ∧
      s'.ends = [.aborted .crash] ∧ s'.heap = twoHeap) ∧
    ∃ s₁ s' : PoolState, hmTxRemove newMap 0 crashingEnv twoState = .ok ⟨1, 7⟩ s' ∧
      s'.ends = [.committed, .aborted .crash] ∧ s'.heap = s₁.heap ∧
      MapIs s₁.heap newMap (Function.update (binds (nodes 2 twoChains)) 0 none) := by
  have hmap : MapIs twoState.heap newMap (binds (nodes 2 twoChains)) :=
    ⟨_, _, _, _, _, _, twoHeap_table, rfl⟩
  obtain ⟨s₁, hinsert, e₁⟩ : ∃ s₁, hmTxInsert newMap 3 ⟨1, 9⟩ crashingEnv twoState =
      .ok (-1) s₁ ∧ s₁.ends = [.aborted .crash] := ⟨_, rfl, rfl⟩
  obtain ⟨s₂, hrebuild, e₂⟩ : ∃ s₂, hmTxRebuild newMap 1 crashingEnv twoState = .ok () s₂ ∧
      s₂.ends = [.aborted .crash] := ⟨_, rfl, rfl⟩
  obtain ⟨s₃, hremove, e₃⟩ : ∃ s₃, hmTxRemove newMap 0 crashingEnv twoState = .ok ⟨1, 7⟩ s₃ ∧
      s₃.ends = [.committed, .aborted .crash] := ⟨_, rfl, rfl⟩
  have hfuel : 2^64 < crashingEnv.fuel := Nat.lt_succ_self _
  obtain ⟨⟨r, t₁, hrun₁, h₁⟩, -, t₂, hrun₂, h₂⟩ :=
    hashmap_aborts_atomic crashingEnv 3 ⟨1, 9⟩ 1 (s := twoState) rfl hmap (by decide) hfuel
  obtain ⟨-, ⟨v, t₃, hrun₃, h₃⟩, -⟩ :=
    hashmap_aborts_atomic crashingEnv 0 ⟨1, 9⟩ 1 (s := twoState) rfl hmap (by decide) hfuel
  cases hinsert.symm.trans hrun₁
  cases hrebuild.symm.trans hrun₂
  cases hremove.symm.trans hrun₃
  refine ⟨⟨s₁, hinsert, e₁, (h₁.own ⟨.crash, by rw [e₁]; rfl⟩).1⟩,
    ⟨s₂, hrebuild, e₂, h₂ ⟨.crash, by rw [e₂]; rfl⟩⟩, ?_⟩
  obtain ⟨u, -, -, hmap', -, heap, -⟩ := h₃.rebuild .crash e₃
  exact ⟨u, s₃, hremove, e₃, heap, hmap'⟩

end RtsCache.HashmapAborts
