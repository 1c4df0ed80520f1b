import RtsCache.HashmapRebuild

/-!
# Insertion, removal and rebuild as calls

Inside another transaction a call either leaves a confined change or aborts
the whole; as an outermost call each of its transactions is atomic. The two
readings share the scan before the transaction and the resizing after it.
-/

set_option autoImplicit false

namespace RtsCache.HashmapOps
open RtsCache.UndoHeap RtsCache.UndoMachine RtsCache.UndoRules RtsCache.PoolLayout
open RtsCache.HashmapMachine RtsCache.HashmapInvariant RtsCache.HashmapUpdate
open RtsCache.HashmapScan RtsCache.HashmapBodies RtsCache.HashmapRebuild RtsCache.UndoQuiet

variable {env : PoolEnv} {s : PoolState} {hm bs : PMEMoid} {a b : UInt32} {p n : UInt64}
  {T : ℕ → List Node}

/-- A rebuild asked for length 0 keeps the current one. -/
def rebuiltLen (n newLen : UInt64) : UInt64 := if newLen = 0 then n else newLen

theorem rebuiltLen_pos {newLen : UInt64} (hn : n ≠ 0) : rebuiltLen n newLen ≠ 0 := by
  unfold rebuiltLen
  split <;> assumption

def Holds (h : Pool) (hm : PMEMoid) (a b : UInt32) (p n : UInt64) (N : List Node) : Prop :=
  ∃ bs T, Table h hm bs a b p n T ∧ (nodes n.toNat T).Perm N

section Rebuild
variable {newLen : UInt64} {Q : Unit → PoolState → Prop} {E : Cause → PoolState → Prop}

theorem rebuiltLen_size (ht : Table s.heap hm bs a b p n T) (hlen : 8 + 16 * newLen.toNat < 2^64) :
    8 + 16 * (rebuiltLen n newLen).toNat < 2^64 := by
  have := ht.fits
  unfold rebuiltLen pmemobjMaxAllocSize at *
  split <;> omega

theorem wp_hmTxRebuild_nested (hl : s.log.isSome) (ht : Table s.heap hm bs a b p n T)
    (hlen : 8 + 16 * newLen.toNat < 2^64) (hfuel : 2^64 < env.fuel) :
    wp env (hmTxRebuild hm newLen)
      (fun _ s' => Confined (I := PMEMoid) (F := Member) MapKind s s' ∧
        s'.calls = s.calls + (5 + (nodes n.toNat T).length) ∧
        Holds s'.heap hm a b p (rebuiltLen n newLen) (nodes n.toNat T))
      (Aborts s (5 + (nodes n.toNat T).length)) s := by
  have htick : Confined (I := PMEMoid) (F := Member) MapKind s s.tick := .tick s
  rw [hmTxRebuild, wp_bind, wp_dRo ht.buckets, wp_bind, wp_dRo ht.nbuckets, wp_bind]
  apply wp_transaction_nested hl ⟨htick, Nat.add_le_add_left (by omega) _⟩
  apply wp_mono (wp_rebuildBody (s := s.tick) hl ht (rebuiltLen_pos ht.pos)
    (rebuiltLen_size ht hlen) hfuel)
  · rintro _ s' ⟨h, hc, hh⟩
    have : s.tick.calls = s.calls + 1 := rfl
    exact ⟨htick.trans h, by omega, hh⟩
  · intro c s' h
    exact Aborts.within (by omega) c s' (Aborts.after (j := 1) htick rfl c s' h)

theorem wp_hmTxRebuild_top (hl : s.log = none) (ht : Table s.heap hm bs a b p n T)
    (hlen : 8 + 16 * newLen.toNat < 2^64) (hfuel : 2^64 < env.fuel)
    (habort : ∀ s', Aborted s s' → Q () s')
    (hdone : ∀ s', Committed s s' →
      Holds s'.heap hm a b p (rebuiltLen n newLen) (nodes n.toNat T) → Q () s') :
    wp env (hmTxRebuild hm newLen) Q E s := by
  rw [hmTxRebuild, wp_bind, wp_dRo ht.buckets, wp_bind, wp_dRo ht.nbuckets, wp_bind]
  refine wp_transaction_atomic (K := MapKind)
    (R := fun _ h => Holds h hm a b p (rebuiltLen n newLen) (nodes n.toNat T)) hl
    (wp_mono (wp_rebuildBody (s := s.tick.opened) rfl ht (rebuiltLen_pos ht.pos)
      (rebuiltLen_size ht hlen) hfuel) ?_ ?_) habort fun _ => hdone
  · rintro _ s' ⟨h, -, hh⟩
    exact ⟨h, hh⟩
  · rintro c s' ⟨h, -⟩
    exact h

end Rebuild

section Resize
variable {E : Cause → PoolState → Prop}

theorem ofNat_toNat_lt {k : ℕ} (hk : k < 2^64) : UInt64.ofNat k < n ↔ k < n.toNat := by
  rw [UInt64.lt_iff_toNat_lt, UInt64.toNat_ofNat_of_lt' hk]

theorem wp_insertGrow {num : Int32} {Q : Unit → PoolState → Prop}
    (ht : Table s.heap hm bs a b p n T) (hkeep : Q () s)
    (hgrow : wp env (hmTxRebuild hm (n * 2)) Q E s) : wp env (insertGrow hm bs num) Q E s := by
  rw [insertGrow, wp_bind, wp_dRo ht.count, wp_bind, wp_dRo ht.nbuckets]
  split
  · exact hgrow
  · exact hkeep

theorem wp_removeShrink {Q : Unit → PoolState → Prop} (ht : Table s.heap hm bs a b p n T)
    (hsmall : (nodes n.toNat T).length < 2^64)
    (hkeep : ¬ (nodes n.toNat T).length < n.toNat → Q () s)
    (hshrink : (nodes n.toNat T).length < n.toNat → wp env (hmTxRebuild hm (n / 2)) Q E s) :
    wp env (removeShrink hm bs) Q E s := by
  rw [removeShrink, wp_bind, wp_dRo ht.count, wp_bind, wp_dRo ht.nbuckets]
  split
  · exact hshrink ((ofNat_toNat_lt hsmall).mp ‹_›)
  · exact hkeep fun h => ‹¬ _› ((ofNat_toNat_lt hsmall).mpr h)

theorem double_fits {h : Pool} (ht : Table h hm bs a b p n T) :
    8 + 16 * (n * 2).toNat < 2^64 := by
  have := ht.fits
  unfold pmemobjMaxAllocSize at this
  simp only [UInt64.toNat_mul, UInt64.reduceToNat]
  omega

theorem half_fits {h : Pool} (ht : Table h hm bs a b p n T) :
    8 + 16 * (n / 2).toNat < 2^64 := by
  have := ht.fits
  unfold pmemobjMaxAllocSize at this
  simp only [UInt64.toNat_div, UInt64.reduceToNat]
  omega

end Resize

/-- What may follow a committed insertion or removal: no rebuild, or one that
aborts, or one that commits. -/
inductive Resized (env : PoolEnv) (hm : PMEMoid) (N : List Node) (s₁ s' : PoolState) : Prop
  | kept (h : s' = s₁)
  | aborted (len : UInt64) (run : hmTxRebuild hm len env s₁ = .ok () s') (h : Aborted s₁ s')
  | rebuilt (len : UInt64) (run : hmTxRebuild hm len env s₁ = .ok () s') (h : Committed s₁ s')
      (holds : ∃ a b p n, Holds s'.heap hm a b p n N)

theorem Holds.perm {h : Pool} {N N' : List Node} (hh : Holds h hm a b p n N) (hp : N.Perm N') :
    Holds h hm a b p n N' := by
  obtain ⟨bs, T, ht, hN⟩ := hh
  exact ⟨bs, T, ht, hN.trans hp⟩

theorem Holds.mapIs {h : Pool} {N : List Node} (hh : Holds h hm a b p n N) :
    MapIs h hm (binds N) := by
  obtain ⟨bs, T, ht, hN⟩ := hh
  exact ⟨bs, a, b, p, n, T, ht, (binds_perm hN ht.distinct).symm⟩

theorem Resized.mapIs {N : List Node} {s₁ s' : PoolState} (hr : Resized env hm N s₁ s')
    (h₁ : MapIs s₁.heap hm (binds N)) : MapIs s'.heap hm (binds N) := by
  cases hr with
  | kept h => exact h ▸ h₁
  | aborted len run h => exact h.heap ▸ h₁
  | rebuilt len run h holds =>
    obtain ⟨a, b, p, n, hh⟩ := holds
    exact hh.mapIs

theorem Resized.log {N : List Node} {s₁ s' : PoolState} (hr : Resized env hm N s₁ s')
    (h₁ : s₁.log = none) : s'.log = none := by
  cases hr with
  | kept h => exact h ▸ h₁
  | aborted len run h => exact h.log
  | rebuilt len run h holds => exact h.log

theorem wp_resized {newLen : UInt64} {N : List Node} {E : Cause → PoolState → Prop}
    (hl : s.log = none) (ht : Table s.heap hm bs a b p n T) (hN : (nodes n.toNat T).Perm N)
    (hlen : 8 + 16 * newLen.toNat < 2^64) (hfuel : 2^64 < env.fuel) :
    wp env (hmTxRebuild hm newLen) (fun _ s' => Resized env hm N s s') E s := by
  have h : wp env (hmTxRebuild hm newLen) (fun _ s' => Aborted s s' ∨ (Committed s s' ∧
      Holds s'.heap hm a b p (rebuiltLen n newLen) (nodes n.toNat T))) E s :=
    wp_hmTxRebuild_top hl ht hlen hfuel (fun _ => Or.inl) fun _ hc hh => Or.inr ⟨hc, hh⟩
  refine wp_mono (wp_run h) ?_ fun _ _ h => h
  rintro _ s' ⟨ha | ⟨hc, hh⟩, hrun⟩
  · exact .aborted newLen hrun ha
  · exact .rebuilt newLen hrun hc ⟨a, b, p, _, hh.perm hN⟩

section Insert
variable {key : UInt64} {value : PMEMoid} {E : Cause → PoolState → Prop} {Q : ℤ → PoolState → Prop}

theorem wp_hmTxInsert (ht : Table s.heap hm bs a b p n T) (hfuel : 2^64 < env.fuel)
    (hold : key ∈ (nodes n.toNat T).map Node.key → Q 1 s)
    (hnew : key ∉ (T (hashOf a b p n key).toNat).map Node.key →
      key ∉ (nodes n.toNat T).map Node.key → ∀ num,
      wp env (transaction (insertBody hm bs (hashOf a b p n key).toNat key value))
        (fun r s' => match r with
          | none => Q (-1) s'
          | some _ => wp env (insertGrow hm bs num) (fun _ s'' => Q 0 s'') E s') E s) :
    wp env (hmTxInsert hm key value) Q E s := by
  have hi := hashOf_lt a b p n key ht.pos
  obtain ⟨o, ho, hc⟩ := ht.slot _ hi
  have hlen : (T (hashOf a b p n key).toNat).length < env.fuel :=
    Nat.lt_of_le_of_lt (length_le_nodes hi) (Nat.lt_of_le_of_lt ht.length_le hfuel)
  have hiff : key ∈ (nodes n.toNat T).map Node.key ↔
      key ∈ (T (hashOf a b p n key).toNat).map Node.key := by
    constructor
    · intro hk
      obtain ⟨x, hx, rfl⟩ := List.mem_map.mp hk
      exact List.mem_map_of_mem (ht.mem_chain hx)
    · intro hk
      obtain ⟨x, hx, rfl⟩ := List.mem_map.mp hk
      exact List.mem_map_of_mem (mem_nodes.mpr ⟨_, hi, hx⟩)
  rw [hmTxInsert, wp_bind, wp_dRo ht.buckets, wp_bind]
  apply wp_hash ht
  rw [wp_bind, wp_dRo ho, wp_bind, wp_fuel, wp_bind]
  apply wp_insertScan key _ o _ _ hc hlen (fun hk => hold (hiff.mpr hk))
  intro hk num
  rw [wp_bind]
  refine wp_mono (hnew hk (fun h => hk (hiff.mp h)) (num + 1)) ?_ fun _ _ h => h
  rintro (_ | _) s' h
  · exact h
  · rwa [wp_bind]

theorem holds_insert {h : Pool} {e : PMEMoid} (ht : Table h hm bs a b p n (Function.update T
      (hashOf a b p n key).toNat (⟨e, key, value⟩ :: T (hashOf a b p n key).toNat))) :
    (nodes n.toNat (Function.update T (hashOf a b p n key).toNat
      (⟨e, key, value⟩ :: T (hashOf a b p n key).toNat))).Perm
      (⟨e, key, value⟩ :: nodes n.toNat T) :=
  nodes_cons_perm _ _ T ⟨e, key, value⟩ (hashOf_lt a b p n key ht.pos)

theorem wp_hmTxInsert_nested (hl : s.log.isSome) (ht : Table s.heap hm bs a b p n T)
    (hfuel : 2^64 < env.fuel)
    (hE : ∀ c s', Confined (I := PMEMoid) (F := Member) MapKind s s' → E c s')
    (hold : key ∈ (nodes n.toNat T).map Node.key → Q 1 s)
    (hnew : ∀ s' e n', Confined (I := PMEMoid) (F := Member) MapKind s s' →
      Holds s'.heap hm a b p n' (⟨e, key, value⟩ :: nodes n.toNat T) → Q 0 s') :
    wp env (hmTxInsert hm key value) Q E s := by
  apply wp_hmTxInsert ht hfuel hold
  intro hk _ num
  refine wp_transaction_nested hl (hE _ _ (.tick s)) (wp_mono
    (wp_insertBody (s := s.tick) hl ht rfl hk) ?_ fun c s' h => hE _ _ (.trans (.tick s) h.1))
  rintro _ s₁ ⟨h₁, -, e, ht₁⟩
  have hs₁ : Confined (I := PMEMoid) (F := Member) MapKind s s₁ := .trans (.tick s) h₁
  have hN := holds_insert ht₁
  apply wp_insertGrow ht₁ (hnew s₁ e n hs₁ ⟨bs, _, ht₁, hN⟩)
  refine wp_mono (wp_hmTxRebuild_nested (hs₁.inTx ▸ hl) ht₁ (double_fits ht₁) hfuel) ?_
    fun c s' h => hE _ _ (hs₁.trans h.1)
  rintro _ s' ⟨h', -, hh⟩
  exact hnew s' e _ (hs₁.trans h') (hh.perm hN)

theorem wp_hmTxInsert_top (hl : s.log = none) (ht : Table s.heap hm bs a b p n T)
    (hfuel : 2^64 < env.fuel)
    (hold : key ∈ (nodes n.toNat T).map Node.key → Q 1 s)
    (habort : ∀ s', key ∉ (nodes n.toNat T).map Node.key → Aborted s s' →
      ¬ InsertServed env s → Q (-1) s')
    (hdone : ∀ e s₁ s', key ∉ (nodes n.toNat T).map Node.key →
      transaction (insertBody hm bs (hashOf a b p n key).toNat key value) env s =
        .ok (some ()) s₁ → Committed s s₁ →
      Holds s₁.heap hm a b p n (⟨e, key, value⟩ :: nodes n.toNat T) →
      Resized env hm (⟨e, key, value⟩ :: nodes n.toNat T) s₁ s' → Q 0 s') :
    wp env (hmTxInsert hm key value) Q E s := by
  apply wp_hmTxInsert ht hfuel hold
  intro hk hkey num
  have htx : wp env (transaction (insertBody hm bs (hashOf a b p n key).toNat key value))
      (fun r s' => match r with
        | none => Aborted s s' ∧ ¬ InsertServed env s
        | some _ => Committed s s' ∧ ∃ e, Table s'.heap hm bs a b p n (Function.update T
            (hashOf a b p n key).toNat (⟨e, key, value⟩ :: T (hashOf a b p n key).toNat))) E s := by
    have hbody : wp env (insertBody hm bs _ key value) _ _ s.tick.opened :=
      wp_insertBody rfl ht rfl hk
    apply wp_transaction_served (K := MapKind) (S := InsertServed env s)
      (R := fun _ h => ∃ e, Table h hm bs a b p n (Function.update T (hashOf a b p n key).toNat
        (⟨e, key, value⟩ :: T (hashOf a b p n key).toNat))) hl
      (wp_mono hbody (fun _ _ h => ⟨h.1, h.2.2⟩) fun _ _ h => h.1)
    · intro hs
      exact hs.serves.first
    · intro hs
      apply calm_insertBody hs.serves.enter hs.offers.enter
      intro l hl
      cases hl
      rfl
    · intro s' ha hno
      exact ⟨ha, hno⟩
    · intro _ s' hc hr
      exact ⟨hc, hr⟩
  refine wp_mono (wp_run htx) ?_ fun _ _ h => h
  rintro (_ | _) s₁ ⟨h, hrun⟩
  · exact habort s₁ hkey h.1 h.2
  · obtain ⟨hc, e, ht₁⟩ := h
    have hN := holds_insert ht₁
    have hh : Holds s₁.heap hm a b p n (⟨e, key, value⟩ :: nodes n.toNat T) := ⟨bs, _, ht₁, hN⟩
    apply wp_insertGrow ht₁ (hdone e s₁ s₁ hkey hrun hc hh (.kept rfl))
    exact wp_mono (wp_resized hc.log ht₁ hN (double_fits ht₁) hfuel)
      (fun _ s' hr => hdone e s₁ s' hkey hrun hc hh hr) fun _ _ h => h

end Insert

section Remove
variable {key : UInt64} {E : Cause → PoolState → Prop} {Q : PMEMoid → PoolState → Prop}

theorem wp_hmTxRemove (ht : Table s.heap hm bs a b p n T) (hfuel : 2^64 < env.fuel)
    (hnone : key ∉ (nodes n.toNat T).map Node.key → Q oidNull s)
    (hsome : ∀ i pre x post, i < n.toNat → T i = pre ++ x::post → x.key = key →
      wp env (transaction (removeBody hm bs i ((pre.map Node.oid).getLastD oidNull) x.oid))
        (fun r s' => match r with
          | none => Q oidNull s'
          | some _ => wp env (removeShrink hm bs) (fun _ s'' => Q x.value s'') E s') E s) :
    wp env (hmTxRemove hm key) Q E s := by
  have hi := hashOf_lt a b p n key ht.pos
  obtain ⟨o, ho, hc⟩ := ht.slot _ hi
  have hlen : (T (hashOf a b p n key).toNat).length < env.fuel :=
    Nat.lt_of_le_of_lt (length_le_nodes hi) (Nat.lt_of_le_of_lt ht.length_le hfuel)
  rw [hmTxRemove, wp_bind, wp_dRo ht.buckets, wp_bind]
  apply wp_hash ht
  rw [wp_bind, wp_dRo ho, wp_bind, wp_fuel, wp_bind]
  refine wp_removeScan key _ o _ _ hc hlen (fun pre x post he hk => ?_) fun hk q r hr => ?_
  · have hx : NodeAt s.heap x := hc.1 x (by simp [he])
    dsimp only
    rw [if_neg (by simp [hx.notNull]), wp_bind, wp_dRo hx.value, wp_bind]
    refine wp_mono (hsome _ pre x post hi he hk) ?_ fun _ _ h => h
    rintro (_ | _) s' h
    · exact h
    · rwa [wp_bind]
  · dsimp only
    rw [if_pos hr]
    apply hnone
    intro hmem
    obtain ⟨x, hx, rfl⟩ := List.mem_map.mp hmem
    exact hk (List.mem_map_of_mem (ht.mem_chain hx))

/-- The library calls of a removal that leaves `len` nodes in `n` buckets. -/
def removeCalls (n len : ℕ) : ℕ := 4 + if len < n then 5 + len else 0

theorem wp_hmTxRemove_nested (hl : s.log.isSome) (ht : Table s.heap hm bs a b p n T)
    (hfuel : 2^64 < env.fuel)
    (hE : ∀ c s', key ∈ (nodes n.toNat T).map Node.key →
      Confined (I := PMEMoid) (F := Member) MapKind s s' →
      s'.calls ≤ s.calls + removeCalls n.toNat ((nodes n.toNat T).length - 1) → E c s')
    (hnone : key ∉ (nodes n.toNat T).map Node.key → Q oidNull s)
    (hsome : ∀ x N s' n', x.key = key → (x::N).Perm (nodes n.toNat T) →
      Confined (I := PMEMoid) (F := Member) MapKind s s' →
      s'.calls = s.calls + removeCalls n.toNat N.length → Holds s'.heap hm a b p n' N →
      Q x.value s') :
    wp env (hmTxRemove hm key) Q E s := by
  apply wp_hmTxRemove ht hfuel hnone
  intro i pre x post hi he hk
  have hperm := nodes_erase_perm n.toNat i T pre post x hi he
  have hkey : key ∈ (nodes n.toNat T).map Node.key :=
    List.mem_map.mpr ⟨x, hperm.mem_iff.mp List.mem_cons_self, hk⟩
  have hlen := hperm.length_eq
  rw [List.length_cons] at hlen
  have hsmall : (nodes n.toNat (Function.update T i (pre ++ post))).length < 2^64 := by
    have := ht.length_le
    omega
  have hE' : ∀ c s', Confined (I := PMEMoid) (F := Member) MapKind s s' →
      s'.calls ≤ s.calls + removeCalls n.toNat
        (nodes n.toNat (Function.update T i (pre ++ post))).length → E c s' := fun c s' h hc =>
    hE c s' hkey h (by rwa [← hlen, Nat.add_sub_cancel])
  unfold removeCalls at hE' hsome
  have hstart : s.tick.calls = s.calls + 1 := rfl
  refine wp_transaction_nested hl (hE' _ _ (.tick s) (by omega)) (wp_mono
    (wp_removeBody (s := s.tick) hl ht hi he) ?_ ?_)
  · rintro _ s₁ ⟨h₁, n₁, ht₁⟩
    have hs₁ : Confined (I := PMEMoid) (F := Member) MapKind s s₁ := .trans (.tick s) h₁
    refine wp_removeShrink ht₁ hsmall (fun hlt => ?_) fun hlt => ?_
    · rw [if_neg hlt] at hE'
      exact hsome x _ s₁ n hk hperm hs₁ (by rw [if_neg hlt]; omega) ⟨bs, _, ht₁, .refl _⟩
    · rw [if_pos hlt] at hE'
      apply wp_mono (wp_hmTxRebuild_nested (hs₁.inTx ▸ hl) ht₁ (half_fits ht₁) hfuel)
      · rintro _ s' ⟨h', n', hh⟩
        exact hsome x _ s' _ hk hperm (hs₁.trans h') (by rw [if_pos hlt]; omega) hh
      · rintro c s' ⟨h', hc⟩
        exact hE' c s' (hs₁.trans h') (by omega)
  · rintro c s' ⟨h', hc⟩
    exact hE' c s' (.trans (.tick s) h') (by omega)

theorem wp_hmTxRemove_top (hl : s.log = none) (ht : Table s.heap hm bs a b p n T)
    (hfuel : 2^64 < env.fuel)
    (hnone : key ∉ (nodes n.toNat T).map Node.key → Q oidNull s)
    (habort : ∀ s', key ∈ (nodes n.toNat T).map Node.key → Aborted s s' →
      ¬ RemoveServed env s → Q oidNull s')
    (hsome : ∀ i pre x post N s₁ s', x.key = key → (x::N).Perm (nodes n.toNat T) →
      transaction (removeBody hm bs i ((pre.map Node.oid).getLastD oidNull) x.oid) env s =
        .ok (some ()) s₁ → T i = pre ++ x::post → Committed s s₁ →
      Holds s₁.heap hm a b p n N → Resized env hm N s₁ s' → Q x.value s') :
    wp env (hmTxRemove hm key) Q E s := by
  apply wp_hmTxRemove ht hfuel hnone
  intro i pre x post hi he hk
  have hperm := nodes_erase_perm n.toNat i T pre post x hi he
  have hkey : key ∈ (nodes n.toNat T).map Node.key :=
    List.mem_map.mpr ⟨x, hperm.mem_iff.mp List.mem_cons_self, hk⟩
  have hsmall : (nodes n.toNat (Function.update T i (pre ++ post))).length < 2^64 := by
    have hlen := hperm.length_eq
    rw [List.length_cons] at hlen
    have := ht.length_le
    omega
  have htx : wp env
      (transaction (removeBody hm bs i ((pre.map Node.oid).getLastD oidNull) x.oid))
      (fun r s' => match r with
        | none => Aborted s s' ∧ ¬ RemoveServed env s
        | some _ => Committed s s' ∧
          Table s'.heap hm bs a b p n (Function.update T i (pre ++ post))) E s := by
    have hbody : wp env (removeBody hm bs i _ x.oid) _ _ s.tick.opened :=
      wp_removeBody rfl ht hi he
    apply wp_transaction_served (K := MapKind) (S := RemoveServed env s)
      (R := fun _ h => Table h hm bs a b p n (Function.update T i (pre ++ post))) hl
      (wp_mono hbody (fun _ _ h => ⟨h.1, h.2.2⟩) fun _ _ h => h.1)
    · intro hs
      exact hs.first
    · intro hs
      exact calm_removeBody hs.enter
    · intro s' ha hno
      exact ⟨ha, hno⟩
    · intro _ s' hc hr
      exact ⟨hc, hr⟩
  refine wp_mono (wp_run htx) ?_ fun _ _ h => h
  rintro (_ | _) s₁ ⟨h, hrun⟩
  · exact habort s₁ hkey h.1 h.2
  · obtain ⟨hc, ht₁⟩ := h
    have hh : Holds s₁.heap hm a b p n (nodes n.toNat (Function.update T i (pre ++ post))) :=
      ⟨bs, _, ht₁, .refl _⟩
    have hdone : ∀ s', Resized env hm (nodes n.toNat (Function.update T i (pre ++ post))) s₁ s' →
        Q x.value s' := fun s' hr => hsome i pre x post _ s₁ s' hk hperm hrun he hc hh hr
    apply wp_removeShrink ht₁ hsmall (fun _ => hdone s₁ (.kept rfl))
    intro _
    exact wp_mono (wp_resized hc.log ht₁ (.refl _) (half_fits ht₁) hfuel)
      (fun _ s' hr => hdone s' hr) fun _ _ h => h

end Remove

end RtsCache.HashmapOps
