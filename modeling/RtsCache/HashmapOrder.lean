import RtsCache.HashmapNodes

/-!
# The order a rebuild leaves

A rebuild takes the nodes bucket by bucket and chain by chain and puts each in
front of its new chain, so a new chain lists its nodes in the reverse of the
order in which the rebuild met them.
-/

set_option autoImplicit false

namespace RtsCache.HashmapOrder
open RtsCache.UndoHeap RtsCache.UndoMachine RtsCache.UndoRules RtsCache.UndoWrites
open RtsCache.PoolLayout RtsCache.HashmapMachine RtsCache.HashmapInvariant
open RtsCache.HashmapRebuild RtsCache.HashmapOps RtsCache.HashmapNodes

section Placing
variable {α : Type}

def placeAll (place : α → ℕ) (xs : List α) (New : ℕ → List α) : ℕ → List α :=
  xs.foldl (fun New x => Function.update New (place x) (x :: New (place x))) New

theorem placeAll_append (place : α → ℕ) (xs ys : List α) (New : ℕ → List α) :
    placeAll place (xs ++ ys) New = placeAll place ys (placeAll place xs New) := by
  simp [placeAll]

theorem placeAll_apply (place : α → ℕ) (xs : List α) (New : ℕ → List α) (j : ℕ) :
    placeAll place xs New j = (xs.filter fun x => place x = j).reverse ++ New j := by
  induction xs generalizing New with
  | nil => rfl
  | cons x xs ih =>
    show placeAll place xs _ j = _
    rw [ih]
    by_cases hx : place x = j
    · subst hx
      simp
    · simp [hx, Function.update_of_ne (Ne.symm hx)]

end Placing

section Loops
variable {env : PoolEnv} {s s' : PoolState} {hm bs nw : PMEMoid} {a b : UInt32} {p n n' : UInt64}
  {N : List Node} {Rest New : ℕ → List Node}

def bucketOf (a b : UInt32) (p n : UInt64) (x : Node) : ℕ := (hashOf a b p n x.key).toNat

theorem hash_ok {value k : UInt64} (hM : Moving s.heap hm bs nw a b p n n' N Rest New)
    (hrun : hash hm nw value env s = .ok k s') : k = hashOf a b p n' value ∧ s' = s := by
  obtain ⟨a', s₁, h₁, hrun⟩ := bind_ok hrun
  obtain ⟨b', s₂, h₂, hrun⟩ := bind_ok hrun
  obtain ⟨p', s₃, h₃, hrun⟩ := bind_ok hrun
  obtain ⟨len, s₄, h₄, hrun⟩ := bind_ok hrun
  obtain ⟨ha, rfl⟩ := load_ok h₁
  obtain ⟨hb, rfl⟩ := load_ok h₂
  obtain ⟨hp, rfl⟩ := load_ok h₃
  obtain ⟨hlen, rfl⟩ := load_ok h₄
  cases ha.symm.trans hM.coeffA
  cases hb.symm.trans hM.coeffB
  cases hp.symm.trans hM.coeffP
  cases hlen.symm.trans hM.newLen
  split at hrun
  · cases hrun
  · cases hrun
    exact ⟨rfl, rfl⟩

theorem rebuildDrain_order {i : ℕ} (xs : List Node) (fl : ℕ)
    (hM : Moving s.heap hm bs nw a b p n n' N Rest New) (hi : i < n.toNat) (hr : Rest i = xs)
    (hrun : rebuildDrain hm bs nw i fl env s = .ok () s') :
    Moving s'.heap hm bs nw a b p n n' N (Function.update Rest i [])
      (placeAll (bucketOf a b p n') xs New) := by
  induction fl generalizing s xs Rest New with
  | zero => cases hrun
  | succ fl ih =>
    obtain ⟨en, s₁, h₁, t₁⟩ := bind_ok hrun
    obtain ⟨hen, rfl⟩ := load_ok h₁
    obtain ⟨o, ho, hc⟩ := hM.oldSlot i hi
    cases ho.symm.trans hen
    rw [hr] at hc
    cases xs with
    | nil =>
      rw [chain_nil] at hc
      rw [if_pos hc] at t₁
      cases t₁
      rw [← hr, Function.update_eq_self, hr]
      exact hM
    | cons x xs =>
      obtain ⟨rfl, hx, next, hnext, -⟩ := (chain_cons _ _ _ _).mp hc
      rw [if_neg (by simp [hx.notNull])] at t₁
      obtain ⟨key, s₂, h₂, t₂⟩ := bind_ok t₁
      obtain ⟨k, s₃, h₃, t₃⟩ := bind_ok t₂
      obtain ⟨c, s₄, h₄, t₄⟩ := bind_ok t₃
      obtain ⟨_, s₅, h₅, t₅⟩ := bind_ok t₄
      obtain ⟨_, s₆, h₆, t₆⟩ := bind_ok t₅
      obtain ⟨front, s₇, h₇, t₇⟩ := bind_ok t₆
      obtain ⟨_, s₈, h₈, t₈⟩ := bind_ok t₇
      obtain ⟨_, s₉, h₉, t₉⟩ := bind_ok t₈
      obtain ⟨hkey, rfl⟩ := load_ok h₂
      cases hkey.symm.trans hx.key
      obtain ⟨rfl, rfl⟩ := hash_ok hM h₃
      obtain ⟨hc', rfl⟩ := load_ok h₄
      cases hc'.symm.trans hnext
      have e₅ := (store_ok h₅).2
      have e₆ := txAdd_ok h₆
      obtain ⟨hfront₇, rfl⟩ := load_ok h₇
      have e₈ := (store_ok h₈).2
      have e₉ := (store_ok h₉).2
      have hlt := hashOf_lt a b p n' x.key hM.pos
      obtain ⟨front', hfront, -⟩ := hM.newSlot _ hlt
      have hsame : front = front' := by
        rw [e₆, e₅, Heap.get_put_of_ne _ _ _ _ hM.apart, hfront] at hfront₇
        exact (Option.some.inj hfront₇).symm
      subst hsame
      have hstep := moving_step hM hi hr hnext hfront
      have hheap : s₉.heap = movedHeap s₄.heap bs nw i (hashOf a b p n' x.key).toNat x.oid next
          front := by
        rw [e₉, e₈, e₆, e₅]
        rfl
      rw [← hheap] at hstep
      have hdone := ih xs hstep (Function.update_self ..) t₉
      rwa [Function.update_idem] at hdone

theorem rebuildMove_order (d i fl : ℕ) (hd : n.toNat - i = d)
    (hM : Moving s.heap hm bs nw a b p n n' N Rest New) (hdone : ∀ j < i, Rest j = [])
    (hrun : rebuildMove hm bs nw fl i env s = .ok () s') :
    ∃ Rest', Moving s'.heap hm bs nw a b p n n' N Rest'
      (placeAll (bucketOf a b p n') ((List.range' i d).flatMap Rest) New) ∧
      nodes n.toNat Rest' = [] := by
  induction d generalizing s i fl Rest New with
  | zero =>
    cases fl with
    | zero => cases hrun
    | succ fl =>
      obtain ⟨len, s₁, h₁, hrun⟩ := bind_ok hrun
      obtain ⟨hlen, rfl⟩ := load_ok h₁
      cases hlen.symm.trans hM.oldLen
      rw [if_neg (by omega)] at hrun
      cases hrun
      refine ⟨Rest, hM, ?_⟩
      apply List.eq_nil_iff_forall_not_mem.mpr
      intro x hx
      obtain ⟨j, hj, hx⟩ := mem_nodes.mp hx
      rw [hdone j (by omega)] at hx
      cases hx
  | succ d ih =>
    cases fl with
    | zero => cases hrun
    | succ fl =>
      obtain ⟨len, s₁, h₁, hrun⟩ := bind_ok hrun
      obtain ⟨hlen, rfl⟩ := load_ok h₁
      cases hlen.symm.trans hM.oldLen
      have hi : i < n.toNat := by omega
      rw [if_pos hi] at hrun
      obtain ⟨_, _, ⟨⟩, hrun⟩ := bind_ok hrun
      obtain ⟨_, s₂, h₂, hrun⟩ := bind_ok hrun
      have hM₂ := rebuildDrain_order (Rest i) _ hM hi rfl h₂
      have hdone₂ : ∀ j < i + 1, Function.update Rest i [] j = [] := by
        intro j hj
        by_cases hji : j = i
        · subst hji
          exact Function.update_self ..
        · rw [Function.update_of_ne hji]
          exact hdone j (by omega)
      have hrest : (List.range' (i+1) d).flatMap (Function.update Rest i []) =
          (List.range' (i+1) d).flatMap Rest := by
        apply List.flatMap_congr
        intro j hj
        have hij := (List.mem_range'_1.mp hj).1
        exact Function.update_of_ne (by omega) _ _
      obtain ⟨Rest', hM', hempty⟩ := ih (i+1) fl (by omega) hM₂ hdone₂ hrun
      rw [hrest, ← placeAll_append] at hM'
      exact ⟨Rest', hM', hempty⟩

/-- The chains after a rebuild to `n'` buckets of a map with the nodes `N`. -/
def rebuiltChains (a b : UInt32) (p n' : UInt64) (N : List Node) (j : ℕ) : List Node :=
  (N.filter fun x => bucketOf a b p n' x = j).reverse

theorem rebuildBody_order {T : ℕ → List Node} (ht : Table s.heap hm bs a b p n T) (hpos : n' ≠ 0)
    (hlen : 8 + 16 * n'.toNat < 2^64) (hrun : rebuildBody hm bs n n' env s = .ok () s') :
    ∃ nw, Table s'.heap hm nw a b p n' (rebuiltChains a b p n' (nodes n.toNat T)) := by
  obtain ⟨_, s₁, h₁, hrun⟩ := bind_ok hrun
  obtain ⟨nw, s₂, h₂, hrun⟩ := bind_ok hrun
  obtain ⟨_, s₃, h₃, hrun⟩ := bind_ok hrun
  obtain ⟨_, s₄, h₄, hrun⟩ := bind_ok hrun
  obtain ⟨_, _, ⟨⟩, hrun⟩ := bind_ok hrun
  obtain ⟨_, s₅, h₅, hrun⟩ := bind_ok hrun
  obtain ⟨_, s₆, h₆, h₇⟩ := bind_ok hrun
  have e₁ := txAdd_ok h₁
  obtain ⟨hfree, hnull, hmax, e₂⟩ := txAllocWith_ok h₂
  have e₃ := (store_ok h₃).2
  have e₄ := txAdd_ok h₄
  have e₆ := (store_ok h₆).2
  obtain ⟨-, e₇⟩ := txFree_ok ht.notNull h₇
  rw [bucketsSize_toNat hlen] at hmax e₂
  rw [e₁] at hfree e₂
  have hM : Moving s₄.heap hm bs nw a b p n n' (nodes n.toNat T) T fun _ => [] := by
    rw [e₄, e₃, e₂]
    exact moving_start ht hpos rfl hfree
  obtain ⟨Rest', hM', hempty⟩ := rebuildMove_order n.toNat 0 _ rfl hM (by simp) h₅
  have hend := (moving_end hM' hempty hnull hmax).1
  have hchains : placeAll (bucketOf a b p n') ((List.range' 0 n.toNat).flatMap T) (fun _ => []) =
      rebuiltChains a b p n' (nodes n.toNat T) := by
    funext j
    rw [placeAll_apply, List.append_nil, ← List.range_eq_range']
    rfl
  rw [← e₆, ← e₇, hchains] at hend
  exact ⟨nw, hend⟩

end Loops

section Chains
variable {h : Pool} {hm bs : PMEMoid} {a b : UInt32} {p n : UInt64} {T T' : ℕ → List Node}

theorem nodes_congr {m : ℕ} (hT : ∀ i < m, T' i = T i) : nodes m T' = nodes m T := by
  apply List.flatMap_congr
  intro i hi
  exact hT i (List.mem_range.mp hi)

theorem table_congr (ht : Table h hm bs a b p n T) (hT : ∀ i < n.toNat, T' i = T i) :
    Table h hm bs a b p n T' :=
  { ht with
    slot := fun i hi => hT i hi ▸ ht.slot i hi
    placed := fun i hi => hT i hi ▸ ht.placed i hi
    distinct := nodes_congr hT ▸ ht.distinct
    count := nodes_congr hT ▸ ht.count }

theorem filter_range_flatMap (place : Node → ℕ) (m j : ℕ) (hj : j < m)
    (hplace : ∀ i < m, ∀ x ∈ T i, place x = i) :
    ((List.range m).flatMap T).filter (fun x => place x = j) = T j := by
  have hone : ∀ i < m, (T i).filter (fun x => place x = j) = if i = j then T j else [] := by
    intro i hi
    by_cases hij : i = j
    · subst hij
      rw [if_pos rfl, List.filter_eq_self]
      intro x hx
      simpa using hplace i hi x hx
    · rw [if_neg hij, List.filter_eq_nil_iff]
      intro x hx
      simpa [hplace i hi x hx] using hij
  rw [List.filter_flatMap, List.flatMap_congr fun i hi => hone i (List.mem_range.mp hi)]
  induction m with
  | zero => omega
  | succ m ih =>
    rw [List.range_succ, List.flatMap_append, List.flatMap_singleton]
    by_cases hjm : j = m
    · subst hjm
      have hempty : (List.range j).flatMap (fun i => if i = j then T j else []) = [] := by
        apply List.flatMap_eq_nil_iff.mpr
        intro i hi
        exact if_neg (Nat.ne_of_lt (List.mem_range.mp hi))
      rw [hempty, if_pos rfl, List.nil_append]
    · rw [ih (by omega) (fun i hi => hplace i (by omega)) fun i hi => hone i (by omega),
        if_neg (Ne.symm hjm), List.append_nil]

theorem rebuiltChains_same (ht : Table h hm bs a b p n T) {j : ℕ} (hj : j < n.toNat) :
    rebuiltChains a b p n (nodes n.toNat T) j = (T j).reverse := by
  rw [rebuiltChains, nodes, filter_range_flatMap (bucketOf a b p n) n.toNat j hj ht.placed]

end Chains

section Commands
variable {env env' : PoolEnv} {s s₁ s' : PoolState} {hm bs : PMEMoid} {a b : UInt32}
  {p n newLen : UInt64} {T : ℕ → List Node} {r r' : ℤ}

theorem hmTxRebuild_order (ht : Table s.heap hm bs a b p n T)
    (hlen : 8 + 16 * newLen.toNat < 2^64) (hrun : hmTxRebuild hm newLen env s = .ok () s')
    (hc : Commits s s') :
    ∃ nw, Table s'.heap hm nw a b p (rebuiltLen n newLen)
      (rebuiltChains a b p (rebuiltLen n newLen) (nodes n.toNat T)) := by
  obtain ⟨bs', s₁, h₁, h₂⟩ := bind_ok hrun
  obtain ⟨hbs, rfl⟩ := load_ok h₁
  cases hbs.symm.trans ht.buckets
  obtain ⟨n', s₂, h₃, h₄⟩ := bind_ok h₂
  obtain ⟨hn, rfl⟩ := load_ok h₃
  cases hn.symm.trans ht.nbuckets
  obtain ⟨u, s₃, h₅, h₆⟩ := bind_ok h₄
  cases h₆
  obtain ⟨u', t, t', -, et, -, hbody, et'⟩ := transaction_committed h₅ hc
  obtain ⟨nw, ht'⟩ := rebuildBody_order (et ▸ ht) (rebuiltLen_pos ht.pos)
    (rebuiltLen_size ht hlen) hbody
  exact ⟨nw, et' ▸ ht'⟩

theorem hmTxCmd_rebuild (hrun : hmTxCmd hm 0 newLen env s = .ok r s') :
    r = 0 ∧ hmTxRebuild hm newLen env s = .ok () s' := by
  rw [hmTxCmd, if_pos rfl] at hrun
  obtain ⟨_, s₁, h₁, h₂⟩ := bind_ok hrun
  cases h₂
  exact ⟨rfl, h₁⟩

/-- A committed rebuild command leaves every node in the reverse of the order
in which the old chains, read bucket by bucket, had them. -/
theorem hmTxCmd_order (ht : Table s.heap hm bs a b p n T) (hlen : 8 + 16 * newLen.toNat < 2^64)
    (hrun : hmTxCmd hm 0 newLen env s = .ok r s') (hc : Commits s s') :
    r = 0 ∧ ∃ nw, Table s'.heap hm nw a b p (rebuiltLen n newLen)
      (rebuiltChains a b p (rebuiltLen n newLen) (nodes n.toNat T)) := by
  obtain ⟨hr, hrebuild⟩ := hmTxCmd_rebuild hrun
  exact ⟨hr, hmTxRebuild_order ht hlen hrebuild hc⟩

open HashmapRuns in
theorem hmTxCmd_order_two : ∃ s' nw, hmTxCmd newMap 0 1 quietEnv twoState = .ok 0 s' ∧
    Table s'.heap newMap nw 1 0 hashFuncCoeffP 1 (rebuiltChains 1 0 hashFuncCoeffP 1
      (nodes 2 twoChains)) ∧
    (rebuiltChains 1 0 hashFuncCoeffP 1 (nodes 2 twoChains) 0).map Node.oid =
      [secondEntry, firstEntry] := by
  obtain ⟨s', hrun, hends⟩ : ∃ s', hmTxCmd newMap 0 1 quietEnv twoState = .ok 0 s' ∧
      s'.ends = [.committed] := ⟨_, rfl, rfl⟩
  obtain ⟨-, nw, ht⟩ := hmTxCmd_order (s := twoState) twoHeap_table (by decide) hrun fun _ => hends
  exact ⟨s', nw, hrun, ht, rfl⟩

theorem keptLen_size {h : Pool} {arg : UInt64} (ht : Table h hm bs a b p n T)
    (hkeep : rebuiltLen n arg = n) : 8 + 16 * arg.toNat < 2^64 := by
  by_cases hzero : arg = 0
  · subst hzero
    decide
  · rw [rebuiltLen, if_neg hzero] at hkeep
    have hfits := ht.fits
    unfold pmemobjMaxAllocSize at hfits
    rw [hkeep]
    omega

/-- A rebuild under the length the map has reverses every chain, and a second
one puts all of them back. -/
theorem rebuilds_cancel {arg arg' : UInt64} (ht : Table s.heap hm bs a b p n T)
    (hkeep : rebuiltLen n arg = n) (hkeep' : rebuiltLen n arg' = n)
    (hrun : hmTxCmd hm 0 arg env s = .ok r s₁) (hc : Commits s s₁)
    (hrun' : hmTxCmd hm 0 arg' env' s₁ = .ok r' s') (hc' : Commits s₁ s') :
    (∃ nw, Table s₁.heap hm nw a b p n fun j => (T j).reverse) ∧
      ∃ nw, Table s'.heap hm nw a b p n T := by
  obtain ⟨nw, ht₁⟩ := hmTxRebuild_order ht (keptLen_size ht hkeep) (hmTxCmd_rebuild hrun).2 hc
  rw [hkeep] at ht₁
  have ht₁' : Table s₁.heap hm nw a b p n fun j => (T j).reverse :=
    table_congr ht₁ fun j hj => (rebuiltChains_same ht hj).symm
  constructor
  · exact ⟨nw, ht₁'⟩
  · obtain ⟨nw', ht₂⟩ :=
      hmTxRebuild_order ht₁' (keptLen_size ht₁' hkeep') (hmTxCmd_rebuild hrun').2 hc'
    rw [hkeep'] at ht₂
    refine ⟨nw', table_congr ht₂ ?_⟩
    intro j hj
    rw [rebuiltChains_same ht₁' hj, List.reverse_reverse]

open HashmapRuns in
theorem rebuilds_cancel_two : ∃ s₁ s', hmTxCmd newMap 0 0 quietEnv twoState = .ok 0 s₁ ∧
    hmTxCmd newMap 0 2 quietEnv s₁ = .ok 0 s' ∧
    ∃ nw, Table s'.heap newMap nw 1 0 hashFuncCoeffP 2 twoChains := by
  obtain ⟨s₁, s', hrun, hends, hrun', hends'⟩ : ∃ s₁ s',
      hmTxCmd newMap 0 0 quietEnv twoState = .ok 0 s₁ ∧ s₁.ends = [.committed] ∧
      hmTxCmd newMap 0 2 quietEnv s₁ = .ok 0 s' ∧ s'.ends = [.committed, .committed] :=
    ⟨_, _, rfl, rfl, rfl, rfl⟩
  have hc : Commits twoState s₁ := fun _ => hends
  have hc' : Commits s₁ s' := fun _ => by rw [hends, hends']; rfl
  have hall := rebuilds_cancel (s := twoState) twoHeap_table rfl rfl hrun hc hrun' hc'
  exact ⟨s₁, s', hrun, hrun', hall.2⟩

end Commands

end RtsCache.HashmapOrder
