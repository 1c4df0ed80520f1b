import RtsCache.HashmapInvariant

/-!
# Chain scans

Each loop over a chain ends within the length of the chain and stops at the
node of the key, or at the null handle when no node has it.
-/

set_option autoImplicit false

namespace RtsCache.HashmapScan
open RtsCache.UndoHeap RtsCache.UndoMachine RtsCache.UndoRules
open RtsCache.PoolLayout RtsCache.HashmapMachine RtsCache.HashmapInvariant

variable {env : PoolEnv} {s : PoolState} {E : Cause → PoolState → Prop}

theorem wp_hashOf {hm bs : PMEMoid} {a b : UInt32} {p n k : UInt64}
    {Q : UInt64 → PoolState → Prop} (ha : s.heap.get hm .hashFunA = some a)
    (hb : s.heap.get hm .hashFunB = some b) (hp : s.heap.get hm .hashFunP = some p)
    (hn : s.heap.get bs .nbuckets = some n) (hp' : p ≠ 0) (hn' : n ≠ 0)
    (hQ : Q (hashOf a b p n k) s) : wp env (hash hm bs k) Q E s := by
  rw [HashmapMachine.hash, wp_bind, wp_dRo ha, wp_bind, wp_dRo hb, wp_bind, wp_dRo hp,
    wp_bind, wp_dRo hn, if_neg (by simp [hp', hn'])]
  exact hQ

theorem wp_hash {hm bs : PMEMoid} {a b : UInt32} {p n : UInt64} {T : ℕ → List Node}
    {k : UInt64} {Q : UInt64 → PoolState → Prop} (ht : Table s.heap hm bs a b p n T)
    (hQ : Q (hashOf a b p n k) s) : wp env (hash hm bs k) Q E s :=
  wp_hashOf ht.coeffA ht.coeffB ht.coeffP ht.nbuckets ht.prime ht.pos hQ

theorem wp_insertScan (key : UInt64) (xs : List Node) (o : PMEMoid) (n : ℕ) (num : Int32)
    {Q : Option Int32 → PoolState → Prop} (hc : Chain s.heap o xs) (hf : xs.length < n)
    (hold : key ∈ xs.map Node.key → Q none s)
    (hnew : key ∉ xs.map Node.key → ∀ num, Q (some num) s) :
    wp env (insertScan key n o num) Q E s := by
  induction xs generalizing o n num with
  | nil =>
    obtain ⟨n, rfl⟩ := Nat.exists_eq_succ_of_ne_zero (Nat.ne_of_gt hf)
    rw [insertScan, if_pos ((chain_nil _ _).mp hc)]
    exact hnew (by simp) num
  | cons x xs ih =>
    obtain ⟨n, rfl⟩ := Nat.exists_eq_succ_of_ne_zero (Nat.ne_of_gt (Nat.zero_lt_of_lt hf))
    obtain ⟨rfl, hx, c, hn, hc⟩ := (chain_cons _ _ _ _).mp hc
    rw [insertScan, if_neg (by simp [hx.notNull]), wp_bind, wp_dRo hx.key]
    by_cases hk : x.key = key
    · rw [if_pos hk]
      exact hold (by simp [hk])
    · rw [if_neg hk, wp_bind, wp_dRo hn]
      exact ih c n _ hc (Nat.lt_of_succ_lt_succ hf) (fun h => hold (List.mem_cons_of_mem _ h))
        (fun h => hnew (by simpa [Ne.symm hk] using h))

theorem wp_findScan (key : UInt64) (xs : List Node) (o : PMEMoid) (n : ℕ)
    {Q : PMEMoid → PoolState → Prop} (hc : Chain s.heap o xs) (hf : xs.length < n)
    (hold : ∀ x ∈ xs, x.key = key → NodeAt s.heap x → Q x.oid s)
    (hnew : key ∉ xs.map Node.key → ∀ q, q.isNull → Q q s) :
    wp env (findScan key n o) Q E s := by
  induction xs generalizing o n with
  | nil =>
    obtain ⟨n, rfl⟩ := Nat.exists_eq_succ_of_ne_zero (Nat.ne_of_gt hf)
    have hq := (chain_nil _ _).mp hc
    rw [findScan, if_pos hq]
    exact hnew (by simp) o hq
  | cons x xs ih =>
    obtain ⟨n, rfl⟩ := Nat.exists_eq_succ_of_ne_zero (Nat.ne_of_gt (Nat.zero_lt_of_lt hf))
    obtain ⟨rfl, hx, c, hn, hc⟩ := (chain_cons _ _ _ _).mp hc
    rw [findScan, if_neg (by simp [hx.notNull]), wp_bind, wp_dRo hx.key]
    by_cases hk : x.key = key
    · rw [if_pos hk]
      exact hold x List.mem_cons_self hk hx
    · rw [if_neg hk, wp_bind, wp_dRo hn]
      exact ih c n hc (Nat.lt_of_succ_lt_succ hf)
        (fun y hy => hold y (List.mem_cons_of_mem _ hy))
        (fun h => hnew (by simpa [Ne.symm hk] using h))

/-- `pre` is what the scan passes over: the predecessor it returns is the last
node of `pre`, or the initial null handle. -/
theorem wp_removeScan (key : UInt64) (xs : List Node) (o prev : PMEMoid) (n : ℕ)
    {Q : PMEMoid × PMEMoid → PoolState → Prop} (hc : Chain s.heap o xs) (hf : xs.length < n)
    (hold : ∀ pre x post, xs = pre ++ x::post → x.key = key →
      Q ((pre.map Node.oid).getLastD prev, x.oid) s)
    (hnew : key ∉ xs.map Node.key → ∀ q r, r.isNull → Q (q, r) s) :
    wp env (removeScan key n prev o) Q E s := by
  induction xs generalizing o prev n with
  | nil =>
    obtain ⟨n, rfl⟩ := Nat.exists_eq_succ_of_ne_zero (Nat.ne_of_gt hf)
    have hq := (chain_nil _ _).mp hc
    rw [removeScan, if_pos hq]
    exact hnew (by simp) prev o hq
  | cons x xs ih =>
    obtain ⟨n, rfl⟩ := Nat.exists_eq_succ_of_ne_zero (Nat.ne_of_gt (Nat.zero_lt_of_lt hf))
    obtain ⟨rfl, hx, c, hn, hc⟩ := (chain_cons _ _ _ _).mp hc
    rw [removeScan, if_neg (by simp [hx.notNull]), wp_bind, wp_dRo hx.key]
    by_cases hk : x.key = key
    · rw [if_pos hk]
      exact hold [] x xs rfl hk
    · rw [if_neg hk, wp_bind, wp_dRo hn]
      refine ih c x.oid n hc (Nat.lt_of_succ_lt_succ hf) (fun pre y post he hy => ?_)
        (fun h => hnew (by simpa [Ne.symm hk] using h))
      have := hold (x::pre) y post (by simp [he]) hy
      rwa [List.map_cons, List.getLastD_cons] at this

section Queries
variable {hm : PMEMoid} {m : UInt64 → Option PMEMoid}

/-- A query ends at a node that holds the value bound to the key, or at a null
handle when the key is unbound. -/
theorem wp_findEntry {key : UInt64} {Q : PMEMoid → PoolState → Prop}
    (hm' : MapIs s.heap hm m) (hfuel : 2^64 < env.fuel)
    (hold : ∀ o v, m key = some v → o.isNull = false → s.heap.get o .value = some v → Q o s)
    (hnew : m key = none → ∀ q, q.isNull → Q q s) : wp env (findEntry hm key) Q E s := by
  obtain ⟨bs, a, b, p, n, T, ht, rfl⟩ := hm'
  have hi := hashOf_lt a b p n key ht.pos
  obtain ⟨o, ho, hc⟩ := ht.slot _ hi
  rw [findEntry, wp_bind, wp_dRo ht.buckets, wp_bind]
  apply wp_hash ht
  rw [wp_bind, wp_dRo ho, wp_bind, wp_fuel]
  have hlen : (T (hashOf a b p n key).toNat).length < env.fuel :=
    Nat.lt_of_le_of_lt (length_le_nodes hi) (Nat.lt_of_le_of_lt ht.length_le hfuel)
  refine wp_findScan key _ o _ hc hlen (fun x hx hk hat => ?_) (fun hk q hq => ?_)
  · refine hold x.oid x.value ?_ hat.notNull hat.value
    exact (binds_eq_some ht.distinct).mpr ⟨x, mem_nodes.mpr ⟨_, hi, hx⟩, hk, rfl⟩
  · refine hnew (binds_eq_none.mpr fun hmem => ?_) q hq
    obtain ⟨x, hx, rfl⟩ := List.mem_map.mp hmem
    exact hk (List.mem_map_of_mem (ht.mem_chain hx))

theorem wp_hmTxGet {key : UInt64} {Q : PMEMoid → PoolState → Prop} (hm' : MapIs s.heap hm m)
    (hfuel : 2^64 < env.fuel) (hQ : Q ((m key).getD oidNull) s) :
    wp env (hmTxGet hm key) Q E s := by
  rw [hmTxGet, wp_bind]
  refine wp_findEntry hm' hfuel (fun o v hv hn ho => ?_) (fun hv q hq => ?_)
  · rw [if_neg (by simp [hn]), wp_dRo ho]
    simpa [hv] using hQ
  · rw [if_pos hq, wp_pure]
    simpa [hv] using hQ

theorem wp_hmTxLookup {key : UInt64} {Q : ℤ → PoolState → Prop} (hm' : MapIs s.heap hm m)
    (hfuel : 2^64 < env.fuel) (hQ : Q (if (m key).isSome then 1 else 0) s) :
    wp env (hmTxLookup hm key) Q E s := by
  rw [hmTxLookup, wp_bind]
  refine wp_findEntry hm' hfuel (fun o v hv hn ho => ?_) (fun hv q hq => ?_)
  · rw [if_neg (by simp [hn]), wp_pure]
    simpa [hv] using hQ
  · rw [if_pos hq, wp_pure]
    simpa [hv] using hQ

end Queries

end RtsCache.HashmapScan
