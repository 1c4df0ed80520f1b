import RtsCache.HashmapOrder
import Mathlib.Combinatorics.Pigeonhole

/-!
# Keys that grow the bucket array

Keys whose values before the reduction modulo the number of buckets agree
share a chain under every length, so no rebuild shortens it. Once the chain is
longer than the threshold, every further insertion of such a key doubles the
array.
-/

set_option autoImplicit false

namespace RtsCache.HashmapGrowth
open RtsCache.UndoHeap RtsCache.UndoMachine RtsCache.UndoRules RtsCache.UndoWrites
open RtsCache.PoolLayout RtsCache.HashmapMachine RtsCache.HashmapInvariant RtsCache.HashmapBodies
open RtsCache.HashmapOps RtsCache.HashmapCreate RtsCache.HashmapOrder RtsCache.HashmapRuns
open RtsCache.RunRefinement

def residue (a b : UInt32) (p key : UInt64) : UInt64 := (a.toUInt64 * key + b.toUInt64) % p

theorem many_share (f : ℕ → ℕ) {N M m : ℕ} (hM : 0 < M) (hf : ∀ k < N, f k < M)
    (hm : M * m ≤ N) : ∃ c, ∃ ks : Finset ℕ, m ≤ ks.card ∧ ∀ k ∈ ks, k < N ∧ f k = c := by
  have hrange : ∀ k ∈ Finset.range N, f k ∈ Finset.range M := by
    intro k hk
    exact Finset.mem_range.mpr (hf k (Finset.mem_range.mp hk))
  have hcard : (Finset.range M).card * m ≤ (Finset.range N).card := by
    rwa [Finset.card_range, Finset.card_range]
  obtain ⟨c, -, hc⟩ := Finset.exists_le_card_fiber_of_mul_le_card_of_maps_to hrange
    ⟨0, Finset.mem_range.mpr hM⟩ hcard
  refine ⟨c, _, hc, ?_⟩
  intro k hk
  obtain ⟨hk, hres⟩ := Finset.mem_filter.mp hk
  exact ⟨Finset.mem_range.mp hk, hres⟩

theorem residue_lt (a b : UInt32) (key : UInt64) :
    (residue a b hashFuncCoeffP key).toNat < 32212254719 := by
  rw [residue, UInt64.toNat_mod]
  exact Nat.mod_lt _ (by decide)

/-- Whatever the coefficients, at least 2^29 keys have one residue, so that
they share a bucket whatever the number of buckets. -/
theorem many_keys_collide (a b : UInt32) : ∃ (c : UInt64) (ks : Finset ℕ), 2^29 ≤ ks.card ∧
    ∀ k ∈ ks, k < 2^64 ∧ ∀ n, hashOf a b hashFuncCoeffP n (UInt64.ofNat k) = c % n := by
  have hfits : 32212254719 * 2^29 ≤ 2^64 := by decide
  obtain ⟨c, ks, hcard, hks⟩ := many_share
    (fun k => (residue a b hashFuncCoeffP (UInt64.ofNat k)).toNat) (by decide)
    (fun k _ => residue_lt a b _) hfits
  refine ⟨UInt64.ofNat c, ks, hcard, ?_⟩
  intro k hk
  obtain ⟨hlt, hres⟩ := hks k hk
  refine ⟨hlt, ?_⟩
  intro n
  rw [← hres, UInt64.ofNat_toNat]
  rfl

section Scan
variable {env : PoolEnv} {s s' : PoolState}

theorem insertScan_ok {key : UInt64} {xs : List Node} {fl : ℕ} {var : PMEMoid} {num : Int32}
    {r : Option Int32} (hc : Chain s.heap var xs)
    (hrun : insertScan key fl var num env s = .ok r s') :
    s' = s ∧ ∀ m, r = some m → key ∉ xs.map Node.key ∧ m = num + Int32.ofNat xs.length := by
  induction fl generalizing var num xs with
  | zero => cases hrun
  | succ fl ih =>
    rw [insertScan] at hrun
    cases xs with
    | nil =>
      rw [if_pos ((chain_nil _ _).mp hc)] at hrun
      cases hrun
      refine ⟨rfl, ?_⟩
      intro m hm
      cases hm
      simp
    | cons x xs =>
      obtain ⟨rfl, hx, c, hn, hc⟩ := (chain_cons _ _ _ _).mp hc
      rw [if_neg (by simp [hx.notNull])] at hrun
      obtain ⟨k, s₁, h₁, t₁⟩ := bind_ok hrun
      obtain ⟨hk, rfl⟩ := load_ok h₁
      cases hk.symm.trans hx.key
      by_cases hkey : x.key = key
      · rw [if_pos hkey] at t₁
        cases t₁
        exact ⟨rfl, fun m hm => by cases hm⟩
      · rw [if_neg hkey] at t₁
        obtain ⟨next, s₂, h₂, t₂⟩ := bind_ok t₁
        obtain ⟨hnext, rfl⟩ := load_ok h₂
        cases hnext.symm.trans hn
        obtain ⟨hs, hr⟩ := ih hc t₂
        refine ⟨hs, ?_⟩
        intro m hm
        obtain ⟨hnot, hlen⟩ := hr m hm
        constructor
        · rw [List.map_cons, List.mem_cons, not_or]
          exact ⟨Ne.symm hkey, hnot⟩
        · rw [hlen, List.length_cons, Nat.add_comm xs.length 1, Int32.ofNat_add, ← Int32.add_assoc]
          rfl

end Scan

section Insert
variable {env : PoolEnv} {s s' : PoolState} {hm bs : PMEMoid} {a b : UInt32} {p n : UInt64}
  {T : ℕ → List Node} {key : UInt64} {value : PMEMoid}

/-- The calls between the states ended in commits only. -/
def AllCommit (s s' : PoolState) : Prop := ∃ k, s'.ends = s.ends ++ List.replicate k .committed

theorem hash_table_ok {k : UInt64} (ht : Table s.heap hm bs a b p n T)
    (hrun : hash hm bs key env s = .ok k s') : k = hashOf a b p n key ∧ s' = s := by
  have h : wp env (hash hm bs key) (fun k t => k = hashOf a b p n key ∧ t = s)
      (fun _ _ => False) s := HashmapScan.wp_hash ht ⟨rfl, rfl⟩
  exact wp_result h hrun

theorem hmTxInsert_ok (hl : s.log = none) (ht : Table s.heap hm bs a b p n T)
    (hrun : hmTxInsert hm key value env s = .ok 0 s') :
    ∃ e s₁, Committed s s₁ ∧
      Table s₁.heap hm bs a b p n (Function.update T (hashOf a b p n key).toNat
        (⟨e, key, value⟩ :: T (hashOf a b p n key).toNat)) ∧
      insertGrow hm bs (Int32.ofNat ((T (hashOf a b p n key).toNat).length) + 1) env s₁ =
        .ok () s' := by
  obtain ⟨bs', s₁, h₁, t₁⟩ := bind_ok hrun
  obtain ⟨hbs, rfl⟩ := load_ok h₁
  cases hbs.symm.trans ht.buckets
  obtain ⟨k, s₂, h₂, t₂⟩ := bind_ok t₁
  obtain ⟨rfl, rfl⟩ := hash_table_ok ht h₂
  obtain ⟨var, s₃, h₃, t₃⟩ := bind_ok t₂
  obtain ⟨hvar, rfl⟩ := load_ok h₃
  obtain ⟨o, ho, hc⟩ := ht.slot _ (hashOf_lt a b p n key ht.pos)
  cases hvar.symm.trans ho
  obtain ⟨_, _, ⟨⟩, t₄⟩ := bind_ok t₃
  obtain ⟨found, s₅, h₅, t₅⟩ := bind_ok t₄
  obtain ⟨rfl, hfound⟩ := insertScan_ok hc h₅
  cases found with
  | none => cases t₅
  | some num =>
    obtain ⟨hnot, rfl⟩ := hfound num rfl
    obtain ⟨r, s₆, h₆, t₆⟩ := bind_ok t₅
    cases r with
    | none => cases t₆
    | some u =>
      obtain ⟨_, s₇, h₇, t₇⟩ := bind_ok t₆
      cases t₇
      have htx : wp env (transaction (insertBody hm bs (hashOf a b p n key).toNat key value))
          (fun r s' => r = some u → Committed s₅ s' ∧ ∃ e, Table s'.heap hm bs a b p n
            (Function.update T (hashOf a b p n key).toNat
              (⟨e, key, value⟩ :: T (hashOf a b p n key).toNat)))
          (fun _ _ => False) s₅ :=
        wp_transaction_atomic (K := MapKind) (R := fun _ h => ∃ e, Table h hm bs a b p n
          (Function.update T (hashOf a b p n key).toNat
            (⟨e, key, value⟩ :: T (hashOf a b p n key).toNat))) hl
          (wp_mono (wp_insertBody (s := s₅.tick.opened) rfl ht rfl hnot)
            (fun _ _ h => ⟨h.1, h.2.2⟩) fun _ _ h => h.1) (fun _ _ h => nomatch h)
          fun _ _ hc hr _ => ⟨hc, hr⟩
      obtain ⟨hcommit, e, ht'⟩ := wp_result htx h₆ rfl
      refine ⟨e, s₆, hcommit, ht', ?_⟩
      rwa [Int32.zero_add] at h₇

/-- The number of buckets after an insertion that leaves `c` nodes in its chain
and in the map. -/
def grown (n : UInt64) (c : ℕ) : UInt64 :=
  if 10 < c ∨ (5 < c ∧ 2 * n.toNat < c) then n * 2 else n

theorem chain_of_shared {i : ℕ} (ht : Table s.heap hm bs a b p n T) (hi : i < n.toNat)
    (hshare : ∀ x ∈ nodes n.toNat T, (hashOf a b p n x.key).toNat = i) :
    T i = nodes n.toNat T := by
  have hone := filter_range_flatMap (T := T) (bucketOf a b p n) n.toNat i hi ht.placed
  rw [← hone, ← nodes, List.filter_eq_self]
  intro x hx
  exact decide_eq_true (hshare x hx)

theorem threshold_iff {c : ℕ} (k : ℕ) (hk : k < 2^31) (hc : c < 2^31) :
    Int32.ofNat c > Int32.ofNat k ↔ k < c := by
  rw [gt_iff_lt, Int32.lt_iff_toInt_lt, Int32.toInt_ofNat_of_lt hk, Int32.toInt_ofNat_of_lt hc]
  exact Int.ofNat_lt

theorem double_toNat {h : Pool} (ht : Table h hm bs a b p n T) :
    (n * 2).toNat = 2 * n.toNat ∧ (2 * n).toNat = 2 * n.toNat := by
  have := ht.fits
  unfold pmemobjMaxAllocSize at this
  simp only [UInt64.toNat_mul, UInt64.reduceToNat]
  omega

theorem double_ne_zero {h : Pool} (ht : Table h hm bs a b p n T) : n * 2 ≠ 0 := by
  intro hzero
  have h := (double_toNat ht).1
  have hpos : n.toNat ≠ 0 := fun h => ht.pos (UInt64.toNat_inj.mp h)
  rw [hzero, UInt64.toNat_zero] at h
  omega

theorem growing_iff {h : Pool} {c : ℕ} (ht : Table h hm bs a b p n T) (hc : c < 2^31) :
    (Int32.ofNat c > maxHashsetThreshold ∨
      (Int32.ofNat c > minHashsetThreshold ∧ UInt64.ofNat c > 2 * n)) ↔
    10 < c ∨ (5 < c ∧ 2 * n.toNat < c) := by
  have hten := threshold_iff 10 (by decide) hc
  have hfive := threshold_iff 5 (by decide) hc
  have hdouble : UInt64.ofNat c > 2 * n ↔ 2 * n.toNat < c := by
    have hlt : c < 2^64 := by omega
    rw [gt_iff_lt, UInt64.lt_iff_toNat_lt, (double_toNat ht).2, UInt64.toNat_ofNat_of_lt' hlt]
  rw [← hten, ← hfive, ← hdouble]
  rfl

theorem AllCommit.not_aborted {s₁ : PoolState} (hall : AllCommit s s') (hc : Committed s s₁) :
    ¬ Aborted s₁ s' := by
  intro ha
  obtain ⟨c, hends⟩ := ha.ends
  obtain ⟨k, hk⟩ := hall
  rw [hk, hc.ends, List.append_assoc, List.append_cancel_left_eq] at hends
  have hmem : TxEnd.aborted c ∈ List.replicate k TxEnd.committed := by
    rw [hends]
    simp
  cases List.eq_of_mem_replicate hmem

/-- A key that shares its bucket with all nodes of the map, inserted by
transactions that commit, grows the array by the rule of `grown`. -/
theorem insert_grows (hl : s.log = none) (ht : Table s.heap hm bs a b p n T)
    (hfuel : 2^64 < env.fuel) (hrun : hmTxInsert hm key value env s = .ok 0 s')
    (hall : AllCommit s s')
    (hshare : ∀ x ∈ nodes n.toNat T, hashOf a b p n x.key = hashOf a b p n key)
    (hsmall : (nodes n.toNat T).length + 1 < 2^31) :
    s'.log = none ∧ ∃ e, Holds s'.heap hm a b p (grown n ((nodes n.toNat T).length + 1))
      (⟨e, key, value⟩ :: nodes n.toNat T) := by
  obtain ⟨e, s₁, hc, ht₁, hgrow⟩ := hmTxInsert_ok hl ht hrun
  have hi := hashOf_lt a b p n key ht.pos
  have hchain := chain_of_shared ht hi fun x hx => congrArg UInt64.toNat (hshare x hx)
  have hN := holds_insert ht₁
  have hcount : (nodes n.toNat (Function.update T (hashOf a b p n key).toNat
      (⟨e, key, value⟩ :: T (hashOf a b p n key).toNat))).length =
      (nodes n.toNat T).length + 1 := hN.length_eq
  have hnum : Int32.ofNat (nodes n.toNat T).length + 1 =
      Int32.ofNat ((nodes n.toNat T).length + 1) := (Int32.ofNat_add _ 1).symm
  rw [hchain, hnum] at hgrow
  -- the two loads of `insertGrow` and its condition
  obtain ⟨count, s₂, h₂, t₂⟩ := bind_ok hgrow
  obtain ⟨hcnt, rfl⟩ := load_ok h₂
  cases hcnt.symm.trans ht₁.count
  obtain ⟨len, s₃, h₃, t₃⟩ := bind_ok t₂
  obtain ⟨hlen, rfl⟩ := load_ok h₃
  cases hlen.symm.trans ht₁.nbuckets
  rw [hcount] at t₃
  have hcond := growing_iff ht hsmall
  by_cases hgrows : 10 < (nodes n.toNat T).length + 1 ∨
      (5 < (nodes n.toNat T).length + 1 ∧ 2 * n.toNat < (nodes n.toNat T).length + 1)
  · rw [if_pos (hcond.mpr hgrows)] at t₃
    have hrebuild : wp env (hmTxRebuild hm (n * 2)) (fun _ t => Aborted s₃ t ∨ Committed s₃ t ∧
        Holds t.heap hm a b p (rebuiltLen n (n * 2)) (nodes n.toNat (Function.update T
          (hashOf a b p n key).toNat (⟨e, key, value⟩ :: T (hashOf a b p n key).toNat))))
        (fun _ _ => False) s₃ :=
      wp_hmTxRebuild_top hc.log ht₁ (double_fits ht₁) hfuel (fun _ => Or.inl)
        fun _ hc hh => Or.inr ⟨hc, hh⟩
    rcases wp_result hrebuild t₃ with habort | ⟨hc', hh⟩
    · exact absurd habort (hall.not_aborted hc)
    · rw [rebuiltLen, if_neg (double_ne_zero ht)] at hh
      rw [grown, if_pos hgrows]
      exact ⟨hc'.log, e, hh.perm hN⟩
  · rw [if_neg fun h => hgrows (hcond.mp h)] at t₃
    cases t₃
    rw [grown, if_neg hgrows]
    exact ⟨hc.log, e, bs, _, ht₁, hN⟩

end Insert

section Runs
variable {s₀ s : PoolState} {hm : PMEMoid} {a b : UInt32} {c : UInt64}
  {kvs : List (UInt64 × PMEMoid)}

def CommitCall (hm : PMEMoid) (s : PoolState) (o : Op) (r : Ret) (s' : PoolState) : Prop :=
  MapCall hm s o r s' ∧ AllCommit s s'

def inserts (kvs : List (UInt64 × PMEMoid)) : List (Op × Ret) :=
  kvs.map fun kv => (.insert kv.1 kv.2, .code 0)

def Grown (hm : PMEMoid) (a b : UInt32) (c : UInt64) (k : ℕ) (s : PoolState) : Prop :=
  s.log = none ∧ ∃ bs n T, Table s.heap hm bs a b hashFuncCoeffP n T ∧
    n.toNat = 10 * 2^(k - 10) ∧ (nodes n.toNat T).length = k ∧
    ∀ x ∈ nodes n.toNat T, residue a b hashFuncCoeffP x.key = c

theorem Grown.bounded {k : ℕ} (hg : Grown hm a b c k s) : k ≤ 36 := by
  obtain ⟨-, bs, n, T, ht, hn, -, -⟩ := hg
  have hfits := ht.fits
  by_contra hk
  have hpow : 2^27 ≤ 2^(k - 10) := Nat.pow_le_pow_right (by decide) (by omega)
  unfold pmemobjMaxAllocSize at hfits
  rw [hn] at hfits
  omega

theorem grown_toNat {n : UInt64} {k : ℕ} (hn : n.toNat = 10 * 2^(k - 10))
    (hdouble : (n * 2).toNat = 2 * n.toNat) : (grown n (k + 1)).toNat = 10 * 2^(k + 1 - 10) := by
  unfold grown
  by_cases hk : 10 < k + 1
  · have hexp : k + 1 - 10 = (k - 10) + 1 := by omega
    rw [if_pos (Or.inl hk), hdouble, hn, hexp, Nat.pow_succ]
    omega
  · have hexp : k - 10 = 0 := by omega
    have hexp' : k + 1 - 10 = 0 := by omega
    rw [hexp, Nat.pow_zero, Nat.mul_one] at hn
    rw [if_neg (by omega), hn, hexp', Nat.pow_zero, Nat.mul_one]

theorem grown_step {k : ℕ} {key : UInt64} {value : PMEMoid} {s' : PoolState}
    (hg : Grown hm a b c k s) (hkey : residue a b hashFuncCoeffP key = c)
    (hcall : CommitCall hm s (.insert key value) (.code 0) s') : Grown hm a b c (k + 1) s' := by
  have hk := hg.bounded
  obtain ⟨hl, bs, n, T, ht, hn, hlen, hres⟩ := hg
  obtain ⟨⟨-, env, hfuel, hok, -⟩, hall⟩ := hcall
  obtain ⟨r, s₁, h₁, h₂⟩ := bind_ok hok
  cases h₂
  have hshare : ∀ x ∈ nodes n.toNat T, hashOf a b hashFuncCoeffP n x.key =
      hashOf a b hashFuncCoeffP n key := by
    intro x hx
    show residue a b hashFuncCoeffP x.key % n = residue a b hashFuncCoeffP key % n
    rw [hres x hx, hkey]
  obtain ⟨hl', e, bs', T', ht', hN⟩ := insert_grows hl ht hfuel h₁ hall hshare (by omega)
  rw [hlen] at ht' hN
  refine ⟨hl', bs', _, T', ht', grown_toNat hn (double_toNat ht).1, ?_, ?_⟩
  · rw [hN.length_eq, List.length_cons, hlen]
  · intro x hx
    rcases List.mem_cons.mp (hN.mem_iff.mp hx) with rfl | hx
    · exact hkey
    · exact hres x hx

theorem grown_run (hg : Grown hm a b c 0 s₀)
    (hcoll : ∀ kv ∈ kvs, residue a b hashFuncCoeffP kv.1 = c)
    (hrun : Run (CommitCall hm) s₀ (inserts kvs) s) : Grown hm a b c kvs.length s := by
  induction kvs using List.reverseRecOn generalizing s with
  | nil =>
    rw [hrun.eq_of_nil]
    exact hg
  | append_singleton kvs kv ih =>
    rw [inserts, List.map_append, List.map_singleton] at hrun
    obtain ⟨t, ht, hlast⟩ := hrun.last
    rw [List.length_append, List.length_singleton]
    have hbefore := ih (fun kv hkv => hcoll kv (List.mem_append_left _ hkv)) ht
    exact grown_step hbefore (hcoll kv (by simp)) hlast

/-- In a new map the insertion of keys that share a residue, each by
transactions that commit, doubles the array from the eleventh key on: with `k`
keys it has `10 * 2^(k-10)` slots. No more than 36 keys can be inserted so. -/
theorem colliding_inserts_double (hl : s₀.log = none) (hnew : Created s₀.heap hm)
    (ha : s₀.heap.get hm .hashFunA = some a) (hb : s₀.heap.get hm .hashFunB = some b)
    (hcoll : ∀ kv ∈ kvs, residue a b hashFuncCoeffP kv.1 = c)
    (hrun : Run (CommitCall hm) s₀ (inserts kvs) s) :
    kvs.length ≤ 36 ∧ ∃ bs n T, Table s.heap hm bs a b hashFuncCoeffP n T ∧
      n.toNat = 10 * 2^(kvs.length - 10) ∧ (nodes n.toNat T).length = kvs.length := by
  obtain ⟨bs, a', b', ht⟩ := hnew.table
  cases ht.coeffA.symm.trans ha
  cases ht.coeffB.symm.trans hb
  have hempty : nodes initBucketsNum.toNat (fun _ => []) = [] := nodes_empty _
  have hg : Grown hm a b c 0 s₀ := by
    refine ⟨hl, bs, initBucketsNum, fun _ => [], ht, rfl, ?_, ?_⟩
    · rw [hempty]
      rfl
    · intro x hx
      rw [hempty] at hx
      cases hx
  have hend := grown_run hg hcoll hrun
  have hk := hend.bounded
  obtain ⟨-, bs', n, T, ht', hn, hlen, -⟩ := hend
  exact ⟨hk, bs', n, T, ht', hn, hlen⟩

def quietCommit (s : PoolState) (o : Op) : Option (Ret × PoolState) :=
  match hmStep newMap o quietEnv s with
  | .ok r s' =>
    let k := s'.ends.length - s.ends.length
    if o.Valid ∧ s'.ends = s.ends ++ List.replicate k .committed then some (r, s') else none
  | _ => none

theorem quietCommit_call (s : PoolState) (o : Op) (r : Ret) (s' : PoolState)
    (h : quietCommit s o = some (r, s')) : CommitCall newMap s o r s' := by
  unfold quietCommit at h
  split at h
  · rename_i hok
    dsimp only at h
    split at h
    · rename_i hgood
      cases h
      refine ⟨⟨hgood.1, quietEnv, Nat.lt_succ_self _, hok, ?_⟩, _, hgood.2⟩
      rintro _ ⟨c, hc⟩
      rw [hgood.2, List.getElem?_append_right (Nat.le_refl _), Nat.sub_self] at hc
      cases List.eq_of_mem_replicate (List.mem_of_getElem? hc)
    · cases h
  · cases h

def elevenKeys : List (UInt64 × PMEMoid) :=
  (List.range 11).map fun i => (3 + UInt64.ofNat i * hashFuncCoeffP, ⟨1, UInt64.ofNat (7 + i)⟩)

theorem colliding_inserts_double_eleven : ∃ s,
    Run (CommitCall newMap) newState (inserts elevenKeys) s ∧
      ∃ bs n T, Table s.heap newMap bs 1 0 hashFuncCoeffP n T ∧ n.toNat = 20 ∧
        (nodes n.toNat T).length = 11 := by
  have hreplays : (replay quietCommit newState (inserts elevenKeys)).isSome := by decide +kernel
  obtain ⟨s, hreplay⟩ := Option.isSome_iff_exists.mp hreplays
  have hrun := replay_run quietCommit_call hreplay
  have hcoll : ∀ kv ∈ elevenKeys, residue 1 0 hashFuncCoeffP kv.1 = 3 := by decide
  obtain ⟨-, hend⟩ := colliding_inserts_double rfl newHeap_created rfl rfl hcoll hrun
  exact ⟨s, hrun, hend⟩

end Runs

end RtsCache.HashmapGrowth
