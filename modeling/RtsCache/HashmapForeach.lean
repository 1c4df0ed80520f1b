import RtsCache.HashmapRuns
import RtsCache.StoppingVisits

/-!
# Calling back for every pair of the map

`hm_tx_foreach` of `hashmap_tx.c`. A reply other than 0 ends the loop over a
chain, not the loop over the buckets: later pairs are visited as well, and
their replies replace the one that was to be returned.
-/

set_option autoImplicit false

namespace RtsCache.HashmapForeach
open RtsCache.UndoHeap RtsCache.UndoMachine RtsCache.UndoRules RtsCache.PoolLayout
open RtsCache.HashmapMachine RtsCache.HashmapInvariant RtsCache.StoppingVisits
open RtsCache.HashmapRuns (newMap newBuckets quietEnv twoState twoHeap_table twoChains)

abbrev Pair := UInt64 × PMEMoid

variable {σ : Type}

/-- The loop over a chain. `arg` is the state the callback keeps. -/
def foreachChain (cb : Callback Pair σ) : ℕ → PMEMoid → ℤ → σ → Pmem (ℤ × σ)
  | 0, _, _, _ => stuck
  | n+1, var, ret, arg =>
    if var.isNull then pure (ret, arg)
    else do
      let key ← dRo var .key
      let value ← dRo var .value
      let (ret, arg) := cb (key, value) arg
      if ret ≠ 0 then pure (ret, arg)
      else do
        let next ← dRo var .entryNext
        foreachChain cb n next ret arg

def foreachBuckets (cb : Callback Pair σ) (buckets : PMEMoid) :
    ℕ → ℕ → ℤ → σ → Pmem (ℤ × σ)
  | 0, _, _, _ => stuck
  | n+1, i, ret, arg => do
    let nbuckets ← dRo buckets .nbuckets
    if i < nbuckets.toNat then do
      let var ← dRo buckets (.bucket i)
      if var.isNull then foreachBuckets cb buckets n (i+1) ret arg
      else do
        let fl ← fuel
        let (ret, arg) ← foreachChain cb fl var ret arg
        foreachBuckets cb buckets n (i+1) ret arg
    else pure (ret, arg)

def hmTxForeach (hashmap : PMEMoid) (cb : Callback Pair σ) (arg : σ) : Pmem (ℤ × σ) := do
  let buckets ← dRo hashmap .buckets
  let fl ← fuel
  foreachBuckets cb buckets fl 0 0 arg

def recording (cb : Callback Pair σ) : Callback Pair (σ × List Pair) := fun x arg =>
  let (ret, arg') := cb x arg.1
  (ret, arg', arg.2 ++ [x])

def pairs (T : ℕ → List Node) (i : ℕ) : List Pair := (T i).map fun x => (x.key, x.value)

def livePairs (T : ℕ → List Node) (n : UInt64) : List Pair := lists (pairs T) n.toNat

/-- Every pair at most once, in order, up to a reply other than 0. -/
structure Visited (cb : Callback Pair σ) (arg : σ) (live : List Pair) (ret : ℤ)
    (calls : List Pair) : Prop where
  once : calls.Nodup
  stops : Stops cb arg live ret calls

variable {env : PoolEnv} {s : PoolState} {E : Cause → PoolState → Prop} {hm bs : PMEMoid}
  {a b : UInt32} {p n : UInt64} {T : ℕ → List Node} {cb : Callback Pair σ} {arg : σ}

theorem wp_foreachChain (xs : List Node) (o : PMEMoid) (fl : ℕ) (ret : ℤ) (arg : σ)
    {Q : ℤ × σ → PoolState → Prop} (hc : Chain s.heap o xs) (hf : xs.length < fl)
    (hnil : xs = [] → Q (ret, arg) s)
    (hQ : xs ≠ [] → Q ((visit cb (xs.map fun x => (x.key, x.value)) arg).ret,
      (visit cb (xs.map fun x => (x.key, x.value)) arg).arg) s) :
    wp env (foreachChain cb fl o ret arg) Q E s := by
  induction xs generalizing o fl ret arg with
  | nil =>
    obtain ⟨fl, rfl⟩ := Nat.exists_eq_succ_of_ne_zero (Nat.ne_of_gt hf)
    rw [foreachChain, if_pos ((chain_nil _ _).mp hc)]
    exact hnil rfl
  | cons x xs ih =>
    obtain ⟨fl, rfl⟩ := Nat.exists_eq_succ_of_ne_zero (Nat.ne_of_gt (Nat.zero_lt_of_lt hf))
    obtain ⟨rfl, hx, c, hn, hc⟩ := (chain_cons _ _ _ _).mp hc
    have hQ := hQ (List.cons_ne_nil x xs)
    rw [List.map_cons] at hQ
    rw [foreachChain, if_neg (by simp [hx.notNull]), wp_bind, wp_dRo hx.key, wp_bind,
      wp_dRo hx.value]
    by_cases hr : (cb (x.key, x.value) arg).1 = 0
    · rw [visit_cons_pass hr] at hQ
      dsimp only
      rw [if_neg (not_not.mpr hr), wp_bind, wp_dRo hn]
      apply ih c fl _ _ hc (Nat.lt_of_succ_lt_succ hf)
      · intro hnil
        rw [hnil] at hQ
        rw [hr]
        exact hQ
      · exact fun _ => hQ
    · rw [visit_cons_stop hr] at hQ
      dsimp only
      rw [if_pos hr, wp_pure]
      exact hQ

theorem wp_foreachBuckets (ht : Table s.heap hm bs a b p n T) (hfuel : 2^64 < env.fuel)
    (m i fl : ℕ) (hm' : i + m = n.toNat) (hf : m < fl) {Q : ℤ × σ → PoolState → Prop}
    (hQ : Q ((walk cb (pairs T) arg n.toNat).ret, (walk cb (pairs T) arg n.toNat).arg) s) :
    wp env (foreachBuckets cb bs fl i (walk cb (pairs T) arg i).ret
      (walk cb (pairs T) arg i).arg) Q E s := by
  induction m generalizing i fl with
  | zero =>
    obtain ⟨fl, rfl⟩ := Nat.exists_eq_succ_of_ne_zero (Nat.ne_of_gt hf)
    obtain rfl : i = n.toNat := by omega
    rw [foreachBuckets, wp_bind, wp_dRo ht.nbuckets, if_neg (Nat.lt_irrefl _), wp_pure]
    exact hQ
  | succ m ih =>
    obtain ⟨fl, rfl⟩ := Nat.exists_eq_succ_of_ne_zero (Nat.ne_of_gt (Nat.zero_lt_of_lt hf))
    have hi : i < n.toNat := by omega
    obtain ⟨o, ho, hc⟩ := ht.slot i hi
    have hnext := ih (i+1) fl (by omega) (Nat.lt_of_succ_lt_succ hf)
    rw [walk] at hnext
    dsimp only at hnext
    rw [foreachBuckets, wp_bind, wp_dRo ht.nbuckets, if_pos hi, wp_bind, wp_dRo ho]
    cases hT : T i with
    | nil =>
      have hB : pairs T i = [] := by rw [pairs, hT, List.map_nil]
      rw [if_pos hB] at hnext
      rw [hT] at hc
      rw [if_pos ((chain_nil _ _).mp hc)]
      exact hnext
    | cons x xs =>
      have hB : pairs T i ≠ [] := by
        rw [pairs, hT]
        exact List.cons_ne_nil _ _
      have hnull : o.isNull = false := by
        rw [hT] at hc
        obtain ⟨rfl, hx, -⟩ := (chain_cons _ _ _ _).mp hc
        exact hx.notNull
      have hlen : (T i).length < env.fuel :=
        Nat.lt_of_le_of_lt (length_le_nodes hi) (Nat.lt_of_le_of_lt ht.length_le hfuel)
      rw [if_neg hB] at hnext
      rw [if_neg (by simp [hnull]), wp_bind, wp_fuel, wp_bind]
      apply wp_foreachChain (T i) o _ _ _ hc hlen
      · intro hnil
        cases hT.symm.trans hnil
      · intro _
        exact hnext

theorem hmTxForeach_walk (ht : Table s.heap hm bs a b p n T) (hfuel : 2^64 < env.fuel)
    (cb : Callback Pair σ) (arg : σ) :
    hmTxForeach hm cb arg env s = .ok ((walk cb (pairs T) arg n.toNat).ret,
      (walk cb (pairs T) arg n.toNat).arg) s := by
  have hlt : n.toNat < env.fuel := Nat.lt_trans n.toNat_lt hfuel
  have hwp : wp env (hmTxForeach hm cb arg) (fun r s' =>
      r = ((walk cb (pairs T) arg n.toNat).ret, (walk cb (pairs T) arg n.toNat).arg) ∧ s' = s)
      (fun _ _ => False) s := by
    rw [hmTxForeach, wp_bind, wp_dRo ht.buckets, wp_bind, wp_fuel]
    exact wp_foreachBuckets ht hfuel n.toNat 0 _ (Nat.zero_add _) hlt ⟨rfl, rfl⟩
  obtain ⟨r, s', hrun, rfl, rfl⟩ := wp_returns hwp
  exact hrun

theorem visit_recording (cb : Callback Pair σ) (xs : List Pair) (arg : σ) (done : List Pair) :
    (visit (recording cb) xs (arg, done)).ret = (visit cb xs arg).ret ∧
      (visit (recording cb) xs (arg, done)).arg =
        ((visit cb xs arg).arg, done ++ (visit cb xs arg).calls) := by
  induction xs generalizing arg done with
  | nil => exact ⟨rfl, by rw [visit, visit, List.append_nil]⟩
  | cons x xs ih =>
    by_cases hr : (cb x arg).1 = 0
    · have hr' : (recording cb x (arg, done)).1 = 0 := hr
      obtain ⟨hret, harg⟩ := ih (cb x arg).2 (done ++ [x])
      rw [visit_cons_pass hr, visit_cons_pass hr']
      rw [List.append_assoc] at harg
      exact ⟨hret, harg⟩
    · have hr' : (recording cb x (arg, done)).1 ≠ 0 := hr
      rw [visit_cons_stop hr, visit_cons_stop hr']
      exact ⟨rfl, rfl⟩

theorem walk_recording (cb : Callback Pair σ) (B : ℕ → List Pair) (arg : σ) (k : ℕ) :
    (walk (recording cb) B (arg, []) k).ret = (walk cb B arg k).ret ∧
      (walk (recording cb) B (arg, []) k).arg =
        ((walk cb B arg k).arg, (walk cb B arg k).calls) := by
  induction k with
  | zero => exact ⟨rfl, rfl⟩
  | succ k ih =>
    rw [walk, walk]
    dsimp only
    by_cases hB : B k = []
    · rw [if_pos hB, if_pos hB]
      exact ih
    · rw [if_neg hB, if_neg hB, ih.2]
      exact visit_recording cb (B k) _ _

theorem livePairs_eq (T : ℕ → List Node) (n : UInt64) :
    livePairs T n = (nodes n.toNat T).map fun x => (x.key, x.value) := by
  rw [livePairs, lists, nodes, List.map_flatMap]
  rfl

theorem livePairs_nodup (ht : Table s.heap hm bs a b p n T) : (livePairs T n).Nodup := by
  have hkeys : ((livePairs T n).map Prod.fst).Nodup := by
    rw [livePairs_eq, List.map_map]
    exact ht.distinct
  exact hkeys.of_map _

/-- Every live pair is visited at most once and the calls stop as they should
exactly where the buckets behind the first reply other than 0 are empty. -/
theorem hmTxForeach_visits_iff (ht : Table s.heap hm bs a b p n T) (hfuel : 2^64 < env.fuel)
    (cb : Callback Pair σ) (arg : σ) : ∃ ret arg' calls,
      hmTxForeach hm cb arg env s = .ok (ret, arg') s ∧
      hmTxForeach hm (recording cb) (arg, []) env s = .ok (ret, arg', calls) s ∧
      (Visited cb arg (livePairs T n) ret calls ↔
        ∀ i < n.toNat, (visit cb (lists (pairs T) (i+1)) arg).ret ≠ 0 →
          ∀ j < n.toNat, i < j → T j = []) := by
  obtain ⟨hret, harg⟩ := walk_recording cb (pairs T) arg n.toNat
  have hrecorded := hmTxForeach_walk (s := s) ht hfuel (recording cb) (arg, [])
  rw [hret, harg] at hrecorded
  have hempty : StopsLast cb (pairs T) arg n.toNat ↔
      ∀ i < n.toNat, (visit cb (lists (pairs T) (i+1)) arg).ret ≠ 0 →
        ∀ j < n.toNat, i < j → T j = [] := by
    unfold StopsLast
    simp only [pairs, List.map_eq_nil_iff]
  have hvisited : Visited cb arg (livePairs T n) (walk cb (pairs T) arg n.toNat).ret
      (walk cb (pairs T) arg n.toNat).calls ↔ StopsLast cb (pairs T) arg n.toNat := by
    rw [← walk_stops_iff]
    constructor
    · exact fun h => h.stops
    · intro h
      exact ⟨h.order.sublist.nodup (livePairs_nodup ht), h⟩
  exact ⟨_, _, _, hmTxForeach_walk ht hfuel cb arg, hrecorded, hvisited.trans hempty⟩

section Sample

def failsOnZero : Callback Pair Unit := fun x _ => (if x.1 = 0 then 1 else 0, ())

theorem hmTxForeach_visits_two : ∃ ret arg' calls,
    hmTxForeach newMap failsOnZero () quietEnv twoState = .ok (ret, arg') twoState ∧
    hmTxForeach newMap (recording failsOnZero) ((), []) quietEnv twoState =
      .ok (ret, arg', calls) twoState ∧
    (Visited failsOnZero () (livePairs twoChains 2) ret calls ↔
      ∀ i < (2 : UInt64).toNat, (visit failsOnZero (lists (pairs twoChains) (i+1)) ()).ret ≠ 0 →
        ∀ j < (2 : UInt64).toNat, i < j → twoChains j = []) :=
  hmTxForeach_visits_iff (s := twoState) twoHeap_table (Nat.lt_succ_self _) failsOnZero ()

/-- The pair of the second bucket is visited after the failure on the first,
and its reply is returned. -/
theorem not_visited_two : Table twoState.heap newMap newBuckets 1 0 hashFuncCoeffP 2 twoChains ∧
    ∃ ret calls, hmTxForeach newMap (recording failsOnZero) ((), []) quietEnv twoState =
      .ok (ret, (), calls) twoState ∧
      ¬ Visited failsOnZero () (livePairs twoChains 2) ret calls := by
  have hwalk : hmTxForeach newMap (recording failsOnZero) ((), []) quietEnv twoState =
      .ok (0, (), [(0, ⟨1, 7⟩), (1, ⟨1, 8⟩)]) twoState :=
    hmTxForeach_walk (s := twoState) twoHeap_table (Nat.lt_succ_self _) _ _
  have hnot : ¬ Visited failsOnZero () (livePairs twoChains 2) 0 [(0, ⟨1, 7⟩), (1, ⟨1, 8⟩)] := by
    intro h
    exact absurd h.stops.passes (by decide)
  exact ⟨twoHeap_table, 0, [(0, ⟨1, 7⟩), (1, ⟨1, 8⟩)], hwalk, hnot⟩

end Sample

end RtsCache.HashmapForeach
