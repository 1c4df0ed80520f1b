import RtsCache.HashmapCreate
import RtsCache.RunRefinement
import Mathlib.Data.Set.Card

/-!
# Runs of the hash map

The specification is a finite map from keys to values. In a run every call has
its own environment, so every rebuild may commit or abort; the transactions of
insertion and removal themselves commit, as they do whenever the environment
serves them.
-/

set_option autoImplicit false

namespace RtsCache.HashmapRuns
open RtsCache.UndoHeap RtsCache.UndoMachine RtsCache.UndoRules RtsCache.PoolLayout
open RtsCache.HashmapMachine RtsCache.HashmapInvariant RtsCache.HashmapOps RtsCache.HashmapScan
open RtsCache.HashmapBodies RtsCache.HashmapCreate RtsCache.RunRefinement

inductive Op where
  | insert (key : UInt64) (value : PMEMoid)
  | remove (key : UInt64)
  | get (key : UInt64)
  | lookup (key : UInt64)
  | count
  | rebuild (newLen : UInt64)

inductive Ret where
  | code (z : ℤ)
  | oid (o : PMEMoid)
  | size (n : ℕ)
  deriving DecidableEq

def hmStep (hm : PMEMoid) : Op → Pmem Ret
  | .insert key value => do
    let r ← hmTxInsert hm key value
    pure (.code r)
  | .remove key => do
    let o ← hmTxRemove hm key
    pure (.oid o)
  | .get key => do
    let o ← hmTxGet hm key
    pure (.oid o)
  | .lookup key => do
    let r ← hmTxLookup hm key
    pure (.code r)
  | .count => do
    let n ← hmTxCount hm
    pure (.size n.toNat)
  | .rebuild newLen => do
    let r ← hmTxCmd hm 0 newLen
    pure (.code r)

/-- A commanded rebuild asks for a size that fits `size_t`. -/
def Op.Valid : Op → Prop
  | .rebuild newLen => 8 + 16 * newLen.toNat < 2^64
  | _ => True

abbrev Bindings := UInt64 → Option PMEMoid

noncomputable def liveKeys (m : Bindings) : ℕ := {k | (m k).isSome}.ncard

noncomputable def mapSpec (m : Bindings) : Op → Ret × Bindings
  | .insert key value =>
    if (m key).isSome then (.code 1, m) else (.code 0, Function.update m key (some value))
  | .remove key => (.oid ((m key).getD oidNull), Function.update m key none)
  | .get key => (.oid ((m key).getD oidNull), m)
  | .lookup key => (.code (if (m key).isSome then 1 else 0), m)
  | .count => (.size (liveKeys m), m)
  | .rebuild _ => (.code 0, m)

/-- The call's first transaction aborted; for an insertion or a removal it is
the one that changes the map. -/
def FirstAborts (s s' : PoolState) : Prop :=
  ∃ c, s'.ends[s.ends.length]? = some (.aborted c)

def Op.Changes : Op → Prop
  | .insert _ _ => True
  | .remove _ => True
  | _ => False

instance (o : Op) : Decidable o.Valid :=
  match o with
  | .rebuild newLen => inferInstanceAs (Decidable (8 + 16 * newLen.toNat < 2^64))
  | .insert _ _ | .remove _ | .get _ | .lookup _ | .count => isTrue trivial

instance (o : Op) : Decidable o.Changes :=
  match o with
  | .insert _ _ | .remove _ => isTrue trivial
  | .get _ | .lookup _ | .count | .rebuild _ => isFalse id

instance (s s' : PoolState) : Decidable (FirstAborts s s') :=
  match h : s'.ends[s.ends.length]? with
  | some (.aborted c) => isTrue ⟨c, h⟩
  | some .committed => isFalse fun ⟨_, hc⟩ => by cases h.symm.trans hc
  | none => isFalse fun ⟨_, hc⟩ => by cases h.symm.trans hc

/-- The environment lets the call's own transaction commit; what it does to the
rebuild that may follow is left open. -/
def Op.Served (env : PoolEnv) (s : PoolState) : Op → Prop
  | .insert _ _ => InsertServed env s
  | .remove _ => RemoveServed env s
  | _ => True

def Op.failed : Op → Ret
  | .insert _ _ => .code (-1)
  | _ => .oid oidNull

def MapCall (hm : PMEMoid) (s : PoolState) (o : Op) (r : Ret) (s' : PoolState) : Prop :=
  o.Valid ∧ ∃ env : PoolEnv, 2^64 < env.fuel ∧ hmStep hm o env s = .ok r s' ∧
    (o.Changes → ¬ FirstAborts s s')

theorem liveKeys_binds {xs : List Node} (hn : (xs.map Node.key).Nodup) :
    liveKeys (binds xs) = xs.length := by
  have : {k | (binds xs k).isSome} = ↑(xs.map Node.key).toFinset := by
    ext k
    rw [Set.mem_ofPred_eq, List.coe_toFinset, Set.mem_ofPred_eq, Option.isSome_iff_ne_none, ne_eq,
      binds_eq_none, not_not]
  rw [liveKeys, this, Set.ncard_coe_finset, List.toFinset_card_of_nodup hn, List.length_map]

theorem firstAborts_of {s s' : PoolState} (h : Aborted s s') : FirstAborts s s' := by
  obtain ⟨c, hc⟩ := h.ends
  exact ⟨c, by simp [hc]⟩

theorem not_firstAborts_self (s : PoolState) : ¬ FirstAborts s s := by
  rintro ⟨c, hc⟩
  simp at hc

theorem not_firstAborts_of_committed {s s' : PoolState} {ts : List TxEnd}
    (h : s'.ends = s.ends ++ .committed :: ts) : ¬ FirstAborts s s' := by
  rintro ⟨c, hc⟩
  simp [h] at hc

theorem not_firstAborts_of_resized {env : PoolEnv} {hm : PMEMoid} {N : List Node}
    {s s₁ s' : PoolState} (h : Committed s s₁) (hr : Resized env hm N s₁ s') :
    ¬ FirstAborts s s' := by
  cases hr with
  | kept he =>
    subst he
    exact not_firstAborts_of_committed h.ends
  | aborted len run ha =>
    obtain ⟨d, hd⟩ := ha.ends
    rw [h.ends, List.append_assoc] at hd
    exact not_firstAborts_of_committed hd
  | rebuilt len run hc _ =>
    have hd := hc.ends
    rw [h.ends, List.append_assoc] at hd
    exact not_firstAborts_of_committed hd

/-- How a call on a map that stands for `m` can end. -/
inductive Outcome (env : PoolEnv) (s : PoolState) (hm : PMEMoid) (m : Bindings) (o : Op) (r : Ret)
    (s' : PoolState) : Prop
  | failed (changes : o.Changes) (aborts : FirstAborts s s') (unserved : ¬ o.Served env s)
      (answer : r = o.failed) (heap : s'.heap = s.heap)
  | answered (commits : o.Changes → ¬ FirstAborts s s') (answer : r = (mapSpec m o).1)
      (isMap : MapIs s'.heap hm (mapSpec m o).2)

section Steps
variable {env : PoolEnv} {s : PoolState} {hm bs : PMEMoid} {m : Bindings} {a b : UInt32}
  {p n key : UInt64} {value : PMEMoid} {T : ℕ → List Node} {x : Node} {N : List Node}
  {E : Cause → PoolState → Prop}

theorem mapSpec_bound (hk : key ∈ N.map Node.key) :
    mapSpec (binds N) (.insert key value) = (.code 1, binds N) := by
  have hsome : (binds N key).isSome = true :=
    Option.isSome_iff_ne_none.mpr fun h => binds_eq_none.mp h hk
  rw [mapSpec, if_pos hsome]

theorem mapSpec_new (hk : key ∉ N.map Node.key) (e : PMEMoid) :
    mapSpec (binds N) (.insert key value) = (.code 0, binds (⟨e, key, value⟩ :: N)) := by
  rw [mapSpec, if_neg (by simp [binds_eq_none.mpr hk]), binds_cons]

theorem mapSpec_unbound (hk : key ∉ N.map Node.key) :
    mapSpec (binds N) (.remove key) = (.oid oidNull, binds N) := by
  have hnone := binds_eq_none.mpr hk
  rw [mapSpec, hnone, ← hnone, Function.update_eq_self, hnone]
  rfl

theorem mapSpec_removed (hn : ((x::N).map Node.key).Nodup) :
    mapSpec (binds (x::N)) (.remove x.key) = (.oid x.value, binds N) := by
  rw [mapSpec, ← binds_erase hn, binds_cons, Function.update_self]
  rfl

theorem wp_hmStep_insert (hl : s.log = none) (ht : Table s.heap hm bs a b p n T)
    (hfuel : 2^64 < env.fuel) :
    wp env (hmStep hm (.insert key value)) (fun r s' => s'.log = none ∧
      Outcome env s hm (binds (nodes n.toNat T)) (.insert key value) r s') E s := by
  rw [hmStep, wp_bind]
  apply wp_hmTxInsert_top hl ht hfuel
  · intro hk
    rw [wp_pure]
    refine ⟨hl, .answered (fun _ => not_firstAborts_self s) ?_ ?_⟩
    · rw [mapSpec_bound hk]
    · rw [mapSpec_bound hk]
      exact ⟨bs, a, b, p, n, T, ht, rfl⟩
  · intro s' _ ha hno
    rw [wp_pure]
    exact ⟨ha.log, .failed trivial (firstAborts_of ha) hno rfl ha.heap⟩
  · intro e s₁ s' hk _ hc hh hr
    rw [wp_pure]
    refine ⟨hr.log hc.log, .answered (fun _ => not_firstAborts_of_resized hc hr) ?_ ?_⟩
    · rw [mapSpec_new hk e]
    · rw [mapSpec_new hk e]
      exact hr.mapIs hh.mapIs

theorem wp_hmStep_remove (hl : s.log = none) (ht : Table s.heap hm bs a b p n T)
    (hfuel : 2^64 < env.fuel) :
    wp env (hmStep hm (.remove key)) (fun r s' => s'.log = none ∧
      Outcome env s hm (binds (nodes n.toNat T)) (.remove key) r s') E s := by
  rw [hmStep, wp_bind]
  apply wp_hmTxRemove_top hl ht hfuel
  · intro hk
    rw [wp_pure]
    refine ⟨hl, .answered (fun _ => not_firstAborts_self s) ?_ ?_⟩
    · rw [mapSpec_unbound hk]
    · rw [mapSpec_unbound hk]
      exact ⟨bs, a, b, p, n, T, ht, rfl⟩
  · intro s' _ ha hno
    rw [wp_pure]
    exact ⟨ha.log, .failed trivial (firstAborts_of ha) hno rfl ha.heap⟩
  · intro i pre x post N s₁ s' hk hp _ _ hc hh hr
    have hbind : binds (nodes n.toNat T) = binds (x::N) := binds_perm hp.symm ht.distinct
    have hnodup := (hp.map Node.key).nodup_iff.mpr ht.distinct
    rw [wp_pure]
    refine ⟨hr.log hc.log, .answered (fun _ => not_firstAborts_of_resized hc hr) ?_ ?_⟩
    · rw [hbind, ← hk, mapSpec_removed hnodup]
    · rw [hbind, ← hk, mapSpec_removed hnodup]
      exact hr.mapIs hh.mapIs

/-- A call on a map that stands for `m` answers as the specification does and
leaves a map that stands for the specification's next state, unless the
transaction of an insertion or a removal aborts. -/
theorem wp_hmStep {o : Op} (hl : s.log = none) (hm' : MapIs s.heap hm m) (hv : o.Valid)
    (hsmall : o = .count → liveKeys m < 2^64) (hfuel : 2^64 < env.fuel) :
    wp env (hmStep hm o) (fun r s' => s'.log = none ∧ Outcome env s hm m o r s') E s := by
  obtain ⟨bs, a, b, p, n, T, ht, rfl⟩ := id hm'
  cases o with
  | insert key value => exact wp_hmStep_insert hl ht hfuel
  | remove key => exact wp_hmStep_remove hl ht hfuel
  | get key =>
    rw [hmStep, wp_bind]
    exact wp_hmTxGet hm' hfuel ⟨hl, .answered False.elim rfl hm'⟩
  | lookup key =>
    rw [hmStep, wp_bind]
    exact wp_hmTxLookup hm' hfuel ⟨hl, .answered False.elim rfl hm'⟩
  | count =>
    rw [hmStep, wp_bind, hmTxCount, wp_dRo ht.count, wp_pure]
    refine ⟨hl, .answered False.elim ?_ hm'⟩
    have hlen := hsmall rfl
    rw [liveKeys_binds ht.distinct] at hlen
    rw [mapSpec, liveKeys_binds ht.distinct, UInt64.toNat_ofNat_of_lt' hlen]
  | rebuild newLen =>
    rw [hmStep, wp_bind, hmTxCmd, if_pos rfl, wp_bind]
    apply wp_hmTxRebuild_top hl ht hv hfuel
    · intro s' ha
      rw [wp_pure, wp_pure]
      exact ⟨ha.log, .answered False.elim rfl (ha.heap ▸ hm')⟩
    · intro s' hc hh
      rw [wp_pure, wp_pure]
      exact ⟨hc.log, .answered False.elim rfl hh.mapIs⟩

end Steps

/-- From a new map every run answers as the finite map does, every state of it
is a table for the map reached so far, no further call gets stuck, and one that
the environment serves goes on the run. -/
theorem hashmap_refines_map {hm : PMEMoid} {s₀ s : PoolState} {xs : List (Op × Ret)}
    (hl : s₀.log = none) (hnew : Created s₀.heap hm) (hrun : Run (MapCall hm) s₀ xs s)
    (hsmall : ∀ os, os <+: xs.map Prod.fst →
      liveKeys (specState mapSpec (fun _ => none) os) < 2^64) :
    xs.map Prod.snd = specResults mapSpec (fun _ => none) (xs.map Prod.fst) ∧
      MapIs s.heap hm (specState mapSpec (fun _ => none) (xs.map Prod.fst)) ∧
      ∀ (o : Op) (env : PoolEnv), o.Valid → 2^64 < env.fuel →
        ∃ r s', hmStep hm o env s = .ok r s' ∧ (o.Served env s → MapCall hm s o r s') := by
  have hinit : s₀.log = none ∧ MapIs s₀.heap hm fun _ => none := ⟨hl, hnew.mapIs⟩
  have hstep : ∀ (s : PoolState) (m : Bindings) (o : Op) (r : Ret) (s' : PoolState),
      (s.log = none ∧ MapIs s.heap hm m) → liveKeys (mapSpec m o).2 < 2^64 →
      MapCall hm s o r s' →
      r = (mapSpec m o).1 ∧ s'.log = none ∧ MapIs s'.heap hm (mapSpec m o).2 := by
    rintro s m o r s' ⟨hl, hm'⟩ hsmall ⟨hv, env, hfuel, hok, hown⟩
    obtain ⟨hl', hout⟩ := wp_result (wp_hmStep (E := fun _ _ => False) hl hm' hv
      (fun h => by subst h; exact hsmall) hfuel) hok
    cases hout with
    | failed changes aborts => exact absurd aborts (hown changes)
    | answered _ answer isMap => exact ⟨answer, hl', isMap⟩
  obtain ⟨hres, hl', hm'⟩ := Run.refines (fun s m => s.log = none ∧ MapIs s.heap hm m)
    (fun m => liveKeys m < 2^64) hinit hstep hrun hsmall
  refine ⟨hres, hm', fun o env hv hfuel => ?_⟩
  obtain ⟨r, s', hok, -, hout⟩ := wp_returns (wp_hmStep (E := fun _ _ => False) hl' hm' hv
    (fun _ => hsmall _ (List.prefix_refl _)) hfuel)
  refine ⟨r, s', hok, fun hserved => ⟨hv, env, hfuel, hok, ?_⟩⟩
  cases hout with
  | failed _ _ unserved => exact absurd hserved unserved
  | answered commits => exact commits

theorem liveKeys_step {m : Bindings} (o : Op) (hfin : {k | (m k).isSome}.Finite) :
    {k | ((mapSpec m o).2 k).isSome}.Finite ∧ liveKeys (mapSpec m o).2 ≤ liveKeys m + 1 := by
  have hkeep : {k | (m k).isSome}.Finite ∧ liveKeys m ≤ liveKeys m + 1 := ⟨hfin, Nat.le_succ _⟩
  cases o with
  | insert key value =>
    rw [mapSpec]
    split
    · exact hkeep
    · have hsub : {k | (Function.update m key (some value) k).isSome} ⊆
          insert key {k | (m k).isSome} := by
        intro k hk
        by_cases hkey : k = key
        · exact Or.inl hkey
        · right
          simpa [hkey] using hk
      constructor
      · exact (hfin.insert key).subset hsub
      · exact (Set.ncard_le_ncard hsub (hfin.insert key)).trans (Set.ncard_insert_le _ _)
  | remove key =>
    have hsub : {k | (Function.update m key none k).isSome} ⊆ {k | (m k).isSome} := by
      intro k hk
      by_cases hkey : k = key
      · simp [hkey] at hk
      · simpa [hkey] using hk
    constructor
    · exact hfin.subset hsub
    · exact (Set.ncard_le_ncard hsub hfin).trans (Nat.le_succ _)
  | get key => exact hkeep
  | lookup key => exact hkeep
  | count => exact hkeep
  | rebuild newLen => exact hkeep

theorem liveKeys_le {O : Type} {spec : Bindings → O → Ret × Bindings}
    (hstep : ∀ m o, {k | (m k).isSome}.Finite →
      {k | ((spec m o).2 k).isSome}.Finite ∧ liveKeys (spec m o).2 ≤ liveKeys m + 1)
    (os : List O) : {k | (specState spec (fun _ => none) os k).isSome}.Finite ∧
      liveKeys (specState spec (fun _ => none) os) ≤ os.length := by
  induction os using List.reverseRecOn with
  | nil => simp [specState, liveKeys]
  | append_singleton os o ih =>
    obtain ⟨hfin, hle⟩ := ih
    obtain ⟨hfin', hle'⟩ := hstep _ o hfin
    rw [specState_snoc, List.length_append, List.length_singleton]
    exact ⟨hfin', hle'.trans (Nat.add_le_add_right hle 1)⟩

section Sample

def newMap : PMEMoid := ⟨1, 64⟩

def newBuckets : PMEMoid := ⟨1, 128⟩

def newHeap : Pool := fun o =>
  if o = newMap then
    some ⟨.hashmapTx, 48, fun
      | .hashFunA => (1 : UInt32)
      | .hashFunP => hashFuncCoeffP
      | .buckets => newBuckets
      | m => m.zero⟩
  else if o = newBuckets then
    some ⟨.buckets, 168, fun
      | .nbuckets => initBucketsNum
      | m => m.zero⟩
  else none

def newState : PoolState := ⟨newHeap, none, 0, 0, []⟩

def quietEnv : PoolEnv where
  fails _ := false
  crashes _ := false
  place n := ⟨1, 4096 + 256 * UInt64.ofNat n⟩
  junk _ := Layout.zero
  fuel := 2^64 + 1

theorem newHeap_created : Created newHeap newMap where
  coeffA := ⟨1, rfl, by decide⟩
  coeffB := ⟨(0 : UInt32), rfl⟩
  coeffP := rfl
  count := rfl
  buckets := ⟨newBuckets, rfl, rfl, rfl, fun i hi => by
    have hi' : i < 10 := hi
    have hext : (Member.bucket i).extent ≤ 168 := by simp only [Member.extent]; omega
    exact get_fresh (h := newHeap) (o := newBuckets) rfl (.bucket i) rfl hext⟩

def sampleCalls : List (Op × Ret) :=
  [(.insert 3 ⟨1, 7⟩, .code 0), (.insert 13 ⟨1, 8⟩, .code 0), (.rebuild 5, .code 0),
    (.remove 3, .oid ⟨1, 7⟩), (.get 13, .oid ⟨1, 8⟩)]

def quietCall (hm : PMEMoid) (s : PoolState) (o : Op) : Option (Ret × PoolState) :=
  match hmStep hm o quietEnv s with
  | .ok r s' => if o.Valid ∧ (o.Changes → ¬ FirstAborts s s') then some (r, s') else none
  | _ => none

theorem quietCall_mapCall {hm : PMEMoid} (s : PoolState) (o : Op) (r : Ret) (s' : PoolState)
    (h : quietCall hm s o = some (r, s')) : MapCall hm s o r s' := by
  unfold quietCall at h
  split at h
  · rename_i hok
    split at h
    · rename_i hgood
      cases h
      exact ⟨hgood.1, quietEnv, Nat.lt_succ_self _, hok, hgood.2⟩
    · cases h
  · cases h

theorem hashmap_refines_map_rebuilt : ∃ s,
    Run (MapCall newMap) newState sampleCalls s ∧ s.ends = List.replicate 5 .committed ∧
      MapIs s.heap newMap (specState mapSpec (fun _ => none) (sampleCalls.map Prod.fst)) := by
  have hends : (replay (quietCall newMap) newState sampleCalls).map State.ends =
      some (List.replicate 5 .committed) := by decide +kernel
  obtain ⟨s, hreplay, hends⟩ := Option.map_eq_some_iff.mp hends
  have hrun := replay_run quietCall_mapCall hreplay
  refine ⟨s, hrun, hends, (hashmap_refines_map rfl newHeap_created hrun fun os hos => ?_).2.1⟩
  have hlen : os.length ≤ 5 := hos.length_le
  exact Nat.lt_of_le_of_lt (liveKeys_le (fun _ => liveKeys_step) os).2 (by omega)

def firstEntry : PMEMoid := ⟨1, 192⟩

def secondEntry : PMEMoid := ⟨1, 256⟩

def twoChains : ℕ → List Node
  | 0 => [⟨firstEntry, 0, ⟨1, 7⟩⟩]
  | 1 => [⟨secondEntry, 1, ⟨1, 8⟩⟩]
  | _ => []

def entryCells (key : UInt64) (value : PMEMoid) : (m : Member) → m.ty
  | .key => key
  | .value => value
  | m => m.zero

def twoHeap : Pool := fun o =>
  if o = newMap then
    some ⟨.hashmapTx, 48, fun
      | .hashFunA => (1 : UInt32)
      | .hashFunP => hashFuncCoeffP
      | .count => (2 : UInt64)
      | .buckets => newBuckets
      | m => m.zero⟩
  else if o = newBuckets then
    some ⟨.buckets, 40, fun
      | .nbuckets => (2 : UInt64)
      | .bucket 0 => firstEntry
      | .bucket 1 => secondEntry
      | m => m.zero⟩
  else if o = firstEntry then some ⟨.entry, 40, entryCells 0 ⟨1, 7⟩⟩
  else if o = secondEntry then some ⟨.entry, 40, entryCells 1 ⟨1, 8⟩⟩
  else none

def twoState : PoolState := ⟨twoHeap, none, 0, 0, []⟩

theorem twoHeap_chain (i : ℕ) (hi : i < 2) :
    ∃ o, twoHeap.get newBuckets (.bucket i) = some o ∧ Chain twoHeap o (twoChains i) := by
  have hcases : i = 0 ∨ i = 1 := by omega
  rcases hcases with rfl | rfl
  · refine ⟨firstEntry, rfl, (chain_cons _ _ _ _).mpr ⟨rfl, ⟨rfl, rfl, rfl⟩, oidNull, rfl, ?_⟩⟩
    exact (chain_nil _ _).mpr rfl
  · refine ⟨secondEntry, rfl, (chain_cons _ _ _ _).mpr ⟨rfl, ⟨rfl, rfl, rfl⟩, oidNull, rfl, ?_⟩⟩
    exact (chain_nil _ _).mpr rfl

theorem twoHeap_table : Table twoHeap newMap newBuckets 1 0 hashFuncCoeffP 2 twoChains where
  buckets := rfl
  notNull := rfl
  coeffA := rfl
  coeffB := rfl
  coeffP := rfl
  prime := by decide
  nbuckets := rfl
  pos := by decide
  fits := by decide
  slot := twoHeap_chain
  placed i hi x hx := by
    have hcases : i = 0 ∨ i = 1 := by
      have hi' : i < 2 := hi
      omega
    rcases hcases with rfl | rfl
    · cases List.mem_singleton.mp hx
      decide
    · cases List.mem_singleton.mp hx
      decide
  distinct := by decide
  count := rfl

end Sample

end RtsCache.HashmapRuns
