import RtsCache.HashmapFrame
import RtsCache.HeapParts

/-!
# Many hash maps in one pool

Any number of maps, each with objects of its own, take calls in any order. A
run of the pool is for each map a run of that map alone, and the objects that
belong to no map are the same at both ends. An insertion or a removal whose own
transaction aborts is part of a run like any other call.
-/

set_option autoImplicit false

namespace RtsCache.HashmapShared
open RtsCache.UndoHeap RtsCache.UndoMachine RtsCache.UndoRules RtsCache.UndoFrame
open RtsCache.PoolLayout RtsCache.HashmapMachine RtsCache.HashmapInvariant
open RtsCache.HashmapRuns RtsCache.HashmapFrame RtsCache.HashmapOps RtsCache.RunRefinement
open RtsCache.HeapParts RtsCache.HashmapCreate RtsCache.UndoQuiet

/-- A call, and whether its own transaction aborts. -/
structure Try where
  op : Op
  fails : Bool

noncomputable def trySpec (m : Bindings) (t : Try) : Ret × Bindings :=
  if t.fails then (t.op.failed, m) else mapSpec m t.op

def TryCall (hm : PMEMoid) (s : PoolState) (t : Try) (r : Ret) (s' : PoolState) : Prop :=
  t.op.Valid ∧ ∃ env : PoolEnv, 2^64 < env.fuel ∧ hmStep hm t.op env s = .ok r s' ∧
    (t.fails = true ↔ t.op.Changes ∧ FirstAborts s s')

section Alone
variable {hm : PMEMoid} {h h₀ : Pool} {m m₀ : Bindings} {xs : List (Try × Ret)}

def HeapCall (hm : PMEMoid) (h : Pool) (t : Try) (r : Ret) (h' : Pool) : Prop :=
  ∃ s s' : PoolState, s.log = none ∧ s'.log = none ∧ s.heap = h ∧ s'.heap = h' ∧
    TryCall hm s t r s'

theorem trySpec_outcome {env : PoolEnv} {s s' : PoolState} {t : Try} {r : Ret}
    (hm' : MapIs s.heap hm m) (hout : Outcome env s hm m t.op r s')
    (hfails : t.fails = true ↔ t.op.Changes ∧ FirstAborts s s') :
    r = (trySpec m t).1 ∧ MapIs s'.heap hm (trySpec m t).2 := by
  cases hout with
  | failed changes aborts _ answer heap =>
    rw [trySpec, if_pos (hfails.mpr ⟨changes, aborts⟩)]
    exact ⟨answer, heap ▸ hm'⟩
  | answered commits answer isMap =>
    have hno : ¬ t.fails = true := by
      intro hf
      obtain ⟨hchanges, haborts⟩ := hfails.mp hf
      exact commits hchanges haborts
    rw [trySpec, if_neg hno]
    exact ⟨answer, isMap⟩

theorem heapCall_refines {t : Try} {r : Ret} {h' : Pool} (hm' : MapIs h hm m)
    (hsmall : liveKeys (trySpec m t).2 < 2^64) (hcall : HeapCall hm h t r h') :
    r = (trySpec m t).1 ∧ MapIs h' hm (trySpec m t).2 := by
  obtain ⟨s, s', hl, -, rfl, rfl, hv, env, hfuel, hok, hfails⟩ := hcall
  have hcount : t.op = .count → liveKeys m < 2^64 := by
    intro ho
    unfold trySpec at hsmall
    split at hsmall
    · exact hsmall
    · rw [ho] at hsmall
      exact hsmall
  have hstep := wp_hmStep (E := fun _ _ => False) hl hm' hv hcount hfuel
  exact trySpec_outcome hm' (wp_result hstep hok).2 hfails

theorem heapRun_refines (hm' : MapIs h₀ hm m₀) (hrun : Run (HeapCall hm) h₀ xs h)
    (hsmall : ∀ ts, ts <+: xs.map Prod.fst → liveKeys (specState trySpec m₀ ts) < 2^64) :
    xs.map Prod.snd = specResults trySpec m₀ (xs.map Prod.fst) ∧
      MapIs h hm (specState trySpec m₀ (xs.map Prod.fst)) := by
  apply Run.refines (fun h m => MapIs h hm m) (fun m => liveKeys m < 2^64) hm' _ hrun hsmall
  intro h m t r h' hmap hsmall hcall
  exact heapCall_refines hmap hsmall hcall

end Alone

variable {ι : Type} {hm : ι → PMEMoid} {s₀ s : PoolState}
  {P₀ P : ι → Pool} {m₀ : ι → Bindings} {xs : List ((ι × Try) × Ret)}

/-- A call of the pool names the map it is for. -/
def PoolCall (hm : ι → PMEMoid) (s : PoolState) (x : ι × Try) (r : Ret) (s' : PoolState) : Prop :=
  TryCall (hm x.1) s x.2 r s'

theorem tryCall_own {i : ι} {t : Try} {r : Ret} {s' : PoolState} {m : Bindings} (hl : s.log = none)
    (hp : Parts s.heap P) (hmap : MapIs (P i) (hm i) m)
    (hsmall : t.op = .count → liveKeys m < 2^64) (hcall : TryCall (hm i) s t r s') :
    ∃ u, s' = beside u (rest s.heap (P i)) ∧ Apart u (rest s.heap (P i)) ∧ u.log = none ∧
      HeapCall (hm i) (P i) t r u.heap := by
  obtain ⟨hv, env, hfuel, hok, hfails⟩ := hcall
  have hfuel' : 2^64 < (alone oidNull (rest s.heap (P i)) env).fuel := hfuel
  have hstep := wp_hmStep (E := fun _ _ => False) (s := own s (P i)) hl hmap hv hsmall hfuel'
  obtain ⟨r', u, hrun, hlog, -⟩ := wp_returns hstep
  obtain ⟨hwhole, ha⟩ := hp.run (local_hmStep (hm i) t.op) hl hrun
  rw [hwhole] at hok
  cases hok
  have hcall : TryCall (hm i) (own s (P i)) t r u :=
    ⟨hv, alone oidNull (rest s.heap (P i)) env, hfuel', hrun, hfails⟩
  exact ⟨u, rfl, ha, hlog, own s (P i), u, hl, hlog, rfl, rfl, hcall⟩

theorem offers_own {i : ι} {env : PoolEnv} {n : ℕ} (hp : Parts s.heap P) (ho : Offers env s n) :
    Offers (alone oidNull (rest s.heap (P i)) env) (own s (P i)) n := by
  have hpart : P i (env.place (s.calls + n)) = none := by
    cases hlive : P i (env.place (s.calls + n)) with
    | none => rfl
    | some obj =>
      have hwhole := hp.within i _ obj hlive
      rw [ho.free] at hwhole
      cases hwhole
  have hplace : (alone oidNull (rest s.heap (P i)) env).place ((own s (P i)).calls + n) =
      env.place (s.calls + n) := by
    show (if (rest s.heap (P i) (env.place (s.calls + n))).isSome then oidNull
      else env.place (s.calls + n)) = _
    rw [rest_of_none hpart, ho.free]
    rfl
  constructor
  · rw [hplace]
    exact ho.notNull
  · rw [hplace]
    exact hpart

theorem served_own {i : ι} {env : PoolEnv} {o : Op} (hp : Parts s.heap P) (hs : o.Served env s) :
    o.Served (alone oidNull (rest s.heap (P i)) env) (own s (P i)) := by
  cases o with
  | insert key value => exact ⟨⟨hs.serves.calls, hs.serves.stores⟩, offers_own hp hs.offers⟩
  | remove key => exact ⟨hs.calls, hs.stores⟩
  | get key => trivial
  | lookup key => trivial
  | count => trivial
  | rebuild newLen => trivial

variable [DecidableEq ι]

def callsOf (i : ι) (xs : List ((ι × Try) × Ret)) : List (Try × Ret) :=
  xs.filterMap fun x => if x.1.1 = i then some (x.1.2, x.2) else none

theorem callsOf_self (xs : List ((ι × Try) × Ret)) (i : ι) (t : Try) (r : Ret) :
    callsOf i (xs ++ [((i, t), r)]) = callsOf i xs ++ [(t, r)] := by
  simp [callsOf]

theorem callsOf_other {i j : ι} (hj : j ≠ i) (xs : List ((ι × Try) × Ret)) (t : Try) (r : Ret) :
    callsOf j (xs ++ [((i, t), r)]) = callsOf j xs := by
  simp [callsOf, Ne.symm hj]

theorem callsOf_extends (i : ι) (xs : List ((ι × Try) × Ret)) (x : (ι × Try) × Ret) :
    callsOf i xs <+: callsOf i (xs ++ [x]) := by
  simp [callsOf]

def Small (m₀ : ι → Bindings) (xs : List ((ι × Try) × Ret)) : Prop :=
  ∀ i ts, ts <+: (callsOf i xs).map Prod.fst → liveKeys (specState trySpec (m₀ i) ts) < 2^64

theorem Small.init {x : (ι × Try) × Ret} (hs : Small m₀ (xs ++ [x])) : Small m₀ xs := by
  intro i ts hts
  exact hs i ts (hts.trans ((callsOf_extends i xs x).map Prod.fst))

/-- A run of the pool is for every map a run of that map alone. -/
theorem poolRun_parts (hl : s₀.log = none) (hp : Parts s₀.heap P₀)
    (hmaps : ∀ i, MapIs (P₀ i) (hm i) (m₀ i)) (hrun : Run (PoolCall hm) s₀ xs s)
    (hsmall : Small m₀ xs) :
    s.log = none ∧ ∃ P, Parts s.heap P ∧ outside s.heap P = outside s₀.heap P₀ ∧
      ∀ i, Run (HeapCall (hm i)) (P₀ i) (callsOf i xs) (P i) := by
  induction hrun with
  | nil => exact ⟨hl, P₀, hp, rfl, fun i => .nil⟩
  | @snoc xs s s' x r _ hlast ih =>
    obtain ⟨i, t⟩ := x
    obtain ⟨hl', P, hp', hout, hruns⟩ := ih hsmall.init
    have hmap := (heapRun_refines (hmaps i) (hruns i) (hsmall.init i)).2
    have hcount : t.op = .count →
        liveKeys (specState trySpec (m₀ i) ((callsOf i xs).map Prod.fst)) < 2^64 := by
      intro _
      exact hsmall.init i _ (List.prefix_refl _)
    obtain ⟨u, rfl, ha, hlog, hcall⟩ := tryCall_own hl' hp' hmap hcount hlast
    refine ⟨hlog, Function.update P i u.heap, hp'.update ha, ?_, ?_⟩
    · rw [← hout]
      exact outside_update ha
    · intro j
      by_cases hj : j = i
      · subst hj
        rw [Function.update_self, callsOf_self]
        exact .snoc (hruns j) hcall
      · rw [Function.update_of_ne hj, callsOf_other hj]
        exact hruns j

/-- However the calls on the maps of a pool are interleaved, each map answers
its own calls as a finite map of its own does, nothing else in the pool changes,
and only a call that the environment does not serve can abort. -/
theorem maps_share_pool (hl : s₀.log = none) (hp : Parts s₀.heap P₀)
    (hmaps : ∀ i, MapIs (P₀ i) (hm i) (m₀ i)) (hrun : Run (PoolCall hm) s₀ xs s)
    (hsmall : Small m₀ xs) :
    (∀ i, (callsOf i xs).map Prod.snd =
      specResults trySpec (m₀ i) ((callsOf i xs).map Prod.fst)) ∧
    (∃ P, Parts s.heap P ∧ outside s.heap P = outside s₀.heap P₀ ∧
      ∀ i, MapIs (P i) (hm i) (specState trySpec (m₀ i) ((callsOf i xs).map Prod.fst))) ∧
    ∀ i (o : Op) (env : PoolEnv), o.Valid → 2^64 < env.fuel →
      ∃ fails r s', hmStep (hm i) o env s = .ok r s' ∧ PoolCall hm s (i, ⟨o, fails⟩) r s' ∧
        (o.Served env s → fails = false) := by
  obtain ⟨hl', P, hp', hout, hruns⟩ := poolRun_parts hl hp hmaps hrun hsmall
  have hmap : ∀ i, MapIs (P i) (hm i)
      (specState trySpec (m₀ i) ((callsOf i xs).map Prod.fst)) := fun i =>
    (heapRun_refines (hmaps i) (hruns i) (hsmall i)).2
  constructor
  · intro i
    exact (heapRun_refines (hmaps i) (hruns i) (hsmall i)).1
  constructor
  · exact ⟨P, hp', hout, hmap⟩
  · intro i o env hv hfuel
    have hfuel' : 2^64 < (alone oidNull (rest s.heap (P i)) env).fuel := hfuel
    have hstep := wp_hmStep (E := fun _ _ => False) (s := own s (P i)) hl' (hmap i) hv
      (fun _ => hsmall i _ (List.prefix_refl _)) hfuel'
    obtain ⟨r, t, hok, -, hend⟩ := wp_returns hstep
    have hwhole := (hp'.run (local_hmStep (hm i) o) hl' hok).1
    refine ⟨decide (o.Changes ∧ FirstAborts (own s (P i)) t), r, _, hwhole,
      ⟨hv, env, hfuel, hwhole, decide_eq_true_iff⟩, fun hserved => ?_⟩
    rw [decide_eq_false_iff_not]
    rintro ⟨hchanges, haborts⟩
    cases hend with
    | failed _ _ unserved => exact unserved (served_own hp' hserved)
    | answered commits => exact commits hchanges haborts

section Sizes

theorem liveKeys_try {m : Bindings} (t : Try) (hfin : {k | (m k).isSome}.Finite) :
    {k | ((trySpec m t).2 k).isSome}.Finite ∧ liveKeys (trySpec m t).2 ≤ liveKeys m + 1 := by
  rw [trySpec]
  split
  · exact ⟨hfin, Nat.le_succ _⟩
  · exact liveKeys_step t.op hfin

theorem small_of_length (xs : List ((ι × Try) × Ret)) (hlen : xs.length < 2^64) :
    Small (fun _ _ => none) xs := by
  intro i ts hts
  have hsub : (callsOf i xs).length ≤ xs.length := List.length_filterMap_le _ _
  have hpre := hts.length_le
  rw [List.length_map] at hpre
  have hle := (liveKeys_le (fun _ => liveKeys_try) ts).2
  show liveKeys (specState trySpec (fun _ => none) ts) < 2^64
  omega

end Sizes

section Sample

def otherMap : PMEMoid := ⟨1, 1024⟩

def otherBuckets : PMEMoid := ⟨1, 1280⟩

def otherHeap : Pool := fun o =>
  if o = otherMap then newHeap newMap |>.map fun obj => obj.put .buckets otherBuckets
  else if o = otherBuckets then newHeap newBuckets
  else none

def pairMaps : Bool → PMEMoid
  | false => newMap
  | true => otherMap

def pairParts : Bool → Pool
  | false => newHeap
  | true => otherHeap

def pairState : PoolState := ⟨join newHeap otherHeap, none, 0, 0, []⟩

theorem otherHeap_created : Created otherHeap otherMap where
  coeffA := ⟨1, rfl, by decide⟩
  coeffB := ⟨(0 : UInt32), rfl⟩
  coeffP := rfl
  count := rfl
  buckets := ⟨otherBuckets, rfl, rfl, rfl, fun i hi => by
    have hi' : i < 10 := hi
    have hext : (Member.bucket i).extent ≤ 168 := by simp only [Member.extent]; omega
    exact get_fresh (h := otherHeap) (o := otherBuckets) rfl (.bucket i) rfl hext⟩

theorem pairParts_created (i : Bool) : Created (pairParts i) (pairMaps i) := by
  cases i with
  | false => exact newHeap_created
  | true => exact otherHeap_created

theorem newHeap_live {o : PMEMoid} (ho : newHeap o ≠ none) : o = newMap ∨ o = newBuckets := by
  by_contra hne
  rw [not_or] at hne
  apply ho
  rw [newHeap, if_neg hne.1, if_neg hne.2]

theorem otherHeap_live {o : PMEMoid} (ho : otherHeap o ≠ none) :
    o = otherMap ∨ o = otherBuckets := by
  by_contra hne
  rw [not_or] at hne
  apply ho
  rw [otherHeap, if_neg hne.1, if_neg hne.2]

theorem pair_apart {o : PMEMoid} (ho : otherHeap o ≠ none) : newHeap o = none := by
  rcases otherHeap_live ho with rfl | rfl <;> rfl

theorem pairState_parts : Parts pairState.heap pairParts where
  within i o obj ho := by
    cases i with
    | false => exact join_some ho
    | true =>
      have hsome : otherHeap o = some obj := ho
      have hnone : newHeap o = none := pair_apart (by simp [hsome])
      exact (join_right hnone).trans ho
  apart i j hij o ho := by
    cases i with
    | false =>
      cases j with
      | false => exact absurd rfl hij
      | true =>
        by_contra hj
        exact ho (pair_apart hj)
    | true =>
      cases j with
      | false => exact pair_apart ho
      | true => exact absurd rfl hij

def failingEnv (n : Option ℕ) : PoolEnv := { quietEnv with fails := fun k => n = some k }

def poolStep (hm : ι → PMEMoid) (s : PoolState) (x : ι × Try) : Option (Ret × PoolState) :=
  match hmStep (hm x.1) x.2.op (failingEnv (if x.2.fails then some (s.calls + 3) else none)) s with
  | .ok r s' =>
    if x.2.op.Valid ∧ (x.2.fails = true ↔ x.2.op.Changes ∧ FirstAborts s s') then some (r, s')
    else none
  | _ => none

omit [DecidableEq ι] in
theorem poolStep_poolCall (s : PoolState) (x : ι × Try) (r : Ret) (s' : PoolState)
    (h : poolStep hm s x = some (r, s')) : PoolCall hm s x r s' := by
  unfold poolStep at h
  split at h
  · rename_i hok
    split at h
    · rename_i hgood
      cases h
      exact ⟨hgood.1, _, Nat.lt_succ_self _, hok, hgood.2⟩
    · cases h
  · cases h

def pairCalls : List ((Bool × Try) × Ret) :=
  [((false, ⟨.insert 3 ⟨1, 7⟩, false⟩), .code 0), ((true, ⟨.insert 3 ⟨1, 8⟩, false⟩), .code 0),
    ((false, ⟨.remove 3, true⟩), .oid oidNull), ((false, ⟨.rebuild 5, false⟩), .code 0),
    ((false, ⟨.remove 3, false⟩), .oid ⟨1, 7⟩), ((true, ⟨.get 3, false⟩), .oid ⟨1, 8⟩)]

theorem pairCalls_run : ∃ s, Run (PoolCall pairMaps) pairState pairCalls s ∧
    s.ends = [.committed, .committed, .aborted ENOMEM, .committed, .committed, .committed] := by
  have hends : (replay (poolStep pairMaps) pairState pairCalls).map State.ends =
      some [.committed, .committed, .aborted ENOMEM, .committed, .committed, .committed] := by
    decide +kernel
  obtain ⟨s, hreplay, hends⟩ := Option.map_eq_some_iff.mp hends
  exact ⟨s, replay_run poolStep_poolCall hreplay, hends⟩

theorem maps_share_pool_pair : ∃ s P, Run (PoolCall pairMaps) pairState pairCalls s ∧
    Parts s.heap P ∧ outside s.heap P = outside pairState.heap pairParts ∧
    ∀ i, MapIs (P i) (pairMaps i)
      (specState trySpec (fun _ => none) ((callsOf i pairCalls).map Prod.fst)) := by
  obtain ⟨s, hrun, -⟩ := pairCalls_run
  obtain ⟨-, ⟨P, hp, hout, hmaps⟩, -⟩ := maps_share_pool rfl pairState_parts
    (fun i => (pairParts_created i).mapIs) hrun (small_of_length _ (by decide))
  exact ⟨s, P, hrun, hp, hout, hmaps⟩

end Sample

end RtsCache.HashmapShared
