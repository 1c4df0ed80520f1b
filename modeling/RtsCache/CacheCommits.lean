import RtsCache.CacheAborts

/-!
# Commits of the cache

A `cache_get` that commits has taken the entry of its key off the list but
leaves the key bound, to bytes read from another entry. A `cache_set` that
commits has put an entry in front of the list but leaves its key unbound. So
neither ever leaves a well-formed cache behind.
-/

set_option autoImplicit false

namespace RtsCache.CacheCommits
open RtsCache.UndoHeap RtsCache.UndoMachine RtsCache.UndoRules RtsCache.PoolLayout
open RtsCache.HashmapMachine RtsCache.HashmapInvariant RtsCache.HashmapOps RtsCache.HashmapScan
open RtsCache.HashmapRuns RtsCache.DoublyLinked RtsCache.CacheMachine RtsCache.CacheInvariant
open RtsCache.CacheCalls RtsCache.CacheOps RtsCache.CacheAborts

variable {env : PoolEnv} {s s' : PoolState} {cache head tail hm : PMEMoid} {cap : UInt64}
  {head' tail' hm' : PMEMoid} {cap' : UInt64} {es es' : List CEntry} {m m' : Bindings}
  {op : CacheOp} {key : UInt64} {h : Pool}

theorem mapIs_unique (hm₁ : MapIs h hm m) (hm₂ : MapIs h hm m') : m = m' := by
  have hfuel : 2^64 < quietEnv.fuel := Nat.lt_succ_self _
  funext k
  have hlookup : (m k).isSome = (m' k).isSome := by
    have h₁ : wp quietEnv (hmTxLookup hm k) (fun r _ => r = if (m k).isSome then 1 else 0)
        (fun _ _ => False) ⟨h, none, 0, 0, []⟩ := wp_hmTxLookup hm₁ hfuel rfl
    obtain ⟨r, s, hrun, hr⟩ := wp_returns h₁
    have hr' : r = if (m' k).isSome then 1 else 0 :=
      wp_result (Q := fun r _ => r = if (m' k).isSome then 1 else 0) (E := fun _ _ => False)
        (wp_hmTxLookup hm₂ hfuel rfl) hrun
    rw [hr] at hr'
    cases hb : (m k).isSome <;> cases hb' : (m' k).isSome <;> simp [hb, hb'] at hr' ⊢
  have hget : (m k).getD oidNull = (m' k).getD oidNull := by
    have h₁ : wp quietEnv (hmTxGet hm k) (fun o _ => o = (m k).getD oidNull)
        (fun _ _ => False) ⟨h, none, 0, 0, []⟩ := wp_hmTxGet hm₁ hfuel rfl
    obtain ⟨o, s, hrun, ho⟩ := wp_returns h₁
    rw [← ho]
    exact wp_result (Q := fun o _ => o = (m' k).getD oidNull) (E := fun _ _ => False)
      (wp_hmTxGet hm₂ hfuel rfl) hrun
  cases hk : m k <;> cases hk' : m' k <;> simp [hk, hk'] at hlookup hget ⊢
  exact hget

theorem cacheAt_unique (hc : CacheAt h cache head tail hm cap)
    (hc' : CacheAt h cache head' tail' hm' cap') : head' = head ∧ tail' = tail ∧ hm' = hm := by
  refine ⟨?_, ?_, ?_⟩
  · exact Option.some.inj (hc'.head.symm.trans hc.head)
  · exact Option.some.inj (hc'.tail.symm.trans hc.tail)
  · exact Option.some.inj (hc'.hashmap.symm.trans hc.hashmap)

theorem tail_notMem (hn : (order head tail es).Nodup) : tail ∉ es.map CEntry.oid := by
  have hrest := (List.nodup_cons.mp hn).2
  intro ht
  exact (List.nodup_append.mp hrest).2.2 tail ht tail (List.mem_singleton_self _) rfl

theorem not_wf_of_got (hw : CacheWf s.heap cache head tail hm cap es m)
    (hg : Got s cache head tail hm cap es m key s') :
    ¬ CacheWf s'.heap cache head' tail' hm' cap' es' m' := by
  intro hw'
  obtain ⟨rfl, rfl, rfl⟩ := cacheAt_unique hg.fields hw'.fields
  obtain ⟨pre, x, post, rfl, rfl, hdoubly, hentries⟩ := hg.list
  obtain ⟨y, hmap⟩ := hg.map
  have hm' := mapIs_unique hmap hw'.map
  have hbound : m' x.key = some y := by rw [← hm', Function.update_self]
  obtain ⟨e, he, hek, -⟩ := (hw'.binds _ _).mp hbound
  have hnodup : (order head' tail' (pre ++ post)).Nodup :=
    List.Nodup.sublist (order_erase head' tail' pre post x) hw.distinct
  have hsame : es'.map CEntry.oid = (pre ++ post).map CEntry.oid :=
    doubly_unique head' tail' _ _ (tail_notMem hw'.distinct) (tail_notMem hnodup) hw'.doubly hdoubly
  have hmem : e.oid ∈ (pre ++ post).map CEntry.oid := hsame ▸ List.mem_map_of_mem he
  obtain ⟨e₁, he₁, hoid⟩ := List.mem_map.mp hmem
  have h₁ := (hentries e₁ he₁).key
  have h₂ := (hw'.entries e he).key
  rw [hoid, h₂] at h₁
  have hkey : e.key = e₁.key := Option.some.inj h₁
  exact hw.key_ne he₁ (hkey ▸ hek)

theorem not_wf_of_set (hd : SetDone s cache head tail hm cap key s') :
    ¬ CacheWf s'.heap cache head' tail' hm' cap' es' m' := by
  intro hw'
  obtain ⟨rfl, rfl, rfl⟩ := cacheAt_unique hd.fields hw'.fields
  obtain ⟨e, hfront, hne, hkey⟩ := hd.front
  obtain ⟨m₁, hmap, hnone⟩ := hd.map
  have hm' := mapIs_unique hmap hw'.map
  cases es' with
  | nil =>
    have hnext : s'.heap.get head' .next = some tail' := ((doubly_pair _ _ _).mp hw'.doubly).1.1
    exact hne (Option.some.inj (hfront.symm.trans hnext))
  | cons x es' =>
    have hnext : s'.heap.get head' .next = some x.oid := ((doubly_pair _ _ _).mp hw'.doubly).1.1
    have hx : e = x.oid := Option.some.inj (hfront.symm.trans hnext)
    have hxkey := (hw'.entries x List.mem_cons_self).key
    rw [← hx, hkey] at hxkey
    have hbound := (hw'.binds x.key x.oid).mpr ⟨x, List.mem_cons_self, rfl, rfl⟩
    rw [← hm', ← Option.some.inj hxkey, hnone] at hbound
    cases hbound

theorem wp_transaction_committed {α : Type} {body : Pmem α} {P : PoolState → Prop}
    {Q : Option α → PoolState → Prop} {E E' : Cause → PoolState → Prop} (hl : s.log = none)
    (hb : wp env body (fun _ s' => P s') E' s.tick.opened)
    (hQ : ∀ r s', (s'.ends = s.ends ++ [.committed] →
      r.isSome ∧ ∃ s₁, P s₁ ∧ s'.heap = s₁.heap) → Q r s') :
    wp env (transaction body) Q E s := by
  apply wp_transaction_top hl
  · apply hQ
    intro he
    simp [State.record, State.tick] at he
  · apply wp_mono hb
    · intro a s₁ hp
      constructor
      · intro _
        apply hQ
        intro he
        have hlast := congrArg List.getLast? he
        simp [State.rollback] at hlast
      · apply hQ
        exact fun _ => ⟨rfl, s₁, hp, rfl⟩
    · intro c s₁ _
      apply hQ
      intro he
      have hlast := congrArg List.getLast? he
      simp [State.rollback] at hlast

def CacheOp.Accesses : CacheOp → Prop
  | .get _ _ => True
  | .set _ _ => True
  | _ => False

theorem wp_access_breaks (op : CacheOp) {E : Cause → PoolState → Prop} (hl : s.log = none)
    (hw : CacheWf s.heap cache head tail hm cap es m) (ha : CacheOp.Accesses op)
    (hfuel : 2^64 < env.fuel) :
    wp env (cacheStep cache op) (fun _ s' => s'.ends = s.ends ++ [.committed] →
      ∀ head' tail' hm' cap' es' m', ¬ CacheWf s'.heap cache head' tail' hm' cap' es' m') E s := by
  obtain ⟨w, hcount⟩ := count_get hw.map
  cases op with
  | get key valueNull =>
    rw [cacheStep, cacheGet, wp_bind]
    apply wp_cacheCheck hw.fields hcount
    rw [if_neg (by simp)]
    cases valueNull with
    | true =>
      rw [if_pos rfl, wp_pure]
      intro he
      simp at he
    | false =>
      rw [if_neg (by simp), wp_bind]
      apply wp_transaction_committed hl (wp_cacheGetBody (s := s.tick.opened) rfl hw
        (uncovered_opened _) (undone_opened _) hfuel)
      intro r s' hs
      have hall : s'.ends = s.ends ++ [.committed] → ∀ head' tail' hm' cap' es' m',
          ¬ CacheWf s'.heap cache head' tail' hm' cap' es' m' := by
        intro he head' tail' hm' cap' es' m' hw'
        obtain ⟨-, s₁, hg, heap⟩ := hs he
        rw [heap] at hw'
        exact not_wf_of_got (s := s.tick.opened) hw hg hw'
      cases r <;> exact hall
  | set key value =>
    rw [cacheStep, wp_bind, cacheSet, wp_bind]
    apply wp_cacheCheck hw.fields hcount
    rw [if_neg (by simp), wp_bind]
    apply wp_transaction_committed hl (wp_cacheSetBody (s := s.tick.opened) rfl hw
      (uncovered_opened _) (undone_opened _) hfuel)
    intro r s' hs
    have hall : s'.ends = s.ends ++ [.committed] → ∀ head' tail' hm' cap' es' m',
        ¬ CacheWf s'.heap cache head' tail' hm' cap' es' m' := by
      intro he head' tail' hm' cap' es' m' hw'
      obtain ⟨-, s₁, hd, heap⟩ := hs he
      rw [heap] at hw'
      exact not_wf_of_set hd hw'
    cases r <;> exact hall
  | add entry => exact ha.elim
  | delete entry => exact ha.elim

/-- No `cache_get` and no `cache_set` that commits on a well-formed cache
leaves one. -/
theorem cache_commit_breaks (env : PoolEnv) (op : CacheOp) (r : ℤ × Option Int32)
    (hl : s.log = none) (hw : CacheWf s.heap cache head tail hm cap es m)
    (ha : CacheOp.Accesses op) (hfuel : 2^64 < env.fuel)
    (hrun : cacheStep cache op env s = .ok r s') (hends : s'.ends = s.ends ++ [.committed]) :
    ∀ head' tail' hm' cap' es' m', ¬ CacheWf s'.heap cache head' tail' hm' cap' es' m' :=
  wp_result (wp_access_breaks op (E := fun _ _ => False) hl hw ha hfuel) hrun hends

section Sample

/-- Setting key 3 on the one-entry cache. -/
theorem cache_set_breaks : CacheWf oneState.heap oneCache oneHead oneTail newMap 2
      [⟨oneEntry, 1, 5⟩] oneBindings ∧
    ∃ s', cacheStep oneCache (.set 3 7) quietEnv oneState = .ok (0, none) s' ∧
      s'.ends = oneState.ends ++ [.committed] ∧
      ∀ head tail hm cap es m, ¬ CacheWf s'.heap oneCache head tail hm cap es m := by
  obtain ⟨s', hrun, hends⟩ : ∃ s',
      cacheStep oneCache (.set 3 7) quietEnv oneState = .ok (0, none) s' ∧
        s'.ends = [.committed] := ⟨_, rfl, rfl⟩
  have hbreaks := wp_result (wp_access_breaks (.set 3 7) (E := fun _ _ => False) (s := oneState) rfl
    oneHeap_wf trivial (Nat.lt_succ_self _)) hrun
  exact ⟨oneHeap_wf, s', hrun, hends, hbreaks hends⟩

theorem cache_commit_breaks_get :
    ∃ s', cacheStep oneCache (.get 1 false) quietEnv oneState = .ok (0, none) s' ∧
      ∀ head tail hm cap es m, ¬ CacheWf s'.heap oneCache head tail hm cap es m := by
  obtain ⟨s', hrun, hends⟩ : ∃ s',
      cacheStep oneCache (.get 1 false) quietEnv oneState = .ok (0, none) s' ∧
        s'.ends = [.committed] := ⟨_, rfl, rfl⟩
  exact ⟨s', hrun, cache_commit_breaks quietEnv (.get 1 false) (0, none) (s := oneState) rfl
    oneHeap_wf trivial (Nat.lt_succ_self _) hrun hends⟩

end Sample

end RtsCache.CacheCommits
