import RtsCache.CacheLists
import RtsCache.CacheRuns

/-!
# Reads of the cache

A `cache_get` that finds its key drops the entry from the list and binds the
key to bytes of another one; and what it has read stays in its own frame, as
the pointer it was given is overwritten, not what that points to. Only a
`cache_get` that finds nothing leaves the cache as it was.
-/

set_option autoImplicit false

namespace RtsCache.CacheReads
open RtsCache.UndoHeap RtsCache.UndoMachine RtsCache.UndoRules RtsCache.PoolLayout
open RtsCache.HashmapMachine RtsCache.HashmapInvariant RtsCache.HashmapRuns RtsCache.DoublyLinked
open RtsCache.CacheMachine RtsCache.CacheInvariant RtsCache.CacheCalls RtsCache.CacheOps
open RtsCache.CacheAborts RtsCache.CacheCommits RtsCache.CacheRuns RtsCache.CacheLists

/-- The caller's variable after a call that has stored `stored` through the
pointer to it. -/
def after (x : Int32) (stored : Option Int32) : Int32 := stored.getD x

def Fetches (v : Int32) (r : ℤ × Option Int32) : Prop := r.1 = 0 ∧ ∀ x, after x r.2 = v

def BoundTo (h : Pool) (hm : PMEMoid) (key : UInt64) (v : Int32) : Prop :=
  ∃ m o, MapIs h hm m ∧ m key = some o ∧ h.get o ._value = some v

/-- What a `cache_get` from `s` that ends in `s'` is to do. -/
structure NotDestructive (cache hm : PMEMoid) (key : UInt64) (s : PoolState)
    (r : ℤ × Option Int32) (s' : PoolState) : Prop where
  fetches : ∀ v, BoundTo s.heap hm key v → Fetches v r
  others : ∀ v, BoundTo s.heap hm key v →
    ∀ k w, k ≠ key → BoundTo s.heap hm k w → BoundTo s'.heap hm k w
  again : ∀ v, BoundTo s.heap hm key v → ∀ env : PoolEnv, 2^64 < env.fuel →
    ∃ r' s'', cacheGet cache key false env s' = .ok r' s'' ∧ (NoFault s' s'' → Fetches v r')
  misses : (∀ v, ¬ BoundTo s.heap hm key v) → r.1 = -1 ∧ s'.heap = s.heap

structure Lost (h h' : Pool) (cache head tail hm : PMEMoid) (cap : UInt64) (es : List CEntry)
    (key : UInt64) (o : PMEMoid) : Prop where
  list : ListWf h' cache head tail hm cap (without es o)
  others : ∀ k w, k ≠ key → BoundTo h hm k w → BoundTo h' hm k w

variable {env : PoolEnv} {s s' : PoolState} {h : Pool} {cache head tail hm o : PMEMoid}
  {cap : UInt64} {es : List CEntry} {m : Bindings} {key : UInt64}

theorem not_fetches (v : Int32) {r : ℤ × Option Int32} (hr : r.2 = none) : ¬ Fetches v r := by
  rintro ⟨-, hall⟩
  have hzero : (0 : Int32) = v := by simpa [after, hr] using hall 0
  have hone : (1 : Int32) = v := by simpa [after, hr] using hall 1
  have hne : (0 : Int32) ≠ 1 := by decide
  exact hne (hzero.trans hone.symm)

section Bound

theorem boundTo_iff (hw : CacheWf h cache head tail hm cap es m) {k : UInt64} {w : Int32} :
    BoundTo h hm k w ↔ ∃ e ∈ es, e.key = k ∧ e.value = w := by
  constructor
  · rintro ⟨m', o, hm', hbound, hval⟩
    rw [← mapIs_unique hw.map hm'] at hbound
    obtain ⟨e, he, rfl, rfl⟩ := (hw.binds k o).mp hbound
    exact ⟨e, he, rfl, Option.some.inj ((hw.entries e he).value.symm.trans hval)⟩
  · rintro ⟨e, he, rfl, rfl⟩
    exact ⟨m, e.oid, hw.map, (hw.binds _ _).mpr ⟨e, he, rfl, rfl⟩, (hw.entries e he).value⟩

theorem bound_iff (hw : CacheWf h cache head tail hm cap es m) :
    (∃ v, BoundTo h hm key v) ↔ m key ≠ none := by
  rw [Option.ne_none_iff_exists']
  constructor
  · rintro ⟨v, hv⟩
    obtain ⟨e, he, rfl, rfl⟩ := (boundTo_iff hw).mp hv
    exact ⟨e.oid, (hw.binds _ _).mpr ⟨e, he, rfl, rfl⟩⟩
  · rintro ⟨o, ho⟩
    obtain ⟨e, he, rfl, rfl⟩ := (hw.binds _ _).mp ho
    exact ⟨e.value, (boundTo_iff hw).mpr ⟨e, he, rfl, rfl⟩⟩

theorem lost_of_got (hw : CacheWf s.heap cache head tail hm cap es m) (ho : m key = some o)
    (hg : Got s cache head tail hm cap es m key s') :
    Lost s.heap s'.heap cache head tail hm cap es key o := by
  obtain ⟨pre, x, post, rfl, rfl, hdoubly, hentries⟩ := hg.list
  obtain ⟨y, hmap⟩ := hg.map
  have hbound : m x.key = some x.oid := (hw.binds _ _).mpr ⟨x, by simp, rfl, rfl⟩
  obtain rfl : o = x.oid := Option.some.inj (ho.symm.trans hbound)
  constructor
  case list =>
    rw [without_split hw.distinct]
    exact ⟨hg.fields, count_get hmap, hdoubly,
      hw.distinct.sublist (order_erase head tail pre post x), hentries⟩
  case others =>
    intro k w hk hkw
    obtain ⟨e, he, rfl, rfl⟩ := (boundTo_iff hw).mp hkw
    have hne : e ≠ x := fun heq => hk (heq ▸ rfl)
    have hmem : e ∈ pre ++ post := by simpa [hne] using he
    have hkeep : Function.update m x.key (some y) e.key = some e.oid := by
      rw [Function.update_of_ne hk]
      exact (hw.binds _ _).mpr ⟨e, he, rfl, rfl⟩
    exact ⟨_, e.oid, hmap, hkeep, (hentries e hmem).value⟩

end Bound

section Code

theorem cacheGet_stores_nothing {r : ℤ × Option Int32} {b : Bool}
    (hrun : cacheGet cache key b env s = .ok r s') : r.2 = none := by
  obtain ⟨c, s₁, -, hrest⟩ := UndoWrites.bind_ok hrun
  cases c with
  | true =>
    cases hrest
    rfl
  | false =>
    cases b with
    | true =>
      cases hrest
      rfl
    | false =>
      obtain ⟨a, s₂, -, hret⟩ := UndoWrites.bind_ok hrest
      cases a <;> cases hret <;> rfl

theorem wp_cacheGet_miss {E : Cause → PoolState → Prop} (hl : s.log = none)
    (hw : CacheWf s.heap cache head tail hm cap es m) (hkey : m key = none)
    (hfuel : 2^64 < env.fuel) :
    wp env (cacheGet cache key false) (fun r s' => r.1 = -1 ∧ s'.heap = s.heap) E s := by
  rw [cacheGet, wp_bind]
  apply wp_check hw.list
  rw [if_neg (by simp), if_neg (by simp), wp_bind]
  apply wp_transaction_top hl
  · exact ⟨rfl, rfl⟩
  · apply wp_mono (wp_cacheGetBody_unbound (s := s.tick.opened) rfl hw.fields hw.map hkey hfuel)
    · exact fun _ _ hfalse => hfalse.elim
    · intro c s₁ hu
      exact ⟨rfl, hu.trans (undone_opened s.tick)⟩

theorem wp_cacheGet_hit {E : Cause → PoolState → Prop} (hl : s.log = none)
    (hw : CacheWf s.heap cache head tail hm cap es m) (hkey : m key = some o)
    (hfuel : 2^64 < env.fuel) :
    wp env (cacheGet cache key false) (fun r s' => s'.ends = s.ends ++ [.committed] →
      r.1 = 0 ∧ Lost s.heap s'.heap cache head tail hm cap es key o) E s := by
  rw [cacheGet, wp_bind]
  apply wp_check hw.list
  rw [if_neg (by simp), if_neg (by simp), wp_bind]
  apply wp_transaction_committed hl (wp_cacheGetBody (s := s.tick.opened) rfl hw
    (uncovered_opened _) (undone_opened _) hfuel)
  intro a s' hs
  cases a with
  | none =>
    intro he
    cases (hs he).1
  | some a =>
    intro he
    obtain ⟨-, s₁, hg, heap⟩ := hs he
    rw [heap]
    exact ⟨rfl, lost_of_got (s := s.tick.opened) hw hkey hg⟩

/-- Outside a transaction a `cache_get` on a well-formed cache returns; it is
not destructive exactly when its key is not bound. If it is bound and the
transaction commits, the call answers 0, but has stored nothing and the list
has lost the entry. -/
theorem cacheGet_not_destructive_iff (env : PoolEnv) (key : UInt64) (hl : s.log = none)
    (hw : CacheWf s.heap cache head tail hm cap es m) (hfuel : 2^64 < env.fuel) :
    ∃ r s', cacheGet cache key false env s = .ok r s' ∧
      ((m key ≠ none → s'.ends = s.ends ++ [.committed]) →
        (NotDestructive cache hm key s r s' ↔ m key = none) ∧
        ∀ o, m key = some o →
          r = (0, none) ∧ Lost s.heap s'.heap cache head tail hm cap es key o) := by
  cases hkey : m key with
  | none =>
    obtain ⟨r, s', hrun, hr, heap⟩ := wp_returns (wp_cacheGet_miss hl hw hkey hfuel)
    have hnot : ∀ v, ¬ BoundTo s.heap hm key v := fun v hv => (bound_iff hw).mp ⟨v, hv⟩ hkey
    have hread : NotDestructive cache hm key s r s' :=
      ⟨fun v hv => absurd hv (hnot v), fun v hv => absurd hv (hnot v),
        fun v hv => absurd hv (hnot v), fun _ => ⟨hr, heap⟩⟩
    use r, s', hrun
    intro _
    constructor
    · exact iff_of_true hread rfl
    · intro o ho
      cases ho
  | some o =>
    obtain ⟨r, s', hrun, hlost⟩ := wp_returns (wp_cacheGet_hit hl hw hkey hfuel)
    have hnone := cacheGet_stores_nothing hrun
    obtain ⟨v, hv⟩ := (bound_iff hw).mpr (by rw [hkey]; simp : m key ≠ none)
    use r, s', hrun
    intro hc
    constructor
    · exact iff_of_false (fun hd => not_fetches v hnone (hd.fetches v hv)) (by simp)
    · intro o' ho'
      obtain rfl := Option.some.inj ho'
      obtain ⟨hr, hl'⟩ := hlost (hc (by simp))
      exact ⟨Prod.ext hr hnone, hl'⟩

end Code

section Sample

/-- Getting key 1, which is bound to 5, and getting it once more. -/
theorem destructive_one : CacheWf oneState.heap oneCache oneHead oneTail newMap 2
      [⟨oneEntry, 1, 5⟩] oneBindings ∧ BoundTo oneState.heap newMap 1 5 ∧
    ∃ s', cacheGet oneCache 1 false quietEnv oneState = .ok (0, none) s' ∧
      s'.ends = oneState.ends ++ [.committed] ∧
      (∃ s'', cacheGet oneCache 1 false quietEnv s' = .ok (-1, none) s'') ∧
      ¬ NotDestructive oneCache newMap 1 oneState (0, none) s' := by
  obtain ⟨s', hrun, hends, s'', hagain⟩ : ∃ s',
      cacheGet oneCache 1 false quietEnv oneState = .ok (0, none) s' ∧ s'.ends = [.committed] ∧
      ∃ s'', cacheGet oneCache 1 false quietEnv s' = .ok (-1, none) s'' := ⟨_, rfl, rfl, _, rfl⟩
  have hbound : BoundTo oneState.heap newMap 1 5 :=
    (boundTo_iff oneHeap_wf).mpr ⟨⟨oneEntry, 1, 5⟩, by simp, rfl, rfl⟩
  exact ⟨oneHeap_wf, hbound, s', hrun, hends, ⟨s'', hagain⟩,
    fun hd => not_fetches 5 rfl (hd.fetches 5 hbound)⟩

theorem cacheGet_not_destructive_iff_two : ∃ r s',
    cacheGet oneCache 2 false quietEnv oneState = .ok r s' ∧ r.1 = -1 ∧ s'.heap = oneHeap := by
  have hnone : oneBindings 2 = none := by decide
  obtain ⟨r, s', hrun, hall⟩ := cacheGet_not_destructive_iff quietEnv 2 (s := oneState) rfl
    oneHeap_wf (Nat.lt_succ_self _)
  have hd := ((hall fun hne => absurd hnone hne).1).mpr hnone
  have hnot : ∀ v, ¬ BoundTo oneState.heap newMap 2 v := fun v hv =>
    (bound_iff oneHeap_wf).mp ⟨v, hv⟩ hnone
  exact ⟨r, s', hrun, hd.misses hnot⟩

end Sample

end RtsCache.CacheReads
