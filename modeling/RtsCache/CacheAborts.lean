import RtsCache.CacheOps
import RtsCache.HashmapRuns

/-!
# Aborts of the cache

An outermost cache call rolls back to the heap it started from unless it has
already unlinked an entry: the two link stores of `cache_delete` have no
snapshot and stay. How many library calls come before them is known from the
state of the cache.
-/

set_option autoImplicit false

namespace RtsCache.CacheAborts
open RtsCache.UndoHeap RtsCache.UndoMachine RtsCache.UndoRules RtsCache.PoolLayout
open RtsCache.HashmapMachine RtsCache.HashmapInvariant RtsCache.HashmapRuns
open RtsCache.DoublyLinked RtsCache.CacheMachine RtsCache.CacheInvariant
open RtsCache.CacheCalls RtsCache.CacheOps

inductive CacheOp where
  | get (key : UInt64) (valueNull : Bool)
  | set (key : UInt64) (value : Int32)
  | add (entry : PMEMoid)
  | delete (entry : PMEMoid)

/-- The return code, and what was stored through the `value` pointer. -/
def cacheStep (cache : PMEMoid) : CacheOp → Pmem (ℤ × Option Int32)
  | .get key valueNull => cacheGet cache key valueNull
  | .set key value => do
    let r ← cacheSet cache key value
    pure (r, none)
  | .add entry => do
    let r ← cacheAdd cache entry
    pure (r, none)
  | .delete entry => do
    let r ← cacheDelete cache entry
    pure (r, none)

/-- An entry is added from any live object with links and deleted from the
list it is in. -/
def CacheOp.Valid (h : Pool) (es : List CEntry) : CacheOp → Prop
  | .add entry => ∃ p n, h.get entry .prev = some p ∧ h.get entry .next = some n
  | .delete entry => ∃ e ∈ es, e.oid = entry
  | _ => True

def CacheOp.Unlinks (m : Bindings) (cap : UInt64) (es : List CEntry) : CacheOp → Prop
  | .get key _ => (m key).isSome
  | .set key _ => (m key).isSome ∨ es.length = cap.toNat
  | .add _ => False
  | .delete _ => True

/-- The library calls of an outermost call up to its unlinking. -/
def CacheOp.unlinkPoint (h : Pool) (hm : PMEMoid) (es : List CEntry) : CacheOp → ℕ
  | .get _ _ => 1 + dropPoint h hm es.length
  | .set _ _ => 1 + dropPoint h hm es.length
  | .add _ => 1
  | .delete _ => 4

variable {env : PoolEnv} {s s' : PoolState} {cache head tail hm : PMEMoid} {cap : UInt64}
  {es : List CEntry} {m : Bindings} {op : CacheOp} {unlinks : Prop} {k : ℕ} {c : Cause}

theorem uncovered_opened (s : PoolState) : Uncovered s.opened := by
  rintro o obj f - - ⟨l, hl, hc⟩
  cases Option.some.inj hl
  rcases hc with hc | hc <;> cases hc

theorem undone_opened (s : PoolState) : s.opened.undone = s.opened.heap :=
  Log.rollback_empty s.heap

/-- What an abort shows of the outermost transaction begun in `s`. -/
def AbortShows (unlinks : Prop) (k : ℕ) (s s' : PoolState) : Prop :=
  s'.heap = s.heap ↔ (unlinks → s'.calls ≤ s.calls + k)

theorem not_abort_of_commit (he : s'.ends = s.ends ++ [.committed]) :
    ¬ ∃ c, s'.ends = s.ends ++ [.aborted c] := by
  rintro ⟨c, hc⟩
  simp [he] at hc

theorem wp_transaction_shows {α : Type} {body : Pmem α} {Q : Option α → PoolState → Prop}
    {E : Cause → PoolState → Prop} (hl : s.log = none) (hcrash : ¬ Crashing env)
    (hb : wp env body (fun _ s' => s'.ends = s.ends) (AbortsAt env unlinks k s.tick.opened)
      s.tick.opened)
    (hnone : ∀ s', AbortShows unlinks (1 + k) s s' → Q none s')
    (hsome : ∀ a s', s'.ends = s.ends ++ [.committed] → Q (some a) s') :
    wp env (transaction body) Q E s := by
  have hundone : s.tick.opened.undone = s.heap := undone_opened s.tick
  have hcalls : s.tick.opened.calls = s.calls + 1 := rfl
  apply wp_transaction_top hl
  · apply hnone
    constructor
    · intro _ _
      simp [State.record, State.tick]
    · exact fun _ => rfl
  · apply wp_mono hb
    · intro a s' he
      constructor
      · exact fun hc => absurd ⟨_, hc⟩ hcrash
      · exact hsome a _ (congrArg (· ++ [TxEnd.committed]) he)
    · intro c s' ha
      apply hnone
      have hheap : (s'.rollback c).heap = s'.undone := rfl
      have hc : (s'.rollback c).calls = s'.calls := rfl
      rw [AbortShows, hheap, hc]
      rcases ha.kinds with ⟨-, hk⟩ | ⟨hu, hk⟩ | ⟨hu, hx, hk⟩
      · exact absurd hk hcrash
      · constructor
        · intro _ hx
          have := hk hx
          omega
        · exact fun _ => hu.trans hundone
      · constructor
        · intro he
          exact absurd (he.trans hundone.symm) hu
        · intro h
          have := h hx
          omega

def Reports (unlinks : Prop) (k : ℕ) (s : PoolState) (r : ℤ × Option Int32) (s' : PoolState) :
    Prop :=
  ∀ c, s'.ends = s.ends ++ [.aborted c] → r.1 = -1 ∧ AbortShows unlinks k s s'

theorem reports_commit {r : ℤ × Option Int32} (he : s'.ends = s.ends ++ [.committed]) :
    Reports unlinks k s r s' :=
  fun c hc => absurd ⟨c, hc⟩ (not_abort_of_commit he)

theorem wp_get_reports {key : UInt64} {valueNull : Bool} {E : Cause → PoolState → Prop}
    (hl : s.log = none) (hw : CacheWf s.heap cache head tail hm cap es m)
    (hcrash : ¬ Crashing env) (hfuel : 2^64 < env.fuel) :
    wp env (cacheGet cache key valueNull)
      (Reports ((m key).isSome) (1 + dropPoint s.heap hm es.length) s) E s := by
  obtain ⟨w, hcount⟩ := count_get hw.map
  rw [cacheGet, wp_bind]
  apply wp_cacheCheck hw.fields hcount
  rw [if_neg (by simp)]
  cases valueNull with
  | true =>
    rw [if_pos rfl, wp_pure]
    intro c hc
    simp at hc
  | false =>
    rw [if_neg (by simp), wp_bind]
    apply wp_transaction_shows hl hcrash
    · apply wp_mono (wp_cacheGetBody (s := s.tick.opened) rfl hw (uncovered_opened _)
        (undone_opened _) hfuel)
      · exact fun _ s' hg => hg.ends
      · exact fun _ _ ha => ha
    · exact fun s' hs c _ => ⟨rfl, hs⟩
    · exact fun a s' he => reports_commit he

theorem wp_set_reports {key : UInt64} {value : Int32} {E : Cause → PoolState → Prop}
    (hl : s.log = none) (hw : CacheWf s.heap cache head tail hm cap es m)
    (hcrash : ¬ Crashing env) (hfuel : 2^64 < env.fuel) :
    wp env (cacheSet cache key value)
      (fun r => Reports ((m key).isSome ∨ es.length = cap.toNat)
        (1 + dropPoint s.heap hm es.length) s (r, none)) E s := by
  obtain ⟨w, hcount⟩ := count_get hw.map
  rw [cacheSet, wp_bind]
  apply wp_cacheCheck hw.fields hcount
  rw [if_neg (by simp), wp_bind]
  apply wp_transaction_shows hl hcrash
  · apply wp_mono (wp_cacheSetBody (s := s.tick.opened) rfl hw (uncovered_opened _)
      (undone_opened _) hfuel)
    · exact fun _ s' hd => hd.ends
    · exact fun _ _ ha => ha
  · exact fun s' hs c _ => ⟨rfl, hs⟩
  · exact fun a s' he => reports_commit he

theorem wp_add_reports {entry p n : PMEMoid} {E : Cause → PoolState → Prop}
    (hl : s.log = none) (hw : CacheWf s.heap cache head tail hm cap es m)
    (hp : s.heap.get entry .prev = some p) (hn : s.heap.get entry .next = some n)
    (hcrash : ¬ Crashing env) :
    wp env (cacheAdd cache entry) (fun r => Reports False 1 s (r, none)) E s := by
  obtain ⟨w, hcount⟩ := count_get hw.map
  obtain ⟨first, hf, hfp⟩ := first_of_doubly hw.doubly
  have hbody : wp env (cacheAddBody cache entry) (fun _ s' => s'.ends = s.ends)
      (AbortsAt env False 0 s.tick.opened) s.tick.opened := by
    apply wp_mono (wp_cacheAddBody (s := s.tick.opened) rfl hw.fields hf hfp hp hn)
    · exact fun _ s' ha => ha.ends
    · intro c s' ha
      exact ⟨ha.ends, ha.inTx, ha.kinds.imp_right fun h => Or.inl ⟨h.1, False.elim⟩⟩
  rw [cacheAdd, wp_bind]
  apply wp_cacheCheck hw.fields hcount
  rw [if_neg (by simp), wp_bind]
  apply wp_transaction_shows hl hcrash hbody
  · exact fun s' hs c _ => ⟨rfl, hs⟩
  · exact fun a s' he => reports_commit he

theorem wp_delete_reports {x : CEntry} {E : Cause → PoolState → Prop} (hl : s.log = none)
    (hw : CacheWf s.heap cache head tail hm cap es m) (hx : x ∈ es) (hcrash : ¬ Crashing env) :
    wp env (cacheDelete cache x.oid) (fun r => Reports True 4 s (r, none)) E s := by
  obtain ⟨w, hcount⟩ := count_get hw.map
  obtain ⟨pre, post, rfl⟩ := List.append_of_mem hx
  obtain ⟨-, p, q, -, -, -, haround, hqx⟩ := hw.split
  have hundone : s.tick.opened.undone = s.heap := undone_opened s.tick
  have hbody : wp env (cacheDeleteBody cache x.oid) (fun _ s' => s'.ends = s.ends)
      (AbortsAt env True 3 s.tick.opened) s.tick.opened := by
    apply wp_mono (wp_cacheDeleteBody (s := s.tick.opened) rfl hw.fields haround
      (hw.entries x hx).notNull (uncovered_opened _))
    · exact fun _ s' hd => hd.ends
    · intro c s' ha
      refine ⟨ha.ends, ha.inTx, ?_⟩
      rcases ha.kinds with hk | ⟨hu, hk⟩ | ⟨hu, hk⟩
      · exact Or.inl hk
      · exact Or.inr (Or.inl ⟨hu, fun _ => hk⟩)
      · refine Or.inr (Or.inr ⟨?_, trivial, hk⟩)
        rw [hu, hundone]
        exact unlinked_ne haround hqx
  rw [cacheDelete, wp_bind]
  apply wp_cacheCheck hw.fields hcount
  rw [if_neg (by simp), wp_bind]
  apply wp_transaction_shows hl hcrash hbody
  · exact fun s' hs c _ => ⟨rfl, hs⟩
  · exact fun a s' he => reports_commit he

theorem wp_cacheStep_reports {E : Cause → PoolState → Prop} (hl : s.log = none)
    (hw : CacheWf s.heap cache head tail hm cap es m) (hv : op.Valid s.heap es)
    (hcrash : ¬ Crashing env) (hfuel : 2^64 < env.fuel) :
    wp env (cacheStep cache op)
      (Reports (op.Unlinks m cap es) (op.unlinkPoint s.heap hm es) s) E s := by
  cases op with
  | get key valueNull => exact wp_get_reports hl hw hcrash hfuel
  | set key value =>
    rw [cacheStep, wp_bind]
    exact wp_set_reports hl hw hcrash hfuel
  | add entry =>
    obtain ⟨p, n, hp, hn⟩ := hv
    rw [cacheStep, wp_bind]
    exact wp_add_reports hl hw hp hn hcrash
  | delete entry =>
    obtain ⟨x, hx, rfl⟩ := hv
    rw [cacheStep, wp_bind]
    exact wp_delete_reports hl hw hx hcrash

/-- A call on a well-formed cache always returns. When its `n`-th library call
aborts it, it returns -1 on the heap it was given exactly if it does not unlink
anything or has not done so before that call. -/
theorem cache_abort_atomic_iff (env : PoolEnv) (op : CacheOp) (hl : s.log = none)
    (hw : CacheWf s.heap cache head tail hm cap es m) (hv : op.Valid s.heap es)
    (hcrash : ¬ Crashing env) (hfuel : 2^64 < env.fuel) :
    ∃ r s', cacheStep cache op env s = .ok r s' ∧
      ∀ c n, s'.ends = s.ends ++ [.aborted c] → s'.calls = s.calls + n →
        ((r.1 = -1 ∧ s'.heap = s.heap) ↔
          (op.Unlinks m cap es → n ≤ op.unlinkPoint s.heap hm es)) := by
  obtain ⟨r, s', hrun, hr⟩ := wp_returns (wp_cacheStep_reports hl hw hv hcrash hfuel)
  refine ⟨r, s', hrun, fun c n he hn => ?_⟩
  obtain ⟨hret, hs⟩ := hr c he
  rw [AbortShows, hn, Nat.add_le_add_iff_left] at hs
  simpa [hret] using hs

section Sample

def oneCache : PMEMoid := ⟨1, 512⟩

def oneHead : PMEMoid := ⟨1, 1024⟩

def oneTail : PMEMoid := ⟨1, 1088⟩

def oneEntry : PMEMoid := ⟨1, 1152⟩

def oneNode : PMEMoid := ⟨1, 1216⟩

def cacheHeap (first last : PMEMoid) (rest : Pool) : Pool := fun o =>
  if o = oneCache then
    some ⟨.cache, 56, fun
      | .head => oneHead
      | .tail => oneTail
      | .capacity => (2 : UInt64)
      | .hashmap => newMap
      | m => m.zero⟩
  else if o = oneHead then
    some ⟨.cacheEntry, 48, fun
      | .next => first
      | m => m.zero⟩
  else if o = oneTail then
    some ⟨.cacheEntry, 48, fun
      | .prev => last
      | m => m.zero⟩
  else rest o

def entryHeap : Pool := fun o =>
  if o = oneEntry then
    some ⟨.cacheEntry, 48, fun
      | ._key => (1 : UInt64)
      | ._value => (5 : Int32)
      | .prev => oneHead
      | .next => oneTail
      | m => m.zero⟩
  else if o = oneNode then
    some ⟨.entry, 40, fun
      | .key => (1 : UInt64)
      | .value => oneEntry
      | m => m.zero⟩
  else if o = newMap then
    some ⟨.hashmapTx, 48, fun
      | .hashFunA => (1 : UInt32)
      | .hashFunP => hashFuncCoeffP
      | .count => (1 : UInt64)
      | .buckets => newBuckets
      | m => m.zero⟩
  else if o = newBuckets then
    some ⟨.buckets, 168, fun
      | .nbuckets => initBucketsNum
      | .bucket i => if i = 1 then oneNode else oidNull
      | m => m.zero⟩
  else none

def oneHeap : Pool := cacheHeap oneEntry oneEntry entryHeap

def oneState : PoolState := ⟨oneHeap, none, 0, 0, []⟩

def oneBindings : Bindings := binds [⟨oneNode, 1, oneEntry⟩]

theorem oneHeap_map : MapIs oneHeap newMap oneBindings := by
  have hnodes : nodes 10 (fun i => if i = 1 then [⟨oneNode, 1, oneEntry⟩] else []) =
      [⟨oneNode, 1, oneEntry⟩] := rfl
  refine ⟨newBuckets, 1, 0, hashFuncCoeffP, 10,
    fun i => if i = 1 then [⟨oneNode, 1, oneEntry⟩] else [], ?_, by rw [oneBindings]; rfl⟩
  constructor
  case slot =>
    intro i hi
    have hi' : i < 10 := hi
    have hext : (Member.bucket i).extent ≤ 168 := by simp only [Member.extent]; omega
    refine ⟨_, get_fresh (h := oneHeap) (o := newBuckets) rfl (.bucket i) rfl hext, ?_⟩
    by_cases h1 : i = 1
    · subst h1
      apply (chain_cons _ _ _ _).mpr
      exact ⟨rfl, ⟨rfl, rfl, rfl⟩, oidNull, rfl, (chain_nil _ _).mpr rfl⟩
    · rw [if_neg h1]
      apply (chain_nil _ _).mpr
      simp only [h1, if_false]
      rfl
  case placed =>
    intro i _ x hx
    by_cases h1 : i = 1
    · subst h1
      cases List.mem_singleton.mp hx
      rfl
    · rw [if_neg h1] at hx
      cases hx
  case distinct =>
    show ((nodes 10 _).map Node.key).Nodup
    rw [hnodes]
    decide
  case count => rfl
  all_goals first | rfl | decide

theorem oneHeap_wf : CacheWf oneHeap oneCache oneHead oneTail newMap 2 [⟨oneEntry, 1, 5⟩]
    oneBindings where
  fields := ⟨rfl, rfl, rfl, rfl, rfl, rfl⟩
  doubly := (doubly_pair _ _ _).mpr ⟨⟨rfl, rfl⟩, (doubly_pair _ _ _).mpr
    ⟨⟨rfl, rfl⟩, List.isChain_singleton _⟩⟩
  distinct := by decide
  entries e he := by
    cases List.mem_singleton.mp he
    exact ⟨rfl, rfl, rfl⟩
  keys := by decide
  map := oneHeap_map
  binds k o := by
    rw [oneBindings, binds_eq_some (by simp)]
    simp [eq_comm]
  bounded := by decide
  positive := by decide

def failingEnv (i : ℕ) : PoolEnv := { quietEnv with fails := fun j => j == i }

/-- The allocation of the final insertion fails: the entry is back in the map,
but the list has lost it. -/
theorem cache_abort_not_atomic : CacheWf oneState.heap oneCache oneHead oneTail newMap 2
      [⟨oneEntry, 1, 5⟩] oneBindings ∧
    ∃ s', cacheStep oneCache (.get 1 false) (failingEnv 20) oneState = .ok (-1, none) s' ∧
      s'.ends = oneState.ends ++ [.aborted ENOMEM] ∧ s'.heap ≠ oneState.heap := by
  obtain ⟨s', hrun, hends, hnext⟩ : ∃ s',
      cacheStep oneCache (.get 1 false) (failingEnv 20) oneState = .ok (-1, none) s' ∧
        s'.ends = [.aborted ENOMEM] ∧ s'.heap.get oneHead .next = some oneTail :=
    ⟨_, rfl, rfl, rfl⟩
  refine ⟨oneHeap_wf, s', hrun, hends, fun he => ?_⟩
  have hbefore : oneState.heap.get oneHead .next = some oneEntry := rfl
  have hne : oneEntry ≠ oneTail := by decide
  rw [he, hbefore] at hnext
  exact hne (Option.some.inj hnext)

theorem cache_abort_atomic_early :
    ∃ s', cacheStep oneCache (.get 1 false) (failingEnv 8) oneState = .ok (-1, none) s' ∧
      s'.heap = oneHeap := by
  obtain ⟨s', hrun, hends, hcalls⟩ : ∃ s',
      cacheStep oneCache (.get 1 false) (failingEnv 8) oneState = .ok (-1, none) s' ∧
        s'.ends = [.aborted ENOMEM] ∧ s'.calls = 9 := ⟨_, rfl, rfl, rfl⟩
  obtain ⟨r, s'', hrun', h⟩ := cache_abort_atomic_iff (failingEnv 8) (.get 1 false) (s := oneState)
    rfl oneHeap_wf trivial (by rintro ⟨i, hi⟩; cases hi) (Nat.lt_succ_self _)
  cases hrun.symm.trans hrun'
  exact ⟨s', hrun, ((h ENOMEM 9 hends hcalls).mpr fun _ => by decide).2⟩

end Sample

end RtsCache.CacheAborts
