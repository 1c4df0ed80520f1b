import RtsCache.CacheCommits
import RtsCache.CacheFaults

/-!
# Runs of the cache

The specification keeps every key with its latest value, the most recently
used first, and hits the first `capacity` of them. The code never binds a key
in its map, so over runs from an empty cache every `cache_get` misses, and it
answers as the specification does exactly when the specification misses too.
-/

set_option autoImplicit false

namespace RtsCache.CacheRuns
open RtsCache.UndoHeap RtsCache.UndoMachine RtsCache.UndoRules RtsCache.UndoFaults
open RtsCache.PoolLayout RtsCache.HashmapMachine RtsCache.HashmapInvariant RtsCache.HashmapScan
open RtsCache.HashmapRuns RtsCache.RunRefinement RtsCache.DoublyLinked
open RtsCache.CacheMachine RtsCache.CacheInvariant
open RtsCache.CacheCalls RtsCache.CacheOps RtsCache.CacheAborts RtsCache.CacheFaults

inductive LruOp where
  | set (key : UInt64) (value : Int32)
  | get (key : UInt64)

def lruStep (cache : PMEMoid) : LruOp → Pmem (ℤ × Option Int32)
  | .set key value => cacheStep cache (.set key value)
  | .get key => cacheStep cache (.get key false)

/-- Keys with their values, most recently used first. -/
abbrev Recency := List (UInt64 × Int32)

def touch (key : UInt64) (value : Int32) (a : Recency) : Recency :=
  (key, value) :: a.filter fun e => e.1 ≠ key

/-- The bounded least-recently-used map's answers. -/
def lruSpec (cap : ℕ) (a : Recency) : LruOp → (ℤ × Option Int32) × Recency
  | .set key value => ((0, none), touch key value a)
  | .get key =>
    match (a.take cap).find? fun e => e.1 = key with
    | some e => ((0, some e.2), touch key e.2 a)
    | none => ((-1, none), a)

/-- The distinct keys set so far, the latest first. -/
def setKeys (os : List LruOp) : List UInt64 :=
  os.foldl (fun ks o => match o with
    | .set key _ => key :: ks.filter fun k => k ≠ key
    | .get _ => ks) []

/-- No `cache_get` asks for one of the `cap` keys set last. -/
def OnlyMisses (cap : ℕ) (os : List LruOp) : Prop :=
  ∀ pre key, pre ++ [.get key] <+: os → key ∉ (setKeys pre).take cap

def answer : LruOp → ℤ × Option Int32
  | .set _ _ => (0, none)
  | .get _ => (-1, none)

section Spec
variable {cap : ℕ}

theorem setKeys_snoc (os : List LruOp) (o : LruOp) :
    setKeys (os ++ [o]) = match o with
      | .set key _ => key :: (setKeys os).filter fun k => k ≠ key
      | .get _ => setKeys os := by
  cases o <;> simp [setKeys]

theorem onlyMisses_snoc (os : List LruOp) (o : LruOp) :
    OnlyMisses cap (os ++ [o]) ↔
      OnlyMisses cap os ∧ ∀ key, o = .get key → key ∉ (setKeys os).take cap := by
  constructor
  · intro h
    constructor
    · exact fun pre key hp => h pre key (hp.trans (List.prefix_append os [o]))
    · rintro key rfl
      exact h os key (List.prefix_refl _)
  · rintro ⟨h, hlast⟩ pre key hp
    rcases List.prefix_concat_iff.mp hp with he | hp
    · obtain ⟨rfl, ho⟩ := List.append_inj' he rfl
      exact hlast key (List.singleton_inj.mp ho).symm
    · exact h pre key hp

theorem touch_keys (key : UInt64) (value : Int32) (a : Recency) :
    (touch key value a).map Prod.fst = key :: (a.map Prod.fst).filter fun k => k ≠ key := by
  simp [touch, List.filter_map, Function.comp_def]

theorem find_eq_none {key : UInt64} {a : Recency} :
    ((a.take cap).find? fun e => e.1 = key) = none ↔ key ∉ (a.map Prod.fst).take cap := by
  rw [List.find?_eq_none, ← List.map_take]
  simp only [List.mem_map, not_exists, not_and, decide_eq_true_eq]

theorem spec_keys (os : List LruOp) (h : OnlyMisses cap os) :
    (specState (lruSpec cap) [] os).map Prod.fst = setKeys os := by
  induction os using List.reverseRecOn with
  | nil => rfl
  | append_singleton os o ih =>
    obtain ⟨hos, hlast⟩ := (onlyMisses_snoc os o).mp h
    rw [specState_snoc, setKeys_snoc]
    cases o with
    | set key value => rw [lruSpec, touch_keys, ih hos]
    | get key =>
      have hnone := find_eq_none.mpr ((ih hos).symm ▸ hlast key rfl)
      rw [lruSpec, hnone]
      exact ih hos

/-- Answering every `cache_get` with a miss is right exactly when the
specification only misses. -/
theorem answers_iff (os : List LruOp) :
    os.map answer = specResults (lruSpec cap) [] os ↔ OnlyMisses cap os := by
  induction os using List.reverseRecOn with
  | nil =>
    constructor
    · intro _ pre key hp
      simp at hp
    · exact fun _ => rfl
  | append_singleton os o ih =>
    rw [List.map_append, specResults_snoc, onlyMisses_snoc, ← ih]
    constructor
    · intro h
      obtain ⟨hos, hlast⟩ := List.append_inj' h rfl
      refine ⟨hos, ?_⟩
      rintro key rfl
      rw [← spec_keys os (ih.mp hos), ← find_eq_none]
      cases hf : ((specState (lruSpec cap) [] os).take cap).find? fun e => e.1 = key with
      | none => rfl
      | some e => simp [answer, lruSpec, hf] at hlast
    · rintro ⟨hos, hlast⟩
      rw [hos]
      cases o with
      | set key value => rfl
      | get key =>
        have hnone := find_eq_none.mpr ((spec_keys os (ih.mp hos)).symm ▸ hlast key rfl)
        simp [answer, lruSpec, hnone]

end Spec

section Code
variable {env : PoolEnv} {s s' : PoolState} {cache head tail hm : PMEMoid} {cap : UInt64}

structure Growing (h : Pool) (cache head tail hm : PMEMoid) (cap : UInt64) : Prop where
  fields : CacheAt h cache head tail hm cap
  map : MapIs h hm fun _ => none
  first : ∃ f w, h.get head .next = some f ∧ h.get f .prev = some w
  positive : 1 ≤ cap.toNat

theorem growing_of_wf (hw : CacheWf s.heap cache head tail hm cap [] fun _ => none) :
    Growing s.heap cache head tail hm cap := by
  obtain ⟨f, hf, hp⟩ := first_of_doubly hw.doubly
  exact ⟨hw.fields, hw.map, ⟨f, head, hf, hp⟩, hw.positive⟩

theorem count_of_unbound {h : Pool} (hm' : MapIs h hm fun _ => none) :
    h.get hm .count = some (0 : UInt64) := by
  obtain ⟨bs, a, b, p, n, T, ht, hmap⟩ := hm'
  have hcount := ht.count
  cases hx : nodes n.toNat T with
  | nil => rwa [hx] at hcount
  | cons x xs =>
    rw [hx, binds_cons] at hmap
    have := congrFun hmap x.key
    simp at this

theorem wp_setBody_grows {key : UInt64} {value : Int32} (hl : s.log.isSome)
    (hg : Growing s.heap cache head tail hm cap) (hfuel : 2^64 < env.fuel) :
    wp env (cacheSetBody cache key value)
      (fun _ s' => Growing s'.heap cache head tail hm cap ∧ s'.ends = s.ends)
      (fun c s' => Fault c ∧ s'.ends = s.ends) s := by
  obtain ⟨f, w, hf, hfp⟩ := hg.first
  rw [cacheSetBody, wp_bind]
  apply wp_mono (wp_raises (raises_txAddField cache .hashmap)
    (wp_txAddField (K := OnlyCache) (E := fun _ s' => s'.ends = s.ends)
      (Q := fun _ s' => Confined (I := PMEMoid) (F := Member) OnlyCache s s' ∧ s'.heap = s.heap)
      hl hg.fields.hashmap rfl (fun _ _ h _ => h.ends) fun _ h he _ _ => ⟨h, he⟩))
  · rintro _ s₁ ⟨h₁, e₁⟩
    rw [wp_bind]
    apply wp_mono (wp_raises (raises_txAddField cache .head)
      (wp_txAddField (K := OnlyCache) (E := fun _ s' => s'.ends = s.ends)
        (Q := fun _ s' => Confined (I := PMEMoid) (F := Member) OnlyCache s s' ∧ s'.heap = s.heap)
        (h₁.inTx ▸ hl) (e₁ ▸ hg.fields.head) rfl (fun _ _ h _ => h.ends.trans h₁.ends)
        fun _ h he _ _ => ⟨h₁.trans h, he.trans e₁⟩))
    · rintro _ s₂ ⟨h₂, e₂⟩
      rw [← e₂] at hg hf hfp
      have hcount := count_of_unbound hg.map
      have hcap : (0 : UInt64) ≠ cap := by
        rintro rfl
        exact absurd hg.positive (by decide)
      rw [wp_bind, wp_dRo hg.fields.hashmap, wp_bind]
      apply wp_hmTxGet hg.map hfuel
      rw [wp_bind, cacheSetDrop, Option.getD_none, if_pos (by rfl), wp_pure, wp_bind,
        cacheSetEvict, wp_bind, wp_dRo hg.fields.hashmap, wp_bind, hmTxCount, wp_dRo hcount,
        wp_bind, wp_dRo hg.fields.capacity, if_neg hcap, wp_pure]
      apply wp_mono (wp_raises (faults_cacheSetInsert cache key value)
        (wp_cacheSetInsert (h₂.inTx ▸ hl) hg.fields hg.map rfl hf hfp hfuel))
      · intro _ s' hi
        obtain ⟨e, w, -, hnext, -, hprev⟩ := hi.front
        exact ⟨⟨hi.fields, hi.map, ⟨e, w, hnext, hprev⟩, hg.positive⟩, hi.ends.trans h₂.ends⟩
      · exact fun c s' h => ⟨h.1, h.2.ends.trans h₂.ends⟩
    · exact fun _ _ h => h
  · exact fun _ _ h => h

/-- The transactions of the call did not fail. -/
def NoFault (s s' : PoolState) : Prop :=
  ∀ c, TxEnd.aborted c ∈ s'.ends.drop s.ends.length → ¬ Fault c

theorem noFault_snoc {c : Cause} (he : s'.ends = s.ends ++ [.aborted c]) (hn : NoFault s s') :
    ¬ Fault c :=
  hn c (by simp [he])

theorem wp_lruStep (o : LruOp) {E : Cause → PoolState → Prop} (hl : s.log = none)
    (hg : Growing s.heap cache head tail hm cap) (hfuel : 2^64 < env.fuel) :
    wp env (lruStep cache o) (fun r s' => NoFault s s' →
      r = answer o ∧ s'.log = none ∧ Growing s'.heap cache head tail hm cap) E s := by
  obtain ⟨w, hcount⟩ := count_get hg.map
  cases o with
  | set key value =>
    rw [lruStep, cacheStep, wp_bind, cacheSet, wp_bind]
    apply wp_cacheCheck hg.fields hcount
    rw [if_neg (by simp), wp_bind]
    apply wp_transaction_top hl
    · intro hn
      exact absurd (Or.inl rfl) (noFault_snoc rfl hn)
    · apply wp_mono (wp_setBody_grows (s := s.tick.opened) rfl hg hfuel)
      · rintro _ s₁ ⟨hg₁, hends⟩
        constructor
        · intro _ hn
          have he : (s₁.tock.rollback .crash).ends = s.ends ++ [.aborted .crash] :=
            congrArg (· ++ [TxEnd.aborted .crash]) hends
          exact absurd (Or.inr rfl) (noFault_snoc he hn)
        · exact fun _ => ⟨rfl, rfl, hg₁⟩
      · rintro c s₁ ⟨hc, hends⟩ hn
        have he : (s₁.rollback c).ends = s.ends ++ [.aborted c] :=
          congrArg (· ++ [TxEnd.aborted c]) hends
        exact absurd hc (noFault_snoc he hn)
  | get key =>
    rw [lruStep, cacheStep, cacheGet, wp_bind]
    apply wp_cacheCheck hg.fields hcount
    rw [if_neg (by simp), if_neg (by simp), wp_bind]
    apply wp_transaction_top hl
    · exact fun _ => ⟨rfl, rfl, hg⟩
    · apply wp_mono (wp_cacheGetBody_unbound (s := s.tick.opened) rfl hg.fields hg.map rfl hfuel)
      · exact fun _ _ h => h.elim
      · intro c s₁ hu
        have heap : (s₁.rollback c).heap = s.heap := hu.trans (undone_opened s.tick)
        exact fun _ => ⟨rfl, rfl, heap ▸ hg⟩

def LruCall (cache : PMEMoid) (s : PoolState) (o : LruOp) (r : ℤ × Option Int32)
    (s' : PoolState) : Prop :=
  ∃ env : PoolEnv, 2^64 < env.fuel ∧ lruStep cache o env s = .ok r s' ∧ NoFault s s'

theorem run_answers {s₀ : PoolState} {xs : List (LruOp × (ℤ × Option Int32))} (hl : s₀.log = none)
    (hg : Growing s₀.heap cache head tail hm cap) (hrun : Run (LruCall cache) s₀ xs s) :
    xs.map Prod.snd = (xs.map Prod.fst).map answer ∧ s.log = none ∧
      Growing s.heap cache head tail hm cap := by
  induction hrun with
  | nil => exact ⟨rfl, hl, hg⟩
  | @snoc xs s s' o r _ hlast ih =>
    obtain ⟨hres, hl, hg⟩ := ih
    obtain ⟨env, hfuel, hok, hn⟩ := hlast
    obtain ⟨hr, hl', hg'⟩ := wp_result (wp_lruStep o (E := fun _ _ => False) hl hg hfuel) hok hn
    exact ⟨by simp [hres, hr], hl', hg'⟩

/-- Over every run from a well-formed empty cache the code answers as the
bounded least-recently-used map does exactly when no `cache_get` asks for one
of the `capacity` keys set last; and no further call gets stuck. -/
theorem cache_refines_lru_iff {s₀ : PoolState} {xs : List (LruOp × (ℤ × Option Int32))}
    (hl : s₀.log = none) (hw : CacheWf s₀.heap cache head tail hm cap [] fun _ => none)
    (hrun : Run (LruCall cache) s₀ xs s) :
    (xs.map Prod.snd = specResults (lruSpec cap.toNat) [] (xs.map Prod.fst) ↔
      OnlyMisses cap.toNat (xs.map Prod.fst)) ∧
    ∀ (o : LruOp) (env : PoolEnv), 2^64 < env.fuel → ∃ r s', lruStep cache o env s = .ok r s' := by
  obtain ⟨hres, hl', hg⟩ := run_answers hl (growing_of_wf hw) hrun
  constructor
  · rw [hres]
    exact answers_iff _
  · intro o env hfuel
    obtain ⟨r, s', hok, -⟩ := wp_returns (wp_lruStep o (E := fun _ _ => False) hl' hg hfuel)
    exact ⟨r, s', hok⟩

end Code

section Sample

def emptyState : PoolState := ⟨cacheHeap oneTail oneHead newHeap, none, 0, 0, []⟩

theorem emptyState_map : MapIs emptyState.heap newMap fun _ => none := by
  apply newHeap_created.mapIs.keeps
  intro o f v _ hv
  have hne : ∀ p, newHeap p = none → o ≠ p := fun p hp => Heap.ne_of_free hp hv
  have hsame : emptyState.heap o = newHeap o := by
    show cacheHeap oneTail oneHead newHeap o = newHeap o
    rw [cacheHeap, if_neg (hne oneCache rfl), if_neg (hne oneHead rfl), if_neg (hne oneTail rfl)]
  rwa [Heap.get_congr hsame]

theorem emptyState_wf :
    CacheWf emptyState.heap oneCache oneHead oneTail newMap 2 [] fun _ => none where
  fields := ⟨rfl, rfl, rfl, rfl, rfl, rfl⟩
  doubly := (doubly_pair _ _ _).mpr ⟨⟨rfl, rfl⟩, List.isChain_singleton _⟩
  distinct := by decide
  entries e he := by cases he
  keys := by decide
  map := emptyState_map
  binds k o := by simp
  bounded := by decide
  positive := by decide

theorem set_get_run {key : UInt64} {s₁ s₂ : PoolState}
    (hset : lruStep oneCache (.set 1 5) quietEnv emptyState = .ok (0, none) s₁)
    (hends₁ : s₁.ends = [.committed])
    (hget : lruStep oneCache (.get key) quietEnv s₁ = .ok (-1, none) s₂)
    (hends₂ : s₂.ends = [.committed, .aborted (.errno ECANCELED)]) :
    Run (LruCall oneCache) emptyState [(.set 1 5, (0, none)), (.get key, (-1, none))] s₂ := by
  have hcall₁ : LruCall oneCache emptyState (.set 1 5) (0, none) s₁ :=
    ⟨quietEnv, Nat.lt_succ_self _, hset, fun c hc => by simp [hends₁, emptyState] at hc⟩
  have hcall₂ : LruCall oneCache s₁ (.get key) (-1, none) s₂ := by
    refine ⟨quietEnv, Nat.lt_succ_self _, hget, fun c hc => ?_⟩
    have he : c = .errno ECANCELED := by simpa [hends₁, hends₂] using hc
    rw [he]
    rintro (h | h) <;> cases h
  exact .snoc (.snoc .nil hcall₁) hcall₂

/-- Setting a key and getting it back. -/
theorem cache_get_misses : CacheWf emptyState.heap oneCache oneHead oneTail newMap 2 []
      (fun _ => none) ∧
    (∃ s, Run (LruCall oneCache) emptyState [(.set 1 5, (0, none)), (.get 1, (-1, none))] s) ∧
    specResults (lruSpec 2) [] [.set 1 5, .get 1] = [(0, none), (0, some 5)] := by
  obtain ⟨s₁, hset, hends₁, s₂, hget, hends₂⟩ : ∃ s₁,
      lruStep oneCache (.set 1 5) quietEnv emptyState = .ok (0, none) s₁ ∧
        s₁.ends = [.committed] ∧ ∃ s₂, lruStep oneCache (.get 1) quietEnv s₁ = .ok (-1, none) s₂ ∧
          s₂.ends = [.committed, .aborted (.errno ECANCELED)] := ⟨_, rfl, rfl, _, rfl, rfl⟩
  exact ⟨emptyState_wf, ⟨s₂, set_get_run hset hends₁ hget hends₂⟩, rfl⟩

theorem cache_refines_lru_iff_miss :
    ∃ s, Run (LruCall oneCache) emptyState [(.set 1 5, (0, none)), (.get 2, (-1, none))] s ∧
      OnlyMisses 2 [.set 1 5, .get 2] := by
  obtain ⟨s₁, hset, hends₁, s₂, hget, hends₂⟩ : ∃ s₁,
      lruStep oneCache (.set 1 5) quietEnv emptyState = .ok (0, none) s₁ ∧
        s₁.ends = [.committed] ∧ ∃ s₂, lruStep oneCache (.get 2) quietEnv s₁ = .ok (-1, none) s₂ ∧
          s₂.ends = [.committed, .aborted (.errno ECANCELED)] := ⟨_, rfl, rfl, _, rfl, rfl⟩
  have hrun := set_get_run hset hends₁ hget hends₂
  exact ⟨s₂, hrun, (cache_refines_lru_iff rfl emptyState_wf hrun).1.mp rfl⟩

end Sample

end RtsCache.CacheRuns
