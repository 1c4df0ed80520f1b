import RtsCache.CacheCalls

/-!
# The bodies of `cache_get` and `cache_set`

Both are run on a well-formed cache. Either drops at most one entry from the
map and from the list; the drop is the point after which an abort shows.
-/

set_option autoImplicit false

namespace RtsCache.CacheOps
open RtsCache.UndoHeap RtsCache.UndoMachine RtsCache.UndoRules RtsCache.PoolLayout
open RtsCache.HashmapMachine RtsCache.HashmapInvariant RtsCache.HashmapScan
open RtsCache.HashmapOps RtsCache.DoublyLinked RtsCache.CacheMachine RtsCache.CacheInvariant
open RtsCache.CacheCalls

def numBuckets (h : Pool) (hm : PMEMoid) : ℕ :=
  match h.get hm .buckets with
  | some bs =>
    match h.get bs .nbuckets with
    | some n => UInt64.toNat n
    | none => 0
  | none => 0

theorem numBuckets_eq {h : Pool} {hm bs : PMEMoid} {a b : UInt32} {p n : UInt64}
    {T : ℕ → List Node} (ht : Table h hm bs a b p n T) : numBuckets h hm = n.toNat := by
  simp only [numBuckets, ht.buckets, ht.nbuckets]

/-- An abort of a call begun in `s`. When the call unlinks an entry, it shows
exactly if it comes after more than `k` library calls. -/
structure AbortsAt (env : PoolEnv) (unlinks : Prop) (k : ℕ) (s : PoolState) (c : Cause)
    (s' : PoolState) : Prop where
  ends : s'.ends = s.ends
  inTx : s'.log.isSome
  kinds : (c = .crash ∧ Crashing env) ∨
    (s'.undone = s.undone ∧ (unlinks → s'.calls ≤ s.calls + k)) ∨
    (s'.undone ≠ s.undone ∧ unlinks ∧ s.calls + k < s'.calls)

structure Unlinked (s : PoolState) (k : ℕ) (s' : PoolState) : Prop where
  undone : s'.undone ≠ s.undone
  calls : s.calls + k < s'.calls
  ends : s'.ends = s.ends
  inTx : s'.log.isSome

variable {env : PoolEnv} {s s₁ s' : PoolState} {cache head tail hm : PMEMoid} {cap : UInt64}
  {K : Kind → Prop} {k j : ℕ} {c : Cause} {es pre post : List CEntry} {x : CEntry}
  {m : UInt64 → Option PMEMoid} {unlinks : Prop} {key : UInt64}

theorem abortsAt_kept (hl : s.log.isSome) (h : Confined (I := PMEMoid) (F := Member) K s s')
    (hc : unlinks → s'.calls ≤ s.calls + k) : AbortsAt env unlinks k s c s' :=
  ⟨h.ends, h.inTx ▸ hl, Or.inr (Or.inl ⟨h.undone, hc⟩)⟩

theorem abortsAt_after (h : Confined (I := PMEMoid) (F := Member) K s s₁)
    (hc : s₁.calls = s.calls + j) (ha : AbortsAt env unlinks k s₁ c s') :
    AbortsAt env unlinks (j + k) s c s' := by
  refine ⟨ha.ends.trans h.ends, ha.inTx, ?_⟩
  rcases ha.kinds with hk | ⟨hu, hk⟩ | ⟨hu, hx, hk⟩
  · exact Or.inl hk
  · exact Or.inr (Or.inl ⟨hu.trans h.undone, fun hx => by have := hk hx; omega⟩)
  · exact Or.inr (Or.inr ⟨h.undone ▸ hu, hx, by omega⟩)

theorem AbortsAt.weaken (ha : AbortsAt env True k s c s') (hx : unlinks) :
    AbortsAt env unlinks k s c s' :=
  ⟨ha.ends, ha.inTx, ha.kinds.imp_right (Or.imp (fun h => ⟨h.1, fun _ => h.2 trivial⟩)
    fun h => ⟨h.1, hx, h.2.2⟩)⟩

theorem Unlinked.after (h : Confined (I := PMEMoid) (F := Member) K s s₁)
    (hc : s₁.calls = s.calls + j) (hu : Unlinked s₁ k s') : Unlinked s (j + k) s' := by
  have := hu.calls
  exact ⟨h.undone ▸ hu.undone, by omega, hu.ends.trans h.ends, hu.inTx⟩

theorem Unlinked.aborts (hu : Unlinked s k s₁) (hx : unlinks)
    (h : Confined (I := PMEMoid) (F := Member) K s₁ s') : AbortsAt env unlinks k s c s' := by
  have h₁ := hu.calls
  have h₂ := h.calls
  exact ⟨h.ends.trans hu.ends, h.inTx ▸ hu.inTx,
    Or.inr (Or.inr ⟨h.undone ▸ hu.undone, hx, by omega⟩)⟩

theorem Unlinked.addAborts (hu : Unlinked s k s₁) (hx : unlinks) (h : AddAborts env s₁ c s') :
    AbortsAt env unlinks k s c s' := by
  refine ⟨h.ends.trans hu.ends, h.inTx, ?_⟩
  have hc := hu.calls
  rcases h.kinds with hk | ⟨hk, hn⟩
  · exact Or.inl hk
  · exact Or.inr (Or.inr ⟨hk ▸ hu.undone, hx, by omega⟩)

theorem abortsAt_added (hends : s₁.ends = s.ends) (hundone : s₁.undone = s.undone)
    (hno : ¬ unlinks) (h : AddAborts env s₁ c s') : AbortsAt env unlinks k s c s' := by
  refine ⟨h.ends.trans hends, h.inTx, ?_⟩
  rcases h.kinds with hk | ⟨hk, -⟩
  · exact Or.inl hk
  · exact Or.inr (Or.inl ⟨hk.trans hundone, fun hx => absurd hx hno⟩)

theorem keeps_of_confined (h : Confined (I := PMEMoid) (F := Member) MapKind s s₁) :
    Heap.Keeps (fun _ f => ListKind f.kind) s.heap s₁.heap := by
  intro o f v hf hv
  have hk : ¬ MapKind f.kind := by
    rcases hf with hf | hf <;> rw [hf] <;> rintro (h | h | h) <;> cases h
  exact (h.get_outside hk).mpr hv

structure Removed (s : PoolState) (hm : PMEMoid) (m : UInt64 → Option PMEMoid) (key : UInt64)
    (n : ℕ) (s₁ : PoolState) : Prop where
  confined : Confined (I := PMEMoid) (F := Member) MapKind s s₁
  calls : s₁.calls = s.calls + n
  map : MapIs s₁.heap hm (Function.update m key none)

theorem wp_removeEntry (hl : s.log.isSome) (hw : CacheWf s.heap cache head tail hm cap es m)
    (hx : x ∈ es) (hfuel : 2^64 < env.fuel) :
    wp env (hmTxRemove hm x.key)
      (fun _ s₁ => Removed s hm m x.key (removeCalls (numBuckets s.heap hm) (es.length - 1)) s₁)
      (fun _ s' => Confined (I := PMEMoid) (F := Member) MapKind s s' ∧
        s'.calls ≤ s.calls + removeCalls (numBuckets s.heap hm) (es.length - 1)) s := by
  obtain ⟨bs, a, b, p, n, T, ht, hm'⟩ := hw.map
  have hlen := hw.length_eq ht hm'
  rw [numBuckets_eq ht, ← hlen]
  apply wp_hmTxRemove_nested hl ht hfuel
  · intro c s' _ h hc
    exact ⟨h, hc⟩
  · intro hk
    have hbound : m x.key = some x.oid := (hw.binds _ _).mpr ⟨x, hx, rfl, rfl⟩
    rw [hm', binds_eq_none.mpr hk] at hbound
    cases hbound
  · intro y N s₁ n' hy hp h hc hh
    have hn := hp.length_eq
    rw [List.length_cons] at hn
    rw [← hn, Nat.add_sub_cancel]
    have hnodup := (hp.map Node.key).nodup_iff.mpr ht.distinct
    refine ⟨h, hc, ?_⟩
    rw [hm', ← binds_perm hp hnodup, ← hy]
    have hmap := hh.mapIs
    rwa [binds_erase hnodup] at hmap

theorem unlinked_ne {h : Pool} {p x q : PMEMoid} (har : Around h p x q) (hq : q ≠ x) :
    unlinked h p q ≠ h := by
  intro he
  have hput : (h.put q .prev p).get p .next = some x := by
    rw [Heap.get_put_other _ _ _ _ (by decide)]
    exact har.prevNext
  have hnext : (unlinked h p q).get p .next = some q := Heap.get_put_self _ _ hput
  rw [he, har.prevNext] at hnext
  exact hq (Option.some.inj hnext).symm

theorem wp_deleteEntry {n : ℕ} (hl : s.log.isSome)
    (hw : CacheWf s.heap cache head tail hm cap (pre ++ x::post) m)
    (hr : Removed s hm m x.key n s₁) (hu : Uncovered s) (hsync : s.undone = s.heap) :
    wp env (cacheDelete cache x.oid)
      (fun _ s' => CacheWf s'.heap cache head tail hm cap (pre ++ post)
          (Function.update m x.key none) ∧ Unlinked s (n + 4) s')
      (AbortsAt env True (n + 4) s) s₁ := by
  obtain ⟨A, p, q, B, ho, ho', haround, hqx⟩ := hw.split
  have hkeep := keeps_of_confined hr.confined
  have haround₁ : Around s₁.heap p x.oid q :=
    ⟨hkeep _ _ _ (Or.inl rfl) haround.prevNext, hkeep _ _ _ (Or.inl rfl) haround.prev,
      hkeep _ _ _ (Or.inl rfl) haround.next, hkeep _ _ _ (Or.inl rfl) haround.nextPrev⟩
  have hfields : CacheAt s₁.heap cache head tail hm cap :=
    hw.fields.keeps fun f v hf hv => hkeep _ _ _ (Or.inr hf) hv
  obtain ⟨v, hv⟩ := count_get hr.map
  have hu₁ : Uncovered s₁ := hu.confined hr.confined (by rintro (h | h | h) <;> cases h)
  have hleft : unlinked s₁.undone p q ≠ s.undone := by
    rw [hr.confined.undone, hsync]
    exact unlinked_ne haround hqx
  have hcalls := hr.calls
  apply wp_mono (wp_cacheDelete_nested (hr.confined.inTx ▸ hl) hfields hv haround₁
    (hw.entries x (by simp)).notNull hu₁)
  · intro _ s' hd
    have hn := hd.calls
    refine ⟨?_, hd.undone ▸ hleft, by omega, hd.ends.trans hr.confined.ends, hd.inTx⟩
    rw [hd.heap]
    exact cacheWf_delete hw ho ho' hkeep hr.map
  · intro c s' ha
    refine ⟨ha.ends.trans hr.confined.ends, ha.inTx, ?_⟩
    rcases ha.kinds with hk | ⟨hk, hn⟩ | ⟨hk, hn⟩
    · exact Or.inl hk
    · exact Or.inr (Or.inl ⟨hk.trans hr.confined.undone, fun _ => by omega⟩)
    · exact Or.inr (Or.inr ⟨hk ▸ hleft, trivial, by omega⟩)

/-- The library calls a `cache_get` or `cache_set` makes before it unlinks. -/
def dropPoint (h : Pool) (hm : PMEMoid) (len : ℕ) : ℕ :=
  2 + (removeCalls (numBuckets h hm) (len - 1) + 4)

section Body

/-- The state after a successful `cache_get` of `key`: the list has lost the
entry of the key, and the map binds the key to some handle. -/
structure Got (s : PoolState) (cache head tail hm : PMEMoid) (cap : UInt64) (es : List CEntry)
    (m : UInt64 → Option PMEMoid) (key : UInt64) (s' : PoolState) : Prop where
  fields : CacheAt s'.heap cache head tail hm cap
  list : ∃ pre x post, es = pre ++ x::post ∧ x.key = key ∧
    Doubly (nextOf s'.heap) (prevOf s'.heap) (order head tail (pre ++ post)) ∧
    ∀ e ∈ pre ++ post, EntryAt s'.heap e
  map : ∃ y, MapIs s'.heap hm (Function.update m key (some y))
  ends : s'.ends = s.ends
  inTx : s'.log.isSome

theorem get_of_prev {h : Pool} {o w : PMEMoid} (hw : h.get o .prev = some w) (f : Member)
    (hf : f.kind = .cacheEntry) (he : f.extent ≤ 32) : ∃ v, h.get o f = some v := by
  obtain ⟨obj, ho, ⟨hk, hs⟩, -⟩ := Heap.get_eq_some.mp hw
  have hs' : 32 ≤ obj.size := hs
  exact ⟨_, Heap.get_eq_some.mpr ⟨obj, ho, ⟨hk.trans hf.symm, Nat.le_trans he hs'⟩, rfl⟩⟩

theorem first_of_doubly {h : Pool} {es : List CEntry}
    (hd : Doubly (nextOf h) (prevOf h) (order head tail es)) :
    ∃ first, h.get head .next = some first ∧ h.get first .prev = some head := by
  obtain ⟨first, rest, hrest⟩ := order_cons tail es
  rw [order, hrest] at hd
  exact ⟨first, ((doubly_pair _ _ _).mp hd).1⟩

theorem wp_directOid {o w : PMEMoid} {Q : PMEMoid → PoolState → Prop}
    {E : Cause → PoolState → Prop} (hw : s.heap.get o .prev = some w)
    (hQ : ∀ y, Q y s) : wp env (directOid o) Q E s := by
  obtain ⟨key, hkey⟩ := get_of_prev hw ._key rfl (by decide)
  obtain ⟨val, hval⟩ := get_of_prev hw ._value rfl (by decide)
  obtain ⟨pad, hpad⟩ := get_of_prev hw .padding rfl (by decide)
  rw [directOid, wp_bind, wp_dRo hkey, wp_bind, wp_dRo hval, wp_bind, wp_dRo hpad]
  exact hQ _

theorem doubly_confined {xs : List PMEMoid} (h : Confined (I := PMEMoid) (F := Member) MapKind s s₁)
    (hd : Doubly (nextOf s.heap) (prevOf s.heap) xs) :
    Doubly (nextOf s₁.heap) (prevOf s₁.heap) xs :=
  doubly_congr xs (fun _ _ _ hab => keeps_of_confined h _ _ _ (Or.inl rfl) hab)
    (fun _ _ _ hab => keeps_of_confined h _ _ _ (Or.inl rfl) hab) hd

theorem got_of_inserted {y : PMEMoid} (hw : CacheWf s₁.heap cache head tail hm cap (pre ++ post)
      (Function.update m x.key none)) (hun : Unlinked s k s₁)
    (h : Confined (I := PMEMoid) (F := Member) MapKind s₁ s')
    (hmap : MapIs s'.heap hm (Function.update m x.key (some y))) :
    Got s cache head tail hm cap (pre ++ x::post) m x.key s' := by
  have hkeep := keeps_of_confined h
  constructor
  case fields => exact hw.fields.keeps fun f v hf hv => hkeep _ _ _ (Or.inr hf) hv
  case map => exact ⟨y, hmap⟩
  case ends => exact h.ends.trans hun.ends
  case inTx => exact h.inTx ▸ hun.inTx
  case list =>
    refine ⟨pre, x, post, rfl, rfl, doubly_confined h hw.doubly, fun e he => ?_⟩
    have hat := hw.entries e he
    exact ⟨hat.notNull, hkeep _ _ _ (Or.inl rfl) hat.key, hkeep _ _ _ (Or.inl rfl) hat.value⟩

theorem wp_getRebind {val : Int32} (hw : CacheWf s₁.heap cache head tail hm cap (pre ++ post)
      (Function.update m x.key none)) (hun : Unlinked s k s₁) (hfuel : 2^64 < env.fuel) :
    wp env (do
      let hashmap ← dRo cache .hashmap
      let head ← dRo cache .head
      let first ← dRo head .next
      let oid ← directOid first
      let _ ← hmTxInsert hashmap x.key oid
      pure val)
      (fun _ s' => Got s cache head tail hm cap (pre ++ x::post) m x.key s')
      (AbortsAt env True k s) s₁ := by
  obtain ⟨first, hf, hfp⟩ := first_of_doubly hw.doubly
  rw [wp_bind, wp_dRo hw.fields.hashmap, wp_bind, wp_dRo hw.fields.head, wp_bind, wp_dRo hf,
    wp_bind]
  apply wp_directOid hfp
  intro y
  obtain ⟨bs, a, b, p, n, T, ht, hmap⟩ := id hw.map
  have hkey : x.key ∉ (nodes n.toNat T).map Node.key := by
    apply binds_eq_none.mp
    rw [← hmap]
    exact Function.update_self ..
  rw [wp_bind]
  apply wp_hmTxInsert_nested hun.inTx ht hfuel
  · intro c s' h
    exact hun.aborts trivial h
  · exact fun hmem => absurd hmem hkey
  · intro s₂ e n' h₂ hh
    have hmap₂ := hh.mapIs
    rw [binds_cons, ← hmap, Function.update_idem] at hmap₂
    rw [wp_pure]
    exact got_of_inserted hw hun h₂ hmap₂

theorem wp_getBound (hl : s.log.isSome)
    (hw : CacheWf s.heap cache head tail hm cap (pre ++ x::post) m) (hu : Uncovered s)
    (hsync : s.undone = s.heap) (hfuel : 2^64 < env.fuel) :
    wp env (do
      let hashmap ← dRo cache .hashmap
      let _ ← hmTxRemove hashmap x.key
      let val ← dRo x.oid ._value
      let _ ← cacheDelete cache x.oid
      let hashmap ← dRo cache .hashmap
      let head ← dRo cache .head
      let first ← dRo head .next
      let oid ← directOid first
      let _ ← hmTxInsert hashmap x.key oid
      pure val)
      (fun _ s' => Got s cache head tail hm cap (pre ++ x::post) m x.key s')
      (AbortsAt env True
        (removeCalls (numBuckets s.heap hm) ((pre ++ x::post).length - 1) + 4) s) s := by
  have hx : x ∈ pre ++ x::post := by simp
  have hat := hw.entries x hx
  rw [wp_bind, wp_dRo hw.fields.hashmap, wp_bind]
  apply wp_mono (wp_removeEntry hl hw hx hfuel)
  · intro _ s₁ hr
    have hval : s₁.heap.get x.oid ._value = some x.value :=
      keeps_of_confined hr.confined _ _ _ (Or.inl rfl) hat.value
    rw [wp_bind, wp_dRo hval, wp_bind]
    apply wp_mono (wp_deleteEntry hl hw hr hu hsync)
    · rintro _ s₂ ⟨hw₂, hun⟩
      exact wp_getRebind hw₂ hun hfuel
    · exact fun c s' ha => ha
  · rintro c s' ⟨h, hn⟩
    exact abortsAt_kept hl h fun _ => by omega

theorem Got.after (h : Confined (I := PMEMoid) (F := Member) K s s₁)
    (hg : Got s₁ cache head tail hm cap es m key s') :
    Got s cache head tail hm cap es m key s' :=
  ⟨hg.fields, hg.list, hg.map, hg.ends.trans h.ends, hg.inTx⟩

theorem wp_cacheGetBody (hl : s.log.isSome) (hw : CacheWf s.heap cache head tail hm cap es m)
    (hu : Uncovered s) (hsync : s.undone = s.heap) (hfuel : 2^64 < env.fuel) :
    wp env (cacheGetBody cache key)
      (fun _ s' => Got s cache head tail hm cap es m key s')
      (AbortsAt env ((m key).isSome) (dropPoint s.heap hm es.length) s) s := by
  apply wp_addHashmapHead (K := OnlyCache) rfl hl hw.fields
    (fun c s' h _ hn => abortsAt_kept hl h fun _ => by unfold dropPoint; omega)
  intro s₂ h₁₂ hheap hcalls
  have hl₂ : s₂.log.isSome := h₁₂.inTx ▸ hl
  have hw₂ : CacheWf s₂.heap cache head tail hm cap es m := hheap ▸ hw
  have hu₂ : Uncovered s₂ := hu.confined h₁₂ (by simp [OnlyCache])
  have hsync₂ : s₂.undone = s₂.heap := by rw [h₁₂.undone, hsync, hheap]
  rw [wp_bind, wp_dRo hw₂.fields.hashmap, wp_bind]
  apply wp_hmTxGet hw₂.map hfuel
  cases hb : m key with
  | none =>
    rw [Option.getD_none, if_pos (by rfl)]
    apply wp_txAbort hl₂
    refine ⟨h₁₂.ends, hl₂, Or.inr (Or.inl ⟨h₁₂.undone, fun h => ?_⟩)⟩
    cases h
  | some o =>
    obtain ⟨x, hx, rfl, rfl⟩ := (hw.binds key o).mp hb
    obtain ⟨pre, post, rfl⟩ := List.append_of_mem hx
    have hat := hw₂.entries x hx
    rw [Option.getD_some, if_neg (by simp [hat.notNull]), wp_bind,
      wp_toidValid (k := .cacheEntry) hat.key rfl, if_neg (by simp)]
    apply wp_mono (wp_getBound hl₂ hw₂ hu₂ hsync₂ hfuel)
    · intro _ s' hg
      exact hg.after h₁₂
    · intro c s' ha
      have h := abortsAt_after h₁₂ hcalls ha
      rw [hheap] at h
      exact h.weaken rfl

theorem wp_cacheGetBody_unbound (hl : s.log.isSome) (hc : CacheAt s.heap cache head tail hm cap)
    (hm' : MapIs s.heap hm m) (hkey : m key = none) (hfuel : 2^64 < env.fuel) :
    wp env (cacheGetBody cache key) (fun _ _ => False) (fun _ s' => s'.undone = s.undone) s := by
  apply wp_addHashmapHead (K := OnlyCache) rfl hl hc (fun _ _ h _ _ => h.undone)
  intro s₂ h₁₂ heap _
  rw [← heap] at hc hm'
  rw [wp_bind, wp_dRo hc.hashmap, wp_bind]
  apply wp_hmTxGet hm' hfuel
  rw [hkey, Option.getD_none, if_pos (by rfl)]
  exact wp_txAbort (h₁₂.inTx ▸ hl) h₁₂.undone

structure SetDone (s : PoolState) (cache head tail hm : PMEMoid) (cap : UInt64) (key : UInt64)
    (s' : PoolState) : Prop where
  fields : CacheAt s'.heap cache head tail hm cap
  front : ∃ e, s'.heap.get head .next = some e ∧ e ≠ tail ∧ s'.heap.get e ._key = some key
  map : ∃ m', MapIs s'.heap hm m' ∧ m' key = none
  ends : s'.ends = s.ends
  inTx : s'.log.isSome

theorem last_of_doubly {h : Pool} (hd : Doubly (nextOf h) (prevOf h) (order head tail es)) :
    ∃ w, h.get tail .prev = some w ∧ (es = [] ∨ ∃ pre x, es = pre ++ [x] ∧ w = x.oid) := by
  rcases es.eq_nil_or_concat' with rfl | ⟨pre, x, rfl⟩
  · exact ⟨head, ((doubly_pair _ _ _).mp hd).1.2, Or.inl rfl⟩
  · have hsplit : order head tail (pre ++ [x]) =
        (head :: pre.map CEntry.oid) ++ x.oid :: [tail] := by simp [order]
    rw [hsplit] at hd
    have hpair := ((doubly_append _ _ _).mp hd).2
    exact ⟨x.oid, ((doubly_pair _ _ _).mp hpair).1.2, Or.inr ⟨pre, x, rfl, rfl⟩⟩

theorem wp_cacheSetDrop (hl : s.log.isSome) (hw : CacheWf s.heap cache head tail hm cap es m)
    (hu : Uncovered s) (hsync : s.undone = s.heap) (hfuel : 2^64 < env.fuel)
    {Q : Unit → PoolState → Prop} {E : Cause → PoolState → Prop}
    (hskip : m key = none → Q () s)
    (hdrop : ∀ pre x post s', es = pre ++ x::post → m key ≠ none →
      CacheWf s'.heap cache head tail hm cap (pre ++ post) (Function.update m key none) →
      Unlinked s (removeCalls (numBuckets s.heap hm) (es.length - 1) + 4) s' → Q () s')
    (hE : m key ≠ none → ∀ c s', AbortsAt env True
      (removeCalls (numBuckets s.heap hm) (es.length - 1) + 4) s c s' → E c s') :
    wp env (cacheSetDrop cache key ((m key).getD oidNull)) Q E s := by
  cases hb : m key with
  | none =>
    rw [cacheSetDrop, Option.getD_none, if_pos (by rfl), wp_pure]
    exact hskip hb
  | some o =>
    have hsome : m key ≠ none := by simp [hb]
    obtain ⟨x, hx, rfl, rfl⟩ := (hw.binds key o).mp hb
    obtain ⟨pre, post, rfl⟩ := List.append_of_mem hx
    have hat := hw.entries x hx
    rw [cacheSetDrop, Option.getD_some, if_neg (by simp [hat.notNull]), wp_bind,
      wp_toidValid (k := .cacheEntry) hat.key rfl, if_pos rfl, wp_bind,
      wp_dRo hw.fields.hashmap, wp_bind]
    apply wp_mono (wp_removeEntry hl hw hx hfuel)
    · intro _ s₁ hr
      rw [wp_bind]
      apply wp_mono (wp_deleteEntry hl hw hr hu hsync)
      · rintro _ s₂ ⟨hw₂, hun⟩
        exact hdrop pre x post s₂ rfl hsome hw₂ hun
      · exact hE hsome
    · rintro c s' ⟨h, hn⟩
      exact hE hsome c s' (abortsAt_kept hl h fun _ => by omega)

theorem wp_cacheSetEvict (hl : s.log.isSome) (hw : CacheWf s.heap cache head tail hm cap es m)
    (hfuel : 2^64 < env.fuel) {Q : Unit → PoolState → Prop} {E : Cause → PoolState → Prop}
    (hskip : es.length ≠ cap.toNat → Q () s)
    (hu : es.length = cap.toNat → Uncovered s ∧ s.undone = s.heap)
    (hdrop : ∀ pre x s', es = pre ++ [x] → es.length = cap.toNat →
      CacheWf s'.heap cache head tail hm cap pre (Function.update m x.key none) →
      Unlinked s (removeCalls (numBuckets s.heap hm) (es.length - 1) + 4) s' → Q () s')
    (hE : es.length = cap.toNat → ∀ c s', AbortsAt env True
      (removeCalls (numBuckets s.heap hm) (es.length - 1) + 4) s c s' → E c s') :
    wp env (cacheSetEvict cache) Q E s := by
  obtain ⟨bs, a, b, p, n, T, ht, hmap⟩ := id hw.map
  have hlen := hw.length_eq ht hmap
  have hlt : es.length < 2^64 := Nat.lt_of_le_of_lt hw.bounded cap.toNat_lt
  have hiff : UInt64.ofNat (nodes n.toNat T).length = cap ↔ es.length = cap.toNat := by
    rw [hlen, ← UInt64.toNat_inj, UInt64.toNat_ofNat_of_lt' hlt]
  rw [cacheSetEvict, wp_bind, wp_dRo hw.fields.hashmap, wp_bind, hmTxCount, wp_dRo ht.count,
    wp_bind, wp_dRo hw.fields.capacity]
  by_cases hfull : es.length = cap.toNat
  · obtain ⟨w, hprev, hlast⟩ := last_of_doubly hw.doubly
    have hpos := hw.positive
    obtain ⟨pre, x, rfl, rfl⟩ := hlast.resolve_left (by rintro rfl; simp at hfull; omega)
    have hat := hw.entries x (by simp)
    obtain ⟨hu', hsync⟩ := hu hfull
    rw [if_pos (hiff.mpr hfull), wp_bind, wp_dRo hw.fields.hashmap, wp_bind,
      wp_dRo hw.fields.tail, wp_bind, wp_dRo hprev, wp_bind, wp_dRo hat.key, wp_bind]
    apply wp_mono (wp_removeEntry hl hw (by simp) hfuel)
    · intro _ s₁ hr
      have hkeep := keeps_of_confined hr.confined
      have htail₁ : s₁.heap.get cache .tail = some tail :=
        hkeep _ _ _ (Or.inr rfl) hw.fields.tail
      have hprev₁ : s₁.heap.get tail .prev = some x.oid := hkeep _ _ _ (Or.inl rfl) hprev
      rw [wp_bind, wp_dRo htail₁, wp_bind, wp_dRo hprev₁, wp_bind]
      apply wp_mono (wp_deleteEntry hl hw hr hu' hsync)
      · rintro _ s₂ ⟨hw₂, hun⟩
        rw [List.append_nil] at hw₂
        exact hdrop pre x s₂ rfl hfull hw₂ hun
      · exact hE hfull
    · rintro c s' ⟨h, hn⟩
      exact hE hfull c s' (abortsAt_kept hl h fun _ => by omega)
  · rw [if_neg fun h => hfull (hiff.mp h), wp_pure]
    exact hskip hfull

theorem wp_setRest {value : Int32} {m₁ : UInt64 → Option PMEMoid} {es₁ : List CEntry}
    (hl : s₁.log.isSome) (hends : s₁.ends = s.ends)
    (hw : CacheWf s₁.heap cache head tail hm cap es₁ m₁) (hkey : m₁ key = none)
    (hfuel : 2^64 < env.fuel) {E : Cause → PoolState → Prop}
    (hE : ∀ c s', AddAborts env s₁ c s' → E c s') :
    wp env (cacheSetInsert cache key value)
      (fun _ s' => SetDone s cache head tail hm cap key s') E s₁ := by
  obtain ⟨first, hf, hfp⟩ := first_of_doubly hw.doubly
  obtain ⟨w, htail, -⟩ := last_of_doubly hw.doubly
  apply wp_mono (wp_cacheSetInsert hl hw.fields hw.map hkey hf hfp hfuel)
  · intro _ s' hi
    obtain ⟨e, _, hfree, hnext, hek, -⟩ := hi.front
    have hne := (Heap.ne_of_free hfree htail).symm
    exact ⟨hi.fields, ⟨e, hnext, hne, hek⟩, ⟨m₁, hi.map, hkey⟩, hi.ends.trans hends, hi.inTx⟩
  · exact hE

theorem wp_cacheSetBody {value : Int32} (hl : s.log.isSome)
    (hw : CacheWf s.heap cache head tail hm cap es m) (hu : Uncovered s)
    (hsync : s.undone = s.heap) (hfuel : 2^64 < env.fuel) :
    wp env (cacheSetBody cache key value)
      (fun _ s' => SetDone s cache head tail hm cap key s')
      (AbortsAt env ((m key).isSome ∨ es.length = cap.toNat) (dropPoint s.heap hm es.length) s)
      s := by
  apply wp_addHashmapHead (K := OnlyCache) rfl hl hw.fields
    (fun c s' h _ hn => abortsAt_kept hl h fun _ => by unfold dropPoint; omega)
  intro s₂ h₁₂ hheap hcalls
  have hl₂ : s₂.log.isSome := h₁₂.inTx ▸ hl
  have hw₂ : CacheWf s₂.heap cache head tail hm cap es m := hheap ▸ hw
  have hu₂ : Uncovered s₂ := hu.confined h₁₂ (by simp [OnlyCache])
  have hsync₂ : s₂.undone = s₂.heap := by rw [h₁₂.undone, hsync, hheap]
  have hdrop : dropPoint s.heap hm es.length =
      2 + (removeCalls (numBuckets s₂.heap hm) (es.length - 1) + 4) := by
    rw [hheap]
    rfl
  rw [hdrop, wp_bind, wp_dRo hw₂.fields.hashmap, wp_bind]
  apply wp_hmTxGet hw₂.map hfuel
  rw [wp_bind]
  apply wp_cacheSetDrop hl₂ hw₂ hu₂ hsync₂ hfuel
  · intro hnone
    rw [wp_bind]
    apply wp_cacheSetEvict hl₂ hw₂ hfuel
    · intro hlen
      apply wp_setRest hl₂ h₁₂.ends hw₂ hnone hfuel
      have hno : ¬ ((m key).isSome ∨ es.length = cap.toNat) := by
        simp [hnone, hlen]
      exact fun c s' ha => abortsAt_added h₁₂.ends h₁₂.undone hno ha
    · exact fun _ => ⟨hu₂, hsync₂⟩
    · intro pre x s₃ _ hfull hw₃ hun
      have hkey₃ : Function.update m x.key none key = none := by
        rw [Function.update_apply, hnone, ite_self]
      have hun' := Unlinked.after h₁₂ hcalls hun
      exact wp_setRest hun'.inTx hun'.ends hw₃ hkey₃ hfuel
        fun c s' ha => hun'.addAborts (Or.inr hfull) ha
    · intro hfull c s' ha
      have h := abortsAt_after h₁₂ hcalls ha
      exact h.weaken (Or.inr hfull)
  · intro pre x post s₃ hes hsome hw₃ hun
    subst hes
    have hun' := Unlinked.after h₁₂ hcalls hun
    have hk : (m key).isSome = true := Option.isSome_iff_ne_none.mpr hsome
    have hshort : (pre ++ post).length ≠ cap.toNat := by
      have := hw.bounded
      simp only [List.length_append, List.length_cons] at this ⊢
      omega
    rw [wp_bind]
    apply wp_cacheSetEvict hun'.inTx hw₃ hfuel
    · intro _
      exact wp_setRest hun'.inTx hun'.ends hw₃ (Function.update_self ..) hfuel
        fun c s' ha => hun'.addAborts (Or.inl hk) ha
    · exact fun h => absurd h hshort
    · intro _ _ _ _ h
      exact absurd h hshort
    · exact fun h => absurd h hshort
  · intro hsome c s' ha
    have h := abortsAt_after h₁₂ hcalls ha
    exact h.weaken (Or.inl (Option.isSome_iff_ne_none.mpr hsome))

end Body

end RtsCache.CacheOps
