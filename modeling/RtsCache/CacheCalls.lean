import RtsCache.CacheInvariant
import RtsCache.HashmapScan

/-!
# The calls of the cache inside a transaction

`cache_delete` writes the links of the neighbours without a snapshot, so what
an abort leaves depends on whether it comes before or after these two stores.
`cache_add` writes the link of the head the same way, but makes no library
call afterwards.
-/

set_option autoImplicit false

namespace RtsCache.CacheCalls
open RtsCache.UndoHeap RtsCache.UndoMachine RtsCache.UndoRules RtsCache.PoolLayout
open RtsCache.HashmapMachine RtsCache.HashmapInvariant RtsCache.HashmapScan
open RtsCache.CacheMachine RtsCache.CacheInvariant

def Crashing (env : PoolEnv) : Prop := ∃ i, env.crashes i = true

/-- An abort of a call begun in `s`: by a crash; or within `k` library calls,
with nothing to show for it; or later, leaving the heap `u`. -/
structure CacheAborts (env : PoolEnv) (k : ℕ) (u : Pool) (s : PoolState) (c : Cause)
    (s' : PoolState) : Prop where
  ends : s'.ends = s.ends
  inTx : s'.log.isSome
  kinds : (c = .crash ∧ Crashing env) ∨ (s'.undone = s.undone ∧ s'.calls ≤ s.calls + k) ∨
    (s'.undone = u ∧ s.calls + k < s'.calls)

def Uncovered (s : PoolState) : Prop :=
  ∀ o obj f, s.heap o = some obj → obj.kind = .cacheEntry → ¬ Covers s o f

def OnlyCache (k : Kind) : Prop := k = .cache

variable {env : PoolEnv} {s s₁ s' : PoolState} {cache head tail hm : PMEMoid} {cap : UInt64}
  {K : Kind → Prop} {k j : ℕ} {u : Pool} {c : Cause}

theorem Uncovered.confined (hu : Uncovered s)
    (h : Confined (I := PMEMoid) (F := Member) K s s₁) (hk : ¬ K .cacheEntry) :
    Uncovered s₁ := by
  intro o obj f ho hkind hc
  have hk' : ¬ K obj.kind := hkind ▸ hk
  have ho' := (h.frame o obj hk').mp ho
  exact hu o obj f ho' hkind (h.quiet o obj f ho' hk' hc)

theorem aborts_kept (hl : s.log.isSome) (h : Confined (I := PMEMoid) (F := Member) K s s')
    (hc : s'.calls ≤ s.calls + k) : CacheAborts env k u s c s' :=
  ⟨h.ends, h.inTx ▸ hl, Or.inr (Or.inl ⟨h.undone, hc⟩)⟩

theorem aborts_after (h : Confined (I := PMEMoid) (F := Member) K s s₁)
    (hc : s₁.calls = s.calls + j) (ha : CacheAborts env k u s₁ c s') :
    CacheAborts env (j + k) u s c s' := by
  refine ⟨ha.ends.trans h.ends, ha.inTx, ?_⟩
  rcases ha.kinds with hk | ⟨hu, hk⟩ | ⟨hu, hk⟩
  · exact Or.inl hk
  · exact Or.inr (Or.inl ⟨hu.trans h.undone, by omega⟩)
  · exact Or.inr (Or.inr ⟨hu, by omega⟩)

theorem wp_cacheCheck {w : UInt64} {Q : Bool → PoolState → Prop} {E : Cause → PoolState → Prop}
    (hc : CacheAt s.heap cache head tail hm cap) (hw : s.heap.get hm .count = some w)
    (hQ : Q false s) : wp env (cacheCheck cache) Q E s := by
  rw [cacheCheck, if_neg (by simp [hc.notNull]), wp_bind, wp_dRo hc.hashmap, hmTxCheck,
    if_neg (by simp [hc.hmNotNull]), wp_bind, wp_toidValid (k := .hashmapTx) hw rfl, wp_pure]
  exact hQ

theorem wp_addHashmapHead {α : Type} {k : Pmem α} {Q : α → PoolState → Prop}
    {E : Cause → PoolState → Prop} {K : Kind → Prop} (hK : K .cache) (hl : s.log.isSome)
    (hc : CacheAt s.heap cache head tail hm cap)
    (hE : ∀ c s', Confined (I := PMEMoid) (F := Member) K s s' →
      s.calls < s'.calls → s'.calls ≤ s.calls + 2 → E c s')
    (hk : ∀ s', Confined (I := PMEMoid) (F := Member) K s s' → s'.heap = s.heap →
      s'.calls = s.calls + 2 → wp env k Q E s') :
    wp env (do
      txAddField cache .hashmap
      txAddField cache .head
      k) Q E s := by
  rw [wp_bind]
  apply wp_txAddField (K := K) hl hc.hashmap hK
    (fun c s' h hn => hE c s' h (by omega) (by omega))
  intro s₁ h₁ e₁ _ n₁
  have hhead : s₁.heap.get cache .head = some head := e₁ ▸ hc.head
  rw [wp_bind]
  apply wp_txAddField (K := K) (h₁.inTx ▸ hl) hhead hK
    (fun c s' h hn => hE c s' (h₁.trans h) (by omega) (by omega))
  intro s₂ h₂ e₂ _ n₂
  exact hk s₂ (h₁.trans h₂) (e₂.trans e₁) (by omega)

theorem wp_addFields {Q : Unit → PoolState → Prop} {E : Cause → PoolState → Prop}
    {K : Kind → Prop} (hK : K .cache) (hl : s.log.isSome)
    (hc : CacheAt s.heap cache head tail hm cap)
    (hE : ∀ c s', Confined (I := PMEMoid) (F := Member) K s s' →
      s.calls < s'.calls → s'.calls ≤ s.calls + 3 → E c s')
    (hQ : ∀ s', Confined (I := PMEMoid) (F := Member) K s s' → s'.heap = s.heap →
      s'.calls = s.calls + 3 → Q () s') :
    wp env (addFields cache) Q E s := by
  apply wp_addHashmapHead hK hl hc (fun c s' h hlt hn => hE c s' h hlt (by omega))
  intro s₂ h₂ e₂ n₂
  have htail : s₂.heap.get cache .tail = some tail := e₂ ▸ hc.tail
  apply wp_txAddField (K := K) (h₂.inTx ▸ hl) htail hK
    (fun c s' h hn => hE c s' (h₂.trans h) (by omega) (by omega))
  intro s₃ h₃ e₃ _ n₃
  exact hQ s₃ (h₂.trans h₃) (e₃.trans e₂) (by omega)

section Delete
variable {p x q : PMEMoid}

structure Deleted (s : PoolState) (p x q : PMEMoid) (n : ℕ) (s' : PoolState) : Prop where
  heap : s'.heap = deletedHeap s.heap x p q
  undone : s'.undone = unlinked s.undone p q
  ends : s'.ends = s.ends
  inTx : s'.log.isSome
  calls : s'.calls = s.calls + n

theorem wp_cacheDeleteBody (hl : s.log.isSome) (hc : CacheAt s.heap cache head tail hm cap)
    (har : Around s.heap p x q) (hx : x.isNull = false) (hu : Uncovered s) :
    wp env (cacheDeleteBody cache x) (fun _ s' => Deleted s p x q 4 s')
      (CacheAborts env 3 (unlinked s.undone p q) s) s := by
  rw [cacheDeleteBody, wp_bind]
  apply wp_addFields (K := OnlyCache) rfl hl hc (fun c s' h _ hn => aborts_kept hl h hn)
  intro s₁ h₁ e₁ n₁
  have hl₁ : s₁.log.isSome := h₁.inTx ▸ hl
  have hu₁ : Uncovered s₁ := hu.confined h₁ (by simp [OnlyCache])
  rw [← e₁] at har
  rw [wp_bind, wp_dRo har.next, wp_bind, wp_dRo har.prev, wp_bind]
  obtain ⟨objq, hq, hqk⟩ := Heap.live_of_get har.nextPrev
  obtain ⟨objp, hp, hpk⟩ := Heap.live_of_get har.prevNext
  apply wp_storeBare har.nextPrev (fun hcr s' he hlog =>
    ⟨he.trans h₁.ends, hlog ▸ hl₁, Or.inl ⟨rfl, _, hcr⟩⟩)
  intro s₂ e₂ l₂ u₂ n₂ t₂
  have hput : s₂.heap.get p .next = some x := by
    rw [e₂, Heap.get_put_other _ _ _ _ (by decide)]
    exact har.prevNext
  have hl₂ : s₂.log.isSome := l₂ ▸ hl₁
  have hcov₂ : ¬ Covers s₂ p .next := fun hc => by
    obtain ⟨l, hl', hc⟩ := hc
    exact hu₁ p objp .next hp hpk ⟨l, l₂ ▸ hl', hc⟩
  rw [wp_bind]
  apply wp_storeBare hput (fun hcr s' he hlog =>
    ⟨he.trans (t₂.trans h₁.ends), hlog ▸ hl₂, Or.inl ⟨rfl, _, hcr⟩⟩)
  intro s₃ e₃ l₃ u₃ n₃ t₃
  have hundone : s₃.undone = unlinked s.undone p q := by
    rw [u₃ hl₂ hcov₂, u₂ hl₁ (hu₁ q objq .prev hq hqk), h₁.undone]
    rfl
  have hheap : s₃.heap = unlinked s.heap p q := by
    rw [e₃, e₂, e₁]
    rfl
  have hlive : ∃ obj, s₃.heap x = some obj := by
    obtain ⟨obj, ho, -⟩ := Heap.live_of_get har.next
    cases hs : s₃.heap x with
    | some o => exact ⟨o, rfl⟩
    | none =>
      rw [e₃, Heap.put_eq_none, e₂, Heap.put_eq_none, ho] at hs
      cases hs
  obtain ⟨obj, hobj⟩ := hlive
  have hl₃ : s₃.log.isSome := l₃ ▸ hl₂
  have hends : s₃.ends = s.ends := t₃.trans (t₂.trans h₁.ends)
  apply wp_txFree (K := fun _ => True) hl₃ hx hobj trivial (fun c s' h hn =>
    ⟨h.ends.trans hends, h.inTx ▸ hl₃, Or.inr (Or.inr ⟨h.undone.trans hundone, by omega⟩)⟩)
  intro s₄ h₄ e₄ n₄
  exact ⟨by rw [e₄, hheap]; rfl, h₄.undone.trans hundone, h₄.ends.trans hends, h₄.inTx ▸ hl₃,
    by omega⟩

theorem wp_cacheDelete_nested {w : UInt64} (hl : s.log.isSome)
    (hc : CacheAt s.heap cache head tail hm cap) (hw : s.heap.get hm .count = some w)
    (har : Around s.heap p x q) (hx : x.isNull = false) (hu : Uncovered s) :
    wp env (cacheDelete cache x) (fun _ s' => Deleted s p x q 5 s')
      (CacheAborts env 4 (unlinked s.undone p q) s) s := by
  have htick : Confined (I := PMEMoid) (F := Member) OnlyCache s s.tick := .tick s
  rw [cacheDelete, wp_bind]
  apply wp_cacheCheck hc hw
  rw [if_neg (by simp), wp_bind]
  apply wp_transaction_nested hl
  · exact aborts_kept hl htick (by simp [State.tick])
  · apply wp_mono (wp_cacheDeleteBody (s := s.tick) hl hc har hx hu)
    · intro _ s' hd
      have := hd.calls
      exact ⟨hd.heap, hd.undone, hd.ends, hd.inTx, by simp only [State.tick] at this; omega⟩
    · intro c s' ha
      have := aborts_after (j := 1) htick rfl ha
      rwa [Nat.add_comm 1 3] at this

end Delete

section Add
variable {first entry : PMEMoid}

structure AddAborts (env : PoolEnv) (s : PoolState) (c : Cause) (s' : PoolState) : Prop where
  ends : s'.ends = s.ends
  inTx : s'.log.isSome
  kinds : (c = .crash ∧ Crashing env) ∨ (s'.undone = s.undone ∧ s.calls < s'.calls)

theorem addAborts_of (hl : s.log.isSome) (h : Confined (I := PMEMoid) (F := Member) K s s')
    (hc : s.calls < s'.calls) : AddAborts env s c s' :=
  ⟨h.ends, h.inTx ▸ hl, Or.inr ⟨h.undone, hc⟩⟩

/-- The heap after `entry` has been put behind the head, with the copy `dummy`
of the former first node behind it. -/
def addedHeap (h : Pool) (head entry dummy : PMEMoid) (obj : Obj Member) : Pool :=
  let h₁ : Pool := Function.update h dummy (some obj)
  let h₂ : Pool := h₁.put head .next entry
  let h₃ : Pool := h₂.put entry .prev head
  let h₄ : Pool := h₃.put entry .next dummy
  h₄.put dummy .prev entry

theorem addedHeap_keeps (head entry : PMEMoid) (obj : Obj Member) {h : Pool} {dummy : PMEMoid}
    (hd : h dummy = none) :
    Heap.Keeps (fun _ f => f ≠ .prev ∧ f ≠ .next) h (addedHeap h head entry dummy obj) := by
  intro o f v hf hv
  apply Heap.keeps_put _ _ _ _ _ _ _ (Or.inr hf.1)
  apply Heap.keeps_put _ _ _ _ _ _ _ (Or.inr hf.2)
  apply Heap.keeps_put _ _ _ _ _ _ _ (Or.inr hf.1)
  apply Heap.keeps_put _ _ _ _ _ _ _ (Or.inr hf.2)
  exact Heap.keeps_alloc _ _ _ hd _ _ _ trivial hv

section Links
variable {h : Pool} {head dummy v w : PMEMoid} (obj : Obj Member)

theorem addedHeap_head_next (hd : h dummy = none) (he : entry ≠ head)
    (hw : h.get head .next = some w) :
    (addedHeap h head entry dummy obj).get head .next = some entry := by
  have hhd : head ≠ dummy := Heap.ne_of_free hd hw
  rw [addedHeap, Heap.get_put_other _ _ _ _ (by decide), Heap.get_put_of_ne _ _ _ _ he.symm,
    Heap.get_put_other _ _ _ _ (by decide)]
  apply Heap.get_put_self (w := w)
  rw [Heap.get_congr (Function.update_of_ne hhd _ _)]
  exact hw

theorem addedHeap_entry_prev (hd : h dummy = none) (hw : h.get entry .prev = some w) :
    (addedHeap h head entry dummy obj).get entry .prev = some head := by
  have hed : entry ≠ dummy := Heap.ne_of_free hd hw
  rw [addedHeap, Heap.get_put_of_ne _ _ _ _ hed, Heap.get_put_other _ _ _ _ (by decide)]
  apply Heap.get_put_self (w := w)
  rw [Heap.get_put_other _ _ _ _ (by decide), Heap.get_congr (Function.update_of_ne hed _ _)]
  exact hw

theorem addedHeap_entry_next (hd : h dummy = none) (he : entry ≠ head)
    (hw : h.get entry .next = some w) :
    (addedHeap h head entry dummy obj).get entry .next = some dummy := by
  have hed : entry ≠ dummy := Heap.ne_of_free hd hw
  rw [addedHeap, Heap.get_put_of_ne _ _ _ _ hed]
  apply Heap.get_put_self (w := w)
  rw [Heap.get_put_other _ _ _ _ (by decide), Heap.get_put_of_ne _ _ _ _ he,
    Heap.get_congr (Function.update_of_ne hed _ _)]
  exact hw

theorem addedHeap_prev {o : PMEMoid} (hd : h dummy = none) (ho : o ≠ entry)
    (hv : h.get o .prev = some v) : (addedHeap h head entry dummy obj).get o .prev = some v := by
  have hod : o ≠ dummy := Heap.ne_of_free hd hv
  rw [addedHeap, Heap.get_put_of_ne _ _ _ _ hod, Heap.get_put_of_ne _ _ _ _ ho,
    Heap.get_put_of_ne _ _ _ _ ho, Heap.get_put_other _ _ _ _ (by decide),
    Heap.get_congr (Function.update_of_ne hod _ _)]
  exact hv

end Links

structure Added (s : PoolState) (head entry : PMEMoid) (s' : PoolState) : Prop where
  heap : ∃ dummy obj, s.heap dummy = none ∧ s'.heap = addedHeap s.heap head entry dummy obj
  ends : s'.ends = s.ends
  inTx : s'.log.isSome

theorem wp_txMemcpyEntry {dst src : PMEMoid} {cells : (m : Member) → m.ty} {o : Obj Member}
    {Q : Unit → PoolState → Prop} {E : Cause → PoolState → Prop} (hl : s.log.isSome)
    (hd : s.heap dst = some ⟨.cacheEntry, Kind.cacheEntry.sizeof, cells⟩)
    (hs : s.heap src = some o) (hkind : o.kind = .cacheEntry) (hcov : ∀ f, Covers s dst f)
    (hE : ∀ c s', Confined (I := PMEMoid) (F := Member) ListKind s s' → s.calls ≤ s'.calls → E c s')
    (hQ : ∀ s' cells', Confined (I := PMEMoid) (F := Member) ListKind s s' →
      s'.heap = Function.update s.heap dst
        (some ⟨.cacheEntry, Kind.cacheEntry.sizeof, cells'⟩) → Q () s') :
    wp env (txMemcpyEntry dst src) Q E s := by
  have hget : s.heap.get dst .next = some (cells .next) :=
    get_fresh hd .next rfl (by decide)
  rw [txMemcpyEntry, wp_bind]
  apply wp_txAddRange (K := ListKind) hl hget (Or.inl rfl)
    (fun c s' h hn => hE c s' h (by omega))
  intro s₁ h₁ e₁ _ n₁
  apply wp_copyCells (K := ListKind) (h₁.inTx ▸ hl) (e₁ ▸ hd) (e₁ ▸ hs) hkind.symm
    (fun f => h₁.covers _ _ (hcov f)) (Or.inl rfl)
    (fun c s' h hn => hE c s' (h₁.trans h) (by omega))
  intro s₂ h₂ e₂ _
  rw [e₁] at e₂
  exact hQ s₂ _ (h₁.trans h₂) e₂

theorem wp_addLinks {dummy w w₁ w₂ w₃ : PMEMoid} {Q : Unit → PoolState → Prop}
    {E : Cause → PoolState → Prop} (hl : s.log.isSome)
    (hhead : s.heap.get cache .head = some head) (hf : s.heap.get head .next = some w)
    (hprev : s.heap.get entry .prev = some w₁) (hnext : s.heap.get entry .next = some w₂)
    (hdummy : s.heap.get dummy .prev = some w₃) (hne : entry ≠ dummy)
    (hE : ∀ s', Crashing env → s'.ends = s.ends → s'.log.isSome → E .crash s')
    (hQ : ∀ s', s'.heap = ((((s.heap.put head .next entry : Pool).put entry .prev head :
      Pool).put entry .next dummy : Pool).put dummy .prev entry : Pool) → s'.ends = s.ends →
        s'.log.isSome → Q () s') :
    wp env (do
      let head ← dRo cache .head
      dRw head .next entry
      let head ← dRo cache .head
      dRw entry .prev head
      dRw entry .next dummy
      dRw dummy .prev entry) Q E s := by
  rw [wp_bind, wp_dRo hhead, wp_bind]
  apply wp_storeBare hf (fun hcr s' he hlog => hE s' ⟨_, hcr⟩ he (hlog ▸ hl))
  intro s₁ e₁ l₁ _ _ t₁
  have hl₁ : s₁.log.isSome := l₁ ▸ hl
  have hhead₁ : s₁.heap.get cache .head = some head := by
    rwa [e₁, Heap.get_put_other _ _ _ _ (by decide)]
  have hprev₁ : s₁.heap.get entry .prev = some w₁ := by
    rwa [e₁, Heap.get_put_other _ _ _ _ (by decide)]
  rw [wp_bind, wp_dRo hhead₁, wp_bind]
  apply wp_storeBare hprev₁ (fun hcr s' he hlog => hE s' ⟨_, hcr⟩ (he.trans t₁) (hlog ▸ hl₁))
  intro s₂ e₂ l₂ _ _ t₂
  have hl₂ : s₂.log.isSome := l₂ ▸ hl₁
  have hnext₂ : ∃ v, s₂.heap.get entry .next = some v := by
    rw [e₂, Heap.get_put_other _ _ _ _ (by decide), e₁]
    by_cases hh : entry = head
    · subst hh
      exact ⟨entry, Heap.get_put_self _ _ hf⟩
    · rw [Heap.get_put_of_ne _ _ _ _ hh]
      exact ⟨w₂, hnext⟩
  obtain ⟨v, hnext₂⟩ := hnext₂
  rw [wp_bind]
  apply wp_storeBare hnext₂ (fun hcr s' he hlog =>
    hE s' ⟨_, hcr⟩ (he.trans (t₂.trans t₁)) (hlog ▸ hl₂))
  intro s₃ e₃ l₃ _ _ t₃
  have hl₃ : s₃.log.isSome := l₃ ▸ hl₂
  have hdummy₃ : s₃.heap.get dummy .prev = some w₃ := by
    rw [e₃, Heap.get_put_other _ _ _ _ (by decide), e₂, Heap.get_put_of_ne _ _ _ _ hne.symm, e₁,
      Heap.get_put_other _ _ _ _ (by decide), hdummy]
  apply wp_storeBare hdummy₃ (fun hcr s' he hlog =>
    hE s' ⟨_, hcr⟩ (he.trans (t₃.trans (t₂.trans t₁))) (hlog ▸ hl₃))
  intro s₄ e₄ l₄ _ _ t₄
  exact hQ s₄ (by rw [e₄, e₃, e₂, e₁]) (t₄.trans (t₃.trans (t₂.trans t₁))) (l₄ ▸ hl₃)

theorem wp_cacheAddBody {w w₁ w₂ : PMEMoid} (hl : s.log.isSome)
    (hc : CacheAt s.heap cache head tail hm cap) (hf : s.heap.get head .next = some first)
    (hlive : s.heap.get first .prev = some w) (hprev : s.heap.get entry .prev = some w₁)
    (hnext : s.heap.get entry .next = some w₂) :
    wp env (cacheAddBody cache entry) (fun _ s' => Added s head entry s') (AddAborts env s) s := by
  obtain ⟨old, hold, hkind⟩ := Heap.live_of_get hlive
  rw [cacheAddBody, wp_bind]
  apply wp_addFields (K := ListKind) (Or.inr rfl) hl hc (fun c s' h hn _ => addAborts_of hl h hn)
  intro s₁ h₁ e₁ n₁
  rw [wp_bind]
  apply wp_txAllocWith (K := ListKind) (h₁.inTx ▸ hl) (Or.inl rfl)
    (fun c s' h hn => addAborts_of hl (h₁.trans h) (by omega))
  intro dummy s₂ h₂ hfree _ _ e₂ c₂ n₂
  have h₁₂ := h₁.trans h₂
  rw [e₁] at hfree e₂
  have hread₂ : ∀ {o : PMEMoid} {f : Member} {v : f.ty}, s.heap.get o f = some v →
      s₂.heap.get o f = some v := fun hv => e₂ ▸ Heap.keeps_alloc _ _ _ hfree _ _ _ trivial hv
  rw [wp_bind, wp_dRo (hread₂ hc.head), wp_bind, wp_dRo (hread₂ hf), wp_bind]
  have hold₂ : s₂.heap first = some old := by
    rw [e₂, Function.update_of_ne (Heap.ne_of_free hfree hlive), hold]
  apply wp_txMemcpyEntry (h₁₂.inTx ▸ hl) (by rw [e₂, Function.update_self]) hold₂ hkind c₂
    (fun c s' h hn => addAborts_of hl (h₁₂.trans h) (by omega))
  intro s₃ cells h₃ e₃
  have h₁₃ := h₁₂.trans h₃
  rw [e₂, Function.update_idem] at e₃
  have hread₃ : ∀ {o : PMEMoid} {f : Member} {v : f.ty}, s.heap.get o f = some v →
      s₃.heap.get o f = some v := fun hv => e₃ ▸ Heap.keeps_alloc _ _ _ hfree _ _ _ trivial hv
  have hdummy : s₃.heap.get dummy .prev = some (cells .prev) := by
    rw [e₃]
    exact get_fresh (Function.update_self ..) .prev rfl (by decide)
  apply wp_addLinks (h₁₃.inTx ▸ hl) (hread₃ hc.head) (hread₃ hf) (hread₃ hprev) (hread₃ hnext)
    hdummy (Heap.ne_of_free hfree hprev)
  · intro s' hcr he hlog
    exact ⟨he.trans h₁₃.ends, hlog, Or.inl ⟨rfl, hcr⟩⟩
  · intro s₄ e₄ t₄ l₄
    rw [e₃] at e₄
    exact ⟨⟨dummy, _, hfree, e₄⟩, t₄.trans h₁₃.ends, l₄⟩

theorem wp_cacheAdd_nested {v : UInt64} {w w₁ w₂ : PMEMoid} (hl : s.log.isSome)
    (hc : CacheAt s.heap cache head tail hm cap) (hv : s.heap.get hm .count = some v)
    (hf : s.heap.get head .next = some first)
    (hlive : s.heap.get first .prev = some w) (hprev : s.heap.get entry .prev = some w₁)
    (hnext : s.heap.get entry .next = some w₂) :
    wp env (cacheAdd cache entry) (fun _ s' => Added s head entry s') (AddAborts env s) s := by
  have htick : Confined (I := PMEMoid) (F := Member) OnlyCache s s.tick := .tick s
  have hstart : s.tick.calls = s.calls + 1 := rfl
  rw [cacheAdd, wp_bind]
  apply wp_cacheCheck hc hv
  rw [if_neg (by simp), wp_bind]
  apply wp_transaction_nested hl
  · exact addAborts_of hl htick (by omega)
  · apply wp_mono (wp_cacheAddBody (s := s.tick) hl hc hf hlive hprev hnext)
    · intro _ s' ha
      exact ⟨ha.heap, ha.ends, ha.inTx⟩
    · intro c s' ha
      exact ⟨ha.ends, ha.inTx, ha.kinds.imp_right fun h => ⟨h.1, by omega⟩⟩

variable {m : UInt64 → Option PMEMoid} {key : UInt64}

structure Inserted (s : PoolState) (cache head tail hm : PMEMoid) (cap : UInt64)
    (m : UInt64 → Option PMEMoid) (key : UInt64) (s' : PoolState) : Prop where
  fields : CacheAt s'.heap cache head tail hm cap
  map : MapIs s'.heap hm m
  front : ∃ e w, s.heap e = none ∧ s'.heap.get head .next = some e ∧
    s'.heap.get e ._key = some key ∧ s'.heap.get e .prev = some w
  ends : s'.ends = s.ends
  inTx : s'.log.isSome

structure NewEntry (s : PoolState) (e : PMEMoid) (key : UInt64) (s' : PoolState) : Prop where
  free : s.heap e = none
  confined : Confined (I := PMEMoid) (F := Member) ListKind s s'
  calls : s.calls < s'.calls
  keeps : Heap.Keeps (fun _ _ => True) s.heap s'.heap
  key : s'.heap.get e ._key = some key
  prev : ∃ w, s'.heap.get e .prev = some w
  next : ∃ w, s'.heap.get e .next = some w

theorem wp_newEntry {value : Int32} {k : PMEMoid → Pmem Unit} {Q : Unit → PoolState → Prop}
    {E : Cause → PoolState → Prop} (hl : s.log.isSome)
    (hE : ∀ c s', Confined (I := PMEMoid) (F := Member) ListKind s s' → s.calls < s'.calls →
      E c s')
    (hk : ∀ e s', NewEntry s e key s' → wp env (k e) Q E s') :
    wp env (do
      let newEntry ← txNew .cacheEntry
      dRw newEntry ._key key
      dRw newEntry ._value value
      k newEntry) Q E s := by
  rw [wp_bind]
  apply wp_txAllocWith (K := ListKind) hl (Or.inl rfl) (fun c s' h hn => hE c s' h (by omega))
  intro e s₁ h₁ hfree _ _ e₁ c₁ n₁
  have hnew : ∀ f : Member, f.kind = .cacheEntry → f.extent ≤ Kind.cacheEntry.sizeof →
      s₁.heap.get e f = some (env.junk s.calls f) := fun f hk he => by
    rw [e₁]
    exact get_fresh (Function.update_self ..) f hk.symm he
  rw [wp_bind]
  apply wp_dRw (K := ListKind) (hnew ._key rfl (by decide)) (c₁ _) (Or.inl rfl)
    (fun c s' h hn => hE c s' (h₁.trans h) (by omega))
  intro s₂ h₂ e₂ n₂
  have h₁₂ := h₁.trans h₂
  have hval₂ : s₂.heap.get e ._value = some (env.junk s.calls ._value) := by
    rw [e₂, Heap.get_put_other _ _ _ _ (by decide)]
    exact hnew ._value rfl (by decide)
  rw [wp_bind]
  apply wp_dRw (K := ListKind) hval₂ (h₂.covers _ _ (c₁ _)) (Or.inl rfl)
    (fun c s' h hn => hE c s' (h₁₂.trans h) (by omega))
  intro s₃ h₃ e₃ n₃
  have hlink : ∀ f : Member, f.kind = .cacheEntry → f.extent ≤ Kind.cacheEntry.sizeof →
      f ≠ ._key → f ≠ ._value → s₃.heap.get e f = some (env.junk s.calls f) := by
    intro f hk he hfk hfv
    rw [e₃, Heap.get_put_other _ _ _ _ hfv, e₂, Heap.get_put_other _ _ _ _ hfk]
    exact hnew f hk he
  apply hk e s₃
  constructor
  case free => exact hfree
  case confined => exact h₁₂.trans h₃
  case calls => omega
  case prev => exact ⟨_, hlink .prev rfl (by decide) (by decide) (by decide)⟩
  case next => exact ⟨_, hlink .next rfl (by decide) (by decide) (by decide)⟩
  case key =>
    rw [e₃, Heap.get_put_other _ _ _ _ (by decide), e₂]
    exact Heap.get_put_self _ _ (hnew ._key rfl (by decide))
  case keeps =>
    intro o f v _ hv
    have hne : o ≠ e := Heap.ne_of_free hfree hv
    rw [e₃, Heap.get_put_of_ne _ _ _ _ hne, e₂, Heap.get_put_of_ne _ _ _ _ hne, e₁]
    exact Heap.keeps_alloc _ _ _ hfree _ _ _ trivial hv

theorem inserted_of_added {e : PMEMoid} (hn : NewEntry s e key s₁) (ha : Added s₁ head e s')
    (hc : CacheAt s₁.heap cache head tail hm cap) (hm' : MapIs s₁.heap hm m)
    (hf : s.heap.get head .next = some first) : Inserted s cache head tail hm cap m key s' := by
  obtain ⟨dummy, obj, hdummy, he⟩ := ha.heap
  obtain ⟨w, hw⟩ := hn.prev
  have hkeep := addedHeap_keeps head e obj hdummy
  have heh : e ≠ head := (Heap.ne_of_free hn.free hf).symm
  have hnext := addedHeap_head_next obj hdummy heh (hn.keeps _ _ _ trivial hf)
  have hprev : (addedHeap s₁.heap head e dummy obj).get e .prev = some head :=
    addedHeap_entry_prev obj hdummy hw
  rw [← he] at hkeep hnext hprev
  constructor
  case fields =>
    exact hc.keeps fun f v hf hv => hkeep _ _ _ (by constructor <;> rintro rfl <;> cases hf) hv
  case map =>
    exact hm'.keeps (hkeep.mono fun o f hf => by
      constructor <;> rintro rfl <;> rcases hf with hf | hf | hf <;> cases hf)
  case front => exact ⟨e, head, hn.free, hnext, hkeep _ _ _ ⟨by decide, by decide⟩ hn.key, hprev⟩
  case ends => exact ha.ends.trans hn.confined.ends
  case inTx => exact ha.inTx

theorem wp_cacheSetInsert {w : PMEMoid} {value : Int32} (hl : s.log.isSome)
    (hc : CacheAt s.heap cache head tail hm cap) (hm' : MapIs s.heap hm m)
    (hkey : m key = none) (hf : s.heap.get head .next = some first)
    (hlive : s.heap.get first .prev = some w) (hfuel : 2^64 < env.fuel) :
    wp env (cacheSetInsert cache key value)
      (fun _ s' => Inserted s cache head tail hm cap m key s') (AddAborts env s) s := by
  apply wp_newEntry hl (fun c s' h hn => addAborts_of hl h hn)
  intro e s₁ hn
  have hc₁ : CacheAt s₁.heap cache head tail hm cap := hc.keeps fun f v _ hv =>
    hn.keeps _ _ _ trivial hv
  have hm₁ : MapIs s₁.heap hm m := hm'.keeps (hn.keeps.mono fun _ _ _ => trivial)
  obtain ⟨v, hv⟩ := count_get hm₁
  obtain ⟨w₁, hprev⟩ := hn.prev
  obtain ⟨w₂, hnext⟩ := hn.next
  have hcalls := hn.calls
  rw [wp_bind]
  apply wp_mono (wp_cacheAdd_nested (hn.confined.inTx ▸ hl) hc₁ hv (hn.keeps _ _ _ trivial hf)
    (hn.keeps _ _ _ trivial hlive) hprev hnext)
  · intro _ s₂ ha
    have hi := inserted_of_added hn ha hc₁ hm₁ hf
    rw [wp_bind, wp_dRo hi.fields.hashmap, wp_bind]
    apply wp_hmTxGet hi.map hfuel
    rw [hkey, cacheSetLink, Option.getD_none, if_pos (by rfl), wp_pure]
    exact hi
  · intro c s' ha
    exact ⟨ha.ends.trans hn.confined.ends, ha.inTx,
      ha.kinds.imp_right fun h => ⟨h.1.trans hn.confined.undone, by omega⟩⟩

end Add

end RtsCache.CacheCalls
