import RtsCache.CacheRuns
import RtsCache.CacheLists

/-!
# How the list of a cache grows

Every `cache_set` that goes through puts its entry and a copy of the former
first node in front, and nothing is ever taken out: the map binds no key, so
neither the drop nor the eviction is reached. Read forwards, the list holds
every pair ever set, the latest first.
-/

set_option autoImplicit false

namespace RtsCache.CacheGrowth
open RtsCache.UndoHeap RtsCache.UndoMachine RtsCache.UndoRules RtsCache.UndoWrites
open RtsCache.UndoFaults RtsCache.PoolLayout RtsCache.HashmapMachine RtsCache.HashmapInvariant
open RtsCache.HashmapScan RtsCache.HashmapRuns RtsCache.RunRefinement RtsCache.DoublyLinked
open RtsCache.CacheMachine RtsCache.CacheInvariant RtsCache.CacheCalls RtsCache.CacheOps
open RtsCache.CacheAborts RtsCache.CacheFaults RtsCache.CacheLists RtsCache.CacheRuns

/-- The pairs a run sets, the latest first. -/
def pairsSet (os : List LruOp) : Recency :=
  os.foldl (fun us o => match o with
    | .set key value => (key, value) :: us
    | .get _ => us) []

def Holds (h : Pool) (o : PMEMoid) (u : UInt64 × Int32) : Prop :=
  h.get o ._key = some u.1 ∧ h.get o ._value = some u.2

/-- What one `cache_set` adds in front of `first`: the entry `e` and the copy
`d` of `first` behind it. -/
structure Pushed (h h' : Pool) (head first e d : PMEMoid) (u : UInt64 × Int32) : Prop where
  freshE : h e = none
  freshD : h d = none
  ne : e ≠ d
  front : h'.get head .next = some e
  behind : h'.get e .next = some d
  holds : Holds h' e u
  copy : ∀ f, f = ._key ∨ f = ._value ∨ f = .next → ∀ v, h.get first f = some v →
    h'.get d f = some v
  keep : Heap.Keeps (fun o f => o ≠ head ∨ f ≠ .next) h h'
  entry : ∃ k, h'.get d ._key = some k
  live : ∀ o, o ≠ e → o ≠ d → (h' o = none ↔ h o = none)

variable {env : PoolEnv} {s s' : PoolState} {h h' : Pool}
  {cache head tail hm first entry : PMEMoid} {cap : UInt64}

theorem copyCells_ok {dst src : PMEMoid} {p : Member → Bool}
    (hrun : copyCells dst src p env s = .ok () s') :
    ∃ d c : Obj Member, s.heap dst = some d ∧ s.heap src = some c ∧
      s'.heap = Function.update s.heap dst
        (some { d with cells := fun f => if p f then c.cells f else d.cells f }) := by
  unfold copyCells at hrun
  split at hrun
  · split at hrun
    · split at hrun
      · cases hrun
      · cases hrun
        exact ⟨_, _, by assumption, by assumption, rfl⟩
    · cases hrun
  · cases hrun

def copyOf (c : Obj Member) (junk : (f : Member) → f.ty) : Obj Member :=
  ⟨.cacheEntry, Kind.cacheEntry.sizeof,
    fun f => if f.extent ≤ Kind.cacheEntry.sizeof then c.cells f else junk f⟩

theorem copyOf_has {c : Obj Member} {junk : (f : Member) → f.ty} {f : Member}
    (hk : f.kind = .cacheEntry) (he : f.extent ≤ Kind.cacheEntry.sizeof) : (copyOf c junk).Has f :=
  ⟨hk.symm, he⟩

theorem cacheAddBody_ok (hhead : s.heap.get cache .head = some head)
    (hfirst : s.heap.get head .next = some first) (hlive : s.heap first ≠ none)
    (hrun : cacheAddBody cache entry env s = .ok () s') :
    ∃ dummy c junk, s.heap dummy = none ∧ s.heap first = some c ∧
      s'.heap = addedHeap s.heap head entry dummy (copyOf c junk) := by
  obtain ⟨_, s₁, h₁, t₁⟩ := bind_ok hrun
  have e₁ := addFields_ok h₁
  obtain ⟨dummy, s₂, h₂, t₂⟩ := bind_ok t₁
  obtain ⟨hfree, -, -, e₂⟩ := txAllocWith_ok h₂
  rw [e₁] at hfree e₂
  have hkeep : ∀ {o : PMEMoid} {f : Member} {v : f.ty}, s.heap.get o f = some v →
      s₂.heap.get o f = some v := fun hv => e₂ ▸ Heap.keeps_alloc _ _ _ hfree _ _ _ trivial hv
  obtain ⟨o₃, s₃, h₃, t₃⟩ := bind_ok t₂
  obtain ⟨hv₃, rfl⟩ := load_ok h₃
  cases hv₃.symm.trans (hkeep hhead)
  obtain ⟨o₄, s₄, h₄, t₄⟩ := bind_ok t₃
  obtain ⟨hv₄, rfl⟩ := load_ok h₄
  cases hv₄.symm.trans (hkeep hfirst)
  obtain ⟨_, s₅, h₅, t₅⟩ := bind_ok t₄
  obtain ⟨_, s₆, h₆, h₇⟩ := bind_ok h₅
  obtain ⟨d, c, hd, hc, e₅⟩ := copyCells_ok h₇
  rw [txAdd_ok h₆, e₂] at hd hc e₅
  have hne : first ≠ dummy := fun he => hlive (he ▸ hfree)
  rw [Function.update_of_ne hne] at hc
  rw [Function.update_self] at hd
  cases hd
  rw [Function.update_idem] at e₅
  have hkeep₅ : ∀ {o : PMEMoid} {f : Member} {v : f.ty}, s.heap.get o f = some v →
      s₅.heap.get o f = some v := fun hv => e₅ ▸ Heap.keeps_alloc _ _ _ hfree _ _ _ trivial hv
  obtain ⟨o₈, s₈, h₈, t₈⟩ := bind_ok t₅
  obtain ⟨hv₈, rfl⟩ := load_ok h₈
  cases hv₈.symm.trans (hkeep₅ hhead)
  obtain ⟨_, s₉, h₉, t₉⟩ := bind_ok t₈
  obtain ⟨-, e₉⟩ := store_ok h₉
  obtain ⟨o₁₀, s₁₀, h₁₀, t₁₀⟩ := bind_ok t₉
  obtain ⟨hv₁₀, rfl⟩ := load_ok h₁₀
  rw [e₉, Heap.get_put_other _ _ _ _ (by decide)] at hv₁₀
  cases hv₁₀.symm.trans (hkeep₅ hhead)
  obtain ⟨_, s₁₁, h₁₁, t₁₁⟩ := bind_ok t₁₀
  obtain ⟨-, e₁₁⟩ := store_ok h₁₁
  obtain ⟨_, s₁₂, h₁₂, h₁₃⟩ := bind_ok t₁₁
  obtain ⟨-, e₁₂⟩ := store_ok h₁₂
  obtain ⟨-, e₁₃⟩ := store_ok h₁₃
  refine ⟨dummy, c, env.junk s₁.calls, hfree, hc, ?_⟩
  rw [e₁₃, e₁₂, e₁₁, e₉, e₅]
  simp only [addedHeap, copyOf, decide_eq_true_eq]

section Heap
variable {dummy o : PMEMoid} {obj : Obj Member}

theorem addedHeap_old {f : Member} {v : f.ty} (hd : h dummy = none) (ho : o ≠ entry)
    (hf : o ≠ head ∨ f ≠ .next) (hv : h.get o f = some v) :
    (addedHeap h head entry dummy obj).get o f = some v := by
  have hod : o ≠ dummy := Heap.ne_of_free hd hv
  rw [addedHeap, Heap.get_put_of_ne _ _ _ _ hod, Heap.get_put_of_ne _ _ _ _ ho,
    Heap.get_put_of_ne _ _ _ _ ho]
  apply Heap.keeps_put _ _ _ _ _ _ _ hf
  rw [Heap.get_congr (Function.update_of_ne hod _ _)]
  exact hv

theorem addedHeap_dummy {f : Member} (hhead : dummy ≠ head) (hentry : dummy ≠ entry)
    (hf : f ≠ .prev) (hhas : obj.Has f) :
    (addedHeap h head entry dummy obj).get dummy f = some (obj.cells f) := by
  rw [addedHeap, Heap.get_put_other _ _ _ _ hf, Heap.get_put_of_ne _ _ _ _ hentry,
    Heap.get_put_of_ne _ _ _ _ hentry, Heap.get_put_of_ne _ _ _ _ hhead]
  exact Heap.get_eq_some.mpr ⟨obj, Function.update_self .., hhas, rfl⟩

theorem addedHeap_live (ho : o ≠ dummy) :
    addedHeap h head entry dummy obj o = none ↔ h o = none := by
  simp only [addedHeap, Heap.put_eq_none, Function.update_of_ne ho]

def newEntryHeap (h : Pool) (e : PMEMoid) (junk : (f : Member) → f.ty) (u : UInt64 × Int32) :
    Pool :=
  let h₁ : Pool := Function.update h e (some ⟨.cacheEntry, Kind.cacheEntry.sizeof, junk⟩)
  let h₂ : Pool := h₁.put e ._key u.1
  h₂.put e ._value u.2

variable {e : PMEMoid} {junk : (f : Member) → f.ty} {u : UInt64 × Int32}

theorem newEntryHeap_of_ne (ho : o ≠ e) : newEntryHeap h e junk u o = h o := by
  rw [newEntryHeap, Heap.put_of_ne _ _ _ ho, Heap.put_of_ne _ _ _ ho, Function.update_of_ne ho]

theorem newEntryHeap_ne_none : newEntryHeap h e junk u e ≠ none := by
  simp only [newEntryHeap, ne_eq, Heap.put_eq_none, Function.update_self]
  intro hnone
  cases hnone

theorem newEntryHeap_holds : Holds (newEntryHeap h e junk u) e u := by
  have hnew : ∀ f : Member, f.kind = .cacheEntry → f.extent ≤ Kind.cacheEntry.sizeof →
      Heap.get (Function.update h e (some ⟨.cacheEntry, Kind.cacheEntry.sizeof, junk⟩)) e f =
        some (junk f) := fun f hk he => get_fresh (Function.update_self ..) f hk.symm he
  constructor
  · rw [newEntryHeap, Heap.get_put_other _ _ _ _ (by decide)]
    exact Heap.get_put_self _ _ (hnew ._key rfl (by decide))
  · apply Heap.get_put_self (w := junk ._value)
    rw [Heap.get_put_other _ _ _ _ (by decide)]
    exact hnew ._value rfl (by decide)

theorem newEntryHeap_next : (newEntryHeap h e junk u).get e .next = some (junk .next) := by
  rw [newEntryHeap, Heap.get_put_other _ _ _ _ (by decide), Heap.get_put_other _ _ _ _ (by decide)]
  exact get_fresh (Function.update_self ..) .next rfl (by decide)

theorem pushed_of_added {d : PMEMoid} {c : Obj Member} {junk' : (f : Member) → f.ty}
    (he : h e = none) (hd : newEntryHeap h e junk u d = none)
    (hfirst : h.get head .next = some first) (hc : newEntryHeap h e junk u first = some c)
    (hlive : h first ≠ none) :
    Pushed h (addedHeap (newEntryHeap h e junk u) head e d (copyOf c junk')) head first e d u := by
  have hed : e ≠ d := fun heq => newEntryHeap_ne_none (heq ▸ hd)
  have hhead : e ≠ head := (Heap.ne_of_free he hfirst).symm
  have hd₀ : h d = none := by rwa [newEntryHeap_of_ne hed.symm] at hd
  have hdhead : d ≠ head := (Heap.ne_of_free hd₀ hfirst).symm
  have hfe : first ≠ e := fun heq => hlive (heq ▸ he)
  have hold : ∀ {o : PMEMoid} {f : Member} {v : f.ty}, h.get o f = some v → o ≠ e ∧
      (newEntryHeap h e junk u).get o f = some v := by
    intro o f v hv
    have hne : o ≠ e := Heap.ne_of_free he hv
    exact ⟨hne, by rwa [Heap.get_congr (newEntryHeap_of_ne hne)]⟩
  have hholds : Holds (newEntryHeap h e junk u) e u := newEntryHeap_holds
  have hkeeps := addedHeap_keeps head e (copyOf c junk') hd
  have hdata : Holds (addedHeap (newEntryHeap h e junk u) head e d (copyOf c junk')) e u :=
    ⟨hkeeps _ _ _ ⟨by decide, by decide⟩ hholds.1, hkeeps _ _ _ ⟨by decide, by decide⟩ hholds.2⟩
  have hcopy : ∀ f, f = ._key ∨ f = ._value ∨ f = .next → ∀ v, h.get first f = some v →
      (addedHeap (newEntryHeap h e junk u) head e d (copyOf c junk')).get d f = some v := by
    intro f hf v hv
    rw [newEntryHeap_of_ne hfe] at hc
    obtain ⟨c', hc', -, rfl⟩ := Heap.get_eq_some.mp hv
    cases hc.symm.trans hc'
    have hhas : (copyOf c junk').Has f ∧ f ≠ .prev ∧ f.extent ≤ Kind.cacheEntry.sizeof := by
      rcases hf with rfl | rfl | rfl
      · exact ⟨copyOf_has rfl (by decide), by decide, by decide⟩
      · exact ⟨copyOf_has rfl (by decide), by decide, by decide⟩
      · exact ⟨copyOf_has rfl (by decide), by decide, by decide⟩
    rw [addedHeap_dummy hdhead hed.symm hhas.2.1 hhas.1, copyOf]
    dsimp only
    rw [if_pos hhas.2.2]
  constructor
  case freshE => exact he
  case freshD => exact hd₀
  case ne => exact hed
  case front => exact addedHeap_head_next _ hd hhead (hold hfirst).2
  case behind => exact addedHeap_entry_next _ hd hhead newEntryHeap_next
  case holds => exact hdata
  case copy => exact hcopy
  case keep =>
    intro o f v hf hv
    exact addedHeap_old hd (hold hv).1 hf (hold hv).2
  case entry =>
    have hkey : (copyOf c junk').Has ._key := copyOf_has rfl (by decide)
    exact ⟨_, addedHeap_dummy hdhead hed.symm (by decide) hkey⟩
  case live =>
    intro o hoe hod
    rw [addedHeap_live hod, newEntryHeap_of_ne hoe]

end Heap

section Code

theorem check_ok {w : UInt64} {b : Bool} (hc : CacheAt s.heap cache head tail hm cap)
    (hw : s.heap.get hm .count = some w) (hrun : cacheCheck cache env s = .ok b s') :
    b = false ∧ s' = s :=
  wp_result (Q := fun b s' => b = false ∧ s' = s) (E := fun _ _ => True)
    (wp_cacheCheck hc hw ⟨rfl, rfl⟩) hrun

theorem cacheAdd_nested_ok {r : ℤ} {w : UInt64} (hl : s.log.isSome)
    (hc : CacheAt s.heap cache head tail hm cap) (hw : s.heap.get hm .count = some w)
    (hfirst : s.heap.get head .next = some first) (hlive : s.heap first ≠ none)
    (hrun : cacheAdd cache entry env s = .ok r s') :
    ∃ dummy c junk, s.heap dummy = none ∧ s.heap first = some c ∧
      s'.heap = addedHeap s.heap head entry dummy (copyOf c junk) := by
  obtain ⟨b, s₁, h₁, t₁⟩ := bind_ok hrun
  obtain ⟨rfl, rfl⟩ := check_ok hc hw h₁
  rw [if_neg (by simp)] at t₁
  obtain ⟨o, s₂, h₂, t₂⟩ := bind_ok t₁
  have hopen : Commits s₁ s₂ := by
    intro hnone
    rw [hnone] at hl
    cases hl
  obtain ⟨_, s₃, s₄, rfl, e₃, -, hbody, e₄⟩ := transaction_committed h₂ hopen
  cases t₂
  rw [e₄, ← e₃]
  exact cacheAddBody_ok (e₃ ▸ hc.head) (e₃ ▸ hfirst) (e₃ ▸ hlive) hbody

theorem get_null_ok {key : UInt64} {o : PMEMoid} (hmap : MapIs s.heap hm fun _ => none)
    (hfuel : 2^64 < env.fuel) (hrun : hmTxGet hm key env s = .ok o s') :
    o = oidNull ∧ s' = s :=
  wp_result (Q := fun o s' => o = oidNull ∧ s' = s) (E := fun _ _ => True)
    (wp_hmTxGet hmap hfuel ⟨rfl, rfl⟩) hrun

theorem cacheSetInsert_ok {key : UInt64} {value : Int32}
    (hc : CacheAt s.heap cache head tail hm cap) (hmap : MapIs s.heap hm fun _ => none)
    (hfirst : s.heap.get head .next = some first) (hlive : s.heap first ≠ none)
    (hfuel : 2^64 < env.fuel) (hrun : cacheSetInsert cache key value env s = .ok () s') :
    ∃ e d, Pushed s.heap s'.heap head first e d (key, value) := by
  obtain ⟨e, s₁, h₁, t₁⟩ := bind_ok hrun
  obtain ⟨hfree, -, -, e₁⟩ := txAllocWith_ok h₁
  obtain ⟨_, s₂, h₂, t₂⟩ := bind_ok t₁
  obtain ⟨-, e₂⟩ := store_ok h₂
  obtain ⟨_, s₃, h₃, t₃⟩ := bind_ok t₂
  obtain ⟨-, e₃⟩ := store_ok h₃
  have hheap : s₃.heap = newEntryHeap s.heap e (env.junk s.calls) (key, value) := by
    rw [e₃, e₂, e₁]
    rfl
  have hl₃ : s₃.log.isSome := by
    rw [store_log h₃, store_log h₂]
    exact txAllocWith_inTx h₁
  have hold : ∀ {o : PMEMoid} {f : Member} {v : f.ty}, s.heap.get o f = some v →
      s₃.heap.get o f = some v := by
    intro o f v hv
    have hne : o ≠ e := Heap.ne_of_free hfree hv
    rwa [hheap, Heap.get_congr (newEntryHeap_of_ne hne)]
  have hc₃ : CacheAt s₃.heap cache head tail hm cap := hc.keeps fun f v _ hv => hold hv
  have hmap₃ : MapIs s₃.heap hm fun _ => none := hmap.keeps fun _ _ _ _ hv => hold hv
  have hfe : first ≠ e := fun heq => hlive (heq ▸ hfree)
  have hlive₃ : s₃.heap first ≠ none := by
    rw [hheap, newEntryHeap_of_ne hfe]
    exact hlive
  obtain ⟨r, s₄, h₄, t₄⟩ := bind_ok t₃
  obtain ⟨d, c, junk, hd, hcopied, e₄⟩ := cacheAdd_nested_ok hl₃ hc₃ (count_of_unbound hmap₃)
    (hold hfirst) hlive₃ h₄
  rw [hheap] at hd hcopied e₄
  have hpushed : Pushed s.heap s₄.heap head first e d (key, value) :=
    e₄ ▸ pushed_of_added hfree hd hfirst hcopied hlive
  have hc₄ : CacheAt s₄.heap cache head tail hm cap := hc.keeps fun f v hf hv =>
    hpushed.keep _ _ _ (Or.inr (by rintro rfl; cases hf)) hv
  have hmap₄ : MapIs s₄.heap hm fun _ => none := hmap.keeps fun o f v hf hv =>
    hpushed.keep _ _ _ (Or.inr (by rintro rfl; rcases hf with hf | hf | hf <;> cases hf)) hv
  -- the map is asked for the key again, in vain
  obtain ⟨o₅, s₅, h₅, t₅⟩ := bind_ok t₄
  obtain ⟨hv₅, rfl⟩ := load_ok h₅
  cases hv₅.symm.trans hc₄.hashmap
  obtain ⟨o₆, s₆, h₆, t₆⟩ := bind_ok t₅
  obtain ⟨rfl, rfl⟩ := get_null_ok hmap₄ hfuel h₆
  rw [cacheSetLink, if_pos (by rfl)] at t₆
  cases t₆
  exact ⟨e, d, hpushed⟩

theorem cacheSetBody_ok {key : UInt64} {value : Int32}
    (hc : CacheAt s.heap cache head tail hm cap) (hcap : 1 ≤ cap.toNat)
    (hmap : MapIs s.heap hm fun _ => none) (hfirst : s.heap.get head .next = some first)
    (hlive : s.heap first ≠ none) (hfuel : 2^64 < env.fuel)
    (hrun : cacheSetBody cache key value env s = .ok () s') :
    ∃ e d, Pushed s.heap s'.heap head first e d (key, value) := by
  obtain ⟨_, s₁, h₁, t₁⟩ := bind_ok hrun
  have e₁ := txAdd_ok h₁
  obtain ⟨_, s₂, h₂, t₂⟩ := bind_ok t₁
  have e₂ := (txAdd_ok h₂).trans e₁
  rw [← e₂] at hc hmap hfirst hlive ⊢
  have hcount := count_of_unbound hmap
  have hzero : (0 : UInt64) ≠ cap := by
    rintro rfl
    exact absurd hcap (by decide)
  obtain ⟨o₃, s₃, h₃, t₃⟩ := bind_ok t₂
  obtain ⟨hv₃, rfl⟩ := load_ok h₃
  cases hv₃.symm.trans hc.hashmap
  obtain ⟨o₄, s₄, h₄, t₄⟩ := bind_ok t₃
  obtain ⟨rfl, rfl⟩ := get_null_ok hmap hfuel h₄
  obtain ⟨_, s₅, h₅, t₅⟩ := bind_ok t₄
  rw [cacheSetDrop, if_pos (by rfl)] at h₅
  cases h₅
  obtain ⟨_, s₆, h₆, t₆⟩ := bind_ok t₅
  obtain ⟨o₇, s₇, h₇, t₇⟩ := bind_ok h₆
  obtain ⟨hv₇, rfl⟩ := load_ok h₇
  cases hv₇.symm.trans hc.hashmap
  obtain ⟨o₈, s₈, h₈, t₈⟩ := bind_ok t₇
  rw [hmTxCount] at h₈
  obtain ⟨hv₈, rfl⟩ := load_ok h₈
  cases hv₈.symm.trans hcount
  obtain ⟨o₉, s₉, h₉, t₉⟩ := bind_ok t₈
  obtain ⟨hv₉, rfl⟩ := load_ok h₉
  cases hv₉.symm.trans hc.capacity
  rw [if_neg hzero] at t₉
  cases t₉
  exact cacheSetInsert_ok hc hmap hfirst hlive hfuel t₆

theorem transaction_done {α : Type} {body : Pmem α} {a : α}
    (hrun : transaction body env s = .ok (some a) s') :
    ∃ s₁ s₂, s₁.heap = s.heap ∧ body env s₁ = .ok a s₂ ∧ s'.heap = s₂.heap := by
  unfold transaction at hrun
  split at hrun
  · split at hrun
    · cases hrun
    · split at hrun
      · rename_i hb
        cases hrun
        exact ⟨s.tick, _, rfl, hb, rfl⟩
      · cases hrun
      · cases hrun
  · split at hrun
    · cases hrun
    · split at hrun
      · rename_i hb
        split at hrun
        · cases hrun
        · cases hrun
          exact ⟨s.tick.opened, _, rfl, hb, rfl⟩
      · cases hrun
      · cases hrun

theorem setStep_ok {key : UInt64} {value : Int32} {r : ℤ × Option Int32}
    (hg : Growing s.heap cache head tail hm cap)
    (hfirst : s.heap.get head .next = some first) (hlive : s.heap first ≠ none)
    (hfuel : 2^64 < env.fuel) (hrun : lruStep cache (.set key value) env s = .ok r s')
    (hr : r.1 = 0) : ∃ e d, Pushed s.heap s'.heap head first e d (key, value) := by
  obtain ⟨i, s₁, h₁, t₁⟩ := bind_ok hrun
  cases t₁
  obtain ⟨b, s₂, h₂, t₂⟩ := bind_ok h₁
  obtain ⟨rfl, rfl⟩ := check_ok hg.fields (count_of_unbound hg.map) h₂
  rw [if_neg (by simp)] at t₂
  obtain ⟨o, s₃, h₃, t₃⟩ := bind_ok t₂
  cases o with
  | none =>
    cases t₃
    cases hr
  | some u =>
    cases t₃
    obtain ⟨s₄, s₅, e₄, hbody, e₅⟩ := transaction_done h₃
    rw [e₅, ← e₄]
    rw [← e₄] at hg hfirst hlive
    exact cacheSetBody_ok hg.fields hg.positive hg.map hfirst hlive hfuel hbody

theorem getStep_ok {key : UInt64} {r : ℤ × Option Int32} (hl : s.log = none)
    (hg : Growing s.heap cache head tail hm cap) (hfuel : 2^64 < env.fuel)
    (hrun : lruStep cache (.get key) env s = .ok r s') : s'.heap = s.heap := by
  apply wp_result (Q := fun _ s' => s'.heap = s.heap) (E := fun _ _ => True) _ hrun
  rw [lruStep, cacheStep, cacheGet, wp_bind]
  apply wp_cacheCheck hg.fields (count_of_unbound hg.map)
  rw [if_neg (by simp), if_neg (by simp), wp_bind]
  apply wp_transaction_top hl
  · rfl
  · apply wp_mono (wp_cacheGetBody_unbound (s := s.tick.opened) rfl hg.fields hg.map rfl hfuel)
    · exact fun _ _ hfalse => hfalse.elim
    · exact fun c s₁ hu => hu.trans (undone_opened s.tick)

end Code

section Runs

/-- Read forwards, the list from `head` holds the pairs `us` and ends in one
more node. -/
def Listed (h : Pool) (head : PMEMoid) (us : Recency) : Prop :=
  ∃ os z, Chained (nextOf h) (head :: (os ++ [z])) ∧ List.Forall₂ (Holds h) os us ∧
    head ∉ os ++ [z] ∧ h z ≠ none

/-- What is live in `h` and not in `h₀` are `n` entries. -/
def Allocated (h₀ h : Pool) (n : ℕ) : Prop :=
  ∃ news : List PMEMoid, news.Nodup ∧ news.length = n ∧
    (∀ o ∈ news, h₀ o = none ∧ ∃ k, h.get o ._key = some k) ∧
    ∀ o ∉ news, (h o = none ↔ h₀ o = none)

variable {e d o : PMEMoid} {u : UInt64 × Int32} {us : Recency}

theorem live_of_cell {f : Member} {w : f.ty} (hw : h.get o f = some w) : h o ≠ none :=
  fun hnone => Heap.ne_of_free hnone hw rfl

theorem Pushed.holds_old (hp : Pushed h h' head first e d u) {v : UInt64 × Int32}
    (hv : Holds h o v) : Holds h' o v :=
  ⟨hp.keep _ _ _ (Or.inr (by decide)) hv.1, hp.keep _ _ _ (Or.inr (by decide)) hv.2⟩

theorem Pushed.chained_old (hp : Pushed h h' head first e d u) {os : List PMEMoid}
    (hnot : head ∉ os) (hc : Chained (nextOf h) os) : Chained (nextOf h') os := by
  apply List.IsChain.imp_of_mem_imp _ hc
  intro a b ha hb hab
  exact hp.keep a .next b (Or.inl fun heq => hnot (heq ▸ ha)) hab

theorem Pushed.ne_head (hp : Pushed h h' head first e d u)
    (hfirst : h.get head .next = some first) : head ≠ e ∧ head ≠ d :=
  ⟨Heap.ne_of_free hp.freshE hfirst, Heap.ne_of_free hp.freshD hfirst⟩

theorem Pushed.listed (hp : Pushed h h' head first e d u)
    (hfirst : h.get head .next = some first) (hlist : Listed h head us) :
    Listed h' head (u :: us) := by
  obtain ⟨os, z, hchain, hholds, hnot, hz⟩ := hlist
  obtain ⟨hhe, hhd⟩ := hp.ne_head hfirst
  obtain ⟨k, hk⟩ := hp.entry
  cases hholds with
  | nil =>
    refine ⟨[e], d, ?_, List.Forall₂.cons hp.holds List.Forall₂.nil, ?_, ?_⟩
    · exact (chained_pair _ _ _).mpr ⟨hp.front, (chained_pair _ _ _).mpr
        ⟨hp.behind, List.isChain_singleton _⟩⟩
    · simp [hhe, hhd]
    · exact live_of_cell hk
  | @cons f v os vs hf hrest =>
    have hff : f = first := Option.some.inj (((chained_pair _ _ _).mp hchain).1.symm.trans hfirst)
    subst hff
    have htail : head ∉ os ++ [z] := fun hmem => hnot (List.mem_cons_of_mem _ hmem)
    refine ⟨e :: d :: os, z, ?_, List.Forall₂.cons hp.holds
      (List.Forall₂.cons ?_ (hrest.imp fun _ _ => hp.holds_old)), ?_, ?_⟩
    · have hlinks := ((chained_pair _ _ _).mp hchain).2
      have hbehind : Chained (nextOf h') (d :: (os ++ [z])) := by
        rw [List.append_eq, Chained, List.isChain_cons] at hlinks
        rw [Chained, List.isChain_cons]
        exact ⟨fun y hy => hp.copy .next (by simp) _ (hlinks.1 y hy),
          hp.chained_old htail hlinks.2⟩
      exact (chained_pair _ _ _).mpr ⟨hp.front, (chained_pair _ _ _).mpr ⟨hp.behind, hbehind⟩⟩
    · exact ⟨hp.copy ._key (by simp) _ hf.1, hp.copy ._value (by simp) _ hf.2⟩
    · simpa [hhe, hhd] using htail
    · intro hnone
      have hze : z ≠ e := fun heq => hz (heq ▸ hp.freshE)
      have hzd : z ≠ d := fun heq => hz (heq ▸ hp.freshD)
      exact hz ((hp.live z hze hzd).mp hnone)

theorem Pushed.allocated {h₀ : Pool} {n : ℕ} (hp : Pushed h h' head first e d u)
    (hnews : Allocated h₀ h n) : Allocated h₀ h' (n + 2) := by
  obtain ⟨news, hnodup, hlen, hentries, hold⟩ := hnews
  have hfree : ∀ o, h o = none → o ∉ news := by
    intro o hnone hmem
    obtain ⟨-, k, hk⟩ := hentries o hmem
    exact Heap.ne_of_free hnone hk rfl
  have he := hfree e hp.freshE
  have hd := hfree d hp.freshD
  refine ⟨e :: d :: news, ?_, by simp [hlen], ?_, ?_⟩
  · simp [he, hd, hp.ne, hnodup]
  · intro o ho
    rw [List.mem_cons, List.mem_cons] at ho
    rcases ho with rfl | rfl | ho
    · exact ⟨(hold o he).mp hp.freshE, _, hp.holds.1⟩
    · exact ⟨(hold o hd).mp hp.freshD, hp.entry⟩
    · obtain ⟨hnone, k, hk⟩ := hentries o ho
      exact ⟨hnone, k, hp.keep _ _ _ (Or.inr (by decide)) hk⟩
  · intro o ho
    rw [List.mem_cons, List.mem_cons, not_or, not_or] at ho
    exact (hp.live o ho.1 ho.2.1).trans (hold o ho.2.2)

theorem listed_live {f : PMEMoid} (hlist : Listed h head us)
    (hfirst : h.get head .next = some f) : h f ≠ none := by
  obtain ⟨os, z, hchain, hholds, -, hz⟩ := hlist
  cases hholds with
  | nil =>
    cases ((chained_pair _ _ _).mp hchain).1.symm.trans hfirst
    exact hz
  | cons hf hrest =>
    cases ((chained_pair _ _ _).mp hchain).1.symm.trans hfirst
    exact live_of_cell hf.1

theorem listed_of_wf (hw : CacheWf h cache head tail hm cap [] fun _ => none) :
    Listed h head [] := by
  have hpair : nextOf h head = some tail ∧ prevOf h tail = some head :=
    ((doubly_pair _ _ _).mp hw.doubly).1
  have hdistinct : head ≠ tail := by
    have := hw.distinct
    simp [order] at this
    exact this
  refine ⟨[], tail, ?_, List.Forall₂.nil, by simpa using hdistinct, live_of_cell hpair.2⟩
  exact (chained_pair _ _ _).mpr ⟨hpair.1, List.isChain_singleton _⟩

theorem pairsSet_snoc (os : List LruOp) (o : LruOp) :
    pairsSet (os ++ [o]) = match o with
      | .set key value => (key, value) :: pairsSet os
      | .get _ => pairsSet os := by
  cases o <;> simp [pairsSet]

theorem run_grows {s₀ : PoolState} {xs : List (LruOp × (ℤ × Option Int32))} (hl : s₀.log = none)
    (hw : CacheWf s₀.heap cache head tail hm cap [] fun _ => none)
    (hrun : Run (LruCall cache) s₀ xs s) :
    Listed s.heap head (pairsSet (xs.map Prod.fst)) ∧
      Allocated s₀.heap s.heap (2 * (pairsSet (xs.map Prod.fst)).length) := by
  induction hrun with
  | nil => exact ⟨listed_of_wf hw, [], by simp, rfl, by simp, by simp⟩
  | @snoc xs s s' o r hrun hlast ih =>
    obtain ⟨hlist, hnews⟩ := ih
    obtain ⟨-, hl', hg⟩ := run_answers hl (growing_of_wf hw) hrun
    obtain ⟨env, hfuel, hok, hn⟩ := hlast
    have hr := (wp_result (wp_lruStep o (E := fun _ _ => False) hl' hg hfuel) hok hn).1
    rw [List.map_append, List.map_singleton, pairsSet_snoc]
    cases o with
    | set key value =>
      obtain ⟨f, w, hf, -⟩ := hg.first
      obtain ⟨e, d, hp⟩ := setStep_ok hg hf (listed_live hlist hf) hfuel hok (by rw [hr]; rfl)
      exact ⟨hp.listed hf hlist, hp.allocated hnews⟩
    | get key =>
      rw [getStep_ok hl' hg hfuel hok]
      exact ⟨hlist, hnews⟩

/-- Over every run from a well-formed empty cache of any positive capacity, whose
calls meet no fault: read forwards the list holds every pair ever set, the
latest first, and one more node; two entries have been allocated for each
pair, and nothing is freed; and the map still binds no key. -/
theorem cache_never_evicts {s₀ : PoolState} {xs : List (LruOp × (ℤ × Option Int32))}
    (hl : s₀.log = none) (hw : CacheWf s₀.heap cache head tail hm cap [] fun _ => none)
    (hrun : Run (LruCall cache) s₀ xs s) :
    (∃ os z, Chained (nextOf s.heap) (head :: (os ++ [z])) ∧
      List.Forall₂ (Holds s.heap) os (pairsSet (xs.map Prod.fst))) ∧
    (∃ news : List PMEMoid, news.Nodup ∧
      news.length = 2 * (pairsSet (xs.map Prod.fst)).length ∧
      (∀ o ∈ news, s₀.heap o = none ∧ ∃ obj, s.heap o = some obj ∧ obj.kind = .cacheEntry) ∧
      ∀ o ∉ news, (s.heap o = none ↔ s₀.heap o = none)) ∧
    MapIs s.heap hm fun _ => none := by
  obtain ⟨⟨os, z, hchain, hholds, -, -⟩, news, hnodup, hlen, hentries, hold⟩ :=
    run_grows hl hw hrun
  have hg := (run_answers hl (growing_of_wf hw) hrun).2.2
  have hkinds : ∀ o ∈ news, s₀.heap o = none ∧
      ∃ obj, s.heap o = some obj ∧ obj.kind = .cacheEntry := by
    intro o ho
    obtain ⟨hnone, k, hk⟩ := hentries o ho
    exact ⟨hnone, Heap.live_of_get hk⟩
  exact ⟨⟨os, z, hchain, hholds⟩, ⟨news, hnodup, hlen, hkinds, hold⟩, hg.map⟩

end Runs

section Sample

def quietCall (s : PoolState) (o : LruOp) : Option ((ℤ × Option Int32) × PoolState) :=
  match lruStep oneCache o quietEnv s with
  | .ok r s' =>
    if ∀ t ∈ s'.ends.drop s.ends.length, t ≠ .aborted ENOMEM ∧ t ≠ .aborted .crash then
      some (r, s')
    else none
  | _ => none

theorem quietCall_lruCall (s : PoolState) (o : LruOp) (r : ℤ × Option Int32) (s' : PoolState)
    (h : quietCall s o = some (r, s')) : LruCall oneCache s o r s' := by
  unfold quietCall at h
  split at h
  · rename_i hok
    split at h
    · rename_i hgood
      cases h
      refine ⟨quietEnv, Nat.lt_succ_self _, hok, fun c hc => ?_⟩
      rintro (rfl | rfl)
      · exact (hgood _ hc).1 rfl
      · exact (hgood _ hc).2 rfl
    · cases h
  · cases h

def sampleCalls : List (LruOp × (ℤ × Option Int32)) :=
  [(.set 1 5, (0, none)), (.set 2 6, (0, none)), (.get 2, (-1, none)), (.set 1 7, (0, none))]

theorem cache_never_evicts_three : ∃ s, Run (LruCall oneCache) emptyState sampleCalls s ∧
    ∃ o₁ o₂ o₃ z, Chained (nextOf s.heap) [oneHead, o₁, o₂, o₃, z] ∧
      Holds s.heap o₁ (1, 7) ∧ Holds s.heap o₂ (2, 6) ∧ Holds s.heap o₃ (1, 5) := by
  have hends : (replay quietCall emptyState sampleCalls).isSome := by decide +kernel
  obtain ⟨s, hreplay⟩ := Option.isSome_iff_exists.mp hends
  have hrun := replay_run quietCall_lruCall hreplay
  obtain ⟨⟨os, z, hchain, hholds⟩, -⟩ := cache_never_evicts rfl emptyState_wf hrun
  have hpairs : pairsSet (sampleCalls.map Prod.fst) = [(1, 7), (2, 6), (1, 5)] := rfl
  rw [hpairs] at hholds
  cases hholds with
  | cons h₁ hholds =>
    cases hholds with
    | cons h₂ hholds =>
      cases hholds with
      | cons h₃ hrest =>
        cases hrest
        exact ⟨s, hrun, _, _, _, z, hchain, h₁, h₂, h₃⟩

end Sample

end RtsCache.CacheGrowth
