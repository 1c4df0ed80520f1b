import RtsCache.CacheLists

/-!
# Deletions from the list of a cache

A `cache_delete` that goes through writes two links, one of either neighbour,
and frees its entry. What is left reads as the old sequence without the entry,
forwards and backwards, so two deletions meet in the same list whichever
comes first.
-/

set_option autoImplicit false

namespace RtsCache.CacheDeletes
open RtsCache.UndoHeap RtsCache.UndoMachine RtsCache.UndoRules RtsCache.UndoWrites
open RtsCache.PoolLayout RtsCache.HashmapMachine RtsCache.HashmapInvariant RtsCache.DoublyLinked
open RtsCache.CacheMachine RtsCache.CacheInvariant RtsCache.CacheCalls RtsCache.CacheAborts
open RtsCache.CacheLists RtsCache.HashmapRuns

/-- From `h` to `h'` exactly the entry at `x` has gone. -/
structure Erases (h h' : Pool) (cache head tail hm : PMEMoid) (cap : UInt64) (es : List CEntry)
    (x : PMEMoid) : Prop where
  live : ∃ obj, h x = some obj
  frees : ∀ o, h' o = none ↔ h o = none ∨ o = x
  list : ListWf h' cache head tail hm cap (without es x)
  forward : Chained (nextOf h') ((order head tail es).erase x)
  backward : Chained (prevOf h') ((order head tail es).erase x).reverse
  frame : ∀ o f, o ≠ x → ¬ LinkOf (order head tail es) o f → h'.get o f = h.get o f

/-- A `cache_delete` of `x` that is not rolled back leads from `s` to `s'`. -/
def Deletes (cache x : PMEMoid) (s s' : PoolState) : Prop :=
  ∃ env r, cacheDelete cache x env s = .ok r s' ∧ Commits s s'

variable {env : PoolEnv} {s s' : PoolState} {h h₁ h₂ k₁ k₂ : Pool}
  {cache head tail hm p q : PMEMoid} {cap : UInt64} {es : List CEntry} {x : CEntry}

section Heap

theorem deletedHeap_eq_none {x o : PMEMoid} :
    deletedHeap h x p q o = none ↔ h o = none ∨ o = x := by
  by_cases hx : o = x
  · simp [deletedHeap, hx]
  · rw [deletedHeap, Function.update_of_ne hx, unlinked, Heap.put_eq_none, Heap.put_eq_none]
    simp [hx]

theorem deletedHeap_get {x o : PMEMoid} {f : Member} (hx : o ≠ x) (hq : o ≠ q ∨ f ≠ .prev)
    (hp : o ≠ p ∨ f ≠ .next) : (deletedHeap h x p q).get o f = h.get o f := by
  have hfirst : (h.put q .prev p).get o f = h.get o f := by
    rcases hq with ho | hf
    · exact Heap.get_put_of_ne _ _ _ _ ho
    · exact Heap.get_put_other _ _ _ _ hf
  rw [deletedHeap, Heap.get_congr (Function.update_of_ne hx _ _), unlinked, ← hfirst]
  rcases hp with ho | hf
  · exact Heap.get_put_of_ne _ _ _ _ ho
  · exact Heap.get_put_other _ _ _ _ hf

theorem linkOf_order {o : PMEMoid} {f : Member} : LinkOf (order head tail es) o f ↔
    (f = .next ∧ (o = head ∨ o ∈ es.map CEntry.oid)) ∨
      (f = .prev ∧ (o ∈ es.map CEntry.oid ∨ o = tail)) := by
  have hlast : (order head tail es).dropLast = head :: es.map CEntry.oid := by
    rw [order, ← List.cons_append, List.dropLast_concat]
  rw [LinkOf, hlast, order, List.tail_cons, List.mem_cons, List.mem_append, List.mem_singleton]

theorem linkOf_without {o y : PMEMoid} {f : Member} (ho : o ≠ y) :
    LinkOf (order head tail (without es y)) o f ↔ LinkOf (order head tail es) o f := by
  have hmem : o ∈ (without es y).map CEntry.oid ↔ o ∈ es.map CEntry.oid := by
    simp only [List.mem_map, mem_without]
    constructor
    · rintro ⟨e, ⟨he, -⟩, rfl⟩
      exact ⟨e, he, rfl⟩
    · rintro ⟨e, he, rfl⟩
      exact ⟨e, ⟨he, ho⟩, rfl⟩
  rw [linkOf_order, linkOf_order, hmem]

theorem frame_of_split {A B : List PMEMoid} {o : PMEMoid} {f : Member}
    (ho : order head tail es = A ++ p::x.oid::q::B) (hx : o ≠ x.oid)
    (hl : ¬ LinkOf (order head tail es) o f) :
    (deletedHeap h x.oid p q).get o f = h.get o f := by
  have hp : p ∈ (order head tail es).dropLast := by
    rw [ho, List.dropLast_append_cons]
    simp
  have hq : q ∈ (order head tail es).tail := by
    rw [ho]
    cases A <;> simp
  apply deletedHeap_get hx
  · by_contra hn
    rw [not_or, not_not, not_not] at hn
    exact hl (Or.inr ⟨hn.2, hn.1 ▸ hq⟩)
  · by_contra hn
    rw [not_or, not_not, not_not] at hn
    exact hl (Or.inl ⟨hn.2, hn.1 ▸ hp⟩)

theorem erases_deletedHeap (hw : ListWf h cache head tail hm cap es) (hx : x ∈ es) :
    ∃ p q, Around h p x.oid q ∧
      Erases h (deletedHeap h x.oid p q) cache head tail hm cap es x.oid := by
  have herase := order_without hw.distinct hx
  obtain ⟨pre, post, rfl⟩ := List.append_of_mem hx
  have hrest := without_split hw.distinct
  obtain ⟨A, p, q, B, ho, ho'⟩ := order_split head tail pre post x
  have hlist := listWf_delete hw ho ho'
  rw [← hrest] at hlist
  have hread := (doubly_iff_chained _).mp hlist.doubly
  rw [herase] at hread
  obtain ⟨obj, hobj, -⟩ := Heap.live_of_get (hw.entries x hx).key
  exact ⟨p, q, around_of_doubly (ho ▸ hw.doubly), ⟨obj, hobj⟩, fun o => deletedHeap_eq_none, hlist,
    hread.1, hread.2, fun o f => frame_of_split ho⟩

/-- Whichever of two entries goes first, in the end every cell reads the same. -/
theorem erases_comm {x y : PMEMoid} (hx : Erases h h₁ cache head tail hm cap es x)
    (hxy : Erases h₁ h₂ cache head tail hm cap (without es x) y)
    (hy : Erases h k₁ cache head tail hm cap es y)
    (hyx : Erases k₁ k₂ cache head tail hm cap (without es y) x) (o : PMEMoid) (f : Member) :
    h₂.get o f = k₂.get o f := by
  have hgone : o = x ∨ o = y → h₂.get o f = k₂.get o f := by
    intro ho
    have hnone₂ : h₂ o = none := by
      rw [hxy.frees, hx.frees]
      tauto
    have hnone₂' : k₂ o = none := by
      rw [hyx.frees, hy.frees]
      tauto
    rw [Heap.get, Heap.get, hnone₂, hnone₂']
  by_cases hox : o = x
  · exact hgone (Or.inl hox)
  by_cases hoy : o = y
  · exact hgone (Or.inr hoy)
  -- A link of the list is determined by the list; every other cell is as it was.
  by_cases hl : LinkOf (order head tail (without (without es x) y)) o f
  · have hread := (doubly_iff_chained _).mp hxy.list.doubly
    have hread' := (doubly_iff_chained _).mp hyx.list.doubly
    rw [without_comm es y x] at hread'
    rcases hl with ⟨rfl, hmem⟩ | ⟨rfl, hmem⟩
    · exact chained_agree _ hread.1 hread'.1 o hmem
    · have hrev : o ∈ (order head tail (without (without es x) y)).reverse.dropLast := by
        rw [List.dropLast_reverse, List.mem_reverse]
        exact hmem
      exact chained_agree _ hread.2 hread'.2 o hrev
  · have hlx : ¬ LinkOf (order head tail (without es x)) o f := mt (linkOf_without hoy).mpr hl
    have hles : ¬ LinkOf (order head tail es) o f := mt (linkOf_without hox).mpr hlx
    have hly : ¬ LinkOf (order head tail (without es y)) o f := mt (linkOf_without hoy).mp hles
    calc
      _ = h₁.get o f := hxy.frame o f hoy hlx
      _ = h.get o f := hx.frame o f hox hles
      _ = k₁.get o f := (hy.frame o f hoy hles).symm
      _ = _ := (hyx.frame o f hox hly).symm

end Heap

section Code

theorem cacheDeleteBody_ok {x : PMEMoid} (har : Around s.heap p x q) (hx : x.isNull = false)
    (hrun : cacheDeleteBody cache x env s = .ok () s') : s'.heap = deletedHeap s.heap x p q := by
  obtain ⟨_, s₁, h₁, hrun₁⟩ := bind_ok hrun
  have e₁ := addFields_ok h₁
  obtain ⟨delNext, s₂, h₂, hrun₂⟩ := bind_ok hrun₁
  obtain ⟨hnext, hs₂⟩ := load_ok h₂
  obtain ⟨delPrev, s₃, h₃, hrun₃⟩ := bind_ok hrun₂
  obtain ⟨hprev, hs₃⟩ := load_ok h₃
  subst hs₃ hs₂
  rw [e₁] at hnext hprev
  obtain rfl : q = delNext := Option.some.inj (har.next.symm.trans hnext)
  obtain rfl : p = delPrev := Option.some.inj (har.prev.symm.trans hprev)
  obtain ⟨_, s₄, h₄, hrun₄⟩ := bind_ok hrun₃
  have e₄ := (store_ok h₄).2
  obtain ⟨_, s₅, h₅, h₆⟩ := bind_ok hrun₄
  have e₅ := (store_ok h₅).2
  have e₆ := (txFree_ok hx h₆).2
  rw [e₆, e₅, e₄, e₁]
  rfl

theorem cacheDelete_erases {r : ℤ} (hw : ListWf s.heap cache head tail hm cap es) (hx : x ∈ es)
    (hrun : cacheDelete cache x.oid env s = .ok r s') (hc : Commits s s') :
    r = 0 ∧ Erases s.heap s'.heap cache head tail hm cap es x.oid := by
  obtain ⟨hr, _, s₁, s₂, e₁, -, hbody, e₂⟩ :=
    checked_committed hw (fun o => by cases o <;> rfl) hrun hc
  obtain ⟨p, q, haround, herases⟩ := erases_deletedHeap hw hx
  rw [← e₁] at haround
  have hheap := cacheDeleteBody_ok haround (hw.entries x hx).notNull hbody
  rw [e₂, hheap, e₁]
  exact ⟨hr, herases⟩

theorem cacheDelete_returns (env : PoolEnv) (hl : s.log = none)
    (hw : ListWf s.heap cache head tail hm cap es) (hx : x ∈ es) :
    ∃ r s', cacheDelete cache x.oid env s = .ok r s' := by
  obtain ⟨p, q, haround, -⟩ := erases_deletedHeap hw hx
  have hwp : wp env (cacheDelete cache x.oid) (fun _ _ => True) (fun _ _ => False) s := by
    rw [cacheDelete, wp_bind]
    apply wp_check hw
    rw [if_neg (by simp), wp_bind]
    apply wp_transaction_top hl
    · trivial
    · apply wp_mono (wp_cacheDeleteBody (s := s.tick.opened) rfl hw.fields haround
        (hw.entries x hx).notNull (uncovered_opened _))
      · exact fun _ _ _ => ⟨fun _ => trivial, trivial⟩
      · exact fun _ _ _ => trivial
  obtain ⟨r, s', hrun, -⟩ := wp_returns hwp
  exact ⟨r, s', hrun⟩

/-- A `cache_delete` of any entry of a well-formed list, if it is not rolled
back, returns 0 and erases exactly that entry; and two of them leave the same
list in either order. -/
theorem cacheDelete_unlinks (hw : ListWf s.heap cache head tail hm cap es) (hx : x ∈ es) :
    (∀ env r s', cacheDelete cache x.oid env s = .ok r s' → Commits s s' →
      r = 0 ∧ Erases s.heap s'.heap cache head tail hm cap es x.oid) ∧
    (s.log = none → ∀ env, ∃ r s', cacheDelete cache x.oid env s = .ok r s') ∧
    ∀ y ∈ es, y.oid ≠ x.oid → ∀ s₁ s₂ t₁ t₂,
      Deletes cache x.oid s s₁ → Deletes cache y.oid s₁ s₂ →
      Deletes cache y.oid s t₁ → Deletes cache x.oid t₁ t₂ →
      ListWf s₂.heap cache head tail hm cap (without (without es x.oid) y.oid) ∧
      ListWf t₂.heap cache head tail hm cap (without (without es x.oid) y.oid) ∧
      ∀ o f, s₂.heap.get o f = t₂.heap.get o f := by
  constructor
  · intro env r s' hrun hc
    exact cacheDelete_erases hw hx hrun hc
  constructor
  · intro hl env
    exact cacheDelete_returns env hl hw hx
  · rintro y hy hne s₁ s₂ t₁ t₂ ⟨env₁, r₁, h₁, c₁⟩ ⟨env₂, r₂, h₂, c₂⟩ ⟨env₃, r₃, h₃, c₃⟩
      ⟨env₄, r₄, h₄, c₄⟩
    have hx₁ := (cacheDelete_erases hw hx h₁ c₁).2
    have hy₁ := (cacheDelete_erases hw hy h₃ c₃).2
    have hx₂ := (cacheDelete_erases hx₁.list (mem_without.mpr ⟨hy, hne⟩) h₂ c₂).2
    have hy₂ := (cacheDelete_erases hy₁.list (mem_without.mpr ⟨hx, hne.symm⟩) h₄ c₄).2
    have hlist := hy₂.list
    rw [without_comm es y.oid x.oid] at hlist
    exact ⟨hx₂.list, hlist, erases_comm hx₁ hx₂ hy₁ hy₂⟩

end Code

section Sample

def twoEntry : PMEMoid := ⟨1, 1280⟩

def twoHeap : Pool := cacheHeap oneEntry twoEntry fun o =>
  if o = oneEntry then
    some ⟨.cacheEntry, 48, fun
      | ._key => (1 : UInt64)
      | ._value => (5 : Int32)
      | .prev => oneHead
      | .next => twoEntry
      | m => m.zero⟩
  else if o = twoEntry then
    some ⟨.cacheEntry, 48, fun
      | ._key => (2 : UInt64)
      | ._value => (6 : Int32)
      | .prev => oneEntry
      | .next => oneTail
      | m => m.zero⟩
  else entryHeap o

def twoState : PoolState := ⟨twoHeap, none, 0, 0, []⟩

theorem twoHeap_wf : ListWf twoHeap oneCache oneHead oneTail newMap 2
    [⟨oneEntry, 1, 5⟩, ⟨twoEntry, 2, 6⟩] where
  fields := ⟨rfl, rfl, rfl, rfl, rfl, rfl⟩
  map := ⟨1, rfl⟩
  doubly := (doubly_pair _ _ _).mpr ⟨⟨rfl, rfl⟩, (doubly_pair _ _ _).mpr ⟨⟨rfl, rfl⟩,
    (doubly_pair _ _ _).mpr ⟨⟨rfl, rfl⟩, List.isChain_singleton _⟩⟩⟩
  distinct := by decide
  entries e he := by
    rcases List.mem_cons.mp he with rfl | he
    · exact ⟨rfl, rfl, rfl⟩
    · cases List.mem_singleton.mp he
      exact ⟨rfl, rfl, rfl⟩

theorem cacheDelete_unlinks_two : ∃ s₁ s₂ t₁ t₂,
    (Deletes oneCache oneEntry twoState s₁ ∧ Deletes oneCache twoEntry s₁ s₂) ∧
    (Deletes oneCache twoEntry twoState t₁ ∧ Deletes oneCache oneEntry t₁ t₂) ∧
    Erases twoHeap s₁.heap oneCache oneHead oneTail newMap 2
      [⟨oneEntry, 1, 5⟩, ⟨twoEntry, 2, 6⟩] oneEntry ∧
    ∀ o f, s₂.heap.get o f = t₂.heap.get o f := by
  obtain ⟨s₁, h₁, c₁, s₂, h₂, c₂⟩ : ∃ s₁,
      cacheDelete oneCache oneEntry quietEnv twoState = .ok 0 s₁ ∧ s₁.ends = [.committed] ∧
      ∃ s₂, cacheDelete oneCache twoEntry quietEnv s₁ = .ok 0 s₂ ∧
        s₂.ends = [.committed, .committed] := ⟨_, rfl, rfl, _, rfl, rfl⟩
  obtain ⟨t₁, h₃, c₃, t₂, h₄, c₄⟩ : ∃ t₁,
      cacheDelete oneCache twoEntry quietEnv twoState = .ok 0 t₁ ∧ t₁.ends = [.committed] ∧
      ∃ t₂, cacheDelete oneCache oneEntry quietEnv t₁ = .ok 0 t₂ ∧
        t₂.ends = [.committed, .committed] := ⟨_, rfl, rfl, _, rfl, rfl⟩
  have hc₁ : Commits twoState s₁ := fun _ => c₁
  have hc₂ : Commits s₁ s₂ := fun _ => by rw [c₂, c₁]; rfl
  have hc₃ : Commits twoState t₁ := fun _ => c₃
  have hc₄ : Commits t₁ t₂ := fun _ => by rw [c₄, c₃]; rfl
  have hall := cacheDelete_unlinks (s := twoState) (x := ⟨oneEntry, 1, 5⟩) twoHeap_wf (by simp)
  have hswap := hall.2.2 ⟨twoEntry, 2, 6⟩ (by simp) (by decide) s₁ s₂ t₁ t₂
    ⟨quietEnv, 0, h₁, hc₁⟩ ⟨quietEnv, 0, h₂, hc₂⟩ ⟨quietEnv, 0, h₃, hc₃⟩ ⟨quietEnv, 0, h₄, hc₄⟩
  exact ⟨s₁, s₂, t₁, t₂, ⟨⟨quietEnv, 0, h₁, hc₁⟩, ⟨quietEnv, 0, h₂, hc₂⟩⟩,
    ⟨⟨quietEnv, 0, h₃, hc₃⟩, ⟨quietEnv, 0, h₄, hc₄⟩⟩, (hall.1 quietEnv 0 s₁ h₁ hc₁).2,
    hswap.2.2⟩

end Sample

end RtsCache.CacheDeletes
