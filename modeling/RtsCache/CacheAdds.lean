import RtsCache.CacheLists

/-!
# Insertions into the list of a cache

`cache_add` is to put its entry between the head and the first node. It puts
a new copy of the first node behind the entry instead, and leaves the backward
links of the old nodes as they are. So the entry is only seen forwards, and
behind it stands a node that was not there before.
-/

set_option autoImplicit false

namespace RtsCache.CacheAdds
open RtsCache.UndoHeap RtsCache.UndoMachine RtsCache.UndoRules RtsCache.UndoWrites
open RtsCache.PoolLayout RtsCache.HashmapMachine RtsCache.HashmapInvariant RtsCache.HashmapRuns
open RtsCache.DoublyLinked RtsCache.CacheMachine RtsCache.CacheInvariant RtsCache.CacheCalls
open RtsCache.CacheOps RtsCache.CacheAborts RtsCache.CacheLists

/-- From `h` to `h'` the entry has been put in front of the list, among the
same nodes as before. -/
structure AddsInFront (h h' : Pool) (head tail : PMEMoid) (es : List CEntry) (entry : PMEMoid) :
    Prop where
  forward : Chained (nextOf h') (head :: entry :: (es.map CEntry.oid ++ [tail]))
  backward : Chained (prevOf h') (head :: entry :: (es.map CEntry.oid ++ [tail])).reverse
  nodes : ∀ o, h' o = none ↔ h o = none

structure FreshEntry (h : Pool) (os : List PMEMoid) (entry : PMEMoid) : Prop where
  outside : entry ∉ os
  prev : ∃ w, h.get entry .prev = some w
  next : ∃ w, h.get entry .next = some w

structure Copied (h h' : Pool) (head entry dummy : PMEMoid) : Prop where
  new : h dummy = none
  live : h' dummy ≠ none
  front : h'.get head .next = some entry
  behind : h'.get entry .next = some dummy

variable {env : PoolEnv} {s s' : PoolState} {h h' : Pool} {cache head tail hm entry dummy : PMEMoid}
  {cap : UInt64} {es : List CEntry}

section Heap

theorem addedHeap_copied (obj : Obj Member) (hw : ListWf h cache head tail hm cap es)
    (he : FreshEntry h (order head tail es) entry) (hd : h dummy = none) :
    Copied h (addedHeap h head entry dummy obj) head entry dummy := by
  have hhead : entry ≠ head := fun heq => he.outside (heq ▸ List.mem_cons_self)
  obtain ⟨first, hfirst, -⟩ := first_of_doubly hw.doubly
  obtain ⟨w, hnext⟩ := he.next
  constructor
  case new => exact hd
  case live =>
    simp only [addedHeap, ne_eq, Heap.put_eq_none, Function.update_self]
    intro hnone
    cases hnone
  case front => exact addedHeap_head_next obj hd hhead hfirst
  case behind => exact addedHeap_entry_next obj hd hhead hnext

theorem addedHeap_backward (obj : Obj Member) (hw : ListWf h cache head tail hm cap es)
    (he : FreshEntry h (order head tail es) entry) (hd : h dummy = none) :
    Chained (prevOf (addedHeap h head entry dummy obj)) (order head tail es).reverse := by
  have hback := ((doubly_iff_chained _).mp hw.doubly).2
  apply List.IsChain.imp_of_mem_imp _ hback
  intro a b ha _ hab
  have hne : a ≠ entry := fun heq => he.outside (heq ▸ List.mem_reverse.mp ha)
  exact addedHeap_prev obj hd hne hab

theorem not_forward (hw : ListWf h cache head tail hm cap es) (hc : Copied h h' head entry dummy) :
    ¬ Chained (nextOf h') (head :: entry :: (es.map CEntry.oid ++ [tail])) := by
  intro hforward
  obtain ⟨first, rest, hrest⟩ := order_cons tail es
  have hold := hw.doubly
  rw [order, hrest] at hold
  rw [hrest] at hforward
  have hprev : h.get first .prev = some head := ((doubly_pair _ _ _).mp hold).1.2
  have hdummy : first ≠ dummy := Heap.ne_of_free hc.new hprev
  have hbehind := ((chained_pair _ _ _).mp hforward).2
  have hlink : h'.get entry .next = some first := ((chained_pair _ _ _).mp hbehind).1
  exact hdummy (Option.some.inj (hlink.symm.trans hc.behind))

theorem not_backward (hn : entry ∉ order head tail es)
    (hold : Chained (prevOf h') (order head tail es).reverse) :
    ¬ Chained (prevOf h') (head :: entry :: (es.map CEntry.oid ++ [tail])).reverse := by
  rw [Chained, List.isChain_reverse] at hold ⊢
  intro hnew
  have hhead : entry ≠ head := fun heq => hn (heq ▸ List.mem_cons_self)
  obtain ⟨first, rest, hrest⟩ := order_cons tail es
  rw [order, hrest] at hold
  rw [hrest] at hnew
  have hbehind := (List.isChain_cons_cons.mp hnew).2
  have hentry := (List.isChain_cons_cons.mp hbehind).1
  have hfirst := (List.isChain_cons_cons.mp hold).1
  exact hhead (Option.some.inj (hentry.symm.trans hfirst))

end Heap

section Code

theorem cacheAdd_added {r : ℤ} (hw : ListWf s.heap cache head tail hm cap es)
    (he : FreshEntry s.heap (order head tail es) entry)
    (hrun : cacheAdd cache entry env s = .ok r s') (hc : Commits s s') :
    r = 0 ∧ ∃ dummy obj, s.heap dummy = none ∧ s'.heap = addedHeap s.heap head entry dummy obj := by
  obtain ⟨hr, _, s₁, s₂, e₁, l₁, hbody, e₂⟩ :=
    checked_committed hw (fun o => by cases o <;> rfl) hrun hc
  obtain ⟨first, hf, hfp⟩ := first_of_doubly hw.doubly
  obtain ⟨w₁, hprev⟩ := he.prev
  obtain ⟨w₂, hnext⟩ := he.next
  rw [e₂]
  rw [← e₁] at hf hfp hprev hnext ⊢
  have hadded := wp_result (wp_cacheAddBody l₁ (e₁ ▸ hw.fields) hf hfp hprev hnext) hbody
  exact ⟨hr, hadded.heap⟩

/-- No `cache_add` of a fresh entry that goes through puts the entry in front
of the list: the node behind the entry is new, and read backwards the list is
the old one. -/
theorem cacheAdd_never_in_front {r : ℤ} (hw : ListWf s.heap cache head tail hm cap es)
    (he : FreshEntry s.heap (order head tail es) entry)
    (hrun : cacheAdd cache entry env s = .ok r s') (hc : Commits s s') :
    ¬ AddsInFront s.heap s'.heap head tail es entry ∧ r = 0 ∧
      (∃ dummy, Copied s.heap s'.heap head entry dummy) ∧
      Chained (prevOf s'.heap) (order head tail es).reverse ∧
      ¬ Chained (nextOf s'.heap) (head :: entry :: (es.map CEntry.oid ++ [tail])) ∧
      ¬ Chained (prevOf s'.heap) (head :: entry :: (es.map CEntry.oid ++ [tail])).reverse := by
  obtain ⟨hr, dummy, obj, hd, hheap⟩ := cacheAdd_added hw he hrun hc
  have hcopied := addedHeap_copied obj hw he hd
  have hback := addedHeap_backward obj hw he hd
  rw [← hheap] at hcopied hback
  have hforward := not_forward hw hcopied
  exact ⟨fun ha => hforward ha.forward, hr, ⟨dummy, hcopied⟩, hback, hforward,
    not_backward he.outside hback⟩

end Code

section Sample

def freshEntry : PMEMoid := ⟨1, 1280⟩

def freshHeap : Pool := fun o =>
  if o = freshEntry then some ⟨.cacheEntry, 48, fun m => m.zero⟩ else oneHeap o

def freshState : PoolState := ⟨freshHeap, none, 0, 0, []⟩

theorem freshHeap_wf : ListWf freshHeap oneCache oneHead oneTail newMap 2 [⟨oneEntry, 1, 5⟩] where
  fields := ⟨rfl, rfl, rfl, rfl, rfl, rfl⟩
  map := ⟨1, rfl⟩
  doubly := (doubly_pair _ _ _).mpr ⟨⟨rfl, rfl⟩, (doubly_pair _ _ _).mpr
    ⟨⟨rfl, rfl⟩, List.isChain_singleton _⟩⟩
  distinct := by decide
  entries e he := by
    cases List.mem_singleton.mp he
    exact ⟨rfl, rfl, rfl⟩

theorem freshHeap_fresh :
    FreshEntry freshHeap (order oneHead oneTail [⟨oneEntry, 1, 5⟩]) freshEntry :=
  ⟨by decide, ⟨oidNull, rfl⟩, ⟨oidNull, rfl⟩⟩

/-- Behind the new entry stands a copy of the old one. -/
theorem not_in_front_one :
    ListWf freshState.heap oneCache oneHead oneTail newMap 2 [⟨oneEntry, 1, 5⟩] ∧
    FreshEntry freshState.heap (order oneHead oneTail [⟨oneEntry, 1, 5⟩]) freshEntry ∧
    ∃ s', cacheAdd oneCache freshEntry quietEnv freshState = .ok 0 s' ∧
      s'.ends = freshState.ends ++ [.committed] ∧
      ¬ AddsInFront freshState.heap s'.heap oneHead oneTail [⟨oneEntry, 1, 5⟩] freshEntry := by
  obtain ⟨s', hrun, hends, hbehind⟩ : ∃ s',
      cacheAdd oneCache freshEntry quietEnv freshState = .ok 0 s' ∧ s'.ends = [.committed] ∧
      s'.heap.get freshEntry .next = some (quietEnv.place 4) :=
    ⟨_, rfl, rfl, rfl⟩
  have hnot : ¬ AddsInFront freshState.heap s'.heap oneHead oneTail [⟨oneEntry, 1, 5⟩]
      freshEntry := by
    intro ha
    have hrest := ((chained_pair _ _ _).mp ha.forward).2
    have hlink : s'.heap.get freshEntry .next = some oneEntry := ((chained_pair _ _ _).mp hrest).1
    have hne : quietEnv.place 4 ≠ oneEntry := by decide
    exact hne (Option.some.inj (hbehind.symm.trans hlink))
  exact ⟨freshHeap_wf, freshHeap_fresh, s', hrun, hends, hnot⟩

theorem cacheAdd_never_in_front_one :
    ∃ s', cacheAdd oneCache freshEntry quietEnv freshState = .ok 0 s' ∧
      ¬ Chained (nextOf s'.heap) [oneHead, freshEntry, oneEntry, oneTail] := by
  obtain ⟨s', hrun, hends⟩ : ∃ s',
      cacheAdd oneCache freshEntry quietEnv freshState = .ok 0 s' ∧ s'.ends = [.committed] :=
    ⟨_, rfl, rfl⟩
  have hall := cacheAdd_never_in_front (s := freshState) freshHeap_wf freshHeap_fresh hrun
    fun _ => hends
  exact ⟨s', hrun, hall.2.2.2.2.1⟩

end Sample

end RtsCache.CacheAdds
