import RtsCache.CacheMachine
import RtsCache.HashmapOps
import RtsCache.DoublyLinked

/-!
# The invariant of the cache

A well-formed cache links its entries both ways between the two sentinels and
its map binds exactly their keys, each to its entry. Dropping an entry from
the map and from the list keeps all of this.
-/

set_option autoImplicit false

namespace RtsCache.CacheInvariant
open RtsCache.UndoHeap RtsCache.UndoMachine RtsCache.UndoRules RtsCache.PoolLayout
open RtsCache.HashmapMachine RtsCache.HashmapInvariant RtsCache.DoublyLinked
open RtsCache.CacheMachine

structure CEntry where
  oid : PMEMoid
  key : UInt64
  value : Int32

structure EntryAt (h : Pool) (e : CEntry) : Prop where
  notNull : e.oid.isNull = false
  key : h.get e.oid ._key = some e.key
  value : h.get e.oid ._value = some e.value

def nextOf (h : Pool) (o : PMEMoid) : Option PMEMoid := h.get o .next

def prevOf (h : Pool) (o : PMEMoid) : Option PMEMoid := h.get o .prev

def order (head tail : PMEMoid) (es : List CEntry) : List PMEMoid :=
  head :: (es.map CEntry.oid ++ [tail])

structure CacheAt (h : Pool) (cache head tail hm : PMEMoid) (cap : UInt64) : Prop where
  notNull : cache.isNull = false
  head : h.get cache .head = some head
  tail : h.get cache .tail = some tail
  capacity : h.get cache .capacity = some cap
  hashmap : h.get cache .hashmap = some hm
  hmNotNull : hm.isNull = false

structure CacheWf (h : Pool) (cache head tail hm : PMEMoid) (cap : UInt64) (es : List CEntry)
    (m : UInt64 → Option PMEMoid) : Prop where
  fields : CacheAt h cache head tail hm cap
  doubly : Doubly (nextOf h) (prevOf h) (order head tail es)
  distinct : (order head tail es).Nodup
  entries : ∀ e ∈ es, EntryAt h e
  keys : (es.map CEntry.key).Nodup
  map : MapIs h hm m
  binds : ∀ k o, m k = some o ↔ ∃ e ∈ es, e.key = k ∧ e.oid = o
  bounded : es.length ≤ cap.toNat
  positive : 1 ≤ cap.toNat

/-- A well-formed list, whatever the map binds. -/
structure ListWf (h : Pool) (cache head tail hm : PMEMoid) (cap : UInt64) (es : List CEntry) :
    Prop where
  fields : CacheAt h cache head tail hm cap
  map : ∃ n : UInt64, h.get hm .count = some n
  doubly : Doubly (nextOf h) (prevOf h) (order head tail es)
  distinct : (order head tail es).Nodup
  entries : ∀ e ∈ es, EntryAt h e

def ListKind (k : Kind) : Prop := k = .cacheEntry ∨ k = .cache

theorem CacheAt.keeps {h h' : Pool} {cache head tail hm : PMEMoid} {cap : UInt64}
    (hc : CacheAt h cache head tail hm cap)
    (hk : ∀ f v, f.kind = .cache → h.get cache f = some v → h'.get cache f = some v) :
    CacheAt h' cache head tail hm cap :=
  ⟨hc.notNull, hk _ _ rfl hc.head, hk _ _ rfl hc.tail, hk _ _ rfl hc.capacity,
    hk _ _ rfl hc.hashmap, hc.hmNotNull⟩

def unlinked (h : Pool) (p q : PMEMoid) : Pool :=
  let h₁ : Pool := h.put q .prev p
  h₁.put p .next q

def deletedHeap (h : Pool) (x p q : PMEMoid) : Pool := Function.update (unlinked h p q) x none

theorem unlinked_keeps (h : Pool) (p q : PMEMoid) :
    Heap.Keeps (fun o f => (o ≠ q ∨ f ≠ .prev) ∧ (o ≠ p ∨ f ≠ .next)) h (unlinked h p q) :=
  fun _ _ _ ho hv => Heap.keeps_put _ _ _ _ _ _ _ ho.2 (Heap.keeps_put _ _ _ _ _ _ _ ho.1 hv)

theorem deletedHeap_keeps (h : Pool) (x p q : PMEMoid) :
    Heap.Keeps (fun o f => o ≠ x ∧ (o ≠ q ∨ f ≠ .prev) ∧ (o ≠ p ∨ f ≠ .next)) h
      (deletedHeap h x p q) :=
  fun _ _ _ ho hv => Heap.keeps_free _ _ _ _ _ ho.1 (unlinked_keeps h p q _ _ _ ho.2 hv)

structure Around (h : Pool) (p x q : PMEMoid) : Prop where
  prevNext : h.get p .next = some x
  prev : h.get x .prev = some p
  next : h.get x .next = some q
  nextPrev : h.get q .prev = some x

theorem order_cons (tail : PMEMoid) (es : List CEntry) :
    ∃ first rest, es.map CEntry.oid ++ [tail] = first::rest := by
  cases es with
  | nil => exact ⟨tail, [], rfl⟩
  | cons e es => exact ⟨e.oid, es.map CEntry.oid ++ [tail], rfl⟩

theorem order_split (head tail : PMEMoid) (pre post : List CEntry) (x : CEntry) :
    ∃ A p q B, order head tail (pre ++ x::post) = A ++ p::x.oid::q::B ∧
      order head tail (pre ++ post) = A ++ p::q::B := by
  obtain ⟨A, p, hA⟩ : ∃ A p, head :: pre.map CEntry.oid = A ++ [p] := by
    rcases pre.eq_nil_or_concat' with rfl | ⟨pre, y, rfl⟩
    · exact ⟨[], head, rfl⟩
    · exact ⟨head :: pre.map CEntry.oid, y.oid, by simp⟩
  obtain ⟨q, B, hB⟩ := order_cons tail post
  refine ⟨A, p, q, B, ?_, ?_⟩
  · calc
      _ = (head :: pre.map CEntry.oid) ++ x.oid :: (post.map CEntry.oid ++ [tail]) := by
        simp [order]
      _ = _ := by rw [hA, hB, List.append_assoc, List.singleton_append]
  · calc
      _ = (head :: pre.map CEntry.oid) ++ (post.map CEntry.oid ++ [tail]) := by simp [order]
      _ = _ := by rw [hA, hB, List.append_assoc, List.singleton_append]

theorem around_of_doubly {h : Pool} {A B : List PMEMoid} {p x q : PMEMoid}
    (hd : Doubly (nextOf h) (prevOf h) (A ++ p::x::q::B)) : Around h p x q := by
  obtain ⟨-, hr⟩ := (doubly_append _ _ _).mp hd
  obtain ⟨⟨h₁, h₂⟩, hr⟩ := (doubly_pair _ _ _).mp hr
  obtain ⟨⟨h₃, h₄⟩, -⟩ := (doubly_pair _ _ _).mp hr
  exact ⟨h₁, h₂, h₃, h₄⟩

theorem count_get {h : Pool} {hm : PMEMoid} {m : UInt64 → Option PMEMoid} (hm' : MapIs h hm m) :
    ∃ n : UInt64, h.get hm .count = some n := by
  obtain ⟨bs, a, b, p, n, T, ht, -⟩ := hm'
  exact ⟨_, ht.count⟩

theorem order_erase (head tail : PMEMoid) (pre post : List CEntry) (x : CEntry) :
    (order head tail (pre ++ post)).Sublist (order head tail (pre ++ x::post)) := by
  have hsub : (pre ++ post).Sublist (pre ++ x::post) :=
    List.Sublist.append_left (List.sublist_cons_self x post) pre
  exact List.Sublist.cons_cons head (List.Sublist.append_right (hsub.map CEntry.oid) [tail])

section Wf
variable {h h₁ : Pool} {cache head tail hm : PMEMoid} {cap : UInt64} {es pre post : List CEntry}
  {m : UInt64 → Option PMEMoid} {x : CEntry}

theorem CacheWf.length_eq (hw : CacheWf h cache head tail hm cap es m) {bs : PMEMoid}
    {a b : UInt32} {p n : UInt64} {T : ℕ → List Node} (ht : Table h hm bs a b p n T)
    (hm' : m = HashmapInvariant.binds (nodes n.toNat T)) :
    (nodes n.toNat T).length = es.length := by
  have hperm : ((nodes n.toNat T).map Node.key).Perm (es.map CEntry.key) := by
    apply (List.perm_ext_iff_of_nodup ht.distinct hw.keys).mpr
    intro k
    have hnone : m k = none ↔ k ∉ (nodes n.toNat T).map Node.key := hm' ▸ binds_eq_none
    constructor
    · intro hk
      obtain ⟨o, ho⟩ := Option.ne_none_iff_exists'.mp fun hn => hnone.mp hn hk
      obtain ⟨e, he, rfl, -⟩ := (hw.binds k o).mp ho
      exact List.mem_map_of_mem he
    · intro hk
      obtain ⟨e, he, rfl⟩ := List.mem_map.mp hk
      by_contra hno
      have := (hw.binds e.key e.oid).mpr ⟨e, he, rfl, rfl⟩
      rw [hnone.mpr hno] at this
      cases this
  simpa using hperm.length_eq

theorem entry_ne (hn : (order head tail (pre ++ x::post)).Nodup) {e : CEntry}
    (he : e ∈ pre ++ post) : e.oid ≠ x.oid := by
  have hoids : ((pre ++ x::post).map CEntry.oid).Nodup :=
    (List.nodup_append.mp (List.nodup_cons.mp hn).2).1
  have hp : (pre ++ x::post).Perm (x :: (pre ++ post)) := List.perm_middle
  have hx := (List.nodup_cons.mp ((hp.map CEntry.oid).nodup_iff.mp hoids)).1
  exact fun heq => hx (heq ▸ List.mem_map_of_mem he)

theorem CacheWf.key_ne (hw : CacheWf h cache head tail hm cap (pre ++ x::post) m) {e : CEntry}
    (he : e ∈ pre ++ post) : e.key ≠ x.key := by
  have hp : (pre ++ x::post).Perm (x :: (pre ++ post)) := List.perm_middle
  have hx := (List.nodup_cons.mp ((hp.map CEntry.key).nodup_iff.mp hw.keys)).1
  exact fun heq => hx (heq ▸ List.mem_map_of_mem he)

theorem CacheWf.list (hw : CacheWf h cache head tail hm cap es m) :
    ListWf h cache head tail hm cap es :=
  ⟨hw.fields, count_get hw.map, hw.doubly, hw.distinct, hw.entries⟩

theorem CacheWf.split (hw : CacheWf h cache head tail hm cap (pre ++ x::post) m) :
    ∃ A p q B, order head tail (pre ++ x::post) = A ++ p::x.oid::q::B ∧
      order head tail (pre ++ post) = A ++ p::q::B ∧ Around h p x.oid q ∧ q ≠ x.oid := by
  obtain ⟨A, p, q, B, ho, ho'⟩ := order_split head tail pre post x
  have hdoubly := hw.doubly
  have hnodup := hw.distinct
  rw [ho] at hdoubly hnodup
  have hqx : q ≠ x.oid := by
    rintro rfl
    simp [List.nodup_append] at hnodup
  exact ⟨A, p, q, B, ho, ho', around_of_doubly hdoubly, hqx⟩

theorem CacheWf.binds_erase (hw : CacheWf h cache head tail hm cap (pre ++ x::post) m)
    (k : UInt64) (o : PMEMoid) : Function.update m x.key none k = some o ↔
      ∃ e ∈ pre ++ post, e.key = k ∧ e.oid = o := by
  by_cases hkx : k = x.key
  · subst hkx
    rw [Function.update_self]
    constructor
    · intro h
      cases h
    · rintro ⟨e, he, hek, -⟩
      exact absurd hek (hw.key_ne he)
  · rw [Function.update_of_ne hkx, hw.binds]
    constructor
    · rintro ⟨e, he, rfl, rfl⟩
      have hex : e ≠ x := fun h => hkx (h ▸ rfl)
      have hmem : e ∈ pre ++ post := by simpa [hex] using he
      exact ⟨e, hmem, rfl, rfl⟩
    · rintro ⟨e, he, rfl, rfl⟩
      have hmem : e ∈ pre ++ x::post :=
        (List.Sublist.append_left (List.sublist_cons_self x post) pre).subset he
      exact ⟨e, hmem, rfl, rfl⟩

theorem doubly_deletedHeap {A B : List PMEMoid} {p x q : PMEMoid}
    (hnodup : (A ++ p::x::q::B).Nodup) (hd : Doubly (nextOf h) (prevOf h) (A ++ p::x::q::B)) :
    Doubly (nextOf (deletedHeap h x p q)) (prevOf (deletedHeap h x p q)) (A ++ p::q::B) := by
  have haround := around_of_doubly hd
  have hkeep := deletedHeap_keeps h x p q
  have hpx : p ≠ x := by
    rintro rfl
    simp [List.nodup_append] at hnodup
  have hqx : q ≠ x := by
    rintro rfl
    simp [List.nodup_append] at hnodup
  apply doubly_unlink A B p x q hnodup hd
  · intro a b hap hax hab
    exact hkeep _ _ _ ⟨hax, Or.inr (by decide), Or.inl hap⟩ hab
  · intro a b haq hax hab
    exact hkeep _ _ _ ⟨hax, Or.inl haq, Or.inr (by decide)⟩ hab
  · have hput : (h.put q .prev p).get p .next = some x := by
      rw [Heap.get_put_other _ _ _ _ (by decide)]
      exact haround.prevNext
    rw [nextOf, deletedHeap, Heap.get_congr (Function.update_of_ne hpx _ _)]
    exact Heap.get_put_self _ _ hput
  · rw [prevOf, deletedHeap, Heap.get_congr (Function.update_of_ne hqx _ _), unlinked,
      Heap.get_put_other _ _ _ _ (by decide)]
    exact Heap.get_put_self _ _ haround.nextPrev

theorem deletedHeap_other {x p q o : PMEMoid} {f : Member} {v : f.ty} (hx : o ≠ x)
    (hf : f ≠ .prev ∧ f ≠ .next) (hv : h.get o f = some v) :
    (deletedHeap h x p q).get o f = some v :=
  deletedHeap_keeps h x p q o f v ⟨hx, Or.inr hf.1, Or.inr hf.2⟩ hv

theorem not_link {f : Member} (hf : f.kind ≠ .cacheEntry) : f ≠ .prev ∧ f ≠ .next := by
  constructor <;> rintro rfl <;> exact hf rfl

theorem listWf_delete {A B : List PMEMoid} {p q : PMEMoid}
    (hw : ListWf h cache head tail hm cap (pre ++ x::post))
    (ho : order head tail (pre ++ x::post) = A ++ p::x.oid::q::B)
    (ho' : order head tail (pre ++ post) = A ++ p::q::B) :
    ListWf (deletedHeap h x.oid p q) cache head tail hm cap (pre ++ post) := by
  have hdoubly := hw.doubly
  have hnodup := hw.distinct
  rw [ho] at hdoubly hnodup
  have hxkey := (hw.entries x (by simp)).key
  constructor
  case fields =>
    apply hw.fields.keeps
    intro f v hf hv
    have hne : f.kind ≠ .cacheEntry := by rw [hf]; decide
    exact deletedHeap_other (ne_of_kind hv hxkey hne) (not_link hne) hv
  case map =>
    obtain ⟨n, hn⟩ := hw.map
    exact ⟨n, deletedHeap_other (ne_of_kind hn hxkey (by decide)) (by decide) hn⟩
  case doubly =>
    rw [ho']
    exact doubly_deletedHeap hnodup hdoubly
  case distinct => exact List.Nodup.sublist (order_erase head tail pre post x) hw.distinct
  case entries =>
    intro e he
    have hsub : (pre ++ post).Sublist (pre ++ x::post) :=
      List.Sublist.append_left (List.sublist_cons_self x post) pre
    have hat := hw.entries e (hsub.subset he)
    have hne := entry_ne hw.distinct he
    exact ⟨hat.notNull, deletedHeap_other hne (by decide) hat.key,
      deletedHeap_other hne (by decide) hat.value⟩

/-- Dropping an entry from the map and unlinking it keeps a cache well formed. -/
theorem cacheWf_delete {A B : List PMEMoid} {p q : PMEMoid}
    (hw : CacheWf h cache head tail hm cap (pre ++ x::post) m)
    (ho : order head tail (pre ++ x::post) = A ++ p::x.oid::q::B)
    (ho' : order head tail (pre ++ post) = A ++ p::q::B)
    (hk : Heap.Keeps (fun _ f => ListKind f.kind) h h₁)
    (hm₁ : MapIs h₁ hm (Function.update m x.key none)) :
    CacheWf (deletedHeap h₁ x.oid p q) cache head tail hm cap (pre ++ post)
      (Function.update m x.key none) := by
  have hdoubly₁ : Doubly (nextOf h₁) (prevOf h₁) (order head tail (pre ++ x::post)) :=
    doubly_congr _ (fun a b _ hab => hk _ _ _ (Or.inl rfl) hab)
      (fun a b _ hab => hk _ _ _ (Or.inl rfl) hab) hw.doubly
  have hfields₁ : CacheAt h₁ cache head tail hm cap :=
    hw.fields.keeps fun f v hf hv => hk _ _ _ (Or.inr hf) hv
  have hentries₁ : ∀ e ∈ pre ++ x::post, EntryAt h₁ e := by
    intro e he
    have hat := hw.entries e he
    exact ⟨hat.notNull, hk _ _ _ (Or.inl rfl) hat.key, hk _ _ _ (Or.inl rfl) hat.value⟩
  have hlist := listWf_delete ⟨hfields₁, count_get hm₁, hdoubly₁, hw.distinct, hentries₁⟩ ho ho'
  have hxkey := (hentries₁ x (by simp)).key
  have hsub : (pre ++ post).Sublist (pre ++ x::post) :=
    List.Sublist.append_left (List.sublist_cons_self x post) pre
  constructor
  case fields => exact hlist.fields
  case doubly => exact hlist.doubly
  case distinct => exact hlist.distinct
  case entries => exact hlist.entries
  case keys => exact List.Nodup.sublist (hsub.map _) hw.keys
  case map =>
    apply hm₁.keeps
    intro o f v hf hv
    have hne : f.kind ≠ .cacheEntry := by
      rcases hf with hf | hf | hf <;> rw [hf] <;> decide
    exact deletedHeap_other (ne_of_kind hv hxkey hne) (not_link hne) hv
  case binds => exact hw.binds_erase
  case bounded => exact Nat.le_trans hsub.length_le hw.bounded
  case positive => exact hw.positive

end Wf

end RtsCache.CacheInvariant
