import RtsCache.HashmapRuns
import RtsCache.UndoWrites

/-!
# The nodes through a rebuild

The loops of the rebuild write slots of the two arrays and `next` members
only, so every other cell of a live object reads the same afterwards. The
objects at the ends are those of the start with one array for the other.
-/

set_option autoImplicit false

namespace RtsCache.HashmapNodes
open RtsCache.UndoHeap RtsCache.UndoMachine RtsCache.UndoRules RtsCache.UndoWrites
open RtsCache.PoolLayout RtsCache.HashmapMachine RtsCache.HashmapInvariant
open RtsCache.HashmapRebuild RtsCache.HashmapOps RtsCache.HashmapRuns

variable {env : PoolEnv} {s s' : PoolState} {hm bs nw : PMEMoid} {n n' : UInt64}

def Links (bs nw o : PMEMoid) (m : Member) : Prop :=
  (∃ i, m = .bucket i ∧ (o = bs ∨ o = nw)) ∨ m = .entryNext

theorem hash_writes (W : PMEMoid → Member → Prop) (hashmap buckets : PMEMoid) (value : UInt64) :
    Writes W (hash hashmap buckets value) := by
  apply writes_bind (writes_load _ _)
  intro a
  apply writes_bind (writes_load _ _)
  intro b
  apply writes_bind (writes_load _ _)
  intro p
  apply writes_bind (writes_load _ _)
  intro len
  split
  · exact writes_stuck
  · exact writes_pure _

theorem writes_dRw {W : PMEMoid → Member → Prop} {o : PMEMoid} {m : Member} (v : m.ty)
    (hW : W o m) : Writes W (dRw o m v) := writes_store (F := Member) v hW

theorem rebuildDrain_writes (hm bs nw : PMEMoid) (i fl : ℕ) :
    Writes (Links bs nw) (rebuildDrain hm bs nw i fl) := by
  induction fl with
  | zero => exact writes_stuck
  | succ fl ih =>
    apply writes_bind (writes_load _ _)
    intro en
    split
    · exact writes_pure _
    · apply writes_bind (writes_load _ _)
      intro key
      apply writes_bind (hash_writes _ _ _ _)
      intro h
      apply writes_bind (writes_load _ _)
      intro next
      apply writes_bind (writes_dRw _ (Or.inl ⟨i, rfl, Or.inl rfl⟩))
      intro _
      apply writes_bind (writes_txAdd _ _)
      intro _
      apply writes_bind (writes_load _ _)
      intro front
      apply writes_bind (writes_dRw _ (Or.inr rfl))
      intro _
      apply writes_bind (writes_dRw _ (Or.inl ⟨h.toNat, rfl, Or.inr rfl⟩))
      intro _
      exact ih

theorem rebuildMove_writes (hm bs nw : PMEMoid) (fl i : ℕ) :
    Writes (Links bs nw) (rebuildMove hm bs nw fl i) := by
  induction fl generalizing i with
  | zero => exact writes_stuck
  | succ fl ih =>
    apply writes_bind (writes_load _ _)
    intro nbuckets
    split
    · apply writes_bind writes_fuel
      intro fl'
      apply writes_bind (rebuildDrain_writes hm bs nw i fl')
      intro _
      exact ih (i+1)
    · exact writes_pure _

structure Replaced (h h' : Pool) (hm bs nw : PMEMoid) (n' : UInt64) : Prop where
  fresh : h nw = none
  array : shape h' nw = some (Kind.buckets, (bucketsSize n').toNat)
  freed : h' bs = none
  others : ∀ o, o ≠ nw → o ≠ bs → shape h' o = shape h o
  cells : ∀ o m, o ≠ nw → o ≠ bs → m ≠ .entryNext → (o, m) ≠ (hm, .buckets) →
    h'.get o m = h.get o m
  buckets : h'.get hm .buckets = some nw
  nbuckets : h'.get nw .nbuckets = some n'

def allocatedHeap (h : Pool) (nw : PMEMoid) (n' : UInt64) : Pool :=
  let h₁ : Pool := Function.update h nw
    (some ⟨.buckets, (bucketsSize n').toNat, Layout.zero⟩)
  h₁.put nw .nbuckets n'

def switchedHeap (h : Pool) (hm bs nw : PMEMoid) : Pool :=
  Function.update (h.put hm .buckets nw) bs none

theorem switchedHeap_shape (h : Pool) (hm nw : PMEMoid) {bs o : PMEMoid} (ho : o ≠ bs) :
    shape (switchedHeap h hm bs nw) o = shape h o := by
  rw [switchedHeap, shape, Function.update_of_ne ho]
  exact shape_put h hm o .buckets nw

theorem switchedHeap_get (h : Pool) (nw : PMEMoid) {hm bs o : PMEMoid} {m : Member} (ho : o ≠ bs)
    (hm' : (o, m) ≠ (hm, .buckets)) : (switchedHeap h hm bs nw).get o m = h.get o m := by
  rw [switchedHeap, Heap.get_congr (Function.update_of_ne ho _ _)]
  by_cases heq : o = hm
  · subst heq
    apply Heap.get_put_other
    rintro rfl
    exact hm' rfl
  · exact Heap.get_put_of_ne _ _ _ _ heq

theorem replaced_of_moved {h h₁ : Pool} {w : UInt64} {old : PMEMoid} (hfree : h nw = none)
    (hbs : h.get hm .buckets = some bs) (hn : h.get bs .nbuckets = some n)
    (hw : Heap.get (Function.update h nw
      (some ⟨.buckets, (bucketsSize n').toNat, Layout.zero⟩) : Pool) nw .nbuckets = some w)
    (hmove : Wrote (Links bs nw) (allocatedHeap h nw n') h₁)
    (hold : h₁.get hm .buckets = some old) :
    Replaced h (switchedHeap h₁ hm bs nw) hm bs nw n' := by
  have hhb : hm ≠ bs := ne_of_kind hbs hn (by decide)
  have hwb : nw ≠ bs := (Heap.ne_of_free hfree hn).symm
  have hshape : ∀ o, o ≠ bs → shape (switchedHeap h₁ hm bs nw) o = shape (Function.update h nw
      (some ⟨.buckets, (bucketsSize n').toNat, Layout.zero⟩) : Pool) o := by
    intro o ho
    rw [switchedHeap_shape h₁ hm nw ho, hmove.shapes, allocatedHeap, shape_put]
  constructor
  · exact hfree
  · rw [hshape nw hwb, shape, Function.update_self]
    rfl
  · exact Function.update_self ..
  · intro o hw' hb
    rw [hshape o hb, shape, Function.update_of_ne hw', shape]
  · intro o m hw' hb he hm'
    have hl : ¬ Links bs nw o m := by
      rintro (⟨i, -, h | h⟩ | h)
      · exact hb h
      · exact hw' h
      · exact he h
    rw [switchedHeap_get h₁ nw hb hm', hmove.cells o m hl, allocatedHeap,
      Heap.get_put_of_ne _ _ _ _ hw', Heap.get_congr (Function.update_of_ne hw' _ _)]
  · rw [switchedHeap, Heap.get_congr (Function.update_of_ne hhb _ _)]
    exact Heap.get_put_self _ _ hold
  · have hl : ¬ Links bs nw nw .nbuckets := by
      rintro (⟨i, h, -⟩ | h) <;> cases h
    rw [switchedHeap_get h₁ nw hwb (by simp), hmove.cells nw .nbuckets hl]
    exact Heap.get_put_self _ _ hw

theorem rebuildBody_replaced (hnull : bs.isNull = false)
    (hbs : s.heap.get hm .buckets = some bs) (hn : s.heap.get bs .nbuckets = some n)
    (hrun : rebuildBody hm bs n n' env s = .ok () s') :
    ∃ nw, Replaced s.heap s'.heap hm bs nw n' := by
  obtain ⟨_, s₁, h₁, hrun⟩ := bind_ok hrun
  obtain ⟨nw, s₂, h₂, hrun⟩ := bind_ok hrun
  obtain ⟨_, s₃, h₃, hrun⟩ := bind_ok hrun
  obtain ⟨_, s₄, h₄, hrun⟩ := bind_ok hrun
  obtain ⟨_, _, ⟨⟩, hrun⟩ := bind_ok hrun
  obtain ⟨_, s₅, h₅, hrun⟩ := bind_ok hrun
  obtain ⟨_, s₆, h₆, h₇⟩ := bind_ok hrun
  have e₁ := txAdd_ok h₁
  obtain ⟨hfree, -, -, e₂⟩ := txAllocWith_ok h₂
  obtain ⟨⟨w, hw⟩, e₃⟩ := store_ok h₃
  have e₄ := txAdd_ok h₄
  have hmove := rebuildMove_writes hm bs nw _ _ _ _ _ _ h₅
  obtain ⟨⟨old, hold⟩, e₆⟩ := store_ok h₆
  obtain ⟨-, e₇⟩ := txFree_ok hnull h₇
  rw [e₁] at hfree e₂
  rw [e₂] at hw
  have e₂₄ : s₄.heap = allocatedHeap s.heap nw n' := by
    rw [e₄, e₃, e₂]
    rfl
  have e₅₇ : s'.heap = switchedHeap s₅.heap hm bs nw := by
    rw [e₇, e₆]
    rfl
  rw [e₂₄] at hmove
  rw [e₅₇]
  exact ⟨nw, replaced_of_moved hfree hbs hn hw hmove hold⟩

theorem hmTxRebuild_replaced {newLen : UInt64} (hnull : bs.isNull = false)
    (hbs : s.heap.get hm .buckets = some bs) (hn : s.heap.get bs .nbuckets = some n)
    (hrun : hmTxRebuild hm newLen env s = .ok () s') :
    (s.log = none ∧ ∃ ends c, s'.ends = ends ++ [.aborted c]) ∨
      ∃ nw, Replaced s.heap s'.heap hm bs nw (rebuiltLen n newLen) := by
  obtain ⟨bs', s₁, h₁, hrun⟩ := bind_ok hrun
  obtain ⟨hbs', rfl⟩ := load_ok h₁
  cases hbs.symm.trans hbs'
  obtain ⟨n', s₂, h₂, hrun⟩ := bind_ok hrun
  obtain ⟨hn', rfl⟩ := load_ok h₂
  cases hn.symm.trans hn'
  obtain ⟨r, s₃, h₃, h₄⟩ := bind_ok hrun
  cases h₄
  rcases transaction_ok h₃ with habort | ⟨u, s₄, s₅, -, e₄, -, hbody, e₅⟩
  · exact Or.inl habort
  · right
    rw [e₅, ← e₄]
    rw [← e₄] at hbs hn
    exact rebuildBody_replaced hnull hbs hn hbody

section Rebuilt
variable {h h' : Pool} {a b : UInt32} {p : UInt64} {T New : ℕ → List Node}

theorem Table.oids_nodup (ht : Table h hm bs a b p n T) :
    ((nodes n.toNat T).map Node.oid).Nodup := by
  apply List.Nodup.map_on _ ht.distinct.of_map
  intro x hx y hy he
  exact node_ext (ht.nodeAt hx) (ht.nodeAt hy) he

theorem Replaced.shape_entry (hr : Replaced h h' hm bs nw n') (hbs : h.get bs .nbuckets = some n)
    (o : PMEMoid) (size : ℕ) :
    shape h' o = some (Kind.entry, size) ↔ shape h o = some (Kind.entry, size) := by
  by_cases hw : o = nw
  · subst hw
    rw [hr.array, shape_eq_none.mpr hr.fresh]
    simp
  · by_cases hb : o = bs
    · subst hb
      obtain ⟨obj, hobj, hkind⟩ := Heap.live_of_get hbs
      rw [shape_eq_none.mpr hr.freed, shape_eq_some hobj, hkind]
      simp [Layout.kind, Member.kind]
    · rw [hr.others o hw hb]

theorem Replaced.get_entry (hr : Replaced h h' hm bs nw n') (hbs : h.get bs .nbuckets = some n)
    (o : PMEMoid) {m : Member} (hm' : m.kind = .entry) (he : m ≠ .entryNext) :
    h'.get o m = h.get o m := by
  by_cases hs : ∃ size, shape h o = some (Kind.entry, size)
  · obtain ⟨size, hs⟩ := hs
    have hw : o ≠ nw := by
      rintro rfl
      rw [shape_eq_none.mpr hr.fresh] at hs
      cases hs
    have hb : o ≠ bs := by
      rintro rfl
      rw [← hr.shape_entry hbs, shape_eq_none.mpr hr.freed] at hs
      cases hs
    apply hr.cells o m hw hb he
    intro hc
    cases hc
    cases hm'
  · have hs' : ¬ ∃ size, shape h' o = some (Kind.entry, size) := by
      rintro ⟨size, hs'⟩
      exact hs ⟨size, (hr.shape_entry hbs o size).mp hs'⟩
    have hnone : ∀ {g : Pool}, (¬ ∃ size, shape g o = some (Kind.entry, size)) →
        g.get o m = none := by
      intro g hg
      apply get_of_shape
      show ¬ ∃ size, shape g o = some (m.kind, size)
      rwa [hm']
    rw [hnone hs', hnone hs]

/-- What a rebuild to the length `n'` leaves of the map with the chains `T`:
the array `nw` in the place of `bs`, and every node in its new chain. -/
structure Rebuilt (h h' : Pool) (hm bs nw : PMEMoid) (a b : UInt32) (p n n' : UInt64)
    (T New : ℕ → List Node) : Prop where
  table : Table h' hm nw a b p n' New
  same : (nodes n'.toNat New).Perm (nodes n.toNat T)
  once : ((nodes n'.toNat New).map Node.oid).Nodup
  key : ∀ o, h'.get o .key = h.get o .key
  value : ∀ o, h'.get o .value = h.get o .value
  count : h'.get hm .count = h.get hm .count
  entries : ∀ o size, shape h' o = some (Kind.entry, size) ↔ shape h o = some (Kind.entry, size)
  allocated : ∀ o, h o = none ∧ h' o ≠ none ↔ o = nw
  freed : ∀ o, h o ≠ none ∧ h' o = none ↔ o = bs

theorem Replaced.allocated_iff (hr : Replaced h h' hm bs nw n') (o : PMEMoid) :
    h o = none ∧ h' o ≠ none ↔ o = nw := by
  constructor
  · rintro ⟨ho, ho'⟩
    by_contra hw
    have hb : o ≠ bs := by
      rintro rfl
      exact ho' hr.freed
    apply ho'
    rw [← shape_eq_none, hr.others o hw hb, shape_eq_none, ho]
  · rintro rfl
    constructor
    · exact hr.fresh
    · intro hnone
      have ha := hr.array
      rw [shape_eq_none.mpr hnone] at ha
      cases ha

theorem Replaced.freed_iff (hr : Replaced h h' hm bs nw n') (hbs : h.get bs .nbuckets = some n)
    (o : PMEMoid) : h o ≠ none ∧ h' o = none ↔ o = bs := by
  constructor
  · rintro ⟨ho, ho'⟩
    by_contra hb
    have hw : o ≠ nw := by
      rintro rfl
      exact ho hr.fresh
    apply ho
    rw [← shape_eq_none, ← hr.others o hw hb, shape_eq_none, ho']
  · rintro rfl
    constructor
    · obtain ⟨obj, hobj, -⟩ := Heap.live_of_get hbs
      rw [hobj]
      simp
    · exact hr.freed

theorem Replaced.rebuilt (hr : Replaced h h' hm bs nw n') (ht : Table h hm bs a b p n T)
    (hh : Holds h' hm a b p n' (nodes n.toNat T)) :
    ∃ New, Rebuilt h h' hm bs nw a b p n n' T New := by
  obtain ⟨nw', New, ht', hsame⟩ := hh
  cases hr.buckets.symm.trans ht'.buckets
  exact ⟨New, {
    table := ht'
    same := hsame
    once := Table.oids_nodup ht'
    key o := hr.get_entry ht.nbuckets o rfl (by decide)
    value o := hr.get_entry ht.nbuckets o rfl (by decide)
    count := by rw [ht'.count, ht.count, hsame.length_eq]
    entries := hr.shape_entry ht.nbuckets
    allocated := hr.allocated_iff
    freed := hr.freed_iff ht.nbuckets }⟩

end Rebuilt

/-- A rebuild of a well-formed map always ends. Committed, or as a part of an
enclosing transaction, it has moved every node to its chain under the new
length and exchanged the two arrays; otherwise all of it is undone. -/
theorem rebuild_keeps_nodes {a b : UInt32} {p newLen : UInt64} {T : ℕ → List Node}
    (ht : Table s.heap hm bs a b p n T) (hlen : 8 + 16 * newLen.toNat < 2^64)
    (hfuel : 2^64 < env.fuel) :
    wp env (hmTxRebuild hm newLen)
      (fun _ s' => (s.log = none ∧ Aborted s s') ∨ (s.log = none → Committed s s') ∧
        ∃ nw New, Rebuilt s.heap s'.heap hm bs nw a b p n (rebuiltLen n newLen) T New)
      (fun _ s' => s.log.isSome ∧ s'.undone = s.undone) s := by
  cases hl : s.log with
  | none =>
    have hcall : wp env (hmTxRebuild hm newLen) (fun _ s' => Aborted s s' ∨ Committed s s' ∧
        Holds s'.heap hm a b p (rebuiltLen n newLen) (nodes n.toNat T)) (fun _ _ => False) s := by
      apply wp_hmTxRebuild_top hl ht hlen hfuel
      · intro s' h
        exact Or.inl h
      · intro s' hc hh
        exact Or.inr ⟨hc, hh⟩
    apply wp_mono (wp_run hcall)
    · rintro _ s' ⟨h | ⟨hc, hh⟩, hrun⟩
      · exact Or.inl ⟨rfl, h⟩
      · right
        refine ⟨fun _ => hc, ?_⟩
        rcases hmTxRebuild_replaced ht.notNull ht.buckets ht.nbuckets hrun with habort | ⟨nw, hr⟩
        · obtain ⟨-, ends, c, he⟩ := habort
          rw [hc.ends] at he
          simp at he
        · exact ⟨nw, hr.rebuilt ht hh⟩
    · intro c s' hf
      exact hf.elim
  | some l =>
    have hin : s.log.isSome := by
      rw [hl]
      rfl
    apply wp_mono (wp_run (wp_hmTxRebuild_nested hin ht hlen hfuel))
    · rintro _ s' ⟨⟨-, -, hh⟩, hrun⟩
      right
      refine ⟨fun hn => (by cases hn), ?_⟩
      rcases hmTxRebuild_replaced ht.notNull ht.buckets ht.nbuckets hrun with habort | ⟨nw, hr⟩
      · rw [hl] at habort
        cases habort.1
      · exact ⟨nw, hr.rebuilt ht hh⟩
    · intro c s' h
      exact ⟨rfl, h.1.undone⟩

theorem rebuild_keeps_nodes_two : ∃ s', hmTxRebuild newMap 1 quietEnv twoState = .ok () s' ∧
    s'.ends = [.committed] ∧ ∃ nw New, Rebuilt twoState.heap s'.heap newMap newBuckets nw 1 0
      hashFuncCoeffP 2 1 twoChains New := by
  have hlen : 8 + 16 * (1 : UInt64).toNat < 2^64 := by decide
  have hfuel : 2^64 < quietEnv.fuel := Nat.lt_succ_self _
  have hcall := rebuild_keeps_nodes (s := twoState) twoHeap_table hlen hfuel
  obtain ⟨s', hrun, hends⟩ : ∃ s', hmTxRebuild newMap 1 quietEnv twoState = .ok () s' ∧
      s'.ends = [.committed] := ⟨_, rfl, rfl⟩
  rcases wp_result hcall hrun with ⟨-, h⟩ | ⟨-, nw, New, h⟩
  · obtain ⟨c, hc⟩ := h.ends
    rw [hends] at hc
    cases hc
  · exact ⟨s', hrun, hends, nw, New, h⟩

end RtsCache.HashmapNodes
