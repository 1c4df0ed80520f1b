import RtsCache.HashmapMachine
import RtsCache.LinkedPath
import Mathlib.Algebra.Group.Nat.Defs
import Mathlib.Data.List.Nodup
import Mathlib.Data.List.Perm.Basic
import Mathlib.Data.List.Perm.Subperm
import Mathlib.Data.List.Range

/-!
# The invariant of the hash map

`Table` ties the heap to one list of nodes per bucket: every chain ends in a
null handle, every node sits in the chain its key hashes to, keys are distinct
over the whole map and `count` is the number of nodes. `binds` is the finite
map a list of nodes stands for.
-/

set_option autoImplicit false

namespace RtsCache.HashmapInvariant
open RtsCache.UndoHeap RtsCache.UndoMachine RtsCache.UndoRules RtsCache.LinkedPath
open RtsCache.PoolLayout RtsCache.HashmapMachine

structure Node where
  oid : PMEMoid
  key : UInt64
  value : PMEMoid

def binds (xs : List Node) : UInt64 → Option PMEMoid :=
  fun k => (xs.find? fun x => x.key = k).map Node.value

def nodes (n : ℕ) (T : ℕ → List Node) : List Node := (List.range n).flatMap T

structure NodeAt (h : Pool) (x : Node) : Prop where
  notNull : x.oid.isNull = false
  key : h.get x.oid .key = some x.key
  value : h.get x.oid .value = some x.value

def entryNext (h : Pool) (o : PMEMoid) : Option PMEMoid := h.get o .entryNext

def Chain (h : Pool) (p : PMEMoid) (xs : List Node) : Prop :=
  (∀ x ∈ xs, NodeAt h x) ∧ ∃ q, q.isNull ∧ LinkPath (entryNext h) p (xs.map Node.oid) q

structure Table (h : Pool) (hm bs : PMEMoid) (a b : UInt32) (p n : UInt64)
    (T : ℕ → List Node) : Prop where
  buckets : h.get hm .buckets = some bs
  notNull : bs.isNull = false
  coeffA : h.get hm .hashFunA = some a
  coeffB : h.get hm .hashFunB = some b
  coeffP : h.get hm .hashFunP = some p
  prime : p ≠ 0
  nbuckets : h.get bs .nbuckets = some n
  pos : n ≠ 0
  fits : 8 + 16 * n.toNat ≤ pmemobjMaxAllocSize
  slot : ∀ i < n.toNat, ∃ o, h.get bs (.bucket i) = some o ∧ Chain h o (T i)
  placed : ∀ i < n.toNat, ∀ x ∈ T i, (hashOf a b p n x.key).toNat = i
  distinct : ((nodes n.toNat T).map Node.key).Nodup
  count : h.get hm .count = some (UInt64.ofNat (nodes n.toNat T).length)

/-- The hash map at `hm` stands for the finite map `m`. -/
def MapIs (h : Pool) (hm : PMEMoid) (m : UInt64 → Option PMEMoid) : Prop :=
  ∃ bs a b p n T, Table h hm bs a b p n T ∧ m = binds (nodes n.toNat T)

def MapKind (k : Kind) : Prop := k = .entry ∨ k = .buckets ∨ k = .hashmapTx

theorem hashOf_lt (a b : UInt32) (p n k : UInt64) (hn : n ≠ 0) :
    (hashOf a b p n k).toNat < n.toNat := by
  have hp : 0 < n.toNat := Nat.pos_of_ne_zero fun h => hn (UInt64.toNat_inj.mp h)
  simpa [hashOf] using Nat.mod_lt _ hp

theorem chain_nil (h : Pool) (p : PMEMoid) : Chain h p [] ↔ p.isNull := by
  simp [Chain, LinkPath]

theorem chain_cons (h : Pool) (p : PMEMoid) (x : Node) (xs : List Node) :
    Chain h p (x::xs) ↔
      p = x.oid ∧ NodeAt h x ∧ ∃ c, h.get x.oid .entryNext = some c ∧ Chain h c xs := by
  constructor
  · rintro ⟨hn, q, hq, rfl, c, hc, hp⟩
    exact ⟨rfl, hn x List.mem_cons_self, c, hc,
      fun y hy => hn y (List.mem_cons_of_mem _ hy), q, hq, hp⟩
  · rintro ⟨rfl, hx, c, hc, hn, q, hq, hp⟩
    exact ⟨List.forall_mem_cons.mpr ⟨hx, hn⟩, q, hq, rfl, c, hc, hp⟩

theorem nodeAt_keeps {h h' : Pool} {P : PMEMoid → Member → Prop} {x : Node}
    (hk : Heap.Keeps P h h') (hP : P x.oid .key ∧ P x.oid .value) (hx : NodeAt h x) :
    NodeAt h' x :=
  ⟨hx.notNull, hk _ _ _ hP.1 hx.key, hk _ _ _ hP.2 hx.value⟩

theorem chain_keeps {h h' : Pool} {P : PMEMoid → Member → Prop} {o : PMEMoid} {xs : List Node}
    (hk : Heap.Keeps P h h')
    (hP : ∀ x ∈ xs, P x.oid .key ∧ P x.oid .value ∧ P x.oid .entryNext) (hc : Chain h o xs) :
    Chain h' o xs := by
  obtain ⟨hn, q, hq, hp⟩ := hc
  refine ⟨fun x hx => nodeAt_keeps hk ⟨(hP x hx).1, (hP x hx).2.1⟩ (hn x hx), q, hq, ?_⟩
  refine path_congr _ _ _ (fun y hy c hc => ?_) hp
  obtain ⟨x, hx, rfl⟩ := List.mem_map.mp hy
  exact hk _ _ _ (hP x hx).2.2 hc

theorem node_ext {h : Pool} {x y : Node} (hx : NodeAt h x) (hy : NodeAt h y)
    (he : x.oid = y.oid) : x = y := by
  obtain ⟨o, k, v⟩ := x
  obtain ⟨o', k', v'⟩ := y
  simp only at he
  subst he
  have hk : k = k' := Option.some.inj (hx.key.symm.trans hy.key)
  have hv : v = v' := Option.some.inj (hx.value.symm.trans hy.value)
  rw [hk, hv]

section Binds

theorem binds_eq_some {xs : List Node} (hn : (xs.map Node.key).Nodup) {k : UInt64} {v : PMEMoid} :
    binds xs k = some v ↔ ∃ x ∈ xs, x.key = k ∧ x.value = v := by
  induction xs with
  | nil => simp [binds]
  | cons x xs ih =>
    obtain ⟨hx, hn⟩ := List.nodup_cons.mp hn
    by_cases hk : x.key = k
    · have : ∀ y ∈ xs, y.key ≠ k := fun y hy he => hx (by
        rw [hk, ← he]
        exact List.mem_map_of_mem hy)
      simp only [binds, List.find?_cons, hk, decide_true, Option.map_some, Option.some.injEq,
        List.mem_cons, exists_eq_or_imp, true_and]
      constructor
      · exact Or.inl
      · rintro (h | ⟨y, hy, he, -⟩)
        · exact h
        · exact absurd he (this y hy)
    · have hf : binds (x::xs) k = binds xs k := by simp [binds, hk]
      rw [hf, ih hn]
      simp [hk]

theorem binds_eq_none {xs : List Node} {k : UInt64} :
    binds xs k = none ↔ k ∉ xs.map Node.key := by
  simp [binds]

theorem binds_perm {xs ys : List Node} (hp : xs.Perm ys) (hn : (xs.map Node.key).Nodup) :
    binds xs = binds ys := by
  have hn' : (ys.map Node.key).Nodup := (hp.map _).nodup_iff.mp hn
  funext k
  apply Option.ext
  intro v
  rw [binds_eq_some hn, binds_eq_some hn']
  simp only [hp.mem_iff]

theorem binds_cons (x : Node) (xs : List Node) :
    binds (x::xs) = Function.update (binds xs) x.key (some x.value) := by
  funext k
  by_cases hk : k = x.key
  · subst hk
    simp [binds]
  · simp [binds, hk, Ne.symm hk]

theorem binds_erase {x : Node} {xs : List Node} (hn : ((x::xs).map Node.key).Nodup) :
    binds xs = Function.update (binds (x::xs)) x.key none := by
  rw [binds_cons, Function.update_idem, eq_comm, Function.update_eq_self_iff, eq_comm]
  exact binds_eq_none.mpr (List.nodup_cons.mp hn).1

end Binds

section Nodes

theorem mem_nodes {n : ℕ} {T : ℕ → List Node} {x : Node} :
    x ∈ nodes n T ↔ ∃ i < n, x ∈ T i := by
  simp [nodes]

theorem length_le_nodes {n i : ℕ} {T : ℕ → List Node} (hi : i < n) :
    (T i).length ≤ (nodes n T).length :=
  (List.sublist_flatten_of_mem (List.mem_map_of_mem (List.mem_range.mpr hi))).length_le

theorem nodes_update_perm (n i : ℕ) (T : ℕ → List Node) (xs : List Node) (hi : i < n) :
    (T i ++ nodes n (Function.update T i xs)).Perm (xs ++ nodes n T) := by
  have hmem : i ∈ List.range n := List.mem_range.mpr hi
  obtain ⟨l, r, hlr⟩ := List.append_of_mem hmem
  have hn : (l ++ i::r).Nodup := hlr ▸ List.nodup_range
  have hl : ∀ j ∈ l, j ≠ i := fun j hj he =>
    (List.nodup_append.mp hn).2.2 j hj i List.mem_cons_self he
  have hr : ∀ j ∈ r, j ≠ i := fun j hj he =>
    (List.nodup_cons.mp (List.nodup_append.mp hn).2.1).1 (he ▸ hj)
  have el : l.flatMap (Function.update T i xs) = l.flatMap T :=
    List.flatMap_congr fun j hj => Function.update_of_ne (hl j hj) xs T
  have er : r.flatMap (Function.update T i xs) = r.flatMap T :=
    List.flatMap_congr fun j hj => Function.update_of_ne (hr j hj) xs T
  simp only [nodes, hlr, List.flatMap_append, List.flatMap_cons, el, er, Function.update_self]
  calc
    _ = T i ++ l.flatMap T ++ (xs ++ r.flatMap T) := by simp
    _ |>.Perm (l.flatMap T ++ T i ++ (xs ++ r.flatMap T)) :=
      List.Perm.append_right _ List.perm_append_comm
    _ = l.flatMap T ++ (T i ++ xs) ++ r.flatMap T := by simp
    _ |>.Perm (l.flatMap T ++ (xs ++ T i) ++ r.flatMap T) :=
      List.Perm.append_right _ (List.Perm.append_left _ List.perm_append_comm)
    _ = l.flatMap T ++ xs ++ (T i ++ r.flatMap T) := by simp
    _ |>.Perm (xs ++ l.flatMap T ++ (T i ++ r.flatMap T)) :=
      List.Perm.append_right _ List.perm_append_comm
    _ = _ := by simp

end Nodes

section Facts
variable {h : Pool} {hm bs : PMEMoid} {a b : UInt32} {p n : UInt64} {T : ℕ → List Node}

theorem Table.mem_chain (ht : Table h hm bs a b p n T) {x : Node} (hx : x ∈ nodes n.toNat T) :
    x ∈ T (hashOf a b p n x.key).toNat := by
  obtain ⟨i, hi, hx⟩ := mem_nodes.mp hx
  rwa [ht.placed i hi x hx]

theorem keys_length_le {ks : List UInt64} (hn : ks.Nodup) : ks.length ≤ 2^64 := by
  have hmap : (ks.map UInt64.toNat).Nodup := hn.map fun _ _ => UInt64.toNat_inj.mp
  have hsub : ks.map UInt64.toNat ⊆ List.range (2^64) := fun m hm => by
    obtain ⟨k, -, rfl⟩ := List.mem_map.mp hm
    exact List.mem_range.mpr k.toNat_lt
  have := (List.subperm_of_subset hmap hsub).length_le
  rwa [List.length_map, List.length_range] at this

theorem Table.length_le (ht : Table h hm bs a b p n T) : (nodes n.toNat T).length ≤ 2^64 := by
  have := keys_length_le ht.distinct
  rwa [List.length_map] at this

theorem Table.bs_ne_hm (ht : Table h hm bs a b p n T) : bs ≠ hm :=
  ne_of_kind ht.nbuckets ht.buckets (by decide)

theorem Table.nodeAt (ht : Table h hm bs a b p n T) {x : Node} (hx : x ∈ nodes n.toNat T) :
    NodeAt h x := by
  obtain ⟨i, hi, hx⟩ := mem_nodes.mp hx
  obtain ⟨o, -, hc⟩ := ht.slot i hi
  exact hc.1 x hx

theorem node_ne {o : PMEMoid} {x : Node} (hx : NodeAt h x) {f : Member} {v : f.ty}
    (ho : h.get o f = some v) (hf : f.kind ≠ .entry) : x.oid ≠ o :=
  ne_of_kind hx.key ho (Ne.symm hf)

/-- A map survives every change away from its own kinds of objects. -/
theorem Table.keeps {h' : Pool} (ht : Table h hm bs a b p n T)
    (hk : Heap.Keeps (fun _ f => MapKind f.kind) h h') : Table h' hm bs a b p n T where
  buckets := hk _ _ _ (Or.inr (Or.inr rfl)) ht.buckets
  notNull := ht.notNull
  coeffA := hk _ _ _ (Or.inr (Or.inr rfl)) ht.coeffA
  coeffB := hk _ _ _ (Or.inr (Or.inr rfl)) ht.coeffB
  coeffP := hk _ _ _ (Or.inr (Or.inr rfl)) ht.coeffP
  prime := ht.prime
  nbuckets := hk _ _ _ (Or.inr (Or.inl rfl)) ht.nbuckets
  pos := ht.pos
  fits := ht.fits
  slot i hi := by
    obtain ⟨o, ho, hc⟩ := ht.slot i hi
    refine ⟨o, hk _ _ _ (Or.inr (Or.inl rfl)) ho, chain_keeps hk (fun x _ => ?_) hc⟩
    exact ⟨Or.inl rfl, Or.inl rfl, Or.inl rfl⟩
  placed := ht.placed
  distinct := ht.distinct
  count := hk _ _ _ (Or.inr (Or.inr rfl)) ht.count

theorem MapIs.keeps {h' : Pool} {m : UInt64 → Option PMEMoid} (hm' : MapIs h hm m)
    (hk : Heap.Keeps (fun _ f => MapKind f.kind) h h') : MapIs h' hm m := by
  obtain ⟨bs, a, b, p, n, T, ht, rfl⟩ := hm'
  exact ⟨bs, a, b, p, n, T, ht.keeps hk, rfl⟩

end Facts

end RtsCache.HashmapInvariant
