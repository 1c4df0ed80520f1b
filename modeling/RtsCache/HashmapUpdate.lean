import RtsCache.HashmapInvariant

/-!
# What an insertion and a removal do to the table

Both statements are about two heaps and the cells in which they may differ,
so they do not depend on the order of the stores of the program.
-/

set_option autoImplicit false

namespace RtsCache.HashmapUpdate
open RtsCache.UndoHeap RtsCache.PoolLayout RtsCache.HashmapMachine RtsCache.HashmapInvariant

theorem nodes_cons_perm (n i : ℕ) (T : ℕ → List Node) (x : Node) (hi : i < n) :
    (nodes n (Function.update T i (x :: T i))).Perm (x :: nodes n T) := by
  have hp := nodes_update_perm n i T (x :: T i) hi
  have hm : ((x :: T i) ++ nodes n T).Perm (T i ++ x :: nodes n T) := List.perm_middle.symm
  exact (List.perm_append_left_iff _).mp (hp.trans hm)

theorem nodes_erase_perm (n i : ℕ) (T : ℕ → List Node) (pre post : List Node) (x : Node)
    (hi : i < n) (he : T i = pre ++ x::post) :
    (x :: nodes n (Function.update T i (pre ++ post))).Perm (nodes n T) := by
  have hp := nodes_update_perm n i T (pre ++ post) hi
  have hm : (T i).Perm (x :: (pre ++ post)) := he ▸ List.perm_middle
  have hl := (List.Perm.append_right (nodes n (Function.update T i (pre ++ post))) hm).symm.trans hp
  have hx : (x :: (pre ++ post) ++ nodes n (Function.update T i (pre ++ post))).Perm
      (pre ++ post ++ x :: nodes n (Function.update T i (pre ++ post))) := List.perm_middle.symm
  exact (List.perm_append_left_iff _).mp (hx.symm.trans hl)

theorem count_succ (k : ℕ) : UInt64.ofNat (k + 1) = UInt64.ofNat k + 1 :=
  UInt64.ofNat_add k 1

theorem count_pred (k : ℕ) : UInt64.ofNat (k + 1) - 1 = UInt64.ofNat k := by
  rw [count_succ, UInt64.add_sub_cancel]

theorem placed_update {n i : ℕ} {T : ℕ → List Node} {xs : List Node} {place : Node → ℕ}
    (hT : ∀ j < n, ∀ x ∈ T j, place x = j) (hxs : ∀ x ∈ xs, place x = i) :
    ∀ j < n, ∀ x ∈ Function.update T i xs j, place x = j := by
  intro j hj x hx
  by_cases hji : j = i
  · subst hji
    rw [Function.update_self] at hx
    exact hxs x hx
  · rw [Function.update_of_ne hji] at hx
    exact hT j hj x hx

variable {h h' : Pool} {hm bs : PMEMoid} {a b : UInt32} {p n : UInt64} {T : ℕ → List Node}

theorem slots_update {m i : ℕ} {xs : List Node}
    (hslots : ∀ j < m, ∃ o, h.get bs (.bucket j) = some o ∧ Chain h o (T j))
    (hother : ∀ j < m, j ≠ i → ∀ o, h.get bs (.bucket j) = some o → Chain h o (T j) →
      h'.get bs (.bucket j) = some o ∧ Chain h' o (T j))
    (hself : ∃ o, h'.get bs (.bucket i) = some o ∧ Chain h' o xs) :
    ∀ j < m, ∃ o, h'.get bs (.bucket j) = some o ∧ Chain h' o (Function.update T i xs j) := by
  intro j hj
  by_cases hji : j = i
  · subst hji
    rw [Function.update_self]
    exact hself
  · obtain ⟨o, ho, hc⟩ := hslots j hj
    rw [Function.update_of_ne hji]
    exact ⟨o, hother j hj hji o ho hc⟩

theorem table_insert {i : ℕ} {key : UInt64} {value e o : PMEMoid}
    (ht : Table h hm bs a b p n T) (hi : i = (hashOf a b p n key).toNat)
    (hk : key ∉ (T i).map Node.key)
    (hkeep : Heap.Keeps (fun q f => (q, f) ≠ (bs, .bucket i) ∧ (q, f) ≠ (hm, .count)) h h')
    (hnull : e.isNull = false) (hkey : h'.get e .key = some key)
    (hval : h'.get e .value = some value) (ho : h.get bs (.bucket i) = some o)
    (hnext : h'.get e .entryNext = some o) (hslot : h'.get bs (.bucket i) = some e)
    (hcount : h'.get hm .count = some (UInt64.ofNat (nodes n.toNat T).length + 1)) :
    Table h' hm bs a b p n (Function.update T i (⟨e, key, value⟩ :: T i)) := by
  have hlt : i < n.toNat := hi ▸ hashOf_lt a b p n key ht.pos
  have hperm := nodes_cons_perm n.toNat i T ⟨e, key, value⟩ hlt
  have hchain : ∀ {c : PMEMoid} {xs : List Node}, Chain h c xs → Chain h' c xs :=
    fun hc => chain_keeps hkeep (fun x _ => ⟨by simp, by simp, by simp⟩) hc
  have hnew : key ∉ (nodes n.toNat T).map Node.key := by
    intro hmem
    obtain ⟨x, hx, hxk⟩ := List.mem_map.mp hmem
    have := ht.mem_chain hx
    rw [hxk, ← hi] at this
    exact hk (List.mem_map.mpr ⟨x, this, hxk⟩)
  constructor
  case buckets => exact hkeep _ _ _ (by simp) ht.buckets
  case notNull => exact ht.notNull
  case coeffA => exact hkeep _ _ _ (by simp) ht.coeffA
  case coeffB => exact hkeep _ _ _ (by simp) ht.coeffB
  case coeffP => exact hkeep _ _ _ (by simp) ht.coeffP
  case prime => exact ht.prime
  case nbuckets => exact hkeep _ _ _ (by simp) ht.nbuckets
  case pos => exact ht.pos
  case fits => exact ht.fits
  case slot =>
    apply slots_update ht.slot
    · intro j _ hji c hc hch
      exact ⟨hkeep _ _ _ (by simp [hji]) hc, hchain hch⟩
    · obtain ⟨c, hc, hch⟩ := ht.slot i hlt
      cases Option.some.inj (ho.symm.trans hc)
      have hfront : Chain h' e (⟨e, key, value⟩ :: T i) := by
        rw [chain_cons]
        exact ⟨rfl, ⟨hnull, hkey, hval⟩, o, hnext, hchain hch⟩
      exact ⟨e, hslot, hfront⟩
  case placed =>
    apply placed_update ht.placed
    intro x hx
    rcases List.mem_cons.mp hx with rfl | hx
    · exact hi.symm
    · exact ht.placed i hlt x hx
  case distinct =>
    rw [(hperm.map Node.key).nodup_iff, List.map_cons, List.nodup_cons]
    exact ⟨hnew, ht.distinct⟩
  case count =>
    rw [hperm.length_eq, List.length_cons, count_succ]
    exact hcount

theorem chain_splice {o c : PMEMoid} {pre post : List Node} {y x : Node}
    (hc : Chain h o (pre ++ y::x::post))
    (hkeep : ∀ z ∈ pre ++ post, ∀ f v, h.get z.oid f = some v → h'.get z.oid f = some v)
    (hy : NodeAt h' y) (hx : h.get x.oid .entryNext = some c)
    (hnext : h'.get y.oid .entryNext = some c) : Chain h' o (pre ++ y::post) := by
  induction pre generalizing o with
  | nil =>
    obtain ⟨rfl, -, d, hd, hc⟩ := (chain_cons _ _ _ _).mp hc
    obtain ⟨rfl, -, e, he, hc⟩ := (chain_cons _ _ _ _).mp hc
    cases Option.some.inj (hx.symm.trans he)
    refine (chain_cons _ _ _ _).mpr ⟨rfl, hy, c, hnext, ?_⟩
    exact chain_keeps (P := fun q _ => ∃ z ∈ post, z.oid = q)
      (fun q f v hq hv => by
        obtain ⟨z, hz, rfl⟩ := hq
        exact hkeep z (by simpa using hz) f v hv)
      (fun z hz => ⟨⟨z, hz, rfl⟩, ⟨z, hz, rfl⟩, ⟨z, hz, rfl⟩⟩) hc
  | cons z pre ih =>
    obtain ⟨rfl, hz, d, hd, hc⟩ := (chain_cons _ _ _ _).mp hc
    have hkz := hkeep z (by simp)
    refine (chain_cons _ _ _ _).mpr ⟨rfl, ⟨hz.notNull, hkz _ _ hz.key, hkz _ _ hz.value⟩, d,
      hkz _ _ hd, ih hc fun w hw => hkeep w (List.mem_cons_of_mem _ hw)⟩

theorem nodup_middle {pre post : List Node} {y x : Node} (hn : (pre ++ y::x::post).Nodup) :
    ∀ z ∈ pre ++ post, z ≠ y ∧ z ≠ x := by
  have hp : (pre ++ y::x::post).Perm (y::x::(pre ++ post)) :=
    List.perm_middle.trans (List.Perm.cons y List.perm_middle)
  obtain ⟨hy, hx⟩ := List.nodup_cons.mp (hp.nodup_iff.mp hn)
  intro z hz
  exact ⟨fun he => hy (List.mem_cons_of_mem _ (he ▸ hz)),
    fun he => (List.nodup_cons.mp hx).1 (he ▸ hz)⟩

theorem nodup_of_table {i : ℕ} (ht : Table h hm bs a b p n T) (hi : i < n.toNat) :
    (T i).Nodup := by
  have hmem := List.mem_map_of_mem (f := T) (List.mem_range.mpr hi)
  exact (ht.distinct.of_map _).sublist (List.sublist_flatten_of_mem hmem)

section Removal
variable {i : ℕ} {pre post xs : List Node} {x z : Node} {c o : PMEMoid} {f : Member}

/-- The cells outside the node removed, behind `pre` in chain `i`, the count
and the link that led to the node. -/
def Untouched (hm bs : PMEMoid) (i : ℕ) (pre : List Node) (x : Node) (q : PMEMoid)
    (f : Member) : Prop :=
  q ≠ x.oid ∧ (q, f) ≠ (hm, .count) ∧ (pre = [] → (q, f) ≠ (bs, .bucket i)) ∧
    ∀ y ∈ pre.getLast?, (q, f) ≠ (y.oid, .entryNext)

theorem oid_ne (ht : Table h hm bs a b p n T) (hz : z ∈ nodes n.toNat T)
    (hx : x ∈ nodes n.toNat T) (hne : z ≠ x) : z.oid ≠ x.oid :=
  fun ho => hne (node_ext (ht.nodeAt hz) (ht.nodeAt hx) ho)

theorem untouched_hm (ht : Table h hm bs a b p n T) (hx : x ∈ nodes n.toNat T)
    (hk : f.kind = .hashmapTx) (hf : f ≠ .count) : Untouched hm bs i pre x hm f := by
  have hmx := (node_ne (ht.nodeAt hx) ht.buckets (by decide)).symm
  refine ⟨hmx, by simp [hf], fun _ hb => ?_, fun y _ hb => ?_⟩
  all_goals
    cases (Prod.mk.inj hb).2
    cases hk

theorem untouched_buckets (ht : Table h hm bs a b p n T) (hx : x ∈ nodes n.toNat T)
    (hk : f.kind = .buckets) (hf : pre = [] → f ≠ .bucket i) : Untouched hm bs i pre x bs f := by
  have hbx := (node_ne (ht.nodeAt hx) ht.nbuckets (by decide)).symm
  refine ⟨hbx, fun hb => ?_, fun hp hb => hf hp (Prod.mk.inj hb).2, fun y _ hb => ?_⟩
  all_goals
    cases (Prod.mk.inj hb).2
    cases hk

theorem untouched_node (ht : Table h hm bs a b p n T) (hx : x ∈ nodes n.toNat T)
    (hpre : ∀ y ∈ pre.getLast?, y ∈ nodes n.toNat T) (hz : z ∈ nodes n.toNat T) (hzx : z ≠ x)
    (hk : f.kind = .entry) (hf : f = .entryNext → z ∉ pre.getLast?) :
    Untouched hm bs i pre x z.oid f := by
  refine ⟨oid_ne ht hz hx hzx, fun hb => ?_, fun _ hb => ?_, fun y hy hb => ?_⟩
  · cases (Prod.mk.inj hb).2
    cases hk
  · cases (Prod.mk.inj hb).2
    cases hk
  · have hzy := node_ext (ht.nodeAt hz) (ht.nodeAt (hpre y hy)) (Prod.mk.inj hb).1
    exact hf (Prod.mk.inj hb).2 (hzy ▸ hy)

theorem chain_untouched (ht : Table h hm bs a b p n T) (hx : x ∈ nodes n.toNat T)
    (hpre : ∀ y ∈ pre.getLast?, y ∈ nodes n.toNat T)
    (hkeep : Heap.Keeps (Untouched hm bs i pre x) h h')
    (hxs : ∀ z ∈ xs, z ∈ nodes n.toNat T ∧ z ≠ x ∧ z ∉ pre.getLast?) (hc : Chain h o xs) :
    Chain h' o xs := by
  apply chain_keeps hkeep _ hc
  intro z hz
  obtain ⟨hzn, hzx, hzy⟩ := hxs z hz
  have hfield : ∀ f : Member, f.kind = .entry → Untouched hm bs i pre x z.oid f :=
    fun f hk => untouched_node ht hx hpre hzn hzx hk fun _ => hzy
  exact ⟨hfield _ rfl, hfield _ rfl, hfield _ rfl⟩

theorem slot_other {j : ℕ} (ht : Table h hm bs a b p n T) (hi : i < n.toNat)
    (he : T i = pre ++ x::post) (hkeep : Heap.Keeps (Untouched hm bs i pre x) h h')
    (hj : j < n.toNat) (hji : j ≠ i) (ho : h.get bs (.bucket j) = some o) (hc : Chain h o (T j)) :
    h'.get bs (.bucket j) = some o ∧ Chain h' o (T j) := by
  have hchain : ∀ z ∈ T i, z ∈ nodes n.toNat T := fun z hz => mem_nodes.mpr ⟨i, hi, hz⟩
  have hx := hchain x (by simp [he])
  have hpre : ∀ y ∈ pre.getLast?, y ∈ nodes n.toNat T := fun y hy =>
    hchain y (by simp [he, List.mem_of_getLast? hy])
  have hslot : Untouched hm bs i pre x bs (.bucket j) :=
    untouched_buckets ht hx rfl fun _ => by simp [hji]
  constructor
  · exact hkeep _ _ _ hslot ho
  · apply chain_untouched ht hx hpre hkeep _ hc
    intro z hz
    have hnot : z ∉ T i := fun hzi =>
      hji ((ht.placed j hj z hz).symm.trans (ht.placed i hi z hzi))
    exact ⟨mem_nodes.mpr ⟨j, hj, hz⟩, fun hzx => hnot (by simp [he, hzx]),
      fun hzl => hnot (by simp [he, List.mem_of_getLast? hzl])⟩

theorem chain_without_front (ht : Table h hm bs a b p n T) (hi : i < n.toNat)
    (he : T i = x::post) (hx : h.get x.oid .entryNext = some c)
    (hkeep : Heap.Keeps (Untouched hm bs i [] x) h h') (hc : Chain h o (T i)) :
    Chain h' c post := by
  have hnodup := nodup_of_table ht hi
  rw [he] at hc hnodup
  have hmem : ∀ z ∈ x::post, z ∈ nodes n.toNat T := fun z hz => mem_nodes.mpr ⟨i, hi, he ▸ hz⟩
  obtain ⟨-, -, d, hd, hc⟩ := (chain_cons _ _ _ _).mp hc
  cases Option.some.inj (hx.symm.trans hd)
  apply chain_untouched ht (hmem x List.mem_cons_self) (by simp) hkeep _ hc
  intro z hz
  have hzx : z ≠ x := fun hzx => (List.nodup_cons.mp hnodup).1 (hzx ▸ hz)
  exact ⟨hmem z (List.mem_cons_of_mem x hz), hzx, by simp⟩

theorem chain_without_inner {y : Node} (ht : Table h hm bs a b p n T) (hi : i < n.toNat)
    (he : T i = pre ++ y::x::post) (hx : h.get x.oid .entryNext = some c)
    (hkeep : Heap.Keeps (Untouched hm bs i (pre ++ [y]) x) h h')
    (hnext : h'.get y.oid .entryNext = some c) (hc : Chain h o (T i)) :
    Chain h' o (pre ++ y::post) := by
  have hnodup := nodup_of_table ht hi
  rw [he] at hc hnodup
  have hmem : ∀ z ∈ pre ++ y::x::post, z ∈ nodes n.toNat T := fun z hz =>
    mem_nodes.mpr ⟨i, hi, he ▸ hz⟩
  have hxn := hmem x (by simp)
  have hyn := hmem y (by simp)
  have hlast : ∀ w ∈ (pre ++ [y]).getLast?, w = y := fun w hw => by
    simpa [List.getLast?_concat, eq_comm] using hw
  have hlastn : ∀ w ∈ (pre ++ [y]).getLast?, w ∈ nodes n.toNat T := fun w hw => hlast w hw ▸ hyn
  have hyx : y ≠ x := by
    rintro rfl
    simp [List.nodup_append] at hnodup
  apply chain_splice hc _ _ hx hnext
  · intro z hz f v hv
    have hne := nodup_middle hnodup z hz
    have hzn := hmem z (by
      simp only [List.mem_append, List.mem_cons] at hz ⊢
      tauto)
    exact hkeep _ _ _ ⟨oid_ne ht hzn hxn hne.2,
      fun hb => node_ne (ht.nodeAt hzn) ht.buckets (by decide) (Prod.mk.inj hb).1, by simp,
      fun w hw hb => oid_ne ht hzn hyn hne.1 (hlast w hw ▸ (Prod.mk.inj hb).1)⟩ hv
  · have hfield : ∀ f : Member, f.kind = .entry → f ≠ .entryNext →
        Untouched hm bs i (pre ++ [y]) x y.oid f :=
      fun f hk hf => untouched_node ht hxn hlastn hyn hyx hk fun hfe => absurd hfe hf
    exact nodeAt_keeps hkeep ⟨hfield _ rfl (by decide), hfield _ rfl (by decide)⟩ (ht.nodeAt hyn)

theorem slot_removed (ht : Table h hm bs a b p n T) (hi : i < n.toNat)
    (he : T i = pre ++ x::post) (hx : h.get x.oid .entryNext = some c)
    (hkeep : Heap.Keeps (Untouched hm bs i pre x) h h')
    (hslot : pre = [] → h'.get bs (.bucket i) = some c)
    (hprev : ∀ y ∈ pre.getLast?, h'.get y.oid .entryNext = some c) :
    ∃ o, h'.get bs (.bucket i) = some o ∧ Chain h' o (pre ++ post) := by
  obtain ⟨o, ho, hc⟩ := ht.slot i hi
  rcases pre.eq_nil_or_concat' with rfl | ⟨pre, y, rfl⟩
  · exact ⟨c, hslot rfl, chain_without_front ht hi he hx hkeep hc⟩
  · have hxn : x ∈ nodes n.toNat T := mem_nodes.mpr ⟨i, hi, by simp [he]⟩
    have hy := hprev y List.getLast?_concat
    rw [List.append_assoc, List.singleton_append] at he ⊢
    exact ⟨o, hkeep _ _ _ (untouched_buckets ht hxn rfl (by simp)) ho,
      chain_without_inner ht hi he hx hkeep hy hc⟩

/-- The node `x` leaves its chain: its slot or its predecessor takes over its
successor `c`. -/
theorem table_remove (ht : Table h hm bs a b p n T) (hi : i < n.toNat)
    (he : T i = pre ++ x::post) (hx : h.get x.oid .entryNext = some c)
    (hkeep : Heap.Keeps (Untouched hm bs i pre x) h h')
    (hslot : pre = [] → h'.get bs (.bucket i) = some c)
    (hprev : ∀ y ∈ pre.getLast?, h'.get y.oid .entryNext = some c)
    (hcount : h'.get hm .count = some (UInt64.ofNat (nodes n.toNat T).length - 1)) :
    Table h' hm bs a b p n (Function.update T i (pre ++ post)) := by
  have hxn : x ∈ nodes n.toNat T := mem_nodes.mpr ⟨i, hi, by simp [he]⟩
  have hperm := nodes_erase_perm n.toNat i T pre post x hi he
  have hlen : (nodes n.toNat T).length =
      (nodes n.toNat (Function.update T i (pre ++ post))).length + 1 := by
    simpa using hperm.length_eq.symm
  have hhm : ∀ f : Member, f.kind = .hashmapTx → f ≠ .count → Untouched hm bs i pre x hm f :=
    fun f hk hf => untouched_hm ht hxn hk hf
  constructor
  case buckets => exact hkeep _ _ _ (hhm _ rfl (by simp)) ht.buckets
  case notNull => exact ht.notNull
  case coeffA => exact hkeep _ _ _ (hhm _ rfl (by simp)) ht.coeffA
  case coeffB => exact hkeep _ _ _ (hhm _ rfl (by simp)) ht.coeffB
  case coeffP => exact hkeep _ _ _ (hhm _ rfl (by simp)) ht.coeffP
  case prime => exact ht.prime
  case nbuckets => exact hkeep _ _ _ (untouched_buckets ht hxn rfl (by simp)) ht.nbuckets
  case pos => exact ht.pos
  case fits => exact ht.fits
  case slot =>
    apply slots_update ht.slot
    · intro j hj hji o ho hc
      exact slot_other ht hi he hkeep hj hji ho hc
    · exact slot_removed ht hi he hx hkeep hslot hprev
  case placed =>
    apply placed_update ht.placed
    intro z hz
    apply ht.placed i hi z
    rw [he]
    simp only [List.mem_append, List.mem_cons] at hz ⊢
    tauto
  case distinct =>
    have := (hperm.map Node.key).nodup_iff.mpr ht.distinct
    exact (List.nodup_cons.mp this).2
  case count => rw [hcount, hlen, count_pred]

end Removal

end RtsCache.HashmapUpdate
