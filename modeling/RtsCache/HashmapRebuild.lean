import RtsCache.HashmapBodies
import RtsCache.HashmapScan

/-!
# The rebuild

While the nodes move, every one of them is either in what is left of its old
chain or in its new chain. Draining moves the head of one old chain; when all
old chains are empty, the new ones hold the same nodes as the old table.
-/

set_option autoImplicit false

namespace RtsCache.HashmapRebuild
open RtsCache.UndoHeap RtsCache.UndoMachine RtsCache.UndoRules RtsCache.PoolLayout
open RtsCache.HashmapMachine RtsCache.HashmapInvariant RtsCache.HashmapUpdate
open RtsCache.HashmapScan RtsCache.HashmapBodies

/-- `Rest` is what is left of the old chains, `New` what has been moved, and
`N` lists the nodes of the map. -/
structure Moving (h : Pool) (hm bs nw : PMEMoid) (a b : UInt32) (p n n' : UInt64)
    (N : List Node) (Rest New : ℕ → List Node) : Prop where
  buckets : h.get hm .buckets = some bs
  coeffA : h.get hm .hashFunA = some a
  coeffB : h.get hm .hashFunB = some b
  coeffP : h.get hm .hashFunP = some p
  prime : p ≠ 0
  oldLen : h.get bs .nbuckets = some n
  newLen : h.get nw .nbuckets = some n'
  pos : n' ≠ 0
  apart : nw ≠ bs
  oldSlot : ∀ i < n.toNat, ∃ o, h.get bs (.bucket i) = some o ∧ Chain h o (Rest i)
  newSlot : ∀ i < n'.toNat, ∃ o, h.get nw (.bucket i) = some o ∧ Chain h o (New i)
  placed : ∀ i < n'.toNat, ∀ x ∈ New i, (hashOf a b p n' x.key).toNat = i
  all : (nodes n.toNat Rest ++ nodes n'.toNat New).Perm N
  distinct : (N.map Node.key).Nodup
  count : h.get hm .count = some (UInt64.ofNat N.length)

variable {h : Pool} {hm bs nw : PMEMoid} {a b : UInt32} {p n n' : UInt64} {N : List Node}
  {Rest New : ℕ → List Node}

theorem Moving.nodeAt (hM : Moving h hm bs nw a b p n n' N Rest New) {x : Node}
    (hx : x ∈ nodes n.toNat Rest ++ nodes n'.toNat New) : NodeAt h x := by
  rcases List.mem_append.mp hx with hx | hx
  · obtain ⟨i, hi, hx⟩ := mem_nodes.mp hx
    obtain ⟨o, -, hc⟩ := hM.oldSlot i hi
    exact hc.1 x hx
  · obtain ⟨i, hi, hx⟩ := mem_nodes.mp hx
    obtain ⟨o, -, hc⟩ := hM.newSlot i hi
    exact hc.1 x hx

def movedHeap (h : Pool) (bs nw : PMEMoid) (i j : ℕ) (en next front : PMEMoid) : Pool :=
  let h₁ : Pool := h.put bs (.bucket i) next
  let h₂ := h₁.put en .entryNext front
  h₂.put nw (.bucket j) en

theorem movedHeap_keeps (h : Pool) (bs nw : PMEMoid) (i j : ℕ) (en next front : PMEMoid) :
    Heap.Keeps (fun q f => (q, f) ≠ (bs, .bucket i) ∧ (q, f) ≠ (en, .entryNext) ∧
      (q, f) ≠ (nw, .bucket j)) h (movedHeap h bs nw i j en next front) := by
  rintro q f v ⟨h₁, h₂, h₃⟩ hv
  refine Heap.keeps_put _ _ _ _ _ _ _ ?_ (Heap.keeps_put _ _ _ _ _ _ _ ?_
    (Heap.keeps_put _ _ _ _ _ _ _ ?_ hv))
  · exact not_and_or.mp fun hc => h₃ (Prod.ext hc.1 hc.2)
  · exact not_and_or.mp fun hc => h₂ (Prod.ext hc.1 hc.2)
  · exact not_and_or.mp fun hc => h₁ (Prod.ext hc.1 hc.2)

section Step
variable {i j : ℕ} {x : Node} {xs : List Node} {c front : PMEMoid}

def staying (n n' : UInt64) (Rest New : ℕ → List Node) (i : ℕ) (xs : List Node) : List Node :=
  nodes n.toNat (Function.update Rest i xs) ++ nodes n'.toNat New

theorem Moving.split (hM : Moving h hm bs nw a b p n n' N Rest New) (hi : i < n.toNat)
    (hr : Rest i = x::xs) : (x :: staying n n' Rest New i xs).Perm N := by
  have hold := nodes_erase_perm n.toNat i Rest [] xs x hi hr
  exact (hold.append_right _).trans hM.all

theorem Moving.head (hM : Moving h hm bs nw a b p n n' N Rest New) (hi : i < n.toNat)
    (hr : Rest i = x::xs) : NodeAt h x :=
  hM.nodeAt (hM.all.mem_iff.mpr ((hM.split hi hr).mem_iff.mp List.mem_cons_self))

theorem Moving.oid_ne_head (hM : Moving h hm bs nw a b p n n' N Rest New) (hi : i < n.toNat)
    (hr : Rest i = x::xs) : ∀ z ∈ staying n n' Rest New i xs, z.oid ≠ x.oid := by
  intro z hz ho
  have hsplit := hM.split hi hr
  have hat := hM.nodeAt (hM.all.mem_iff.mpr (hsplit.mem_iff.mp (List.mem_cons_of_mem x hz)))
  have hzx := node_ext hat (hM.head hi hr) ho
  have hn := ((hsplit.map Node.key).nodup_iff.mpr hM.distinct).of_map
  exact (List.nodup_cons.mp hn).1 (hzx ▸ hz)

theorem Moving.chain_moved {o : PMEMoid} {zs : List Node}
    (hM : Moving h hm bs nw a b p n n' N Rest New) (hi : i < n.toNat) (hr : Rest i = x::xs)
    (hzs : ∀ z ∈ zs, z ∈ staying n n' Rest New i xs) (hc : Chain h o zs) :
    Chain (movedHeap h bs nw i j x.oid c front) o zs := by
  apply chain_keeps (movedHeap_keeps h bs nw i j x.oid c front) _ hc
  intro z hz
  have hne := hM.oid_ne_head hi hr z (hzs z hz)
  exact ⟨by simp, by simp, by simp [hne]⟩

theorem Moving.oldSlot_moved (hM : Moving h hm bs nw a b p n n' N Rest New) (hi : i < n.toNat)
    (hr : Rest i = x::xs) (hnext : h.get x.oid .entryNext = some c) : ∀ k < n.toNat, ∃ o,
      (movedHeap h bs nw i j x.oid c front).get bs (.bucket k) = some o ∧
        Chain (movedHeap h bs nw i j x.oid c front) o (Function.update Rest i xs k) := by
  have hin : ∀ k < n.toNat, ∀ z ∈ Function.update Rest i xs k, z ∈ staying n n' Rest New i xs :=
    fun k hk z hz => List.mem_append_left _ (mem_nodes.mpr ⟨k, hk, hz⟩)
  apply slots_update hM.oldSlot
  · intro k hk hki o ho hc
    have hink := hin k hk
    rw [Function.update_of_ne hki] at hink
    exact ⟨movedHeap_keeps _ _ _ _ _ _ _ _ _ _ _ (by simp [hki, hM.apart.symm]) ho,
      hM.chain_moved hi hr hink hc⟩
  · obtain ⟨o, ho, hc⟩ := hM.oldSlot i hi
    have hini := hin i hi
    rw [Function.update_self] at hini
    rw [hr] at hc
    obtain ⟨-, -, d, hd, hc⟩ := (chain_cons _ _ _ _).mp hc
    cases Option.some.inj (hnext.symm.trans hd)
    have hxb : x.oid ≠ bs := node_ne (hM.head hi hr) hM.oldLen (by decide)
    have hslot : (movedHeap h bs nw i j x.oid c front).get bs (.bucket i) = some c := by
      rw [movedHeap, Heap.get_put_of_ne _ _ _ _ hM.apart.symm,
        Heap.get_put_of_ne _ _ _ _ hxb.symm]
      exact Heap.get_put_self _ _ ho
    exact ⟨c, hslot, hM.chain_moved hi hr hini hc⟩

theorem Moving.newSlot_moved (hM : Moving h hm bs nw a b p n n' N Rest New) (hi : i < n.toNat)
    (hr : Rest i = x::xs) (hnext : h.get x.oid .entryNext = some c) (hj : j < n'.toNat)
    (hfront : h.get nw (.bucket j) = some front) : ∀ k < n'.toNat, ∃ o,
      (movedHeap h bs nw i j x.oid c front).get nw (.bucket k) = some o ∧
        Chain (movedHeap h bs nw i j x.oid c front) o (Function.update New j (x :: New j) k) := by
  have hin : ∀ k < n'.toNat, ∀ z ∈ New k, z ∈ staying n n' Rest New i xs := fun k hk z hz =>
    List.mem_append_right _ (mem_nodes.mpr ⟨k, hk, hz⟩)
  have hkeep := movedHeap_keeps h bs nw i j x.oid c front
  apply slots_update hM.newSlot
  · intro k hk hkj o ho hc
    exact ⟨hkeep _ _ _ (by simp [hkj, hM.apart]) ho, hM.chain_moved hi hr (hin k hk) hc⟩
  · obtain ⟨o, ho, hc⟩ := hM.newSlot j hj
    cases Option.some.inj (hfront.symm.trans ho)
    have hx := hM.head hi hr
    have hxb : x.oid ≠ bs := node_ne hx hM.oldLen (by decide)
    have hxw : x.oid ≠ nw := node_ne hx hM.newLen (by decide)
    have hnext' : (h.put bs (.bucket i) c).get x.oid .entryNext = some c := by
      rw [Heap.get_put_of_ne _ _ _ _ hxb, hnext]
    have hfront' : ((h.put bs (.bucket i) c).put x.oid .entryNext front).get nw (.bucket j) =
        some front := by
      rw [Heap.get_put_of_ne _ _ _ _ hxw.symm, Heap.get_put_of_ne _ _ _ _ hM.apart, hfront]
    have hlink : (movedHeap h bs nw i j x.oid c front).get x.oid .entryNext = some front := by
      rw [movedHeap, Heap.get_put_of_ne _ _ _ _ hxw]
      exact Heap.get_put_self _ _ hnext'
    exact ⟨x.oid, Heap.get_put_self _ _ hfront', (chain_cons _ _ _ _).mpr
      ⟨rfl, nodeAt_keeps hkeep (by simp) hx, front, hlink, hM.chain_moved hi hr (hin j hj) hc⟩⟩

theorem Moving.all_moved (hM : Moving h hm bs nw a b p n n' N Rest New) (hi : i < n.toNat)
    (hr : Rest i = x::xs) (hj : j < n'.toNat) :
    (nodes n.toNat (Function.update Rest i xs) ++
      nodes n'.toNat (Function.update New j (x :: New j))).Perm N := by
  have hnew := nodes_cons_perm n'.toNat j New x hj
  calc
    nodes n.toNat (Function.update Rest i xs) ++ nodes n'.toNat (Function.update New j (x :: New j))
    _ |>.Perm (nodes n.toNat (Function.update Rest i xs) ++ x :: nodes n'.toNat New) :=
      hnew.append_left _
    _ |>.Perm (x :: staying n n' Rest New i xs) := List.perm_middle
    _ |>.Perm N := hM.split hi hr

theorem moving_step (hM : Moving h hm bs nw a b p n n' N Rest New) (hi : i < n.toNat)
    (hr : Rest i = x::xs) (hnext : h.get x.oid .entryNext = some c)
    (hfront : h.get nw (.bucket (hashOf a b p n' x.key).toNat) = some front) :
    Moving (movedHeap h bs nw i (hashOf a b p n' x.key).toNat x.oid c front) hm bs nw a b p n n'
      N (Function.update Rest i xs)
      (Function.update New (hashOf a b p n' x.key).toNat
        (x :: New (hashOf a b p n' x.key).toNat)) := by
  obtain ⟨j, hj⟩ : ∃ j, j = (hashOf a b p n' x.key).toNat := ⟨_, rfl⟩
  have hjn : j < n'.toNat := hj ▸ hashOf_lt a b p n' x.key hM.pos
  rw [← hj] at hfront ⊢
  have hkeep := movedHeap_keeps h bs nw i j x.oid c front
  constructor
  case buckets => exact hkeep _ _ _ (by simp) hM.buckets
  case coeffA => exact hkeep _ _ _ (by simp) hM.coeffA
  case coeffB => exact hkeep _ _ _ (by simp) hM.coeffB
  case coeffP => exact hkeep _ _ _ (by simp) hM.coeffP
  case prime => exact hM.prime
  case oldLen => exact hkeep _ _ _ (by simp) hM.oldLen
  case newLen => exact hkeep _ _ _ (by simp) hM.newLen
  case pos => exact hM.pos
  case apart => exact hM.apart
  case distinct => exact hM.distinct
  case count => exact hkeep _ _ _ (by simp) hM.count
  case oldSlot => exact hM.oldSlot_moved hi hr hnext
  case newSlot => exact hM.newSlot_moved hi hr hnext hjn hfront
  case all => exact hM.all_moved hi hr hjn
  case placed =>
    apply placed_update hM.placed
    intro z hz
    rcases List.mem_cons.mp hz with rfl | hz
    · exact hj.symm
    · exact hM.placed j hjn z hz

end Step

theorem bucketsSize_toNat {n : UInt64} (hn : 8 + 16 * n.toNat < 2^64) :
    (bucketsSize n).toNat = 8 + 16 * n.toNat := by
  simp only [bucketsSize, sizeofBuckets, sizeofToid, UInt64.toNat_add, UInt64.toNat_mul,
    UInt64.reduceToNat]
  omega

theorem moving_start {T : ℕ → List Node} {size : ℕ} (ht : Table h hm bs a b p n T)
    (hpos : n' ≠ 0) (hsize : size = 8 + 16 * n'.toNat) (hfree : h nw = none) :
    Moving (Heap.put (Function.update h nw (some ⟨.buckets, size, Layout.zero⟩) : Pool) nw .nbuckets
      n') hm bs nw a b p n n' (nodes n.toNat T) T fun _ => [] := by
  have hkeep : Heap.Keeps (fun q _ => q ≠ nw) h
      (Heap.put (Function.update h nw (some ⟨.buckets, size, Layout.zero⟩) : Pool) nw .nbuckets
        n') := fun q f v hq hv =>
    Heap.keeps_put _ _ _ _ _ _ _ (Or.inl hq) (Heap.keeps_alloc h nw _ hfree _ _ _ trivial hv)
  have hread : ∀ {q : PMEMoid} {f : Member} {v : f.ty}, h.get q f = some v → q ≠ nw :=
    Heap.ne_of_free hfree
  have hget : ∀ {q : PMEMoid} {f : Member} {v : f.ty}, h.get q f = some v →
      (Heap.put (Function.update h nw (some ⟨.buckets, size, Layout.zero⟩) : Pool) nw .nbuckets
        n').get q f = some v := fun hv => hkeep _ _ _ (hread hv) hv
  have hnew : ∀ m : Member, Kind.buckets = m.kind → m.extent ≤ size →
      Heap.get (Function.update h nw (some ⟨.buckets, size, Layout.zero⟩) : Pool) nw m =
        some m.zero := fun m hk he => get_fresh (Function.update_self ..) m hk he
  constructor
  case buckets => exact hget ht.buckets
  case coeffA => exact hget ht.coeffA
  case coeffB => exact hget ht.coeffB
  case coeffP => exact hget ht.coeffP
  case prime => exact ht.prime
  case oldLen => exact hget ht.nbuckets
  case newLen =>
    exact Heap.get_put_self _ _ (hnew .nbuckets rfl (by simp [Member.extent, hsize]))
  case pos => exact hpos
  case apart => exact (hread ht.nbuckets).symm
  case placed => simp
  case distinct => exact ht.distinct
  case count => exact hget ht.count
  case oldSlot =>
    intro i hi
    obtain ⟨o, ho, hc⟩ := ht.slot i hi
    have hne : ∀ x ∈ T i, x.oid ≠ nw := fun x hx => hread (hc.1 x hx).key
    exact ⟨o, hget ho, chain_keeps hkeep (fun x hx => ⟨hne x hx, hne x hx, hne x hx⟩) hc⟩
  case newSlot =>
    intro i hi
    have hslot : Heap.get (Heap.put (Function.update h nw
        (some ⟨.buckets, size, Layout.zero⟩) : Pool) nw .nbuckets n') nw (.bucket i) =
        some oidNull := by
      rw [Heap.get_put_other _ _ _ _ (by simp)]
      exact hnew (.bucket i) rfl (by simp only [Member.extent]; omega)
    exact ⟨oidNull, hslot, (chain_nil _ _).mpr rfl⟩
  case all =>
    have : nodes n'.toNat (fun _ => []) = [] :=
      List.eq_nil_iff_forall_not_mem.mpr fun x hx => by simp [mem_nodes] at hx
    rw [this, List.append_nil]

theorem moving_end (hM : Moving h hm bs nw a b p n n' N Rest New)
    (hempty : nodes n.toNat Rest = []) (hnull : nw.isNull = false)
    (hfits : 8 + 16 * n'.toNat ≤ pmemobjMaxAllocSize) :
    Table (Function.update (h.put hm .buckets nw) bs none) hm nw a b p n' New ∧
      (nodes n'.toNat New).Perm N := by
  have hall : (nodes n'.toNat New).Perm N := by simpa [hempty] using hM.all
  have hbh : hm ≠ bs := ne_of_kind hM.buckets hM.oldLen (by decide)
  have hkeep : Heap.Keeps (fun q f => q ≠ bs ∧ f ≠ .buckets) h
      (Function.update (h.put hm .buckets nw) bs none) := fun q f v hq hv =>
    Heap.keeps_free _ _ _ _ _ hq.1 (Heap.keeps_put _ _ _ _ _ _ _ (Or.inr hq.2) hv)
  apply And.intro _ hall
  constructor
  case buckets =>
    rw [Heap.get_congr (Function.update_of_ne hbh _ _)]
    exact Heap.get_put_self _ _ hM.buckets
  case notNull => exact hnull
  case coeffA => exact hkeep _ _ _ (by simp [hbh]) hM.coeffA
  case coeffB => exact hkeep _ _ _ (by simp [hbh]) hM.coeffB
  case coeffP => exact hkeep _ _ _ (by simp [hbh]) hM.coeffP
  case prime => exact hM.prime
  case nbuckets => exact hkeep _ _ _ (by simp [hM.apart]) hM.newLen
  case pos => exact hM.pos
  case fits => exact hfits
  case slot =>
    intro i hi
    obtain ⟨o, ho, hc⟩ := hM.newSlot i hi
    have hne : ∀ x ∈ New i, x.oid ≠ bs := fun x hx => node_ne (hc.1 x hx) hM.oldLen (by decide)
    exact ⟨o, hkeep _ _ _ (by simp [hM.apart]) ho,
      chain_keeps hkeep (fun x hx => by simp [hne x hx]) hc⟩
  case placed => exact hM.placed
  case distinct => exact (hall.map _).nodup_iff.mpr hM.distinct
  case count =>
    rw [hall.length_eq]
    exact hkeep _ _ _ (by simp [hbh]) hM.count

section Loops
variable {env : PoolEnv} {s : PoolState}

theorem Aborts.after {s₁ : PoolState} {j k : ℕ}
    (h : Confined (I := PMEMoid) (F := Member) MapKind s s₁)
    (hc : s₁.calls = s.calls + j) : ∀ c s', Aborts s₁ k c s' → Aborts s (j + k) c s' := by
  rintro c s' ⟨h', hc'⟩
  exact ⟨h.trans h', by omega⟩

theorem Aborts.within {k j : ℕ} (hj : k ≤ j) : ∀ c s', Aborts s k c s' → Aborts s j c s' := by
  rintro c s' ⟨h, hc⟩
  exact ⟨h, by omega⟩

theorem wp_rebuildDrain {i : ℕ} (xs : List Node) (fl : ℕ) (hfl : xs.length < fl)
    (hl : s.log.isSome) (hM : Moving s.heap hm bs nw a b p n n' N Rest New) (hi : i < n.toNat)
    (hr : Rest i = xs) (hold : Covers s bs (.bucket i)) (hnew : ∀ f, Covers s nw f) :
    wp env (rebuildDrain hm bs nw i fl)
      (fun _ s' => Confined (I := PMEMoid) (F := Member) MapKind s s' ∧
        s'.calls = s.calls + xs.length ∧
        ∃ New', Moving s'.heap hm bs nw a b p n n' N (Function.update Rest i []) New')
      (Aborts s xs.length) s := by
  induction xs generalizing s fl Rest New with
  | nil =>
    obtain ⟨fl, rfl⟩ := Nat.exists_eq_succ_of_ne_zero (Nat.ne_of_gt hfl)
    obtain ⟨o, ho, hc⟩ := hM.oldSlot i hi
    rw [hr, chain_nil] at hc
    rw [rebuildDrain, wp_bind, wp_dRo ho, if_pos hc, wp_pure]
    refine ⟨.refl s, rfl, New, ?_⟩
    rwa [← hr, Function.update_eq_self]
  | cons x xs ih =>
    obtain ⟨fl, rfl⟩ := Nat.exists_eq_succ_of_ne_zero (Nat.ne_of_gt (Nat.zero_lt_of_lt hfl))
    obtain ⟨o, ho, hc⟩ := hM.oldSlot i hi
    rw [hr] at hc
    obtain ⟨rfl, hx, next, hnext, -⟩ := (chain_cons _ _ _ _).mp hc
    have hlt := hashOf_lt a b p n' x.key hM.pos
    obtain ⟨front, hfront, -⟩ := hM.newSlot _ hlt
    have hstep := moving_step hM hi hr hnext hfront
    have hxb : x.oid ≠ bs := node_ne hx hM.oldLen (by decide)
    have hxw : x.oid ≠ nw := node_ne hx hM.newLen (by decide)
    rw [rebuildDrain, wp_bind, wp_dRo ho, if_neg (by simp [hx.notNull]), wp_bind, wp_dRo hx.key,
      wp_bind]
    apply wp_hashOf hM.coeffA hM.coeffB hM.coeffP hM.newLen hM.prime hM.pos
    rw [wp_bind, wp_dRo hnext, wp_bind]
    apply wp_dRw ho hold (Or.inr (Or.inl rfl)) (fun c s' h hc => ⟨h, by omega⟩)
    intro s₁ h₁ e₁ n₁
    have hnext₁ : s₁.heap.get x.oid .entryNext = some next := by
      rw [e₁, Heap.get_put_of_ne _ _ _ _ hxb, hnext]
    rw [wp_bind]
    apply wp_txAddField (h₁.inTx ▸ hl) hnext₁ (Or.inl rfl)
      (fun c s' h hc => ⟨h₁.trans h, by simp only [List.length_cons]; omega⟩)
    intro s₂ h₂ e₂ c₂ n₂
    have h₁₂ := h₁.trans h₂
    have hfront₂ : s₂.heap.get nw (.bucket (hashOf a b p n' x.key).toNat) = some front := by
      rw [e₂, e₁, Heap.get_put_of_ne _ _ _ _ hM.apart, hfront]
    rw [wp_bind, wp_dRo hfront₂, wp_bind]
    apply wp_dRw (e₂ ▸ hnext₁) c₂ (Or.inl rfl)
      (fun c s' h hc => ⟨h₁₂.trans h, by simp only [List.length_cons]; omega⟩)
    intro s₃ h₃ e₃ n₃
    have h₁₃ := h₁₂.trans h₃
    have hfront₃ : s₃.heap.get nw (.bucket (hashOf a b p n' x.key).toNat) = some front := by
      rw [e₃, Heap.get_put_of_ne _ _ _ _ hxw.symm, hfront₂]
    rw [wp_bind]
    apply wp_dRw hfront₃ (h₁₃.covers _ _ (hnew _)) (Or.inr (Or.inl rfl))
      (fun c s' h hc => ⟨h₁₃.trans h, by simp only [List.length_cons]; omega⟩)
    intro s₄ h₄ e₄ n₄
    have h₁₄ := h₁₃.trans h₄
    rw [movedHeap, ← e₁, ← e₂, ← e₃, ← e₄] at hstep
    have hrest : Function.update (Function.update Rest i xs) i [] = Function.update Rest i [] :=
      Function.update_idem ..
    apply wp_mono (ih fl (Nat.lt_of_succ_lt_succ hfl) (h₁₄.inTx ▸ hl) hstep
      (Function.update_self ..) (h₁₄.covers _ _ hold) fun f => h₁₄.covers _ _ (hnew f))
    · rintro _ s' ⟨h', hc', New', hM'⟩
      exact ⟨h₁₄.trans h', by simp only [List.length_cons]; omega, New', hrest ▸ hM'⟩
    · intro c s' h'
      have := Aborts.after (j := 1) h₁₄ (by omega) c s' h'
      rwa [List.length_cons, Nat.add_comm]

theorem wp_rebuildMove (d i fl : ℕ) (hd : n.toNat - i = d) (hfl : d < fl)
    (hfuel : N.length < env.fuel) (hl : s.log.isSome)
    (hM : Moving s.heap hm bs nw a b p n n' N Rest New) (hdone : ∀ j < i, Rest j = [])
    (hold : ∀ j < n.toNat, Covers s bs (.bucket j)) (hnew : ∀ f, Covers s nw f) :
    wp env (rebuildMove hm bs nw fl i)
      (fun _ s' => Confined (I := PMEMoid) (F := Member) MapKind s s' ∧
        s'.calls = s.calls + (nodes n.toNat Rest).length ∧
        ∃ Rest' New', Moving s'.heap hm bs nw a b p n n' N Rest' New' ∧ nodes n.toNat Rest' = [])
      (Aborts s (nodes n.toNat Rest).length) s := by
  induction d generalizing s i fl Rest New with
  | zero =>
    obtain ⟨fl, rfl⟩ := Nat.exists_eq_succ_of_ne_zero (Nat.ne_of_gt hfl)
    have hempty : nodes n.toNat Rest = [] := List.eq_nil_iff_forall_not_mem.mpr fun x hx => by
      obtain ⟨j, hj, hx⟩ := mem_nodes.mp hx
      simp [hdone j (by omega)] at hx
    rw [rebuildMove, wp_bind, wp_dRo hM.oldLen, if_neg (by omega), wp_pure, hempty]
    exact ⟨.refl s, rfl, Rest, New, hM, hempty⟩
  | succ d ih =>
    obtain ⟨fl, rfl⟩ := Nat.exists_eq_succ_of_ne_zero (Nat.ne_of_gt (Nat.zero_lt_of_lt hfl))
    have hi : i < n.toNat := by omega
    have hlen := (nodes_update_perm n.toNat i Rest [] hi).length_eq
    rw [List.length_append, List.nil_append] at hlen
    have hshort : (Rest i).length < env.fuel := by
      have := hM.all.length_eq
      rw [List.length_append] at this
      omega
    rw [rebuildMove, wp_bind, wp_dRo hM.oldLen, if_pos hi, wp_bind, wp_fuel, wp_bind]
    refine wp_mono (wp_rebuildDrain (Rest i) _ hshort hl hM hi rfl (hold i hi) hnew) ?_
      (Aborts.within (by omega))
    rintro _ s₁ ⟨h₁, n₁, New₁, hM₁⟩
    have hdone₁ : ∀ j < i + 1, Function.update Rest i [] j = [] := by
      intro j hj
      by_cases hji : j = i
      · subst hji
        exact Function.update_self ..
      · rw [Function.update_of_ne hji]
        exact hdone j (by omega)
    apply wp_mono (ih (i+1) fl (by omega) (Nat.lt_of_succ_lt_succ hfl) (h₁.inTx ▸ hl) hM₁ hdone₁
      (fun j hj => h₁.covers _ _ (hold j hj)) fun f => h₁.covers _ _ (hnew f))
    · rintro _ s' ⟨h', n', hM'⟩
      exact ⟨h₁.trans h', by omega, hM'⟩
    · intro c s' h'
      exact Aborts.within (by omega) c s' (Aborts.after h₁ n₁ c s' h')

theorem wp_rebuildBody {T : ℕ → List Node} (hl : s.log.isSome)
    (ht : Table s.heap hm bs a b p n T) (hpos : n' ≠ 0) (hlen : 8 + 16 * n'.toNat < 2^64)
    (hfuel : 2^64 < env.fuel) :
    wp env (rebuildBody hm bs n n')
      (fun _ s' => Confined (I := PMEMoid) (F := Member) MapKind s s' ∧
        s'.calls = s.calls + (4 + (nodes n.toNat T).length) ∧
        ∃ nw New, Table s'.heap hm nw a b p n' New ∧ (nodes n'.toNat New).Perm (nodes n.toNat T))
      (Aborts s (4 + (nodes n.toNat T).length)) s := by
  have hfit := ht.fits
  have holdSize := bucketsSize_toNat (n := n) (by unfold pmemobjMaxAllocSize at hfit; omega)
  rw [rebuildBody, wp_bind]
  apply wp_txAddField hl ht.buckets (Or.inr (Or.inr rfl)) (fun c s' h hc => ⟨h, by omega⟩)
  intro s₁ h₁ e₁ c₁ n₁
  rw [wp_bind]
  apply wp_txAllocWith (h₁.inTx ▸ hl) (Or.inr (Or.inl rfl))
    (fun c s' h hc => ⟨h₁.trans h, by omega⟩)
  intro nw s₂ h₂ hfree hnull hmax e₂ c₂ n₂
  have h₁₂ := h₁.trans h₂
  rw [bucketsSize_toNat hlen] at hmax e₂
  rw [e₁] at hfree e₂
  have hget : s₂.heap.get nw .nbuckets = some (Member.zero .nbuckets) := by
    rw [e₂]
    exact get_fresh (Function.update_self ..) .nbuckets rfl (by simp [Member.extent])
  rw [wp_bind]
  apply wp_dRw hget (c₂ _) (Or.inr (Or.inl rfl)) (fun c s' h hc => ⟨h₁₂.trans h, by omega⟩)
  intro s₃ h₃ e₃ n₃
  have h₁₃ := h₁₂.trans h₃
  have hstart := moving_start ht hpos rfl hfree
  rw [wp_bind]
  have hM₃ : Moving s₃.heap hm bs nw a b p n n' (nodes n.toNat T) T fun _ => [] := by
    rw [e₃, e₂]
    exact hstart
  apply wp_txAddRange (h₁₃.inTx ▸ hl) hM₃.oldLen (Or.inr (Or.inl rfl))
    (fun c s' h hc => ⟨h₁₃.trans h, by omega⟩)
  intro s₄ h₄ e₄ c₄ n₄
  have h₁₄ := h₁₃.trans h₄
  rw [holdSize] at c₄
  rw [wp_bind, wp_fuel, wp_bind]
  have hn := n.toNat_lt
  apply wp_mono (wp_rebuildMove (n.toNat) 0 _ rfl (by omega)
    (Nat.lt_of_le_of_lt ht.length_le hfuel) (h₁₄.inTx ▸ hl) (e₄ ▸ hM₃) (by simp)
    (fun j hj => c₄ _ (by simp only [Member.extent]; omega))
    fun f => (h₃.trans h₄).covers _ _ (c₂ f))
  · rintro _ s₅ ⟨h₅, n₅, Rest, New, hM, hempty⟩
    have h₁₅ := h₁₄.trans h₅
    have hend := moving_end hM hempty hnull hmax
    have hbh : bs ≠ hm := ht.bs_ne_hm
    rw [wp_bind]
    apply wp_dRw hM.buckets ((h₂.trans (h₃.trans (h₄.trans h₅))).covers _ _ c₁)
      (Or.inr (Or.inr rfl)) (fun c s' h hc => ⟨h₁₅.trans h, by omega⟩)
    intro s₆ h₆ e₆ n₆
    have h₁₆ := h₁₅.trans h₆
    have hlive : s₆.heap.get bs .nbuckets = some n := by
      rw [e₆, Heap.get_put_of_ne _ _ _ _ hbh, hM.oldLen]
    obtain ⟨obj, hobj, hkind⟩ := Heap.live_of_get hlive
    apply wp_txFree (h₁₆.inTx ▸ hl) ht.notNull hobj (Or.inr (Or.inl hkind))
      (fun c s' h hc => ⟨h₁₆.trans h, by omega⟩)
    intro s₇ h₇ e₇ n₇
    rw [← e₆, ← e₇] at hend
    exact ⟨h₁₆.trans h₇, by omega, nw, New, hend⟩
  · intro c s' h'
    exact Aborts.within (by omega) c s' (Aborts.after (j := 3) h₁₄ (by omega) c s' h')

end Loops

end RtsCache.HashmapRebuild
