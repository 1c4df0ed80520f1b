import RtsCache.HashmapOps

/-!
# A new hash map

A committed `hm_tx_create` leaves a map with a non-zero `hash_fun_a`, the fixed
`hash_fun_p` and ten empty buckets.
-/

set_option autoImplicit false

namespace RtsCache.HashmapCreate
open RtsCache.UndoHeap RtsCache.UndoMachine RtsCache.UndoRules RtsCache.PoolLayout
open RtsCache.HashmapMachine RtsCache.HashmapInvariant

/-- The map as `hm_tx_create` leaves it. -/
structure Created (h : Pool) (hm : PMEMoid) : Prop where
  coeffA : ∃ a : UInt32, h.get hm .hashFunA = some a ∧ a ≠ 0
  coeffB : ∃ b, h.get hm .hashFunB = some b
  coeffP : h.get hm .hashFunP = some hashFuncCoeffP
  count : h.get hm .count = some (0 : UInt64)
  buckets : ∃ bs, h.get hm .buckets = some bs ∧ bs.isNull = false ∧
    h.get bs .nbuckets = some initBucketsNum ∧
    ∀ i < initBucketsNum.toNat, h.get bs (.bucket i) = some oidNull

theorem nodes_empty (n : ℕ) : nodes n (fun _ => []) = [] :=
  List.eq_nil_iff_forall_not_mem.mpr fun x hx => by simp [mem_nodes] at hx

theorem Created.table {h : Pool} {hm : PMEMoid} (hc : Created h hm) :
    ∃ bs a b, Table h hm bs a b hashFuncCoeffP initBucketsNum fun _ => [] := by
  obtain ⟨a, ha, -⟩ := hc.coeffA
  obtain ⟨b, hb⟩ := hc.coeffB
  obtain ⟨bs, hbs, hnull, hn, hslots⟩ := hc.buckets
  refine ⟨bs, a, b, hbs, hnull, ha, hb, hc.coeffP, by decide, hn, by decide, by decide,
    fun i hi => ⟨oidNull, hslots i hi, (chain_nil _ _).mpr rfl⟩, by simp, ?_, ?_⟩
  · simp [nodes_empty]
  · rw [nodes_empty]
    exact hc.count

theorem Created.mapIs {h : Pool} {hm : PMEMoid} (hc : Created h hm) :
    MapIs h hm fun _ => none := by
  obtain ⟨bs, a, b, ht⟩ := hc.table
  refine ⟨bs, a, b, _, _, _, ht, ?_⟩
  rw [nodes_empty]
  rfl

section Create
variable {env : PoolEnv} {s : PoolState} {hm : PMEMoid} {rand : ℕ → UInt32}

def AnyKind (_ : Kind) : Prop := True

def CreateAborts (s : PoolState) (_ : Cause) (s' : PoolState) : Prop :=
  Confined (I := PMEMoid) (F := Member) AnyKind s s'

theorem wp_createDraw (k fl i : ℕ) (hk : rand (i + k) ≠ 0) (hfl : k < fl) {w : UInt32}
    (hw : s.heap.get hm .hashFunA = some w) (hc : Covers s hm .hashFunA) :
    wp env (createDraw hm rand fl i)
      (fun _ s' => Confined (I := PMEMoid) (F := Member) AnyKind s s' ∧
        Heap.Keeps (fun q f => q ≠ hm ∨ f ≠ .hashFunA) s.heap s'.heap ∧
        ∃ a : UInt32, s'.heap.get hm .hashFunA = some a ∧ a ≠ 0)
      (CreateAborts s) s := by
  induction k generalizing s fl i w with
  | zero =>
    obtain ⟨fl, rfl⟩ := Nat.exists_eq_succ_of_ne_zero (Nat.ne_of_gt hfl)
    rw [Nat.add_zero] at hk
    rw [createDraw, wp_bind]
    apply wp_dRw hw hc trivial (fun c s' h _ => h)
    intro s₁ h₁ e₁ _
    have ha : s₁.heap.get hm .hashFunA = some (rand i) := by
      rw [e₁]
      exact Heap.get_put_self _ _ hw
    rw [wp_bind, wp_dRo ha, if_neg hk, wp_pure]
    exact ⟨h₁, e₁ ▸ Heap.keeps_put _ _ _ _, rand i, ha, hk⟩
  | succ k ih =>
    obtain ⟨fl, rfl⟩ := Nat.exists_eq_succ_of_ne_zero (Nat.ne_of_gt (Nat.zero_lt_of_lt hfl))
    rw [createDraw, wp_bind]
    apply wp_dRw hw hc trivial (fun c s' h _ => h)
    intro s₁ h₁ e₁ _
    have ha : s₁.heap.get hm .hashFunA = some (rand i) := by
      rw [e₁]
      exact Heap.get_put_self _ _ hw
    have hkeep : Heap.Keeps (fun q f => q ≠ hm ∨ f ≠ .hashFunA) s.heap s₁.heap :=
      e₁ ▸ Heap.keeps_put _ _ _ _
    rw [wp_bind, wp_dRo ha]
    by_cases h0 : rand i = 0
    · rw [if_pos h0]
      refine wp_mono (ih fl (i + 1) (by rwa [Nat.add_right_comm]) (Nat.lt_of_succ_lt_succ hfl) ha
        (h₁.covers _ _ hc)) ?_ fun c s' h => h₁.trans h
      rintro _ s' ⟨h', hk', hr⟩
      exact ⟨h₁.trans h', hkeep.trans hk', hr⟩
    · rw [if_neg h0, wp_pure]
      exact ⟨h₁, hkeep, rand i, ha, h0⟩

def Blank (h : Pool) (hm : PMEMoid) : Prop :=
  ∀ m : Member, m.kind = .hashmapTx → h.get hm m = some m.zero

theorem hashmapTx_extent {m : Member} (hm : m.kind = .hashmapTx) :
    m.extent ≤ Kind.hashmapTx.sizeof := by
  cases m <;> simp [Member.kind] at hm <;> decide

def newArray : Obj Member := ⟨.buckets, 168, Layout.zero⟩

def hashedHeap (h : Pool) (hm : PMEMoid) (b : UInt32) : Pool :=
  let h₁ : Pool := h.put hm .hashFunB b
  h₁.put hm .hashFunP hashFuncCoeffP

def arrayHeap (h : Pool) (hm bs : PMEMoid) : Pool :=
  let h₁ : Pool := Function.update h bs (some newArray)
  let h₂ := h₁.put hm .buckets bs
  h₂.put bs .nbuckets initBucketsNum

theorem hashedHeap_keeps (h : Pool) (hm : PMEMoid) (b : UInt32) :
    Heap.Keeps (fun q m => q ≠ hm ∨ (m ≠ .hashFunB ∧ m ≠ .hashFunP)) h (hashedHeap h hm b) := by
  intro q m v hq hv
  apply Heap.keeps_put
  · exact hq.imp_right And.right
  apply Heap.keeps_put
  · exact hq.imp_right And.left
  exact hv

theorem arrayHeap_keeps {h : Pool} {bs : PMEMoid} (hm : PMEMoid) (hfree : h bs = none) :
    Heap.Keeps (fun q m => q ≠ hm ∨ m ≠ .buckets) h (arrayHeap h hm bs) := by
  intro q m v hq hv
  have hne := Heap.ne_of_free hfree hv
  apply Heap.keeps_put
  · exact Or.inl hne
  apply Heap.keeps_put
  · exact hq
  apply Heap.keeps_alloc _ _ _ hfree
  · trivial
  exact hv

theorem newArray_get {h : Pool} {bs : PMEMoid} (ho : h bs = some newArray) {m : Member}
    (hk : m.kind = .buckets) (he : m.extent ≤ 168) : h.get bs m = some m.zero :=
  get_fresh ho m hk.symm he

theorem arrayHeap_created {h : Pool} {hm bs o : PMEMoid} {a b : UInt32} (hfree : h bs = none)
    (hnull : bs.isNull = false) (ha : h.get hm .hashFunA = some a) (hne : a ≠ 0)
    (hb : h.get hm .hashFunB = some b) (hp : h.get hm .hashFunP = some hashFuncCoeffP)
    (hcount : h.get hm .count = some (0 : UInt64)) (hold : h.get hm .buckets = some o) :
    Created (arrayHeap h hm bs) hm := by
  have hkeep := arrayHeap_keeps hm hfree
  have hmb := Heap.ne_of_free hfree ha
  have hobj : (Function.update h bs (some newArray) : Pool) bs = some newArray :=
    Function.update_self ..
  constructor
  · exact ⟨a, hkeep _ _ _ (Or.inr (by decide)) ha, hne⟩
  · exact ⟨b, hkeep _ _ _ (Or.inr (by decide)) hb⟩
  · exact hkeep _ _ _ (Or.inr (by decide)) hp
  · exact hkeep _ _ _ (Or.inr (by decide)) hcount
  · refine ⟨bs, ?_, hnull, ?_, ?_⟩
    · rw [arrayHeap, Heap.get_put_of_ne _ _ _ _ hmb]
      apply Heap.get_put_self (w := o)
      rwa [Heap.get_congr (Function.update_of_ne hmb _ _)]
    · apply Heap.get_put_self (w := Member.zero .nbuckets)
      rw [Heap.get_put_of_ne _ _ _ _ hmb.symm]
      exact newArray_get hobj rfl (by decide)
    · intro j hj
      have hj' : j < 10 := hj
      rw [arrayHeap, Heap.get_put_other _ _ _ _ (by simp), Heap.get_put_of_ne _ _ _ _ hmb.symm]
      exact newArray_get hobj rfl (by simp only [Member.extent]; omega)

theorem hashedHeap_get {h : Pool} {hm : PMEMoid} {w : UInt32} {v : UInt64} (b : UInt32)
    (hb : h.get hm .hashFunB = some w) (hp : h.get hm .hashFunP = some v) :
    (hashedHeap h hm b).get hm .hashFunB = some b ∧
      (hashedHeap h hm b).get hm .hashFunP = some hashFuncCoeffP := by
  constructor
  · rw [hashedHeap, Heap.get_put_other _ _ _ _ (by decide)]
    exact Heap.get_put_self _ _ hb
  · apply Heap.get_put_self (w := v)
    rwa [Heap.get_put_other _ _ _ _ (by decide)]

theorem wp_createCoeffs {k : Pmem Unit} {w b : UInt32} {v : UInt64} {Q : Unit → PoolState → Prop}
    {E : Cause → PoolState → Prop} (hb : s.heap.get hm .hashFunB = some w)
    (hp : s.heap.get hm .hashFunP = some v) (hcb : Covers s hm .hashFunB)
    (hcp : Covers s hm .hashFunP)
    (hE : ∀ c s', Confined (I := PMEMoid) (F := Member) AnyKind s s' → E c s')
    (hk : ∀ s', Confined (I := PMEMoid) (F := Member) AnyKind s s' →
      s'.heap = hashedHeap s.heap hm b → wp env k Q E s') :
    wp env (do
      dRw hm .hashFunB b
      dRw hm .hashFunP hashFuncCoeffP
      k) Q E s := by
  rw [wp_bind]
  apply wp_dRw (K := AnyKind) hb hcb trivial (fun c s' h _ => hE c s' h)
  intro s₁ h₁ e₁ _
  have hp₁ : s₁.heap.get hm .hashFunP = some v := by
    rwa [e₁, Heap.get_put_other _ _ _ _ (by decide)]
  rw [wp_bind]
  apply wp_dRw (K := AnyKind) hp₁ (h₁.covers _ _ hcp) trivial
    (fun c s' h _ => hE c s' (h₁.trans h))
  intro s₂ h₂ e₂ _
  exact hk s₂ (h₁.trans h₂) (by rw [e₂, e₁, hashedHeap])

theorem wp_createArray {o : PMEMoid} {Q : Unit → PoolState → Prop} {E : Cause → PoolState → Prop}
    (hl : s.log.isSome) (hold : s.heap.get hm .buckets = some o) (hcov : Covers s hm .buckets)
    (hE : ∀ c s', Confined (I := PMEMoid) (F := Member) AnyKind s s' → E c s')
    (hQ : ∀ bs s', Confined (I := PMEMoid) (F := Member) AnyKind s s' → s.heap bs = none →
      bs.isNull = false → s'.heap = arrayHeap s.heap hm bs → Q () s') :
    wp env (do
      let bs ← txZalloc .buckets (sizeofBuckets + initBucketsNum * sizeofToid).toNat
      dRw hm .buckets bs
      let bs ← dRo hm .buckets
      dRw bs .nbuckets initBucketsNum) Q E s := by
  have hsize : (sizeofBuckets + initBucketsNum * sizeofToid).toNat = 168 := by decide
  rw [wp_bind]
  apply wp_txAllocWith (K := AnyKind) hl trivial (fun c s' h _ => hE c s' h)
  intro bs s₁ h₁ hfree hnull _ e₁ c₁ _
  rw [hsize] at e₁
  have hmb := Heap.ne_of_free hfree hold
  have hold₁ : s₁.heap.get hm .buckets = some o := by
    rwa [e₁, Heap.get_congr (Function.update_of_ne hmb _ _)]
  rw [wp_bind]
  apply wp_dRw (K := AnyKind) hold₁ (h₁.covers _ _ hcov) trivial
    (fun c s' h _ => hE c s' (h₁.trans h))
  intro s₂ h₂ e₂ _
  have h₁₂ := h₁.trans h₂
  have hbs : s₂.heap.get hm .buckets = some bs := by
    rw [e₂]
    exact Heap.get_put_self _ _ hold₁
  have hn : s₂.heap.get bs .nbuckets = some (0 : UInt64) := by
    rw [e₂, Heap.get_put_of_ne _ _ _ _ hmb.symm, e₁]
    exact newArray_get (Function.update_self ..) rfl (by decide)
  rw [wp_bind, wp_dRo hbs]
  apply wp_dRw (K := AnyKind) hn (h₂.covers _ _ (c₁ _)) trivial
    (fun c s' h _ => hE c s' (h₁₂.trans h))
  intro s₃ h₃ e₃ _
  apply hQ bs s₃ (h₁₂.trans h₃) hfree hnull
  rw [e₃, e₂, e₁]
  rfl

theorem wp_createBody (k : ℕ) (hl : s.log.isSome) (hk : rand k ≠ 0) (hfuel : k < env.fuel)
    (hblank : Blank s.heap hm) (seed : UInt32) :
    wp env (createBody hm seed rand)
      (fun _ s' => Confined (I := PMEMoid) (F := Member) AnyKind s s' ∧ Created s'.heap hm ∧
        Heap.Keeps (fun q _ => q ≠ hm) s.heap s'.heap) (CreateAborts s) s := by
  rw [createBody, wp_bind]
  apply wp_txAddRange (K := AnyKind) hl (hblank .seed rfl) trivial (fun c s' h _ => h)
  intro s₁ h₁ e₁ c₁ _
  have hcov₁ : ∀ m : Member, m.kind = .hashmapTx → Covers s₁ hm m := fun m hm =>
    c₁ _ (hashmapTx_extent hm)
  rw [wp_bind]
  apply wp_dRw (K := AnyKind) (e₁ ▸ hblank .seed rfl) (hcov₁ _ rfl) trivial
    (fun c s' h _ => h₁.trans h)
  intro s₂ h₂ e₂ _
  have h₁₂ := h₁.trans h₂
  rw [e₁] at e₂
  have hread₂ : ∀ m : Member, m.kind = .hashmapTx → m ≠ .seed → s₂.heap.get hm m = some m.zero := by
    intro m hm hs
    rw [e₂, Heap.get_put_other _ _ _ _ hs]
    exact hblank m hm
  rw [wp_bind, wp_fuel, wp_bind]
  refine wp_mono (wp_createDraw k _ 0 (by rwa [Nat.zero_add]) hfuel
    (hread₂ .hashFunA rfl (by decide)) (h₂.covers _ _ (hcov₁ _ rfl))) ?_ fun c s' h => h₁₂.trans h
  rintro i s₃ ⟨h₃, k₃, a, ha₃, hne⟩
  have h₁₃ := h₁₂.trans h₃
  have hread₃ : ∀ m : Member, m.kind = .hashmapTx → m ≠ .seed → m ≠ .hashFunA →
      s₃.heap.get hm m = some m.zero := fun m hm hs ha => k₃ _ _ _ (Or.inr ha) (hread₂ m hm hs)
  have hcov₃ : ∀ m : Member, m.kind = .hashmapTx → Covers s₃ hm m := fun m hm =>
    (h₂.trans h₃).covers _ _ (hcov₁ m hm)
  have hb₃ := hread₃ .hashFunB rfl (by decide) (by decide)
  have hp₃ := hread₃ .hashFunP rfl (by decide) (by decide)
  have hcount₃ := hread₃ .count rfl (by decide) (by decide)
  have hbuckets₃ := hread₃ .buckets rfl (by decide) (by decide)
  apply wp_createCoeffs hb₃ hp₃ (hcov₃ _ rfl) (hcov₃ _ rfl) (fun c s' h => h₁₃.trans h)
  intro s₄ h₄ e₄
  have h₁₄ := h₁₃.trans h₄
  have k₄ := hashedHeap_keeps s₃.heap hm (rand i)
  obtain ⟨hb₄, hp₄⟩ := hashedHeap_get (rand i) hb₃ hp₃
  rw [← e₄] at k₄ hb₄ hp₄
  have hbuckets₄ := k₄ _ _ _ (Or.inr (by decide)) hbuckets₃
  apply wp_createArray (h₁₄.inTx ▸ hl) hbuckets₄ (h₄.covers _ _ (hcov₃ _ rfl))
    (fun c s' h => h₁₄.trans h)
  intro bs s₅ h₅ hfree hnull e₅
  have k₅ := arrayHeap_keeps hm hfree
  refine ⟨h₁₄.trans h₅, ?_, ?_⟩
  · rw [e₅]
    exact arrayHeap_created hfree hnull (k₄ _ _ _ (Or.inr (by decide)) ha₃) hne hb₄ hp₄
      (k₄ _ _ _ (Or.inr (by decide)) hcount₃) hbuckets₄
  · intro q m v hq hv
    rw [e₅]
    apply k₅ _ _ _ (Or.inl hq)
    apply k₄ _ _ _ (Or.inl hq)
    apply k₃ _ _ _ (Or.inl hq)
    rwa [e₂, Heap.get_put_of_ne _ _ _ _ hq]

/-- What is left of a creation that fails: nothing, whether it returns or not. -/
def CreateFails (s : PoolState) (r : Option ℤ) (s' : PoolState) : Prop :=
  Aborted s s' ∧ r = if s'.ends.getLast? = some (.aborted .exit) then none else some (-1)

theorem wp_hmTxCreate {map o : PMEMoid} {seed : UInt32} {E : Cause → PoolState → Prop} (k : ℕ)
    (hl : s.log = none) (hk : rand k ≠ 0) (hfuel : k < env.fuel)
    (hmap : s.heap.get map .hashmap = some o) :
    wp env (hmTxCreate map seed rand)
      (fun r s' => CreateFails s r s' ∨ (r = some 0 ∧ Committed s s' ∧
        ∃ hm, s'.heap.get map .hashmap = some hm ∧ Created s'.heap hm)) E s := by
  rw [hmTxCreate, wp_bind]
  refine wp_transaction_atomic (K := AnyKind)
    (R := fun _ h => ∃ hm, h.get map .hashmap = some hm ∧ Created h hm) hl ?_
    (fun s' h => Or.inl ⟨h, by simp⟩) fun _ s' hc hr => Or.inr ⟨rfl, hc, hr⟩
  have hmap' : s.tick.opened.heap.get map .hashmap = some o := hmap
  rw [wp_bind]
  apply wp_txAddField (K := AnyKind) rfl hmap' trivial (fun c s' h _ => h)
  intro s₁ h₁ e₁ c₁ _
  rw [wp_bind]
  apply wp_txAllocWith (K := AnyKind) (h₁.inTx ▸ rfl) trivial (fun c s' h _ => h₁.trans h)
  intro hm s₂ h₂ hfree hnull _ e₂ c₂ _
  have h₁₂ := h₁.trans h₂
  have hne : map ≠ hm := Heap.ne_of_free hfree (e₁ ▸ hmap')
  have hmap₂ : s₂.heap.get map .hashmap = some o := by
    rw [e₂, Heap.get_congr (Function.update_of_ne hne _ _), e₁, hmap']
  rw [wp_bind]
  apply wp_dRw (K := AnyKind) hmap₂ (h₂.covers _ _ c₁) trivial (fun c s' h _ => h₁₂.trans h)
  intro s₃ h₃ e₃ _
  have h₁₃ := h₁₂.trans h₃
  have hblank : Blank s₃.heap hm := fun m hm' => by
    rw [e₃, Heap.get_put_of_ne _ _ _ _ hne.symm]
    apply get_fresh (by rw [e₂, Function.update_self]; rfl) m hm'.symm
    cases m <;> simp [Member.kind] at hm' <;> decide
  have hmap₃ : s₃.heap.get map .hashmap = some hm := by
    rw [e₃]
    exact Heap.get_put_self _ _ hmap₂
  have htick : Confined (I := PMEMoid) (F := Member) AnyKind s₃ s₃.tick := .tick s₃
  rw [createHashmap]
  apply wp_exitOnAbort_nested (h₁₃.inTx ▸ rfl) (h₁₃.trans htick)
  refine wp_mono (wp_createBody (s := s₃.tick) k (h₁₃.inTx ▸ rfl) hk hfuel hblank seed) ?_
    fun c s' h => h₁₃.trans (htick.trans h)
  rintro _ s₄ ⟨h₄, hc, hkeep⟩
  exact ⟨h₁₃.trans (htick.trans h₄), hm, hkeep _ _ _ hne hmap₃, hc⟩

end Create

end RtsCache.HashmapCreate
