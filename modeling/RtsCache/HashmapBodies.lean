import RtsCache.HashmapUpdate
import RtsCache.UndoQuiet

/-!
# The transactions of insertion and removal

Each body is run from any state inside a transaction. Whether it ends or
aborts, it stays confined to the objects of the map; when it ends, the table
has gained or lost exactly one node.
-/

set_option autoImplicit false

namespace RtsCache.HashmapBodies
open RtsCache.UndoHeap RtsCache.UndoMachine RtsCache.UndoRules RtsCache.PoolLayout
open RtsCache.LinkedPath RtsCache.HashmapMachine RtsCache.HashmapInvariant
open RtsCache.HashmapUpdate RtsCache.UndoQuiet

variable {env : PoolEnv} {s : PoolState} {hm bs : PMEMoid} {a b : UInt32} {p n : UInt64}
  {T : ℕ → List Node}

def Aborts (s : PoolState) (k : ℕ) (_ : Cause) (s' : PoolState) : Prop :=
  Confined (I := PMEMoid) (F := Member) MapKind s s' ∧ s'.calls ≤ s.calls + k

def insertedHeap (h : Pool) (hm bs e : PMEMoid) (obj : Obj Member) (i : ℕ) (key : UInt64)
    (value front : PMEMoid) (count : UInt64) : Pool :=
  let h₁ : Pool := Function.update h e (some obj)
  let h₂ := h₁.put e .key key
  let h₃ := h₂.put e .value value
  let h₄ := h₃.put e .entryNext front
  let h₅ := h₄.put bs (.bucket i) e
  h₅.put hm .count (count + 1)

theorem table_inserted {h : Pool} {i : ℕ} {key : UInt64} {e o : PMEMoid}
    (cells : (m : Member) → m.ty) (value : PMEMoid) (ht : Table h hm bs a b p n T)
    (hi : i = (hashOf a b p n key).toNat) (hk : key ∉ (T i).map Node.key)
    (hfree : h e = none) (hnull : e.isNull = false) (ho : h.get bs (.bucket i) = some o) :
    Table (insertedHeap h hm bs e ⟨.entry, Kind.sizeof .entry, cells⟩ i key value o
      (UInt64.ofNat (nodes n.toNat T).length)) hm bs a b p n
      (Function.update T i (⟨e, key, value⟩ :: T i)) := by
  have hne := ht.bs_ne_hm
  have hread : ∀ {q : PMEMoid} {f : Member} {v : f.ty}, h.get q f = some v → q ≠ e :=
    Heap.ne_of_free hfree
  have hbe := hread ht.nbuckets
  have hme := hread ht.buckets
  have hold : Heap.Keeps (fun _ _ => True) h
      (Function.update h e (some ⟨.entry, Kind.sizeof .entry, cells⟩)) :=
    Heap.keeps_alloc _ _ _ hfree
  have hnew : ∀ m : Member, Kind.entry = m.kind → m.extent ≤ Kind.sizeof .entry →
      Heap.get (Function.update h e (some ⟨.entry, Kind.sizeof .entry, cells⟩) : Pool) e m =
        some (cells m) := fun m hk he => get_fresh (Function.update_self ..) m hk he
  refine table_insert ht hi hk ?_ hnull ?_ ?_ ho ?_ ?_ ?_
  · intro q f v hq hv
    have hqe := hread hv
    refine Heap.keeps_put _ _ _ _ _ _ _ ?_ (Heap.keeps_put _ _ _ _ _ _ _ ?_
      (Heap.keeps_put _ _ _ _ _ _ _ (Or.inl hqe) (Heap.keeps_put _ _ _ _ _ _ _ (Or.inl hqe)
        (Heap.keeps_put _ _ _ _ _ _ _ (Or.inl hqe) (hold _ _ _ trivial hv)))))
    · exact not_and_or.mp fun hc => hq.2 (Prod.ext hc.1 hc.2)
    · exact not_and_or.mp fun hc => hq.1 (Prod.ext hc.1 hc.2)
  · rw [insertedHeap, Heap.get_put_of_ne _ _ _ _ hme.symm, Heap.get_put_of_ne _ _ _ _ hbe.symm,
      Heap.get_put_other _ _ _ _ (by decide), Heap.get_put_other _ _ _ _ (by decide)]
    exact Heap.get_put_self _ _ (hnew .key rfl (by decide))
  · rw [insertedHeap, Heap.get_put_of_ne _ _ _ _ hme.symm, Heap.get_put_of_ne _ _ _ _ hbe.symm,
      Heap.get_put_other _ _ _ _ (by decide)]
    apply Heap.get_put_self (w := cells .value) _ _
    rw [Heap.get_put_other _ _ _ _ (by decide)]
    exact hnew .value rfl (by decide)
  · rw [insertedHeap, Heap.get_put_of_ne _ _ _ _ hme.symm, Heap.get_put_of_ne _ _ _ _ hbe.symm]
    apply Heap.get_put_self (w := cells .entryNext) _ _
    rw [Heap.get_put_other _ _ _ _ (by decide), Heap.get_put_other _ _ _ _ (by decide)]
    exact hnew .entryNext rfl (by decide)
  · rw [insertedHeap, Heap.get_put_of_ne _ _ _ _ hne]
    apply Heap.get_put_self (w := o) _ _
    rw [Heap.get_put_of_ne _ _ _ _ hbe, Heap.get_put_of_ne _ _ _ _ hbe,
      Heap.get_put_of_ne _ _ _ _ hbe]
    exact hold _ _ _ trivial ho
  · apply Heap.get_put_self (w := UInt64.ofNat (nodes n.toNat T).length) _ _
    rw [Heap.get_put_of_ne _ _ _ _ hne.symm, Heap.get_put_of_ne _ _ _ _ hme,
      Heap.get_put_of_ne _ _ _ _ hme, Heap.get_put_of_ne _ _ _ _ hme]
    exact hold _ _ _ trivial ht.count

theorem wp_insertStores {i : ℕ} {key count : UInt64} {value e o : PMEMoid}
    {Q : Unit → PoolState → Prop} {E : Cause → PoolState → Prop}
    (hnew : ∀ m : Member, Kind.entry = m.kind → m.extent ≤ Kind.sizeof .entry →
      ∃ v, s.heap.get e m = some v)
    (ho : s.heap.get bs (.bucket i) = some o) (hcount : s.heap.get hm .count = some count)
    (hbe : bs ≠ e) (hme : hm ≠ e) (hbm : bs ≠ hm) (hcov : ∀ f, Covers s e f)
    (hslot : Covers s bs (.bucket i)) (hcnt : Covers s hm .count)
    (hE : ∀ c s', Confined (I := PMEMoid) (F := Member) MapKind s s' → s'.calls = s.calls → E c s')
    (hQ : ∀ s', Confined (I := PMEMoid) (F := Member) MapKind s s' →
      s'.heap = (((((s.heap.put e .key key : Pool).put e .value value : Pool).put e .entryNext o :
        Pool).put bs (.bucket i) e : Pool).put hm .count (count + 1) : Pool) →
      s'.calls = s.calls → Q () s') :
    wp env (do
      dRw e .key key
      dRw e .value value
      let front ← dRo bs (.bucket i)
      dRw e .entryNext front
      dRw bs (.bucket i) e
      let count ← dRo hm .count
      dRw hm .count (count + 1)) Q E s := by
  obtain ⟨v₁, hkey⟩ := hnew .key rfl (by decide)
  obtain ⟨v₂, hval⟩ := hnew .value rfl (by decide)
  obtain ⟨v₃, hnext⟩ := hnew .entryNext rfl (by decide)
  rw [wp_bind]
  apply wp_dRw hkey (hcov _) (Or.inl rfl) (fun c s' h hc => hE c s' h hc)
  intro s₁ h₁ e₁ n₁
  have hval₁ : s₁.heap.get e .value = some v₂ := by
    rwa [e₁, Heap.get_put_other _ _ _ _ (by decide)]
  rw [wp_bind]
  apply wp_dRw hval₁ (h₁.covers _ _ (hcov _)) (Or.inl rfl)
    (fun c s' h hc => hE c s' (h₁.trans h) (by omega))
  intro s₂ h₂ e₂ n₂
  have h₁₂ := h₁.trans h₂
  have hslot₂ : s₂.heap.get bs (.bucket i) = some o := by
    rwa [e₂, Heap.get_put_of_ne _ _ _ _ hbe, e₁, Heap.get_put_of_ne _ _ _ _ hbe]
  have hnext₂ : s₂.heap.get e .entryNext = some v₃ := by
    rwa [e₂, Heap.get_put_other _ _ _ _ (by decide), e₁, Heap.get_put_other _ _ _ _ (by decide)]
  rw [wp_bind, wp_dRo hslot₂, wp_bind]
  apply wp_dRw hnext₂ (h₁₂.covers _ _ (hcov _)) (Or.inl rfl)
    (fun c s' h hc => hE c s' (h₁₂.trans h) (by omega))
  intro s₃ h₃ e₃ n₃
  have h₁₃ := h₁₂.trans h₃
  have hslot₃ : s₃.heap.get bs (.bucket i) = some o := by
    rwa [e₃, Heap.get_put_of_ne _ _ _ _ hbe]
  rw [wp_bind]
  apply wp_dRw hslot₃ (h₁₃.covers _ _ hslot) (Or.inr (Or.inl rfl))
    (fun c s' h hc => hE c s' (h₁₃.trans h) (by omega))
  intro s₄ h₄ e₄ n₄
  have h₁₄ := h₁₃.trans h₄
  have hcount₄ : s₄.heap.get hm .count = some count := by
    rwa [e₄, Heap.get_put_of_ne _ _ _ _ hbm.symm, e₃, Heap.get_put_of_ne _ _ _ _ hme, e₂,
      Heap.get_put_of_ne _ _ _ _ hme, e₁, Heap.get_put_of_ne _ _ _ _ hme]
  rw [wp_bind, wp_dRo hcount₄]
  apply wp_dRw hcount₄ (h₁₄.covers _ _ hcnt) (Or.inr (Or.inr rfl))
    (fun c s' h hc => hE c s' (h₁₄.trans h) (by omega))
  intro s₅ h₅ e₅ n₅
  exact hQ s₅ (h₁₄.trans h₅) (by rw [e₅, e₄, e₃, e₂, e₁]) (by omega)

theorem wp_insertBody {i : ℕ} {key : UInt64} {value : PMEMoid} (hl : s.log.isSome)
    (ht : Table s.heap hm bs a b p n T) (hi : i = (hashOf a b p n key).toNat)
    (hk : key ∉ (T i).map Node.key) :
    wp env (insertBody hm bs i key value)
      (fun _ s' => Confined (I := PMEMoid) (F := Member) MapKind s s' ∧
        s'.calls = s.calls + 3 ∧ ∃ e,
        Table s'.heap hm bs a b p n (Function.update T i (⟨e, key, value⟩ :: T i)))
      (Aborts s 3) s := by
  have hlt : i < n.toNat := hi ▸ hashOf_lt a b p n key ht.pos
  obtain ⟨o, ho, -⟩ := ht.slot i hlt
  rw [insertBody, wp_bind, wp_dRo ht.buckets, wp_bind]
  apply wp_txAddField hl ho (Or.inr (Or.inl rfl)) (fun c s' h hc => ⟨h, by omega⟩)
  intro s₁ h₁ e₁ c₁ n₁
  rw [wp_bind]
  apply wp_txAddField (h₁.inTx ▸ hl) (e₁ ▸ ht.count) (Or.inr (Or.inr rfl))
    (fun c s' h hc => ⟨h₁.trans h, by omega⟩)
  intro s₂ h₂ e₂ c₂ n₂
  have h₁₂ := h₁.trans h₂
  rw [wp_bind]
  apply wp_txAllocWith (h₁₂.inTx ▸ hl) (Or.inl rfl) (fun c s' h hc => ⟨h₁₂.trans h, by omega⟩)
  intro e s₃ h₃ hfree hnull _ e₃ c₃ n₃
  have h₁₃ := h₁₂.trans h₃
  rw [e₂, e₁] at hfree e₃
  have hold : Heap.Keeps (fun _ _ => True) s.heap s₃.heap := e₃ ▸ Heap.keeps_alloc _ _ _ hfree
  have hnew : ∀ m : Member, Kind.entry = m.kind → m.extent ≤ Kind.sizeof .entry →
      ∃ v, s₃.heap.get e m = some v := fun m hk he =>
    ⟨_, get_fresh (by rw [e₃, Function.update_self]) m hk he⟩
  apply wp_insertStores hnew (hold _ _ _ trivial ho) (hold _ _ _ trivial ht.count)
    (Heap.ne_of_free hfree ht.nbuckets) (Heap.ne_of_free hfree ht.buckets) ht.bs_ne_hm c₃
    ((h₂.trans h₃).covers _ _ c₁) (h₃.covers _ _ c₂) (fun c s' h hc => ⟨h₁₃.trans h, by omega⟩)
  intro s₄ h₄ e₄ n₄
  have htable := table_inserted (env.junk s₂.calls) value ht hi hk hfree hnull ho
  rw [insertedHeap, ← e₃, ← e₄] at htable
  exact ⟨h₁₃.trans h₄, by omega, e, htable⟩

/-- What the transaction of an insertion asks of the environment. -/
structure InsertServed (env : PoolEnv) (s : PoolState) : Prop where
  serves : Serves env s 4 6
  offers : Offers env s 3

theorem calm_insertBody {i : ℕ} {key : UInt64} {value : PMEMoid} (hs : Serves env s 3 6)
    (ho : Offers env s 2)
    (hfreed : ∀ l, s.log = some l → l.freed (env.place (s.calls + 2)) = none) :
    calm env (insertBody hm bs i key value) (fun _ s' => env.crashes s'.stores = false) s := by
  rw [insertBody, calm_bind]
  apply calm_load
  intro current
  rw [calm_bind]
  apply calm_txAdd (hs.calls 0 (by decide))
  intro l₁ obj₁ hl₁
  rw [calm_bind]
  apply calm_txAdd
  · exact hs.calls 1 (by decide)
  intro l₂ obj₂ hl₂
  cases hl₂
  rw [calm_bind]
  apply calm_txAllocWith
  · exact hs.calls 2 (by decide)
  · exact ho.notNull
  · exact ho.free
  · intro l hl
    cases hl
    exact hfreed l₁ hl₁
  · decide
  intro l hl
  rw [calm_bind]
  apply calm_store
  · exact hs.stores 0 (by decide)
  rw [calm_bind]
  apply calm_store
  · exact hs.stores 1 (by decide)
  rw [calm_bind]
  apply calm_load
  intro front
  rw [calm_bind]
  apply calm_store
  · exact hs.stores 2 (by decide)
  rw [calm_bind]
  apply calm_store
  · exact hs.stores 3 (by decide)
  rw [calm_bind]
  apply calm_load
  intro count
  apply calm_store
  · exact hs.stores 4 (by decide)
  exact hs.stores 5 (by decide)

section Remove
variable {i : ℕ} {pre post : List Node} {x : Node} {c : PMEMoid}

/-- The cell in front of the removed node: its slot, or the link of its
predecessor. -/
def Front (bs : PMEMoid) (i : ℕ) (pre : List Node) (q : PMEMoid) (f : Member) : Prop :=
  (pre = [] ∧ (q, f) = (bs, .bucket i)) ∨ ∃ y ∈ pre.getLast?, (q, f) = (y.oid, .entryNext)

theorem prev_cases (hn : ∀ y ∈ pre, y.oid.isNull = false) :
    (pre = [] ∧ (pre.map Node.oid).getLastD oidNull = oidNull) ∨
      ∃ y ∈ pre.getLast?, y ∈ pre ∧ (pre.map Node.oid).getLastD oidNull = y.oid ∧
        y.oid.isNull = false := by
  rcases pre.eq_nil_or_concat' with rfl | ⟨xs, y, rfl⟩
  · exact Or.inl ⟨rfl, rfl⟩
  · exact Or.inr ⟨y, by simp, by simp, by simp, hn y (by simp)⟩

def Linked (h : Pool) (y : Node) : Prop :=
  y.oid.isNull = false ∧ ∃ c, h.get y.oid .entryNext = some c

theorem wp_removeAdd {o : PMEMoid} {Q : Unit → PoolState → Prop} {E : Cause → PoolState → Prop}
    (hl : s.log.isSome) (hb : s.heap.get hm .buckets = some bs)
    (ho : s.heap.get bs (.bucket i) = some o) (hpre : ∀ y ∈ pre, Linked s.heap y)
    (hE : ∀ c s', Confined (I := PMEMoid) (F := Member) MapKind s s' →
      s'.calls = s.calls + 1 → E c s')
    (hQ : ∀ s', Confined (I := PMEMoid) (F := Member) MapKind s s' → s'.heap = s.heap →
      (∀ q f, Front bs i pre q f → Covers s' q f) → s'.calls = s.calls + 1 → Q () s') :
    wp env (removeAdd hm i ((pre.map Node.oid).getLastD oidNull)) Q E s := by
  rcases prev_cases fun y hy => (hpre y hy).1 with ⟨hp, hq⟩ | ⟨y, hy, hm', hq, hn⟩
  · rw [hq, removeAdd, if_pos (by rfl), wp_bind, wp_dRo hb]
    refine wp_txAddField hl ho (Or.inr (Or.inl rfl)) hE fun s' h hh hc hn => hQ s' h hh ?_ hn
    rintro q f (⟨-, hb⟩ | ⟨z, hz, -⟩)
    · cases hb
      exact hc
    · simp [hp] at hz
  · obtain ⟨c, hc⟩ := (hpre y hm').2
    rw [hq, removeAdd, if_neg (by simp [hn])]
    refine wp_txAddField hl hc (Or.inl rfl) hE fun s' h hh hc hn => hQ s' h hh ?_ hn
    rintro q f (⟨hp, -⟩ | ⟨z, hz, hb⟩)
    · simp [hp] at hy
    · cases Option.some.inj (hy.symm.trans hz)
      cases hb
      exact hc

theorem wp_removeLink {o c : PMEMoid} {Q : Unit → PoolState → Prop} {E : Cause → PoolState → Prop}
    (ho : s.heap.get bs (.bucket i) = some o) (hpre : ∀ y ∈ pre, Linked s.heap y)
    (hcov : ∀ q f, Front bs i pre q f → Covers s q f)
    (hE : ∀ c s', Confined (I := PMEMoid) (F := Member) MapKind s s' →
      s'.calls = s.calls → E c s')
    (hQ : ∀ s', Confined (I := PMEMoid) (F := Member) MapKind s s' →
      Heap.Keeps (fun q f => ¬ Front bs i pre q f) s.heap s'.heap →
      (pre = [] → s'.heap.get bs (.bucket i) = some c) →
      (∀ y ∈ pre.getLast?, s'.heap.get y.oid .entryNext = some c) →
      s'.calls = s.calls → Q () s') :
    wp env (removeLink bs i ((pre.map Node.oid).getLastD oidNull) c) Q E s := by
  rcases prev_cases fun y hy => (hpre y hy).1 with ⟨hp, hq⟩ | ⟨y, hy, hm', hq, hn⟩
  · rw [hq, removeLink, if_pos (by rfl)]
    refine wp_dRw ho (hcov _ _ (Or.inl ⟨hp, rfl⟩)) (Or.inr (Or.inl rfl)) hE
      fun s' h hh hn => hQ s' h ?_ (fun _ => ?_) (by simp [hp]) hn
    · rw [hh]
      apply (Heap.keeps_put s.heap bs (.bucket i) c).mono
      intro q f hf
      exact not_and_or.mp fun hc => hf (Or.inl ⟨hp, Prod.ext hc.1 hc.2⟩)
    · rw [hh]
      exact Heap.get_put_self _ _ ho
  · obtain ⟨d, hd⟩ := (hpre y hm').2
    rw [hq, removeLink, if_neg (by simp [hn])]
    refine wp_dRw hd (hcov _ _ (Or.inr ⟨y, hy, rfl⟩)) (Or.inl rfl) hE
      fun s' h hh hn => hQ s' h ?_ (fun hp => ?_) (fun z hz => ?_) hn
    · rw [hh]
      apply (Heap.keeps_put s.heap y.oid .entryNext c).mono
      intro q f hf
      exact not_and_or.mp fun hc => hf (Or.inr ⟨y, hy, Prod.ext hc.1 hc.2⟩)
    · simp [hp] at hy
    · cases Option.some.inj (hy.symm.trans hz)
      rw [hh]
      exact Heap.get_put_self _ _ hd

theorem linked_of_chain {h : Pool} {o : PMEMoid} (hc : Chain h o (pre ++ x::post)) :
    ∀ y ∈ pre ++ [x], Linked h y := by
  obtain ⟨hn, q, -, hp⟩ := hc
  intro y hy
  have hnull := (hn y (by simp only [List.mem_append, List.mem_cons] at hy ⊢; tauto)).notNull
  obtain ⟨l, r, hlr⟩ := List.append_of_mem hy
  have hs : pre ++ x::post = l ++ y::(r ++ post) := by
    rw [← List.singleton_append, ← List.append_assoc, hlr]
    simp
  rw [hs, List.map_append, List.map_cons, path_append] at hp
  obtain ⟨d, -, -, c, hc, -⟩ := hp
  exact ⟨hnull, c, hc⟩

theorem not_front {q : PMEMoid} {f : Member} (hb : ∀ j, f ≠ .bucket j) (hf : f ≠ .entryNext) :
    ¬ Front bs i pre q f := by
  rintro (⟨-, h⟩ | ⟨z, -, h⟩)
  · exact hb i (Prod.mk.inj h).2
  · exact hf (Prod.mk.inj h).2

theorem table_removed {h h' : Pool} (ht : Table h hm bs a b p n T) (hi : i < n.toNat)
    (he : T i = pre ++ x::post) (hx : h.get x.oid .entryNext = some c)
    (hkeep : Heap.Keeps (fun q f => ¬ Front bs i pre q f) h h')
    (hslot : pre = [] → h'.get bs (.bucket i) = some c)
    (hprev : ∀ y ∈ pre.getLast?, h'.get y.oid .entryNext = some c) :
    Table (Function.update (h'.put hm .count (UInt64.ofNat (nodes n.toNat T).length - 1))
      x.oid none) hm bs a b p n (Function.update T i (pre ++ post)) := by
  have hmem : ∀ z ∈ pre ++ x::post, z ∈ nodes n.toNat T := fun z hz =>
    mem_nodes.mpr ⟨i, hi, he ▸ hz⟩
  have hat := ht.nodeAt (hmem x (by simp))
  have hcount := hkeep _ _ _ (not_front (by simp) (by decide)) ht.count
  apply table_remove ht hi he hx
  · rintro q f v ⟨hq, hcnt, hsl, hpr⟩ hv
    rw [Heap.get_congr (Function.update_of_ne hq _ _)]
    apply Heap.keeps_put _ _ _ _ _ _ _ (not_and_or.mp fun hc => hcnt (Prod.ext hc.1 hc.2))
    apply hkeep _ _ _ _ hv
    rintro (⟨hp, hb⟩ | ⟨z, hz, hb⟩)
    · exact hsl hp hb
    · exact hpr z hz hb
  · intro hp
    rw [Heap.get_congr (Function.update_of_ne (node_ne hat ht.nbuckets (by decide)).symm _ _),
      Heap.get_put_of_ne _ _ _ _ ht.bs_ne_hm]
    exact hslot hp
  · intro y hy
    have hyp := List.mem_of_getLast? hy
    have hyx : y ≠ x := by
      have hn := nodup_of_table ht hi
      rw [he] at hn
      exact (List.nodup_append.mp hn).2.2 y hyp x (by simp)
    have hyo := oid_ne ht (hmem y (by simp [hyp])) (hmem x (by simp)) hyx
    rw [Heap.get_congr (Function.update_of_ne hyo _ _), Heap.get_put_other _ _ _ _ (by decide)]
    exact hprev y hy
  · rw [Heap.get_congr (Function.update_of_ne (node_ne hat ht.count (by decide)).symm _ _)]
    exact Heap.get_put_self _ _ hcount

theorem wp_removeBody (hl : s.log.isSome) (ht : Table s.heap hm bs a b p n T)
    (hi : i < n.toNat) (he : T i = pre ++ x::post) :
    wp env (removeBody hm bs i ((pre.map Node.oid).getLastD oidNull) x.oid)
      (fun _ s' => Confined (I := PMEMoid) (F := Member) MapKind s s' ∧
        s'.calls = s.calls + 3 ∧
        Table s'.heap hm bs a b p n (Function.update T i (pre ++ post)))
      (Aborts s 3) s := by
  obtain ⟨o, ho, hc⟩ := ht.slot i hi
  rw [he] at hc
  have hx : NodeAt s.heap x := hc.1 x (by simp)
  have hlinked := linked_of_chain hc
  have hpre : ∀ y ∈ pre, Linked s.heap y := fun y hy => hlinked y (by simp [hy])
  obtain ⟨c, hnext⟩ := (hlinked x (by simp)).2
  rw [removeBody, wp_bind]
  apply wp_removeAdd hl ht.buckets ho hpre (fun c s' h hc => ⟨h, by omega⟩)
  intro s₁ h₁ e₁ c₁ n₁
  rw [wp_bind]
  apply wp_txAddField (h₁.inTx ▸ hl) (e₁ ▸ ht.count) (Or.inr (Or.inr rfl))
    (fun c s' h hc => ⟨h₁.trans h, by omega⟩)
  intro s₂ h₂ e₂ c₂ n₂
  have h₁₂ := h₁.trans h₂
  rw [wp_bind, wp_dRo (v := c) (by rw [e₂, e₁, hnext]), wp_bind]
  apply wp_removeLink (o := o) (by rw [e₂, e₁, ho]) (fun y hy => by rw [e₂, e₁]; exact hpre y hy)
    (fun q f hf => h₂.covers _ _ (c₁ q f hf)) (fun c s' h hc => ⟨h₁₂.trans h, by omega⟩)
  intro s₃ h₃ e₃ hslot hprev n₃
  have h₁₃ := h₁₂.trans h₃
  rw [e₂, e₁] at e₃
  have hcount := e₃ _ _ _ (not_front (by simp) (by decide)) ht.count
  have hkey := e₃ _ _ _ (not_front (by simp) (by decide)) hx.key
  rw [wp_bind, wp_dRo hcount, wp_bind]
  apply wp_dRw hcount (h₃.covers _ _ c₂) (Or.inr (Or.inr rfl))
    (fun c s' h hc => ⟨h₁₃.trans h, by omega⟩)
  intro s₄ h₄ e₄ n₄
  have h₁₄ := h₁₃.trans h₄
  have hkey₄ : s₄.heap.get x.oid .key = some x.key := by
    rwa [e₄, Heap.get_put_other _ _ _ _ (by decide)]
  obtain ⟨obj, hobj, hkind⟩ := Heap.live_of_get hkey₄
  apply wp_txFree (h₁₄.inTx ▸ hl) hx.notNull hobj (Or.inl hkind)
    (fun c s' h hc => ⟨h₁₄.trans h, by omega⟩)
  intro s₅ h₅ e₅ n₅
  have htable := table_removed ht hi he hnext e₃ hslot hprev
  rw [← e₄, ← e₅] at htable
  exact ⟨h₁₄.trans h₅, by omega, htable⟩

def RemoveServed (env : PoolEnv) (s : PoolState) : Prop := Serves env s 4 3

theorem calm_removeAdd {h : ℕ} {prev : PMEMoid} {Q : Unit → PoolState → Prop}
    (hs : env.fails s.calls = false)
    (hQ : ∀ s', s'.calls = s.calls + 1 → s'.stores = s.stores → Q () s') :
    calm env (removeAdd hm h prev) Q s := by
  rw [removeAdd]
  split
  · rw [calm_bind]
    apply calm_load
    intro current
    apply calm_txAdd hs
    intro l obj _
    exact hQ _ rfl rfl
  · apply calm_txAdd hs
    intro l obj _
    exact hQ _ rfl rfl

theorem calm_removeLink {h : ℕ} {prev next : PMEMoid} {Q : Unit → PoolState → Prop}
    (hs : env.crashes s.stores = false)
    (hQ : ∀ s', s'.calls = s.calls → s'.stores = s.stores + 1 → Q () s') :
    calm env (removeLink bs h prev next) Q s := by
  rw [removeLink]
  split
  · apply calm_store hs
    exact hQ _ rfl rfl
  · apply calm_store hs
    exact hQ _ rfl rfl

theorem calm_removeBody {h : ℕ} {prev var : PMEMoid} (hs : Serves env s 3 3) :
    calm env (removeBody hm bs h prev var) (fun _ s' => env.crashes s'.stores = false) s := by
  rw [removeBody, calm_bind]
  apply calm_removeAdd (hs.calls 0 (by decide))
  intro s₁ c₁ n₁
  rw [calm_bind]
  apply calm_txAdd
  · rw [c₁]
    exact hs.calls 1 (by decide)
  intro l obj _
  rw [calm_bind]
  apply calm_load
  intro next
  rw [calm_bind]
  apply calm_removeLink
  · show env.crashes s₁.stores = false
    rw [n₁]
    exact hs.stores 0 (by decide)
  intro s₂ c₂ n₂
  rw [calm_bind]
  apply calm_load
  intro count
  have hcalls : s₂.calls = s.calls + 2 := by
    rw [c₂]
    exact congrArg (· + 1) c₁
  have hstores : s₂.stores = s.stores + 1 := by
    rw [n₂]
    exact congrArg (· + 1) n₁
  have hlast : env.crashes (s₂.stores + 1) = false := by
    rw [hstores]
    exact hs.stores 2 (by decide)
  rw [calm_bind]
  apply calm_store
  · rw [hstores]
    exact hs.stores 1 (by decide)
  apply calm_txFree
  · show env.fails s₂.calls = false
    rw [hcalls]
    exact hs.calls 2 (by decide)
  · exact hlast
  · intro l' obj' _
    exact hlast

end Remove

end RtsCache.HashmapBodies
