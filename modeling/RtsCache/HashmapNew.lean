import RtsCache.HashmapFootprint

/-!
# A new map in a pool in use

`hm_tx_create` adds a header and an array to the pool and stores the handle of
the header in the object it is given. Nothing else changes, so the new map
joins the maps the pool has already.
-/

set_option autoImplicit false

namespace RtsCache.HashmapNew
open RtsCache.UndoHeap RtsCache.UndoMachine RtsCache.UndoRules RtsCache.UndoWrites
open RtsCache.UndoFrame RtsCache.HeapParts RtsCache.PoolLayout RtsCache.HashmapMachine
open RtsCache.HashmapInvariant RtsCache.HashmapCreate RtsCache.HashmapNodes RtsCache.HashmapFrame
open RtsCache.HashmapRuns RtsCache.HashmapShared RtsCache.HashmapFootprint

variable {env : PoolEnv} {s s' : PoolState} {hm map : PMEMoid} {seed : UInt32}
  {rand : ℕ → UInt32}

section Body

def Drawn (hm o : PMEMoid) (m : Member) : Prop := o = hm ∧ m ≠ .seed

theorem createDraw_writes (hm : PMEMoid) (rand : ℕ → UInt32) (fl i : ℕ) :
    Writes (Drawn hm) (createDraw hm rand fl i) := by
  induction fl generalizing i with
  | zero => exact writes_stuck
  | succ fl ih =>
    apply writes_bind (writes_dRw _ ⟨rfl, by simp⟩)
    intro _
    apply writes_bind (writes_load _ _)
    intro a
    split
    · exact ih (i+1)
    · exact writes_pure _

/-- Two objects have been added to the heap, an array of ten slots among them,
and of the others only `hm` has changed. -/
structure ArrayAdded (h h' : Pool) (hm bs : PMEMoid) (seed : UInt32) : Prop where
  fresh : h bs = none
  shapes : ∀ o, shape h' o = if o = bs then some (Kind.buckets, 168) else shape h o
  cells : ∀ o m, o ≠ hm → o ≠ bs → h'.get o m = h.get o m
  buckets : h'.get hm .buckets = some bs
  seed : h'.get hm .seed = some seed

theorem createBody_added (hrun : createBody hm seed rand env s = .ok () s') :
    ∃ bs, ArrayAdded s.heap s'.heap hm bs seed := by
  obtain ⟨_, s₁, h₁, hrun⟩ := bind_ok hrun
  obtain ⟨_, s₂, h₂, hrun⟩ := bind_ok hrun
  obtain ⟨_, _, ⟨⟩, hrun⟩ := bind_ok hrun
  obtain ⟨i, s₃, h₃, hrun⟩ := bind_ok hrun
  obtain ⟨_, s₄, h₄, hrun⟩ := bind_ok hrun
  obtain ⟨_, s₅, h₅, hrun⟩ := bind_ok hrun
  obtain ⟨bs, s₆, h₆, hrun⟩ := bind_ok hrun
  obtain ⟨_, s₇, h₇, hrun⟩ := bind_ok hrun
  obtain ⟨bs', s₈, h₈, h₉⟩ := bind_ok hrun
  have e₁ := txAdd_ok h₁
  obtain ⟨⟨w, hw⟩, e₂⟩ := store_ok h₂
  have w₃ := createDraw_writes hm rand _ _ _ _ _ _ h₃
  have e₄ := (store_ok h₄).2
  have e₅ := (store_ok h₅).2
  obtain ⟨hfree, -, -, e₆⟩ := txAllocWith_ok h₆
  obtain ⟨⟨v, hv⟩, e₇⟩ := store_ok h₇
  obtain ⟨hbs, e₈⟩ := load_ok h₈
  have e₉ := (store_ok h₉).2
  have hself : s₇.heap.get hm .buckets = some bs := by
    rw [e₇]
    exact Heap.get_put_self _ _ hv
  cases hself.symm.trans hbs
  -- up to the allocation only the header has been written
  have w₅ : Wrote (Drawn hm) s₂.heap s₅.heap := by
    apply w₃.trans
    rw [e₅, e₄]
    exact (wrote_put _ _ ⟨rfl, by simp⟩).trans (wrote_put _ _ ⟨rfl, by simp⟩)
  have hshape₅ : ∀ o, shape s₅.heap o = shape s.heap o := by
    intro o
    rw [w₅.shapes, e₂, shape_put, e₁]
  have hseed₅ : s₅.heap.get hm .seed = some seed := by
    rw [w₅.cells hm .seed (by simp [Drawn]), e₂]
    exact Heap.get_put_self _ _ hw
  have hne : hm ≠ bs := Heap.ne_of_free hfree hseed₅
  have hs' : s'.heap = (s₆.heap.put hm .buckets bs).put bs .nbuckets initBucketsNum := by
    rw [e₉, e₈, e₇]
  refine ⟨bs, ?_, ?_, ?_, ?_, ?_⟩
  · rw [← shape_eq_none, ← hshape₅, shape_eq_none, hfree]
  · intro o
    rw [hs', shape_put, shape_put, e₆]
    by_cases ho : o = bs
    · subst ho
      rw [if_pos rfl, shape, Function.update_self]
      rfl
    · rw [if_neg ho, shape, Function.update_of_ne ho, ← hshape₅, shape]
  · intro o m ho hb
    rw [hs', Heap.get_put_of_ne _ _ _ _ hb, Heap.get_put_of_ne _ _ _ _ ho, e₆,
      Heap.get_congr (Function.update_of_ne hb _ _), w₅.cells o m fun h => ho h.1, e₂,
      Heap.get_put_of_ne _ _ _ _ ho, e₁]
  · rw [hs', Heap.get_put_of_ne _ _ _ _ hne, ← e₇]
    exact hself
  · rw [hs', Heap.get_put_of_ne _ _ _ _ hne, Heap.get_put_other _ _ _ _ (by simp), e₆,
      Heap.get_congr (Function.update_of_ne hne _ _)]
    exact hseed₅

structure MapAdded (h h' : Pool) (map hm bs : PMEMoid) (seed : UInt32) : Prop where
  fresh : h hm = none ∧ h bs = none
  apart : hm ≠ bs
  shapes : ∀ o, shape h' o =
    if o = hm then some (Kind.hashmapTx, 48)
    else if o = bs then some (Kind.buckets, 168)
    else shape h o
  cells : ∀ o m, o ≠ hm → o ≠ bs → (o, m) ≠ (map, .hashmap) → h'.get o m = h.get o m
  handle : h'.get map .hashmap = some hm
  buckets : h'.get hm .buckets = some bs
  seed : h'.get hm .seed = some seed

section Header
variable {h : Pool} {obj : Obj Member}

theorem headed_shape (hk : obj.kind = .hashmapTx) (hsize : obj.size = 48) (o : PMEMoid) :
    shape (Heap.put (Function.update h hm (some obj)) map .hashmap hm) o =
      if o = hm then some (Kind.hashmapTx, 48) else shape h o := by
  rw [shape_put]
  by_cases ho : o = hm
  · subst ho
    rw [if_pos rfl, shape, Function.update_self, Option.map_some, hk, hsize]
  · rw [if_neg ho, shape, Function.update_of_ne ho, shape]

theorem headed_get {o : PMEMoid} {m : Member} (ho : o ≠ hm) (hcell : (o, m) ≠ (map, .hashmap)) :
    (Heap.put (Function.update h hm (some obj)) map .hashmap hm).get o m = h.get o m := by
  by_cases hom : o = map
  · subst hom
    have hm' : m ≠ .hashmap := by
      rintro rfl
      exact hcell rfl
    rw [Heap.get_put_other _ _ _ _ hm', Heap.get_congr (Function.update_of_ne ho _ _)]
  · rw [Heap.get_put_of_ne _ _ _ _ hom, Heap.get_congr (Function.update_of_ne ho _ _)]

end Header

theorem hmTxCreate_added (hc : Commits s s')
    (hrun : hmTxCreate map seed rand env s = .ok (some 0) s') :
    ∃ hm bs, MapAdded s.heap s'.heap map hm bs seed := by
  obtain ⟨r, s₁, h₁, h₂⟩ := bind_ok hrun
  cases r with
  | none =>
    obtain ⟨gone, s₂, h₃, h₄⟩ := bind_ok h₂
    cases gone <;> cases h₄
  | some u =>
    cases h₂
    obtain ⟨u', t, t', -, et, -, hbody, et'⟩ := transaction_committed h₁ hc
    obtain ⟨_, t₁, b₁, hbody⟩ := bind_ok hbody
    obtain ⟨hm, t₂, b₂, hbody⟩ := bind_ok hbody
    obtain ⟨_, t₃, b₃, b₄⟩ := bind_ok hbody
    have e₁ := txAdd_ok b₁
    obtain ⟨hfree, -, -, e₂⟩ := txAllocWith_ok b₂
    obtain ⟨⟨w, hw⟩, e₃⟩ := store_ok b₃
    have hnested := exitOnAbort_ok b₄
    rw [e₁, et] at hfree e₂
    obtain ⟨bs, hadd⟩ : ∃ bs, ArrayAdded t₃.heap t'.heap hm bs seed := by
      rcases transaction_ok hnested with ⟨hnone, -⟩ | ⟨u, v, v', -, ev, -, hb, ev'⟩
      · rw [store_log b₃] at hnone
        exact absurd hnone (Option.isSome_iff_ne_none.mp (txAllocWith_inTx b₂))
      · obtain ⟨bs, hadd⟩ := createBody_added hb
        exact ⟨bs, ev ▸ ev' ▸ hadd⟩
    have hshape₃ : ∀ o, shape t₃.heap o =
        if o = hm then some (Kind.hashmapTx, 48) else shape s.heap o := by
      intro o
      rw [e₃, e₂]
      exact headed_shape rfl rfl o
    have hne : hm ≠ bs := by
      rintro rfl
      have h := hshape₃ hm
      rw [if_pos rfl, shape_eq_none.mpr hadd.fresh] at h
      cases h
    have hmap : t₃.heap.get map .hashmap = some hm := by
      rw [e₃]
      exact Heap.get_put_self _ _ hw
    have hmap_ne : map ≠ hm := by
      rintro rfl
      rw [e₂] at hw
      obtain ⟨obj, ho, hk⟩ := Heap.live_of_get hw
      rw [Function.update_self] at ho
      cases ho
      cases hk
    have hmap_nb : map ≠ bs := Heap.ne_of_free hadd.fresh hmap
    refine ⟨hm, bs, ?_, hne, ?_, ?_, ?_, et' ▸ hadd.buckets, et' ▸ hadd.seed⟩
    · constructor
      · exact hfree
      · have h := hshape₃ bs
        rwa [if_neg hne.symm, shape_eq_none.mpr hadd.fresh, eq_comm, shape_eq_none] at h
    · intro o
      rw [et', hadd.shapes o, hshape₃ o]
      by_cases ho : o = hm
      · subst ho
        rw [if_neg hne, if_pos rfl, if_pos rfl]
      · rw [if_neg ho, if_neg ho]
    · intro o m ho hb hcell
      rw [et', hadd.cells o m ho hb, e₃, e₂]
      exact headed_get ho hcell
    · rw [et', hadd.cells map _ hmap_ne hmap_nb]
      exact hmap

end Body

section Added
variable {h h' : Pool} {bs q : PMEMoid}

theorem added_live (ha : MapAdded h h' map hm bs seed) (hq : q = hm ∨ q = bs) : h' q ≠ none := by
  intro hnone
  have hs := ha.shapes q
  rw [shape_eq_none.mpr hnone] at hs
  rcases hq with rfl | rfl
  · simp at hs
  · by_cases hqm : q = hm <;> simp [hqm] at hs

theorem added_ne_map (ha : MapAdded h h' map hm bs seed) (hq : q = hm ∨ q = bs) : q ≠ map := by
  rintro rfl
  obtain ⟨obj, ho, hk⟩ := Heap.live_of_get ha.handle
  have hs := ha.shapes q
  rw [shape_eq_some ho, hk] at hs
  rcases hq with rfl | rfl
  · rw [if_pos rfl] at hs
    cases hs
  · rw [if_neg ha.apart.symm, if_pos rfl] at hs
    cases hs

end Added

def newPart (h : Pool) (hm bs : PMEMoid) : Pool := fun o =>
  if o = hm ∨ o = bs then h o else none

section Part
variable {h h' : Pool} {bs : PMEMoid} {r : Pool}

theorem newPart_get {o : PMEMoid} (ho : o = hm ∨ o = bs) (m : Member) :
    (newPart h hm bs).get o m = h.get o m := by
  have hsame : newPart h hm bs o = h o := if_pos ho
  exact Heap.get_congr hsame m

theorem created_congr {bs : PMEMoid} (hc : Created h hm) (hbs : h.get hm .buckets = some bs)
    (hget : ∀ o m v, o = hm ∨ o = bs → h.get o m = some v → h'.get o m = some v) :
    Created h' hm := by
  obtain ⟨⟨a, ha, hne⟩, ⟨b, hb⟩, hp, hcount, bs', hbs', hnull, hn, hslots⟩ := hc
  cases hbs.symm.trans hbs'
  constructor
  · exact ⟨a, hget _ _ _ (Or.inl rfl) ha, hne⟩
  · exact ⟨b, hget _ _ _ (Or.inl rfl) hb⟩
  · exact hget _ _ _ (Or.inl rfl) hp
  · exact hget _ _ _ (Or.inl rfl) hcount
  · refine ⟨bs, hget _ _ _ (Or.inl rfl) hbs, hnull, hget _ _ _ (Or.inr rfl) hn, ?_⟩
    intro i hi
    exact hget _ _ _ (Or.inr rfl) (hslots i hi)

theorem newPart_footprint (ha : MapAdded h h' map hm bs seed) (hc : Created h' hm) :
    Footprint (newPart h' hm bs) hm bs [] := by
  have hnew : Created (newPart h' hm bs) hm := by
    apply created_congr hc ha.buckets
    intro o m v ho hv
    rwa [newPart_get ho]
  have hpart : ∀ o, o = hm ∨ o = bs → shape (newPart h' hm bs) o = shape h' o := by
    intro o ho
    rw [shape, shape, newPart, if_pos ho]
  apply created_footprint hnew
  · rw [newPart_get (Or.inl rfl)]
    exact ha.buckets
  · constructor
    · rw [hpart hm (Or.inl rfl), ha.shapes, if_pos rfl]
    · rw [hpart bs (Or.inr rfl), ha.shapes, if_neg ha.apart.symm, if_pos rfl]
  · intro o ho
    by_contra hne
    exact ho (if_neg hne)

theorem newPart_join (ha : MapAdded h h' map hm bs seed) :
    newPart (join h' r) hm bs = newPart h' hm bs := by
  funext o
  by_cases ho : o = hm ∨ o = bs
  · obtain ⟨obj, hobj⟩ := Option.ne_none_iff_exists'.mp (added_live ha ho)
    simp only [newPart, if_pos ho, join_some hobj, hobj]
  · simp only [newPart, if_neg ho]

end Part

def onlyMap (h : Pool) (map : PMEMoid) : Pool := fun o => if o = map then h o else none

theorem onlyMap_parts (h : Pool) (map : PMEMoid) : Parts h fun _ : Unit => onlyMap h map where
  within _ o obj ho := by
    simp only [onlyMap] at ho
    split at ho
    · exact ho
    · cases ho
  apart i j hij := absurd rfl hij

/-- What a creation next to other objects leaves of the whole pool. -/
structure Joined {ι : Type} (h h' : Pool) (P : ι → Pool) (map hm bs : PMEMoid) (seed : UInt32) :
    Prop where
  handle : h'.get map .hashmap = some hm
  seed : h'.get hm .seed = some seed
  created : Created h' hm
  footprint : Footprint (newPart h' hm bs) hm bs []
  parts : Parts h' fun i : Option ι => i.elim (newPart h' hm bs) P
  others : ∀ q, q ≠ map → q ≠ hm → q ≠ bs → h' q = h q
  members : ∀ m, m ≠ .hashmap → h'.get map m = h.get map m

theorem joined_of_added {ι : Type} {P : ι → Pool} {t : PoolState} {bs : PMEMoid}
    (hp : Parts s.heap P) (hout : ∀ i, P i map = none)
    (ha : Apart t (rest s.heap (onlyMap s.heap map)))
    (hadd : MapAdded (onlyMap s.heap map) t.heap map hm bs seed) (hc : Created t.heap hm) :
    Joined s.heap (join t.heap (rest s.heap (onlyMap s.heap map))) P map hm bs seed := by
  have honly : ∀ q, q ≠ map → onlyMap s.heap map q = none := fun q hq => if_neg hq
  -- the two new objects were not there before
  have hfresh : ∀ q, q = hm ∨ q = bs → s.heap q = none := by
    intro q hq
    by_contra hs
    rw [← rest_of_none (h := s.heap) (honly q (added_ne_map hadd hq))] at hs
    exact added_live hadd hq (ha.live q hs)
  have hother : ∀ q, q ≠ map → q ≠ hm → q ≠ bs →
      join t.heap (rest s.heap (onlyMap s.heap map)) q = s.heap q := by
    intro q hq hqm hqb
    have hs := hadd.shapes q
    rw [if_neg hqm, if_neg hqb, shape_eq_none.mpr (honly q hq), shape_eq_none] at hs
    rw [join_right hs, rest_of_none (honly q hq)]
  constructor
  · exact get_join hadd.handle
  · exact get_join hadd.seed
  · apply created_congr hc hadd.buckets
    intro o m v _ hv
    exact get_join hv
  · rw [newPart_join hadd]
    exact newPart_footprint hadd hc
  · apply hp.add
    · intro i q obj hq
      have hs := hp.within i q obj hq
      have hqm : q ≠ map := by
        rintro rfl
        rw [hout i] at hq
        cases hq
      have hne : ¬ (q = hm ∨ q = bs) := by
        intro h
        rw [hfresh q h] at hs
        cases hs
      rw [not_or] at hne
      rw [hother q hqm hne.1 hne.2]
      exact hs
    · intro q obj hq
      simp only [newPart] at hq
      split at hq
      · exact hq
      · cases hq
    · intro q hq
      apply hfresh q
      by_contra hne
      exact hq (if_neg hne)
  · exact hother
  · intro m hm'
    have hcell : (map, m) ≠ (map, Member.hashmap) := by
      intro h
      exact hm' (congrArg Prod.snd h)
    have hpart := hadd.cells map m (added_ne_map hadd (Or.inl rfl)).symm
      (added_ne_map hadd (Or.inr rfl)).symm hcell
    obtain ⟨obj, ho, -⟩ := Heap.live_of_get hadd.handle
    have hjoin : join t.heap (rest s.heap (onlyMap s.heap map)) map = t.heap map := by
      rw [join_some ho, ho]
    have hself : onlyMap s.heap map map = s.heap map := if_pos rfl
    rw [Heap.get_congr hjoin, hpart, Heap.get_congr hself]

section Sample

def blankCache : PMEMoid := ⟨1, 2048⟩

def blankHeap : Pool := fun o => if o = blankCache then some ⟨.cache, 56, Layout.zero⟩ else none

def blankState : PoolState := ⟨join (join newHeap otherHeap) blankHeap, none, 0, 0, []⟩

theorem blankState_parts : Parts blankState.heap pairParts where
  within i o obj ho := join_some (pairState_parts.within i o obj ho)
  apart := pairState_parts.apart

end Sample

end RtsCache.HashmapNew
