import RtsCache.CuckooMemory
import RtsCache.ScalableMachine

/-!
# Allocating and freeing the scalable filter

`scf_free` goes through the sub-filters and then frees the array of pointers
and its own block. A sub-filter that cannot be freed leaves it without a
result, so it never answers -1 on the way. What `scf_configure` had `cf_new`
allocate is not among what it frees.
-/

set_option autoImplicit false

namespace RtsCache.ScalableMemory
open RtsCache.CuckooIndex RtsCache.CuckooMachine RtsCache.ScalableMachine RtsCache.CuckooMemory

structure ScalableAllocated where
  loadFactor : Option LoadFactor
  scaleFactor : Option (UInt32 → UInt32)
  filterCount : UInt64
  capacity : UInt64
  filters : Option (ℕ × List (Option Allocated))

def fieldsOf (s : ScalableAllocated) : ScalableCuckooFilter where
  loadFactor := s.loadFactor
  scaleFactor := s.scaleFactor
  filterCount := s.filterCount
  capacity := s.capacity
  filters := s.filters.map fun x => x.2.map fun a => a.map Allocated.filter

/-- The pointer in the array stays null. -/
def scfConfigureIn (cfSDefaultLoadFactor : LoadFactor) (fails : ℕ → Bool) (m : Memory)
    (s : ScalableAllocated) : Option (ℤ × ScalableAllocated × Memory) :=
  let s := { s with
    loadFactor := some (s.loadFactor.getD cfSDefaultLoadFactor)
    scaleFactor := some (s.scaleFactor.getD scfDefaultScaleFactorFunc) }
  match s.filters with
  | some _ => some (0, s, m)
  | none =>
    match malloc fails m with
    | (none, _) => none
    | (some array, m) =>
      let s := { s with filters := some (array, [none]) }
      match cfNewIn fails m cfSDefaultCapacity with
      | none => none
      | some (r, _, m) =>
        if r = -1 then some (-1, s, m)
        else some (0, { s with capacity := cfSDefaultCapacity.toUInt64, filterCount := 1 }, m)

/-- The pointer parameter is overwritten, so no caller receives the block.
`junk` is what the block holds before the options are called. -/
def scfNewIn (cfSDefaultLoadFactor : LoadFactor) (fails : ℕ → Bool) (m : Memory)
    (junk : ScalableAllocated) (options : List (ScalableAllocated → ScalableAllocated)) :
    Option (ℤ × Memory) :=
  match malloc fails m with
  | (none, m) => some (-1, m)
  | (some _, m) => do
    let s := options.foldl (fun s option => option s) junk
    let (r, _, m) ← scfConfigureIn cfSDefaultLoadFactor fails m s
    some (r, m)

def cfFreeAt (m : Memory) (filter : Option Allocated) : Option (ℤ × Memory) :=
  match filter with
  | some a => cfFree m a
  | none => some (0, m)

def filterAt (m : Memory) (array : ℕ) (filters : List (Option Allocated)) (i : ℕ) :
    Option (Option Allocated) :=
  if array ∈ m.live then filters[i]? else none

def filtersFree (array : ℕ) (filters : List (Option Allocated)) :
    List ℕ → Memory → Option (ℤ × Memory)
  | [], m => some (0, m)
  | i::is, m => do
    let filter ← filterAt m array filters i
    let (r, m) ← cfFreeAt m filter
    if r = -1 then some (-1, m) else filtersFree array filters is m

def scfFree (m : Memory) (block : ℕ) (s : ScalableAllocated) : Option (ℤ × Memory) :=
  match s.filters with
  | none => some (-1, m)
  | some (array, filters) => do
    let (r, m) ← filtersFree array filters (List.range s.filterCount.toNat) m
    if r = -1 then some (-1, m)
    else do
      let m ← free m array 0
      let m ← free m block 0
      some (0, m)

def subFilters (filters : List (Option Allocated)) (is : List ℕ) : List Allocated :=
  is.filterMap fun i => filters[i]?.join

variable {fails : ℕ → Bool} {m m' : Memory} {s s' : ScalableAllocated} {r : ℤ} {array block : ℕ}
  {filters : List (Option Allocated)} {exceeds : LoadFactor}

theorem free_live {b : ℕ} (hb : b ∈ m.live) :
    ∃ m', free m b 0 = some m' ∧ m'.live = m.live.erase b := by
  simp [free, hb]

theorem filtersFree_freeable {is : List ℕ} (his : ∀ i ∈ is, i < filters.length)
    (harray : array ∈ m.live) (hnot : array ∉ (subFilters filters is).map Allocated.buckets)
    (hnodup : ((subFilters filters is).map Allocated.buckets).Nodup)
    (hlive : ∀ a ∈ subFilters filters is, a.buckets ∈ m.live)
    (hfree : ∀ a ∈ subFilters filters is, Freeable a.filter) :
    ∃ m', filtersFree array filters is m = some (0, m') ∧
      m'.live = m.live \ ((subFilters filters is).map Allocated.buckets).toFinset := by
  induction is generalizing m with
  | nil => exact ⟨m, rfl, by simp [subFilters]⟩
  | cons i is ih =>
    obtain ⟨hi, his⟩ := List.forall_mem_cons.mp his
    rw [filtersFree, filterAt, if_pos harray, List.getElem?_eq_getElem hi]
    cases hx : filters[i] with
    | none =>
      have hsub : subFilters filters (i::is) = subFilters filters is := by
        simp [subFilters, List.getElem?_eq_getElem hi, hx]
      rw [hsub] at hnot hnodup hlive hfree ⊢
      exact ih his harray hnot hnodup hlive hfree
    | some a =>
      have hsub : subFilters filters (i::is) = a :: subFilters filters is := by
        simp [subFilters, List.getElem?_eq_getElem hi, hx]
      rw [hsub] at hnot hnodup hlive hfree ⊢
      obtain ⟨ha, hlive⟩ := List.forall_mem_cons.mp hlive
      obtain ⟨hfa, hfree⟩ := List.forall_mem_cons.mp hfree
      rw [List.map_cons, List.nodup_cons] at hnodup
      rw [List.map_cons, List.mem_cons, not_or] at hnot
      obtain ⟨m₁, hm₁, he⟩ := cfFree_freeable ha hfa
      obtain ⟨m₂, hm₂, he₂⟩ := ih (m := m₁) his
        (by rw [he]; exact Finset.mem_erase.mpr ⟨hnot.1, harray⟩) hnot.2 hnodup.2
        (fun b hb => by
          rw [he]
          exact Finset.mem_erase.mpr
            ⟨fun heq => hnodup.1 (heq ▸ List.mem_map_of_mem hb), hlive b hb⟩) hfree
      refine ⟨m₂, ?_, ?_⟩
      · simpa [cfFreeAt, hm₁] using hm₂
      · rw [he₂, he]
        ext b
        simp only [Finset.mem_sdiff, Finset.mem_erase, List.map_cons, List.toFinset_cons,
          Finset.mem_insert, not_or]
        tauto

theorem cfFree_some {a : Allocated} (h : cfFree m a = some (r, m')) :
    r = 0 ∧ Freeable a.filter := by
  have hf : Freeable a.filter := by
    by_contra hf
    cases h.symm.trans (cfFree_not_freeable hf)
  refine ⟨?_, hf⟩
  obtain ⟨x, hx, hrest⟩ := Option.bind_eq_some_iff.mp h
  have hr := (bucketsFree_some hx).1
  simp only [hr] at hrest
  obtain ⟨m₁, -, hret⟩ := Option.bind_eq_some_iff.mp hrest
  cases hret
  rfl

/-- The loop never ends early: a sub-filter that cannot be freed has no result. -/
theorem filtersFree_some {is : List ℕ} (h : filtersFree array filters is m = some (r, m')) :
    r = 0 ∧ ∀ a ∈ subFilters filters is, Freeable a.filter := by
  induction is generalizing m with
  | nil =>
    cases h
    exact ⟨rfl, by simp [subFilters]⟩
  | cons i is ih =>
    obtain ⟨x, hx, hrest⟩ := Option.bind_eq_some_iff.mp h
    obtain ⟨⟨q, m₁⟩, hy, hnext⟩ := Option.bind_eq_some_iff.mp hrest
    have hat : filters[i]? = some x := by
      unfold filterAt at hx
      split at hx
      · exact hx
      · cases hx
    cases x with
    | none =>
      cases hy
      have hsub : subFilters filters (i::is) = subFilters filters is := by simp [subFilters, hat]
      rw [hsub]
      exact ih hnext
    | some a =>
      have hsub : subFilters filters (i::is) = a :: subFilters filters is := by
        simp [subFilters, hat]
      obtain ⟨rfl, hf⟩ := cfFree_some hy
      rw [hsub]
      obtain ⟨hr, hall⟩ := ih hnext
      exact ⟨hr, List.forall_mem_cons.mpr ⟨hf, hall⟩⟩

/-- The sub-filters `scf_free` goes through. -/
def heldFilters (s : ScalableAllocated) : List Allocated :=
  match s.filters with
  | none => []
  | some (_, filters) => subFilters filters (List.range s.filterCount.toNat)

/-- `scf_free` of a scalable filter with blocks of its own. -/
theorem scf_free_iff (m : Memory) (block : ℕ) (hs : s.filters = some (array, filters))
    (hcount : s.filterCount.toNat ≤ filters.length)
    (hnodup : (block :: array :: (heldFilters s).map Allocated.buckets).Nodup)
    (hlive : ∀ b ∈ block :: array :: (heldFilters s).map Allocated.buckets, b ∈ m.live) :
    ((∀ a ∈ heldFilters s, Freeable a.filter) → ∃ m', scfFree m block s = some (0, m') ∧
      m'.live = m.live \ (block :: array :: (heldFilters s).map Allocated.buckets).toFinset) ∧
    (¬ (∀ a ∈ heldFilters s, Freeable a.filter) → scfFree m block s = none) := by
  have hheld : heldFilters s = subFilters filters (List.range s.filterCount.toNat) := by
    rw [heldFilters, hs]
  rw [hheld] at hnodup hlive ⊢
  simp only [List.forall_mem_cons, List.forall_mem_map] at hlive
  obtain ⟨hblock, harray, hbuckets⟩ := hlive
  rw [List.nodup_cons, List.nodup_cons, List.mem_cons, not_or] at hnodup
  obtain ⟨⟨hne, hblockNot⟩, harrayNot, hdistinct⟩ := hnodup
  constructor
  · intro hfree
    have his : ∀ i ∈ List.range s.filterCount.toNat, i < filters.length := fun i hi =>
      (List.mem_range.mp hi).trans_le hcount
    obtain ⟨m₁, h₁, e₁⟩ := filtersFree_freeable his harray harrayNot hdistinct hbuckets hfree
    obtain ⟨m₂, h₂, e₂⟩ : ∃ m₂, free m₁ array 0 = some m₂ ∧ m₂.live = m₁.live.erase array := by
      apply free_live
      rw [e₁]
      simpa [harray] using harrayNot
    obtain ⟨m₃, h₃, e₃⟩ : ∃ m₃, free m₂ block 0 = some m₃ ∧ m₃.live = m₂.live.erase block := by
      apply free_live
      rw [e₂, e₁]
      simpa [hblock, hne] using hblockNot
    refine ⟨m₃, by simp [scfFree, hs, h₁, h₂, h₃], ?_⟩
    rw [e₃, e₂, e₁]
    ext b
    simp only [Finset.mem_sdiff, Finset.mem_erase, List.toFinset_cons, Finset.mem_insert, not_or]
    tauto
  · intro hfree
    by_contra hsome
    obtain ⟨x, hx⟩ := Option.ne_none_iff_exists'.mp hsome
    rw [scfFree, hs] at hx
    obtain ⟨y, hy, -⟩ := Option.bind_eq_some_iff.mp hx
    exact hfree (filtersFree_some hy).2

theorem scfConfigureIn_eq (hbuckets : fails (m.calls+2) = false) :
    (scfConfigureIn exceeds fails m s).map (fun x => (x.1, fieldsOf x.2.1)) =
      scfConfigure exceeds (!fails m.calls) (!fails (m.calls+1)) (fieldsOf s) := by
  unfold scfConfigureIn scfConfigure
  cases hs : s.filters with
  | some x => simp [fieldsOf, hs]
  | none =>
    simp only [fieldsOf, hs, Option.map_none]
    split
    · rename_i hfirst
      simp [malloc_refused hfirst]
    · rename_i array m₁ hfirst
      have hcalls := (malloc_some hfirst).2.2
      have heq := cfNewIn_eq fails m₁ cfSDefaultCapacity
      rw [hcalls, hbuckets, if_neg (by simp)] at heq
      obtain ⟨⟨r, x, m₂⟩, hnew, hr⟩ := Option.map_eq_some_iff.mp heq
      have hr' : r = (cfNew (!fails (m.calls+1)) cfSDefaultCapacity).1 := congrArg Prod.fst hr
      rw [malloc_granted hfirst, hnew, ← hr']
      dsimp only
      split <;> rfl

theorem cfNewIn_ok {capacity : UInt32} {x : Option Allocated}
    (h : cfNewIn fails m capacity = some (r, x, m')) (hr : r ≠ -1) : r = 0 ∧ ∃ a, x = some a := by
  unfold cfNewIn at h
  split at h
  · cases h
    exact absurd rfl hr
  · split at h
    · cases h
    · cases h
      exact ⟨rfl, _, rfl⟩

theorem scfConfigureIn_parts (hs : s.filters = none)
    (hconf : scfConfigureIn exceeds fails m s = some (0, s', m')) :
    ∃ array m₁ a, malloc fails m = (some array, m₁) ∧
      cfNewIn fails m₁ cfSDefaultCapacity = some (0, some a, m') ∧
      s'.filters = some (array, [none]) ∧ s'.filterCount = 1 := by
  unfold scfConfigureIn at hconf
  rw [hs] at hconf
  dsimp only at hconf
  split at hconf
  · cases hconf
  · rename_i array m₁ hfirst
    split at hconf
    · cases hconf
    · rename_i r x m₂ hnew
      split at hconf
      · cases hconf
      · rename_i hr
        obtain ⟨rfl, a, rfl⟩ := cfNewIn_ok hnew hr
        cases hconf
        exact ⟨array, m₁, a, hfirst, hnew, rfl, rfl⟩

theorem scfConfigureIn_live (hs : s.filters = none)
    (hconf : scfConfigureIn exceeds fails m s = some (0, s', m')) :
    m.live ⊆ m'.live ∧ m'.live.card = m.live.card + 3 +
      granted fails (m.calls+3) (filterCapacity cfSDefaultCapacity).toNat := by
  obtain ⟨array, m₁, a, hfirst, hnew, -, -⟩ := scfConfigureIn_parts hs hconf
  obtain ⟨hnot, hlive₁, hcalls⟩ := malloc_some hfirst
  obtain ⟨hsub, -, -, hcard⟩ := cfNewIn_made hnew
  constructor
  · intro b hb
    exact hsub (by rw [hlive₁]; exact Finset.mem_insert_of_mem hb)
  · rw [hcard, hlive₁, Finset.card_insert_of_notMem hnot, hcalls, Nat.add_assoc m.calls]

theorem scfNewIn_leaks {junk : ScalableAllocated}
    {options : List (ScalableAllocated → ScalableAllocated)}
    (hs : (options.foldl (fun s option => option s) junk).filters = none)
    (hnew : scfNewIn exceeds fails m junk options = some (0, m')) :
    m.live ⊆ m'.live ∧ m'.live.card = m.live.card + 4 +
      granted fails (m.calls+4) (filterCapacity cfSDefaultCapacity).toNat := by
  unfold scfNewIn at hnew
  split at hnew
  · cases hnew
  · rename_i block m₁ hfirst
    obtain ⟨hnot, hlive₁, hcalls⟩ := malloc_some hfirst
    obtain ⟨⟨r, s', m₂⟩, hconf, hret⟩ := Option.bind_eq_some_iff.mp hnew
    cases hret
    obtain ⟨hsub, hcard⟩ := scfConfigureIn_live hs hconf
    constructor
    · intro b hb
      exact hsub (by rw [hlive₁]; exact Finset.mem_insert_of_mem hb)
    · rw [hcard, hlive₁, Finset.card_insert_of_notMem hnot, hcalls, Nat.add_assoc m.calls]

/-- What is left when a scalable filter that was configured without
sub-filters is freed again: all that `cf_new` allocated. -/
theorem configured_free (hs : s.filters = none) (hblock : block ∈ m.live)
    (hconf : scfConfigureIn exceeds fails m s = some (0, s', m')) :
    ∃ m₂, scfFree m' block s' = some (0, m₂) ∧ m.live.erase block ⊆ m₂.live ∧
      m₂.live.card = m.live.card + 1 +
        granted fails (m.calls+3) (filterCapacity cfSDefaultCapacity).toNat := by
  obtain ⟨array, m₁, a, hfirst, hnew, hfilters, hcount⟩ := scfConfigureIn_parts hs hconf
  obtain ⟨hnot, hlive₁, -⟩ := malloc_some hfirst
  obtain ⟨hsub, -, -, -⟩ := cfNewIn_made hnew
  obtain ⟨hsub', hcard⟩ := scfConfigureIn_live hs hconf
  have hheld : heldFilters s' = [] := by
    rw [heldFilters, hfilters, hcount]
    rfl
  have hne : block ≠ array := fun heq => hnot (heq ▸ hblock)
  have hblock₁ : block ∈ m'.live := hsub' hblock
  have harray₁ : array ∈ m'.live := hsub (by rw [hlive₁]; exact Finset.mem_insert_self _ _)
  have hfree := (scf_free_iff m' block hfilters (by rw [hcount]; rfl)
    (by rw [hheld]; simpa using hne) (by rw [hheld]; simp [hblock₁, harray₁])).1
  rw [hheld] at hfree
  obtain ⟨m₂, hrun, he⟩ := hfree (by simp)
  have hpair : m₂.live = m'.live \ {block, array} := by simpa using he
  have hin : {block, array} ⊆ m'.live := by
    intro b hb
    rcases Finset.mem_insert.mp hb with rfl | hb
    · exact hblock₁
    · exact Finset.mem_singleton.mp hb ▸ harray₁
  refine ⟨m₂, hrun, ?_, ?_⟩
  · intro b hb
    obtain ⟨hbne, hb⟩ := Finset.mem_erase.mp hb
    have hba : b ≠ array := fun heq => hnot (heq ▸ hb)
    simp [hpair, hsub' hb, hbne, hba]
  · rw [hpair, Finset.card_sdiff_of_subset hin, Finset.card_pair hne, hcard]
    omega

section Sample

def twoFilters : ScalableAllocated :=
  ⟨none, none, 2, 16, some (1, [none, some ⟨newFilter 16, 2, 3⟩])⟩

def fourBlocks : Memory := ⟨{0, 1, 2, 3}, 4, by decide⟩

theorem scf_free_iff_two : ∃ m, scfFree fourBlocks 0 twoFilters = some (0, m) ∧ m.live = {2} := by
  have hfree : Freeable (newFilter 16) := ⟨by decide, fun _ _ _ _ => rfl⟩
  have hheld : ∀ a ∈ heldFilters twoFilters, Freeable a.filter := by
    have hone : heldFilters twoFilters = [⟨newFilter 16, 2, 3⟩] := rfl
    rw [hone]
    simpa using hfree
  obtain ⟨m, hrun, hlive⟩ := (scf_free_iff fourBlocks 0 (s := twoFilters) rfl
    (by decide) (by decide) (by decide)).1 hheld
  exact ⟨m, hrun, hlive.trans (by decide)⟩

end Sample

end RtsCache.ScalableMemory
