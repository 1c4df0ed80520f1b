import RtsCache.CuckooProvenance

/-!
# Allocating and freeing filters

`cf_new` allocates a block for the filter, one for the pointers and one for
each bucket, and nothing points to the last. `cf_free` looks at four pointers
only, which are the bytes of the first eight buckets, and hands the allocator
addresses inside the block of the pointers; so it can be called exactly if
those buckets are empty, and it frees one block.
-/

set_option autoImplicit false

namespace RtsCache.CuckooMemory
open RtsCache.CuckooIndex RtsCache.CuckooMachine RtsCache.CuckooSpec RtsCache.CuckooCount
open RtsCache.CuckooProvenance

/-- The blocks allocated and not freed. A block has the number of the call
that allocated it. -/
structure Memory where
  live : Finset ℕ
  calls : ℕ
  below : ∀ b ∈ live, b < calls

/-- `malloc` and `calloc`. `fails` says which calls return a null pointer. -/
def malloc (fails : ℕ → Bool) (m : Memory) : Option ℕ × Memory :=
  if fails m.calls then
    (none, ⟨m.live, m.calls + 1, fun b hb => Nat.lt_succ_of_lt (m.below b hb)⟩)
  else
    (some m.calls, ⟨insert m.calls m.live, m.calls + 1, fun b hb => by
      rcases Finset.mem_insert.mp hb with rfl | hb
      · exact Nat.lt_succ_self _
      · exact Nat.lt_succ_of_lt (m.below b hb)⟩)

def free (m : Memory) (b offset : ℕ) : Option Memory :=
  if offset = 0 ∧ b ∈ m.live then
    some ⟨m.live.erase b, m.calls, fun c hc => m.below c (Finset.mem_of_mem_erase hc)⟩
  else none

def bucketNew (fails : ℕ → Bool) (m : Memory) : ℤ × Memory :=
  match malloc fails m with
  | (some _, m) => (0, m)
  | (none, m) => (-1, m)

/-- The loop of `cf_new`, for `n` more buckets. A failure is only reported. -/
def bucketsNew (fails : ℕ → Bool) : ℕ → Memory → Memory
  | 0, m => m
  | n+1, m => bucketsNew fails n (bucketNew fails m).2

structure Allocated where
  filter : CuckooFilter
  block : ℕ
  buckets : ℕ

/-- The loop reads `cf->buckets[0]` before the test for a null pointer. -/
def cfNewIn (fails : ℕ → Bool) (m : Memory) (capacity : UInt32) :
    Option (ℤ × Option Allocated × Memory) :=
  match malloc fails m with
  | (none, m) => some (-1, none, m)
  | (some block, m) =>
    match malloc fails m with
    | (none, _) => none
    | (some buckets, m) =>
      let m := bucketsNew fails (filterCapacity capacity).toNat m
      some (0, some ⟨newFilter capacity, block, buckets⟩, m)

def pointerSet (m : Memory) (a : Allocated) (i : ℕ) : Option Bool :=
  if a.buckets ∈ m.live then bucketPresent a.filter i else none

def bucketFree (m : Memory) (a : Allocated) (i : ℕ) : Option (ℤ × Memory) := do
  let m ← free m a.buckets (bucketSize * i)
  pure (0, m)

def bucketsFree (a : Allocated) : List ℕ → Memory → Option (ℤ × Memory)
  | [], m => pure (0, m)
  | i::is, m => do
    let present ← pointerSet m a i
    if present then do
      let (r, m) ← bucketFree m a i
      if r = -1 then pure (-1, m) else bucketsFree a is m
    else bucketsFree a is m

/-- The block of the filter itself stays. -/
def cfFree (m : Memory) (a : Allocated) : Option (ℤ × Memory) := do
  let (r, m) ← bucketsFree a (List.range bucketSize) m
  if r = -1 then pure (-1, m)
  else do
    let m ← free m a.buckets 0
    pure (0, m)

def firstBuckets : ℕ := sizeofPointer * bucketSize / bucketSize

/-- Four pointers are there, and all are null. -/
def Freeable (cf : CuckooFilter) : Prop :=
  2 ≤ cf.bucketPower ∧ ∀ i < firstBuckets, ∀ j < bucketSize, cf.bytes (bucketSize*i+j) = 0

variable {fails : ℕ → Bool} {m m' : Memory} {a : Allocated} {r : ℤ} {i n : ℕ}

section Freeing

theorem free_eq_some {b offset : ℕ} (h : free m b offset = some m') :
    b ∈ m.live ∧ m'.live = m.live.erase b := by
  unfold free at h
  split at h
  · rename_i hb
    cases h
    exact ⟨hb.2, rfl⟩
  · cases h

theorem bucketsFree_some {is : List ℕ} (h : bucketsFree a is m = some (r, m')) :
    r = 0 ∧ m'.live ⊆ m.live ∧ (a.buckets ∈ m'.live →
      m' = m ∧ ∀ i ∈ is, bucketPresent a.filter i = some false) := by
  induction is generalizing m with
  | nil =>
    cases h
    exact ⟨rfl, Finset.Subset.refl _, fun _ => ⟨rfl, by simp⟩⟩
  | cons i is ih =>
    obtain ⟨present, hp, hrest⟩ := Option.bind_eq_some_iff.mp h
    cases present with
    | true =>
      obtain ⟨x, hx, hrest⟩ := Option.bind_eq_some_iff.mp hrest
      obtain ⟨m₁, hm₁, hret⟩ := Option.bind_eq_some_iff.mp hx
      cases hret
      obtain ⟨hr, hsub, -⟩ := ih hrest
      rw [(free_eq_some hm₁).2] at hsub
      refine ⟨hr, hsub.trans (Finset.erase_subset _ _), fun hb => ?_⟩
      exact absurd (hsub hb) (Finset.notMem_erase _ _)
    | false =>
      obtain ⟨hr, hsub, hsame⟩ := ih hrest
      refine ⟨hr, hsub, fun hb => ?_⟩
      obtain ⟨rfl, hall⟩ := hsame hb
      rw [pointerSet, if_pos hb] at hp
      exact ⟨rfl, List.forall_mem_cons.mpr ⟨hp, hall⟩⟩

theorem bucketsFree_null {is : List ℕ} (hb : a.buckets ∈ m.live)
    (hall : ∀ i ∈ is, bucketPresent a.filter i = some false) :
    bucketsFree a is m = some (0, m) := by
  induction is with
  | nil => rfl
  | cons i is ih =>
    obtain ⟨hi, hrest⟩ := List.forall_mem_cons.mp hall
    rw [bucketsFree, pointerSet, if_pos hb, hi]
    exact ih hrest

theorem present_eq_false {cf : CuckooFilter} : bucketPresent cf i = some false ↔
    i < 2^cf.bucketPower ∧ ∀ j < sizeofPointer, cf.bytes (sizeofPointer*i+j) = 0 := by
  have hroom : sizeofPointer * (i+1) ≤ cf.limit ↔ i < 2^cf.bucketPower := by
    rw [cf.room, Nat.mul_le_mul_left_iff (by decide)]
    omega
  unfold bucketPresent
  simp only [hroom]
  split
  · simp [*]
  · simp [*]

theorem freeable_iff {cf : CuckooFilter} :
    Freeable cf ↔ ∀ i ∈ List.range bucketSize, bucketPresent cf i = some false := by
  have hpower : 2 ≤ cf.bucketPower ↔ 2^2 ≤ 2^cf.bucketPower :=
    (Nat.pow_le_pow_iff_right (by decide)).symm
  simp only [Freeable, present_eq_false, List.mem_range, hpower, firstBuckets, sizeofPointer,
    bucketSize]
  constructor
  · rintro ⟨hp, hzero⟩ i hi
    refine ⟨by omega, fun j hj => ?_⟩
    have hat := hzero ((8*i+j)/4) (by omega) ((8*i+j) % 4) (by omega)
    rwa [Nat.div_add_mod] at hat
  · intro hall
    refine ⟨(hall 3 (by decide)).1, fun i hi j hj => ?_⟩
    have hat := (hall ((4*i+j)/8) (by omega)).2 ((4*i+j) % 8) (by omega)
    rwa [Nat.div_add_mod] at hat

theorem cfFree_freeable (hb : a.buckets ∈ m.live) (hf : Freeable a.filter) :
    ∃ m', cfFree m a = some (0, m') ∧ m'.live = m.live.erase a.buckets := by
  rw [cfFree, bucketsFree_null hb (freeable_iff.mp hf)]
  simp [free, hb]

theorem cfFree_not_freeable (hf : ¬ Freeable a.filter) : cfFree m a = none := by
  by_contra hne
  obtain ⟨x, hx⟩ := Option.ne_none_iff_exists'.mp hne
  obtain ⟨y, hy, hrest⟩ := Option.bind_eq_some_iff.mp hx
  obtain ⟨hr, hsub, hsame⟩ := bucketsFree_some hy
  simp only [hr] at hrest
  obtain ⟨m₂, hm₂, -⟩ := Option.bind_eq_some_iff.mp hrest
  obtain ⟨-, hall⟩ := hsame (free_eq_some hm₂).1
  exact hf (freeable_iff.mpr hall)

end Freeing

section Allocating

theorem malloc_some {b : ℕ} (h : malloc fails m = (some b, m')) :
    b ∉ m.live ∧ m'.live = insert b m.live ∧ m'.calls = m.calls+1 := by
  unfold malloc at h
  split at h
  · cases h
  · cases h
    exact ⟨fun hmem => Nat.lt_irrefl _ (m.below _ hmem), rfl, rfl⟩

theorem malloc_granted {b : ℕ} (h : malloc fails m = (some b, m')) : fails m.calls = false := by
  unfold malloc at h
  split at h
  · cases h
  · rename_i hf
    exact Bool.eq_false_iff.mpr hf

theorem malloc_refused (h : malloc fails m = (none, m')) : fails m.calls = true := by
  unfold malloc at h
  split at h
  · assumption
  · cases h

end Allocating

section LifeCycle
variable {capacity : UInt32} {shr : UInt32 → UInt32} {cf : CuckooFilter} {os : List Op}

def granted (fails : ℕ → Bool) (c n : ℕ) : ℕ :=
  ((List.range n).filter fun i => !fails (c+i)).length

theorem granted_succ (fails : ℕ → Bool) (c n : ℕ) :
    granted fails c (n+1) = (if fails c then 0 else 1) + granted fails (c+1) n := by
  simp only [granted, List.range_succ_eq_map, List.filter_cons, List.filter_map]
  have hshift : ((fun i => !fails (c+i)) ∘ Nat.succ) = fun i => !fails (c+1+i) := by
    funext i
    simp [Nat.add_assoc, Nat.add_comm 1]
  cases hc : fails c with
  | true => simp [hshift]
  | false => simp [hshift, Nat.add_comm]

theorem bucketsNew_live (fails : ℕ → Bool) (n : ℕ) (m : Memory) :
    m.live ⊆ (bucketsNew fails n m).live ∧
    (bucketsNew fails n m).live.card = m.live.card + granted fails m.calls n := by
  induction n generalizing m with
  | zero => exact ⟨Finset.Subset.refl _, rfl⟩
  | succ n ih =>
    obtain ⟨hsub, hcard⟩ := ih (bucketNew fails m).2
    rw [bucketsNew, hcard, granted_succ]
    by_cases hf : fails m.calls
    · simp only [bucketNew, malloc, hf, if_true] at hsub ⊢
      exact ⟨hsub, by omega⟩
    · simp only [bucketNew, malloc, hf, if_false, Bool.false_eq_true] at hsub ⊢
      have hnew : m.calls ∉ m.live := fun hmem => Nat.lt_irrefl _ (m.below _ hmem)
      rw [Finset.card_insert_of_notMem hnew]
      exact ⟨(Finset.subset_insert _ _).trans hsub, by omega⟩

/-- The result is that of `cf_new` with the first allocation, and there is none
where only the second one fails. -/
theorem cfNewIn_eq (fails : ℕ → Bool) (m : Memory) (capacity : UInt32) :
    (cfNewIn fails m capacity).map (fun x => (x.1, x.2.1.map Allocated.filter)) =
    if fails m.calls = false ∧ fails (m.calls+1) = true then none
    else some (cfNew (!fails m.calls) capacity) := by
  unfold cfNewIn
  split
  · rename_i hfirst
    simp [malloc_refused hfirst, cfNew]
  · rename_i hfirst
    have hok := malloc_granted hfirst
    split
    · rename_i hsecond
      have hf := malloc_refused hsecond
      rw [(malloc_some hfirst).2.2] at hf
      simp [hok, hf]
    · rename_i hsecond
      have hok' := malloc_granted hsecond
      rw [(malloc_some hfirst).2.2] at hok'
      simp [hok, hok', cfNew]

theorem cfNewIn_parts (h : cfNewIn fails m capacity = some (r, some a, m')) :
    ∃ m₁ m₂, malloc fails m = (some a.block, m₁) ∧ malloc fails m₁ = (some a.buckets, m₂) ∧
      a.filter = newFilter capacity ∧
      m' = bucketsNew fails (filterCapacity capacity).toNat m₂ := by
  unfold cfNewIn at h
  split at h
  · cases h
  · rename_i hfirst
    split at h
    · cases h
    · rename_i hsecond
      cases h
      exact ⟨_, _, hfirst, hsecond, rfl, rfl⟩

theorem cfNewIn_made (h : cfNewIn fails m capacity = some (r, some a, m')) :
    m.live ⊆ m'.live ∧ a.buckets ∈ m'.live ∧ a.buckets ∉ m.live ∧ m'.live.card =
      m.live.card + 2 + granted fails (m.calls+2) (filterCapacity capacity).toNat := by
  obtain ⟨m₁, m₂, hfirst, hsecond, -, rfl⟩ := cfNewIn_parts h
  obtain ⟨hnew₁, hlive₁, hcalls₁⟩ := malloc_some hfirst
  obtain ⟨hnew₂, hlive₂, hcalls₂⟩ := malloc_some hsecond
  obtain ⟨hsub, hcard⟩ := bucketsNew_live fails (filterCapacity capacity).toNat m₂
  have hin : a.buckets ∈ m₂.live := by
    rw [hlive₂]
    exact Finset.mem_insert_self _ _
  have hold : m.live ⊆ m₁.live := by
    rw [hlive₁]
    exact Finset.subset_insert _ _
  have hold' : m₁.live ⊆ m₂.live := by
    rw [hlive₂]
    exact Finset.subset_insert _ _
  refine ⟨(hold.trans hold').trans hsub, hsub hin, fun hmem => hnew₂ (hold hmem), ?_⟩
  rw [hcard, hcalls₂, hcalls₁, hlive₂, Finset.card_insert_of_notMem hnew₂, hlive₁,
    Finset.card_insert_of_notMem hnew₁]

/-- The whole life of a filter: whatever the allocator refuses and whatever is
done with the filter in between, `cf_free` can be called exactly if the first
eight buckets are empty, and then one block in all those allocated is freed. -/
theorem filter_life_cycle (shr : UInt32 → UInt32)
    (hnew : cfNewIn fails m capacity = some (r, some a, m'))
    (hrun : countRun shr a.filter os = some cf) :
    (Freeable cf → ∃ m₂, cfFree m' { a with filter := cf } = some (0, m₂) ∧
      m.live ⊆ m₂.live ∧ m₂.live.card =
        m.live.card + 1 + granted fails (m.calls+2) (filterCapacity capacity).toNat) ∧
    (¬ Freeable cf → cfFree m' { a with filter := cf } = none) ∧
    (∀ key, cfLookup shr cf key = some 1 → (index1 shr cf.bucketPower key).toNat < firstBuckets →
      (index2 shr cf.bucketPower key).toNat < firstBuckets → ¬ Freeable cf) ∧
    (2 ≤ cf.bucketPower → (∀ key ∈ insertedKeys os,
      firstBuckets ≤ (index1 shr cf.bucketPower key).toNat ∧
        firstBuckets ≤ (index2 shr cf.bucketPower key).toNat) → Freeable cf) := by
  obtain ⟨hsub, hlive, hfresh, hcard⟩ := cfNewIn_made hnew
  refine ⟨fun hf => ?_, fun hf => cfFree_not_freeable hf, ?_, ?_⟩
  · obtain ⟨m₂, hfree, he⟩ := cfFree_freeable (a := { a with filter := cf }) hlive hf
    refine ⟨m₂, hfree, ?_, ?_⟩
    · rw [he]
      exact Finset.subset_erase.mpr ⟨hsub, hfresh⟩
    · rw [he, Finset.card_erase_of_mem hlive, hcard]
      omega
  · intro key hfound h₁ h₂ hf
    obtain ⟨o, ⟨j, hj, ho⟩, hv⟩ := lookup_iff.mp hfound
    have hne : cf.bytes o ≠ 0 := by
      rw [hv]
      exact fp_ne_zero shr key _
    rcases ho with rfl | rfl
    · exact hne (hf.2 _ h₁ j hj)
    · exact hne (hf.2 _ h₂ j hj)
  · intro hp hkeys
    refine ⟨hp, fun i hi j hj => ?_⟩
    by_contra hne
    obtain ⟨-, -, -, -, hfilter, -⟩ := cfNewIn_parts hnew
    rw [hfilter] at hrun
    obtain ⟨key, hkey, ⟨j', hj', ho⟩, -⟩ := (traced_run hrun).2 _ hne
    obtain ⟨h₁, h₂⟩ := hkeys key hkey
    simp only [bucketSize] at hj hj' ho
    rcases ho with ho | ho <;> omega

end LifeCycle

section Sample

def emptyMemory : Memory := ⟨∅, 0, by simp⟩

theorem filter_life_cycle_one : ∃ a m' cf,
    cfNewIn (fun _ => false) emptyMemory 16 = some (0, some a, m') ∧
      countRun (fun _ => 0) a.filter [.insert [97] (fun _ => 0) true] = some cf ∧
      cfLookup (fun _ => 0) cf [97] = some 1 ∧ cfFree m' { a with filter := cf } = none := by
  obtain ⟨a, m', hnew, cf, hrun, hfound, h₁, h₂⟩ : ∃ a m',
      cfNewIn (fun _ => false) emptyMemory 16 = some (0, some a, m') ∧ ∃ cf,
        countRun (fun _ => 0) a.filter [.insert [97] (fun _ => 0) true] = some cf ∧
        cfLookup (fun _ => 0) cf [97] = some 1 ∧
        (index1 (fun _ => 0) cf.bucketPower [97]).toNat < firstBuckets ∧
        (index2 (fun _ => 0) cf.bucketPower [97]).toNat < firstBuckets :=
    ⟨_, _, rfl, _, rfl, rfl, by decide, by decide⟩
  obtain ⟨-, hnone, hkey, -⟩ := filter_life_cycle (fun _ => 0) hnew hrun
  exact ⟨a, m', cf, hnew, hrun, hfound, hnone (hkey [97] hfound h₁ h₂)⟩

end Sample

end RtsCache.CuckooMemory
