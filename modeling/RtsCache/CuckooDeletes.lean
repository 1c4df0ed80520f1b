import RtsCache.CuckooSpec

/-!
# Deleting from a cuckoo filter

`cf_delete` takes the answer of `bucket_delete` the wrong way round: it ends
with the first bucket that does not hold the fingerprint. A single copy is
removed, and counted, only where the first bucket holds one and the second,
after that, holds none.
-/

set_option autoImplicit false

namespace RtsCache.CuckooDeletes
open RtsCache.CuckooIndex RtsCache.CuckooMachine RtsCache.CuckooSpec

def OneRemoved (shr : UInt32 → UInt32) (cf : CuckooFilter) (key : Key) (cf' : CuckooFilter) :
    Prop :=
  (∃ o, KeySlot shr cf.bucketPower key o ∧ cf.bytes o = keyFp shr cf.bucketPower key ∧
    cf'.bytes = Function.update cf.bytes o 0) ∧ cf.count.toNat = cf'.count.toNat + 1

def Deletes (shr : UInt32 → UInt32) (cf : CuckooFilter) (key : Key) : Prop :=
  (Held shr cf key → ∃ cf', cfDelete shr cf key = some (1, cf') ∧ OneRemoved shr cf key cf') ∧
    (¬ Held shr cf key → ∃ cf', cfDelete shr cf key = some (0, cf') ∧
      cf'.bytes = cf.bytes ∧ cf'.count = cf.count)

/-- The count is not zero, and the second bucket holds no copy but perhaps one
of the first. -/
def FirstOnly (shr : UInt32 → UInt32) (cf : CuckooFilter) (key : Key) : Prop :=
  0 < cf.count ∧ ∃ j < bucketSize,
    cf.bytes (bucketSize * (index1 shr cf.bucketPower key).toNat + j) =
      keyFp shr cf.bucketPower key ∧
    ∀ l < bucketSize, cf.bytes (bucketSize * (index2 shr cf.bucketPower key).toNat + l) =
        keyFp shr cf.bucketPower key →
      bucketSize * (index2 shr cf.bucketPower key).toNat + l =
        bucketSize * (index1 shr cf.bucketPower key).toNat + j

variable {shr : UInt32 → UInt32} {cf cf' : CuckooFilter} {key : Key}

theorem lowered_pos {count : UInt64} (h : 0 < count) :
    count.toNat = (lowered count).toNat + 1 := by
  have hone : (1 : UInt64).toNat = 1 := rfl
  have hpos : 0 < count.toNat := UInt64.lt_iff_toNat_lt.mp h
  have hle : (1 : UInt64) ≤ count := by
    rw [UInt64.le_iff_toNat_le, hone]
    exact hpos
  rw [lowered, if_pos h, UInt64.toNat_sub_of_le _ _ hle, hone]
  omega

theorem lowered_iff {count : UInt64} : count.toNat = (lowered count).toNat + 1 ↔ 0 < count := by
  constructor
  · intro h
    by_contra hzero
    rw [lowered, if_neg hzero] at h
    omega
  · exact lowered_pos

theorem not_deletes_of_same (hrun : cfDelete shr cf key = some (1, cf'))
    (hb : cf'.bytes = cf.bytes) : ¬ Deletes shr cf key := by
  rintro ⟨hheld, hnone⟩
  by_cases hh : Held shr cf key
  · obtain ⟨cf'', hrun', ⟨o, -, hv, hupd⟩, -⟩ := hheld hh
    cases hrun.symm.trans hrun'
    rw [hb] at hupd
    have hzero : cf.bytes o = 0 := by
      rw [hupd]
      exact Function.update_self ..
    exact fp_ne_zero shr key _ (hv.symm.trans hzero)
  · obtain ⟨cf'', hrun', -⟩ := hnone hh
    cases hrun.symm.trans hrun'

theorem deletes_iff_counted {o : ℕ} (hrun : cfDelete shr cf key =
      some (1, { storeFp cf o 0 with count := lowered cf.count }))
    (ho : KeySlot shr cf.bucketPower key o) (hv : cf.bytes o = keyFp shr cf.bucketPower key) :
    Deletes shr cf key ↔ 0 < cf.count := by
  constructor
  · rintro ⟨hheld, -⟩
    obtain ⟨cf', hrun', -, hcount⟩ := hheld ⟨o, ho, hv⟩
    cases hrun.symm.trans hrun'
    exact lowered_iff.mp hcount
  · intro hpos
    constructor
    · exact fun _ => ⟨_, hrun, ⟨o, ho, hv, rfl⟩, lowered_pos hpos⟩
    · exact fun hh => absurd ⟨o, ho, hv⟩ hh

/-- In any filter, when a deletion removes exactly one copy. -/
theorem deletes_iff (shr : UInt32 → UInt32) (cf : CuckooFilter) (key : Key) :
    Deletes shr cf key ↔ FirstOnly shr cf key := by
  have hfp : keyFp shr cf.bucketPower key ≠ 0 := fp_ne_zero shr key _
  obtain ⟨b, hb⟩ : ∃ b, bucketSize * (index1 shr cf.bucketPower key).toNat = b := ⟨_, rfl⟩
  obtain ⟨c, hc⟩ : ∃ c, bucketSize * (index2 shr cf.bucketPower key).toNat = c := ⟨_, rfl⟩
  have hrun := cfDelete_eq shr cf key hb hc
  rw [FirstOnly, hb, hc]
  cases hs : bucketScan cf.bytes b (keyFp shr cf.bucketPower key) with
  | none =>
    rw [hs] at hrun
    constructor
    · exact fun h => absurd h (not_deletes_of_same hrun rfl)
    · rintro ⟨-, j, hj, hv, -⟩
      exact absurd hv (bucketScan_none.mp hs j hj)
  | some j =>
    obtain ⟨hj, hv⟩ := bucketScan_some hs
    have hslot : KeySlot shr cf.bucketPower key (b + j) := ⟨j, hj, Or.inl (by rw [hb])⟩
    have hbytes : (storeFp cf (b + j) 0).bytes = Function.update cf.bytes (b + j) 0 := rfl
    rw [hs] at hrun
    dsimp only at hrun
    rw [hbytes] at hrun
    cases hs₂ : bucketScan (Function.update cf.bytes (b + j) 0) c
      (keyFp shr cf.bucketPower key) with
    | none =>
      rw [hs₂] at hrun
      rw [deletes_iff_counted hrun hslot hv]
      have hlast : ∀ l < bucketSize, cf.bytes (c + l) = keyFp shr cf.bucketPower key →
          c + l = b + j := by
        intro l hl hvl
        by_contra hne
        apply bucketScan_none.mp hs₂ l hl
        rw [Function.update_of_ne hne]
        exact hvl
      exact ⟨fun hpos => ⟨hpos, j, hj, hv, hlast⟩, fun h => h.1⟩
    | some l =>
      obtain ⟨hl, hvl⟩ := bucketScan_some hs₂
      have hne : c + l ≠ b + j := by
        intro he
        rw [he, Function.update_self] at hvl
        exact hfp hvl.symm
      rw [Function.update_of_ne hne] at hvl
      rw [hs₂] at hrun
      constructor
      · intro h
        obtain ⟨cf', hrun', -⟩ := h.1 ⟨_, hslot, hv⟩
        cases hrun.symm.trans hrun'
      · rintro ⟨-, j', hj', hv', hall⟩
        have hsame := hall l hl hvl
        -- one slot of both buckets makes them the same bucket
        have hcb : c = b := by
          simp only [bucketSize] at hb hc hl hj'
          omega
        have hother := hall j hj (by rw [hcb]; exact hv)
        omega

/-- A new filter answers 1 for a key that was never inserted. -/
theorem not_deletes_absent : ¬ Deletes id (newFilter 1000) [97] := by
  intro h
  have habsent : ¬ Held id (newFilter 1000) [97] := by
    rintro ⟨o, -, hv⟩
    exact fp_ne_zero id [97] _ hv.symm
  obtain ⟨cf', hrun, -⟩ := h.2 habsent
  have hone : ∃ cf'', cfDelete id (newFilter 1000) [97] = some (1, cf'') := ⟨_, rfl⟩
  obtain ⟨cf'', hrun'⟩ := hone
  cases hrun.symm.trans hrun'

end RtsCache.CuckooDeletes
