import RtsCache.CuckooMachine
import RtsCache.TableOverlay

/-!
# What the cuckoo filter's functions do

Every index stays within the buckets, so the functions always return. An
insertion writes the fingerprint of its key only, over free slots and over the
slots of its kicks; a kick drops what the slot held. A deletion frees slots of
that fingerprint only.
-/

set_option autoImplicit false

namespace RtsCache.CuckooSpec
open RtsCache.CuckooIndex RtsCache.CuckooMachine RtsCache.TableOverlay

variable {bytes : Bytes} {cf cf' : CuckooFilter} {fp : Fingerprint} {b i : ℕ} {r : ℤ}
  {shr : UInt32 → UInt32} {key : Key} {rand : ℕ → UInt32} {coin : Bool}

def Present (bytes : Bytes) (i : ℕ) : Prop := ∃ j < sizeofPointer, bytes (sizeofPointer * i + j) ≠ 0

def Full (bytes : Bytes) (i : ℕ) : Prop := ∀ j < bucketSize, bytes (bucketSize * i + j) ≠ 0

/-- The bucket for which an insertion is reported without being made. -/
def Jammed (bytes : Bytes) (i : ℕ) : Prop := Present bytes i ∧ Full bytes i

theorem bucketScan_some {j : ℕ} (h : bucketScan bytes b fp = some j) :
    j < bucketSize ∧ bytes (b + j) = fp := by
  have hmem := List.mem_of_find?_eq_some h
  have hval := List.find?_some h
  exact ⟨List.mem_range.mp hmem, by simpa using hval⟩

theorem bucketScan_none :
    bucketScan bytes b fp = none ↔ ∀ j < bucketSize, bytes (b + j) ≠ fp := by
  simp [bucketScan, List.find?_eq_none]

theorem indexBucket_eq (hi : i < 2^cf.bucketPower) :
    indexBucket cf i = some (bucketSize * i) := by
  have hroom := cf.room
  simp only [sizeofPointer] at hroom
  have hle : bucketSize * (i + 1) ≤ cf.limit := by
    simp only [bucketSize]
    omega
  rw [indexBucket, if_pos hle]

theorem bucketPresent_eq (hi : i < 2^cf.bucketPower) :
    ∃ present, bucketPresent cf i = some present ∧ (present = true ↔ Present cf.bytes i) := by
  have hle : sizeofPointer * (i + 1) ≤ cf.limit :=
    Nat.le_trans (Nat.mul_le_mul_left _ hi) (Nat.le_of_eq cf.room.symm)
  rw [bucketPresent, if_pos hle]
  exact ⟨_, rfl, by simp [Present]⟩

inductive Internal (cf : CuckooFilter) (fp : Fingerprint) (i : ℕ) : ℤ → CuckooFilter → Prop
  | jammed (h : Jammed cf.bytes i) : Internal cf fp i 1 { cf with count := cf.count + 1 }
  | absent (h : ¬ Present cf.bytes i) : Internal cf fp i 0 cf
  | stored (j : ℕ) (present : Present cf.bytes i) (hj : j < bucketSize)
      (free : cf.bytes (bucketSize * i + j) = 0) :
      Internal cf fp i 0
        (storeFp cf (bucketSize * i + j) fp)

theorem cfInsertInternal_spec (fp : Fingerprint) {i : UInt32} (hi : i.toNat < 2^cf.bucketPower) :
    ∃ r cf', cfInsertInternal cf fp i = some (r, cf') ∧ Internal cf fp i.toNat r cf' := by
  obtain ⟨present, hp, hiff⟩ := bucketPresent_eq hi
  rw [cfInsertInternal, hp]
  cases present with
  | false => exact ⟨0, cf, rfl, .absent fun h => by cases hiff.mpr h⟩
  | true =>
    have hpresent := hiff.mp rfl
    have hb := indexBucket_eq hi
    cases hs : bucketScan cf.bytes (bucketSize * i.toNat) 0 with
    | none =>
      exact ⟨1, { cf with count := cf.count + 1 }, by simp [hb, bucketInsert, hs],
        .jammed ⟨hpresent, bucketScan_none.mp hs⟩⟩
    | some j =>
      obtain ⟨hj, hfree⟩ := bucketScan_some hs
      exact ⟨0, _, by simp [hb, bucketInsert, hs, storeFp], .stored j hpresent hj hfree⟩

theorem Internal.overlaid (h : Internal cf fp i r cf') : Overlaid 0 fp [] cf.bytes cf'.bytes := by
  cases h with
  | jammed h => exact overlaid_refl ..
  | absent h => exact overlaid_refl ..
  | stored j present hj free => exact overlaid_fill fp free

theorem Internal.power (h : Internal cf fp i r cf') : cf'.bucketPower = cf.bucketPower := by
  cases h <;> rfl

theorem Internal.result (h : Internal cf fp i r cf') :
    (r = 0 ∧ cf'.count = cf.count) ∨
      (r = 1 ∧ cf'.count = cf.count + 1 ∧ cf'.bytes = cf.bytes ∧ Jammed cf.bytes i) := by
  cases h with
  | jammed h => exact Or.inr ⟨rfl, rfl, rfl, h⟩
  | absent h => exact Or.inl ⟨rfl, rfl⟩
  | stored j present hj free => exact Or.inl ⟨rfl, rfl⟩

theorem Internal.not_jammed (h : Internal cf fp i r cf') (hr : r = 0) : ¬ Jammed cf.bytes i := by
  intro hj
  cases h with
  | jammed h => cases hr
  | absent h => exact h hj.1
  | stored j present hj' free => exact hj.2 j hj' free

theorem fpIndex_pos :
    bucketFpIndex bytes b fp > -1 ↔ ∃ j < bucketSize, bytes (b + j) = fp := by
  unfold bucketFpIndex
  cases hs : bucketScan bytes b fp with
  | none =>
    have hnone := bucketScan_none.mp hs
    constructor
    · exact fun h => absurd h (by decide)
    · rintro ⟨j, hj, he⟩
      exact absurd he (hnone j hj)
  | some j =>
    constructor
    · exact fun _ => ⟨j, bucketScan_some hs⟩
    · intro _
      show (j : ℤ) > -1
      omega

def lowered (count : UInt64) : UInt64 := if count > 0 then count - 1 else count

theorem cfDeleteInternal_eq (fp : Fingerprint) {i : UInt32} (hi : i.toNat < 2^cf.bucketPower) :
    cfDeleteInternal cf fp i =
      match bucketScan cf.bytes (bucketSize * i.toNat) fp with
      | none => some (1, { cf with count := lowered cf.count })
      | some j => some (0, storeFp cf (bucketSize * i.toNat + j) 0) := by
  have hb := indexBucket_eq hi
  cases hs : bucketScan cf.bytes (bucketSize * i.toNat) fp with
  | none => simp [cfDeleteInternal, hb, bucketDelete, hs, lowered]
  | some j => simp [cfDeleteInternal, hb, bucketDelete, hs, storeFp]

variable [Tables]

def kickSlots (rand : ℕ → UInt32) :
    ℕ → ℕ → CuckooFilter → Fingerprint → UInt32 → List ℕ
  | 0, _, _, _, _ => []
  | n+1, k, cf, fp, i =>
    let o := bucketSize * i.toNat + (rand k % UInt32.ofNat bucketSize).toNat
    let cf := storeFp cf o fp
    let i := altIndex fp i cf.bucketPower
    match cfInsertInternal cf fp i with
    | some (0, cf) => o :: kickSlots rand n (k+1) cf fp i
    | _ => [o]

theorem kickSlots_head (rand : ℕ → UInt32) (fp : Fingerprint) (n k : ℕ) (cf : CuckooFilter)
    (i : UInt32) :
    ∃ j < bucketSize, bucketSize * i.toNat + j ∈ kickSlots rand (n+1) k cf fp i := by
  refine ⟨(rand k % UInt32.ofNat bucketSize).toNat, ?_, ?_⟩
  · rw [UInt32.toNat_mod]
    exact Nat.mod_lt _ (by decide)
  · rw [kickSlots]
    split <;> exact List.mem_cons_self

/-- What the kicks leave: the fingerprint over the slots `A`, and a full bucket
if they stopped early. -/
structure Kicked (cf : CuckooFilter) (fp : Fingerprint) (A : List ℕ) (r : ℤ)
    (cf' : CuckooFilter) : Prop where
  overlaid : Overlaid 0 fp A cf.bytes cf'.bytes
  power : cf'.bucketPower = cf.bucketPower
  result : (r = 0 ∧ cf'.count = cf.count) ∨
    (r = 1 ∧ cf'.count = cf.count + 1 ∧ ∃ i < 2^cf.bucketPower, Full cf'.bytes i)

theorem cfReinsertFrom_spec (rand : ℕ → UInt32) (fp : Fingerprint) (n k : ℕ) (cf : CuckooFilter)
    (i : UInt32) (hi : i.toNat < 2^cf.bucketPower) :
    ∃ r cf', cfReinsertFrom rand n k cf fp i = some (r, cf') ∧
      Kicked cf fp (kickSlots rand n k cf fp i) r cf' := by
  induction n generalizing k cf i with
  | zero => exact ⟨0, cf, rfl, overlaid_refl .., rfl, Or.inl ⟨rfl, rfl⟩⟩
  | succ n ih =>
    obtain ⟨o, ho⟩ : ∃ o, bucketSize * i.toNat + (rand k % UInt32.ofNat bucketSize).toNat = o :=
      ⟨_, rfl⟩
    have hwrite : Overlaid 0 fp [o] cf.bytes (storeFp cf o fp).bytes := overlaid_write 0 fp _ o
    have halt : (altIndex fp i cf.bucketPower).toNat < 2^(storeFp cf o fp).bucketPower :=
      altIndex_lt fp i _ (Nat.lt_trans cf.power (by decide))
    obtain ⟨r, cf₂, hins, hint⟩ := cfInsertInternal_spec fp halt
    have hrun : cfReinsertFrom rand (n+1) k cf fp i =
        if r ≠ 0 then some (1, cf₂)
        else cfReinsertFrom rand n (k+1) cf₂ fp (altIndex fp i cf.bucketPower) := by
      rw [cfReinsertFrom]
      simp only [indexBucket_eq hi, ho, Option.bind_eq_bind, Option.bind_some]
      rw [show (storeFp cf o fp).bucketPower = cf.bucketPower from rfl, hins]
      rfl
    have hslots : kickSlots rand (n+1) k cf fp i =
        match cfInsertInternal (storeFp cf o fp) fp (altIndex fp i cf.bucketPower) with
        | some (0, cf₂) => o :: kickSlots rand n (k+1) cf₂ fp (altIndex fp i cf.bucketPower)
        | _ => [o] := by
      rw [kickSlots, ho]
      rfl
    rw [hrun, hslots, hins]
    have hpow₂ : cf₂.bucketPower = cf.bucketPower := hint.power
    rcases hint.result with ⟨rfl, hc⟩ | ⟨rfl, hc, hb, hj⟩
    · obtain ⟨r', cf', hrest, hk⟩ := ih (k+1) cf₂ (altIndex fp i cf.bucketPower) (hpow₂.symm ▸ halt)
      refine ⟨r', cf', by simpa using hrest, ?_, ?_, ?_⟩
      · exact (hwrite.trans hint.overlaid).trans hk.overlaid
      · rw [hk.power, hpow₂]
      · have := hk.result
        rwa [hc, hpow₂] at this
    · refine ⟨1, cf₂, by simp, ?_, hpow₂, Or.inr ⟨rfl, hc, _, halt, hb ▸ hj.2⟩⟩
      exact hwrite.trans hint.overlaid

def Jams (rand : ℕ → UInt32) : ℕ → ℕ → CuckooFilter → Fingerprint → UInt32 → Prop
  | 0, _, _, _, _ => False
  | n+1, k, cf, fp, i =>
    let cf := storeFp cf (bucketSize * i.toNat + (rand k % UInt32.ofNat bucketSize).toNat) fp
    let i := altIndex fp i cf.bucketPower
    Jammed cf.bytes i.toNat ∨
      ∃ cf', cfInsertInternal cf fp i = some (0, cf') ∧ Jams rand n (k+1) cf' fp i

theorem cfReinsertFrom_jams (n k : ℕ) (cf : CuckooFilter) {i : UInt32}
    (hi : i.toNat < 2^cf.bucketPower) (hrun : cfReinsertFrom rand n k cf fp i = some (r, cf')) :
    r = 1 ↔ Jams rand n k cf fp i := by
  induction n generalizing k cf i with
  | zero =>
    cases hrun
    exact ⟨fun h => absurd h (by decide), fun h => False.elim h⟩
  | succ n ih =>
    have hpow : (storeFp cf (bucketSize * i.toNat + (rand k % UInt32.ofNat bucketSize).toNat)
      fp).bucketPower = cf.bucketPower := rfl
    rw [cfReinsertFrom] at hrun
    rw [Jams]
    simp only [indexBucket_eq hi, Option.bind_eq_bind, Option.bind_some] at hrun
    generalize storeFp cf (bucketSize * i.toNat + (rand k % UInt32.ofNat bucketSize).toNat) fp =
      cf₁ at hrun hpow ⊢
    have halt : (altIndex fp i cf₁.bucketPower).toNat < 2^cf₁.bucketPower :=
      altIndex_lt fp i _ (Nat.lt_trans cf₁.power (by decide))
    obtain ⟨r₁, cf₂, hins, hint⟩ := cfInsertInternal_spec fp halt
    rw [hins] at hrun
    rcases hint.result with ⟨rfl, -⟩ | ⟨rfl, -, -, hjam⟩
    · have hrest : cfReinsertFrom rand n (k+1) cf₂ fp (altIndex fp i cf₁.bucketPower) =
        some (r, cf') := hrun
      rw [ih (k+1) cf₂ (hint.power.symm ▸ halt) hrest]
      constructor
      · exact fun h => Or.inr ⟨cf₂, hins, h⟩
      · rintro (hjam | ⟨cf₃, hins₃, h⟩)
        · exact absurd hjam (hint.not_jammed rfl)
        · cases hins.symm.trans hins₃
          exact h
    · cases hrun
      exact ⟨fun _ => Or.inl hjam, fun _ => rfl⟩

section Keys

def keyFp (shr : UInt32 → UInt32) (p : ℕ) (key : Key) : Fingerprint :=
  (indexAndFingerprint shr key p).fp

def index1 (shr : UInt32 → UInt32) (p : ℕ) (key : Key) : UInt32 :=
  (indexAndFingerprint shr key p).indices

def index2 (shr : UInt32 → UInt32) (p : ℕ) (key : Key) : UInt32 :=
  altIndex (keyFp shr p key) (index1 shr p key) p

theorem index1_lt (shr : UInt32 → UInt32) (cf : CuckooFilter) (key : Key) :
    (index1 shr cf.bucketPower key).toNat < 2^cf.bucketPower :=
  index_lt shr key _ (Nat.lt_trans cf.power (by decide))

theorem index2_lt (shr : UInt32 → UInt32) (cf : CuckooFilter) (key : Key) :
    (index2 shr cf.bucketPower key).toNat < 2^cf.bucketPower :=
  altIndex_lt _ _ _ (Nat.lt_trans cf.power (by decide))

def KeySlot (shr : UInt32 → UInt32) (p : ℕ) (key : Key) (o : ℕ) : Prop :=
  ∃ j < bucketSize, o = bucketSize * (index1 shr p key).toNat + j ∨
    o = bucketSize * (index2 shr p key).toNat + j

def kickStart (shr : UInt32 → UInt32) (p : ℕ) (key : Key) (coin : Bool) : UInt32 :=
  if coin then index1 shr p key else index2 shr p key

theorem kickStart_lt (shr : UInt32 → UInt32) (cf : CuckooFilter) (key : Key) (coin : Bool) :
    (kickStart shr cf.bucketPower key coin).toNat < 2^cf.bucketPower := by
  cases coin
  · exact index2_lt shr cf key
  · exact index1_lt shr cf key

theorem kickStart_slot (shr : UInt32 → UInt32) (p : ℕ) (key : Key) (coin : Bool) {j : ℕ}
    (hj : j < bucketSize) :
    KeySlot shr p key (bucketSize * (kickStart shr p key coin).toNat + j) := by
  cases coin
  · exact ⟨j, hj, Or.inr rfl⟩
  · exact ⟨j, hj, Or.inl rfl⟩

def Held (shr : UInt32 → UInt32) (cf : CuckooFilter) (key : Key) : Prop :=
  ∃ o, KeySlot shr cf.bucketPower key o ∧ cf.bytes o = keyFp shr cf.bucketPower key

theorem cfLookup_eq (shr : UInt32 → UInt32) (cf : CuckooFilter) (key : Key) :
    cfLookup shr cf key =
      if bucketFpIndex cf.bytes (bucketSize * (index1 shr cf.bucketPower key).toNat)
          (keyFp shr cf.bucketPower key) > -1 then some 1
      else some (if bucketFpIndex cf.bytes (bucketSize * (index2 shr cf.bucketPower key).toNat)
          (keyFp shr cf.bucketPower key) > -1 then 1 else 0) := by
  have hb₁ := indexBucket_eq (index1_lt shr cf key)
  have hb₂ := indexBucket_eq (index2_lt shr cf key)
  simp only [index1, index2, keyFp] at hb₁ hb₂ ⊢
  simp only [cfLookup, hb₁, hb₂, Option.bind_eq_bind, Option.bind_some]
  rfl

theorem cfLookup_spec (shr : UInt32 → UInt32) (cf : CuckooFilter) (key : Key) :
    (cfLookup shr cf key = some 1 ∧ Held shr cf key) ∨
      (cfLookup shr cf key = some 0 ∧ ¬ Held shr cf key) := by
  rw [cfLookup_eq]
  split
  · rename_i h₁
    obtain ⟨j, hj, he⟩ := fpIndex_pos.mp h₁
    exact Or.inl ⟨rfl, _, ⟨j, hj, Or.inl rfl⟩, he⟩
  · rename_i h₁
    split
    · rename_i h₂
      obtain ⟨j, hj, he⟩ := fpIndex_pos.mp h₂
      exact Or.inl ⟨rfl, _, ⟨j, hj, Or.inr rfl⟩, he⟩
    · rename_i h₂
      have hnot : ¬ Held shr cf key := by
        rintro ⟨o, ⟨j, hj, rfl | rfl⟩, he⟩
        · exact h₁ (fpIndex_pos.mpr ⟨j, hj, he⟩)
        · exact h₂ (fpIndex_pos.mpr ⟨j, hj, he⟩)
      exact Or.inr ⟨rfl, hnot⟩

theorem lookup_iff : cfLookup shr cf key = some 1 ↔ Held shr cf key := by
  rcases cfLookup_spec shr cf key with ⟨h, hh⟩ | ⟨h, hh⟩
  · exact ⟨fun _ => hh, fun _ => h⟩
  · constructor
    · intro h'
      cases h.symm.trans h'
    · exact fun h' => absurd h' hh

/-- The insertion is reported without being made: the first bucket whose
pointer is not null is full. -/
def Misreported (shr : UInt32 → UInt32) (cf : CuckooFilter) (key : Key) : Prop :=
  Jammed cf.bytes (index1 shr cf.bucketPower key).toNat ∨
    (¬ Present cf.bytes (index1 shr cf.bucketPower key).toNat ∧
      Jammed cf.bytes (index2 shr cf.bucketPower key).toNat)

def overwritten (shr : UInt32 → UInt32) (cf : CuckooFilter) (key : Key) (rand : ℕ → UInt32)
    (coin : Bool) : List ℕ :=
  let fp := keyFp shr cf.bucketPower key
  let i := index1 shr cf.bucketPower key
  let j := index2 shr cf.bucketPower key
  match cfInsertInternal cf fp i with
  | some (0, cf) =>
    match cfInsertInternal cf fp j with
    | some (0, cf) => kickSlots rand cfMaxBucketKickOut 0 cf fp (if coin then i else j)
    | _ => []
  | _ => []

/-- What an insertion can do: report success for a full bucket, after storing
the fingerprint or without, or kick. -/
inductive Inserted (shr : UInt32 → UInt32) (cf : CuckooFilter) (key : Key) (A : List ℕ) :
    ℤ → CuckooFilter → Prop
  | misreported {cf' : CuckooFilter} (h : Misreported shr cf key) (bytes : cf'.bytes = cf.bytes)
      (power : cf'.bucketPower = cf.bucketPower) (count : cf'.count = cf.count + 1)
      (full : ∃ i < 2^cf.bucketPower, Full cf'.bytes i) (none : A = []) :
      Inserted shr cf key A 0 cf'
  | stored {cf' : CuckooFilter} (h : ¬ Misreported shr cf key) (held : Held shr cf' key)
      (overlaid : Overlaid 0 (keyFp shr cf.bucketPower key) A cf.bytes cf'.bytes)
      (power : cf'.bucketPower = cf.bucketPower) (count : cf'.count = cf.count + 1)
      (full : ∃ i < 2^cf.bucketPower, Full cf'.bytes i) (none : A = []) :
      Inserted shr cf key A 0 cf'
  | kicked {r : ℤ} {cf' : CuckooFilter} (h : ¬ Misreported shr cf key) (held : Held shr cf' key)
      (overlaid : Overlaid 0 (keyFp shr cf.bucketPower key) A cf.bytes cf'.bytes)
      (power : cf'.bucketPower = cf.bucketPower)
      (result : (r = 0 ∧ cf'.count = cf.count) ∨
        (r = 1 ∧ cf'.count = cf.count + 1 ∧ ∃ i < 2^cf.bucketPower, Full cf'.bytes i)) :
      Inserted shr cf key A r cf'

/-- The two attempts of an insertion, and what follows them. -/
theorem cfInsert_parts (shr : UInt32 → UInt32) (cf : CuckooFilter) (key : Key)
    (rand : ℕ → UInt32) (coin : Bool) : ∃ r₁ cf₁ r₂ cf₂,
    cfInsertInternal cf (keyFp shr cf.bucketPower key) (index1 shr cf.bucketPower key) =
      some (r₁, cf₁) ∧
    Internal cf (keyFp shr cf.bucketPower key) (index1 shr cf.bucketPower key).toNat r₁ cf₁ ∧
    cfInsertInternal cf₁ (keyFp shr cf.bucketPower key) (index2 shr cf.bucketPower key) =
      some (r₂, cf₂) ∧
    Internal cf₁ (keyFp shr cf.bucketPower key) (index2 shr cf.bucketPower key).toNat r₂ cf₂ ∧
    cfInsert shr cf key rand coin =
      if r₁ ≠ 0 then some (0, cf₁)
      else if r₂ ≠ 0 then some (0, cf₂)
      else cfReinsert rand cf₂ (keyFp shr cf.bucketPower key)
        (kickStart shr cf.bucketPower key coin) := by
  obtain ⟨r₁, cf₁, hins₁, hint₁⟩ :=
    cfInsertInternal_spec (keyFp shr cf.bucketPower key) (index1_lt shr cf key)
  have hpow₁ := hint₁.power
  have hj : (index2 shr cf.bucketPower key).toNat < 2^cf₁.bucketPower := by
    rw [hpow₁]
    exact index2_lt shr cf key
  obtain ⟨r₂, cf₂, hins₂, hint₂⟩ := cfInsertInternal_spec (keyFp shr cf.bucketPower key) hj
  refine ⟨r₁, cf₁, r₂, cf₂, hins₁, hint₁, hins₂, hint₂, ?_⟩
  unfold cfInsert
  simp only [index1, index2, keyFp] at hins₁ hins₂ ⊢
  simp only [hins₁, Option.bind_eq_bind, Option.bind_some, hpow₁, hins₂]
  rfl

theorem cfInsert_spec (shr : UInt32 → UInt32) (cf : CuckooFilter) (key : Key)
    (rand : ℕ → UInt32) (coin : Bool) :
    ∃ r cf', cfInsert shr cf key rand coin = some (r, cf') ∧
      Inserted shr cf key (overwritten shr cf key rand coin) r cf' := by
  have hi := index1_lt shr cf key
  have hj := index2_lt shr cf key
  obtain ⟨r₁, cf₁, r₂, cf₂, hins₁, hint₁, hins₂, hint₂, hrun⟩ := cfInsert_parts shr cf key rand coin
  have hpow₁ := hint₁.power
  have hpow₂ := hint₂.power.trans hpow₁
  rw [hrun]
  rcases hint₁.result with ⟨rfl, hc₁⟩ | ⟨rfl, hc₁, hb₁, hjam⟩
  · rcases hint₂.result with ⟨rfl, hc₂⟩ | ⟨rfl, hc₂, hb₂, hjam⟩
    · have hslots : overwritten shr cf key rand coin =
          kickSlots rand cfMaxBucketKickOut 0 cf₂ (keyFp shr cf.bucketPower key)
            (kickStart shr cf.bucketPower key coin) := by
        simp only [overwritten, hins₁, hins₂, kickStart]
      have hstart : (kickStart shr cf.bucketPower key coin).toNat < 2^cf₂.bucketPower := by
        rw [hpow₂]
        exact kickStart_lt shr cf key coin
      obtain ⟨r, cf', hkick, hk⟩ := cfReinsertFrom_spec rand (keyFp shr cf.bucketPower key)
        cfMaxBucketKickOut 0 cf₂ _ hstart
      have hpow := hk.power.trans hpow₂
      have hnot : ¬ Misreported shr cf key := by
        rintro (h | ⟨hp, h⟩)
        · exact hint₁.not_jammed rfl h
        · cases hint₁ with
          | absent _ => exact hint₂.not_jammed rfl h
          | stored j present hj' free => exact hp present
      have hheld : Held shr cf' key := by
        obtain ⟨j, hj', hmem⟩ := kickSlots_head rand (keyFp shr cf.bucketPower key) 9 0 cf₂
          (kickStart shr cf.bucketPower key coin)
        have hwritten := hk.overlaid.written _ hmem
        rw [← hpow] at hwritten
        exact ⟨_, hpow.symm ▸ kickStart_slot shr _ key coin hj', hwritten⟩
      have hover := (hint₁.overlaid.trans hint₂.overlaid).trans hk.overlaid
      rw [List.nil_append, List.nil_append, ← hslots] at hover
      have hresult := hk.result
      rw [hc₂, hc₁, hpow₂] at hresult
      exact ⟨r, cf', hkick, .kicked hnot hheld hover hpow hresult⟩
    · have hslots : overwritten shr cf key rand coin = [] := by
        simp only [overwritten, hins₁, hins₂]
      have hfull : ∃ i < 2^cf.bucketPower, Full cf₂.bytes i := ⟨_, hj, hb₂ ▸ hjam.2⟩
      have hins : Inserted shr cf key (overwritten shr cf key rand coin) 0 cf₂ := by
        cases hint₁ with
        | absent h => exact .misreported (Or.inr ⟨h, hjam⟩) hb₂ hpow₂ hc₂ hfull hslots
        | stored j present hj' free =>
          have hnot : ¬ Misreported shr cf key := by
            rintro (h | ⟨hp, -⟩)
            · exact h.2 j hj' free
            · exact hp present
          have hwritten : cf₂.bytes (bucketSize * (index1 shr cf₂.bucketPower key).toNat + j) =
              keyFp shr cf₂.bucketPower key := by
            rw [hpow₂, hb₂]
            exact Function.update_self ..
          have hover : Overlaid 0 (keyFp shr cf.bucketPower key)
              (overwritten shr cf key rand coin) cf.bytes cf₂.bytes := by
            rw [hslots, hb₂]
            exact overlaid_fill _ free
          exact .stored hnot ⟨_, ⟨j, hj', Or.inl rfl⟩, hwritten⟩ hover hpow₂ hc₂ hfull hslots
      exact ⟨0, cf₂, by simp, hins⟩
  · have hslots : overwritten shr cf key rand coin = [] := by
      simp only [overwritten, hins₁]
    exact ⟨0, cf₁, by simp, .misreported (Or.inl hjam) hb₁ hpow₁ hc₁ ⟨_, hi, hb₁ ▸ hjam.2⟩ hslots⟩

/-- The slots a deletion frees: the first with the fingerprint in the one
bucket and, if there is one, the first in the other. -/
def freed (shr : UInt32 → UInt32) (cf : CuckooFilter) (key : Key) : List ℕ :=
  let fp := keyFp shr cf.bucketPower key
  let b := bucketSize * (index1 shr cf.bucketPower key).toNat
  let c := bucketSize * (index2 shr cf.bucketPower key).toNat
  match bucketScan cf.bytes b fp with
  | none => []
  | some j =>
    match bucketScan (Function.update cf.bytes (b + j) 0) c fp with
    | none => [b + j]
    | some l => [b + j, c + l]

structure Deleted (shr : UInt32 → UInt32) (cf : CuckooFilter) (key : Key) (A : List ℕ)
    (cf' : CuckooFilter) : Prop where
  held : ∀ o ∈ A, cf.bytes o = keyFp shr cf.bucketPower key
  overlaid : Overlaid 0 0 A cf.bytes cf'.bytes
  power : cf'.bucketPower = cf.bucketPower
  count : cf'.count = cf.count ∨ cf'.count = lowered cf.count

theorem cfDelete_eq (shr : UInt32 → UInt32) (cf : CuckooFilter) (key : Key) {b c : ℕ}
    (hb : bucketSize * (index1 shr cf.bucketPower key).toNat = b)
    (hc : bucketSize * (index2 shr cf.bucketPower key).toNat = c) :
    cfDelete shr cf key =
      match bucketScan cf.bytes b (keyFp shr cf.bucketPower key) with
      | none => some (1, { cf with count := lowered cf.count })
      | some j =>
        match bucketScan (storeFp cf (b + j) 0).bytes c (keyFp shr cf.bucketPower key) with
        | none => some (1, { storeFp cf (b + j) 0 with count := lowered cf.count })
        | some l => some (0, storeFp (storeFp cf (b + j) 0) (c + l) 0) := by
  have hrun : cfDelete shr cf key =
      (cfDeleteInternal cf (keyFp shr cf.bucketPower key) (index1 shr cf.bucketPower key)).bind
        fun x => if x.1 ≠ 0 then some (1, x.2)
          else cfDeleteInternal x.2 (keyFp shr cf.bucketPower key)
            (altIndex (keyFp shr cf.bucketPower key) (index1 shr cf.bucketPower key)
              x.2.bucketPower) := rfl
  rw [hrun, cfDeleteInternal_eq _ (index1_lt shr cf key), hb]
  cases hs : bucketScan cf.bytes b (keyFp shr cf.bucketPower key) with
  | none => simp
  | some j =>
    have hi₂ : (index2 shr cf.bucketPower key).toNat < 2^(storeFp cf (b + j) 0).bucketPower :=
      index2_lt shr cf key
    have hsecond := cfDeleteInternal_eq (keyFp shr cf.bucketPower key) hi₂
    rw [hc] at hsecond
    exact hsecond

theorem cfDelete_spec (shr : UInt32 → UInt32) (cf : CuckooFilter) (key : Key) :
    ∃ r cf', cfDelete shr cf key = some (r, cf') ∧ Deleted shr cf key (freed shr cf key) cf' := by
  have hfp : keyFp shr cf.bucketPower key ≠ 0 := fp_ne_zero shr key _
  obtain ⟨b, hb⟩ : ∃ b, bucketSize * (index1 shr cf.bucketPower key).toNat = b := ⟨_, rfl⟩
  obtain ⟨c, hc⟩ : ∃ c, bucketSize * (index2 shr cf.bucketPower key).toNat = c := ⟨_, rfl⟩
  rw [cfDelete_eq shr cf key hb hc]
  cases hs : bucketScan cf.bytes b (keyFp shr cf.bucketPower key) with
  | none =>
    have hA : freed shr cf key = [] := by simp only [freed, hb, hs]
    refine ⟨1, { cf with count := lowered cf.count }, rfl, ?_⟩
    rw [hA]
    exact ⟨fun _ h => absurd h List.not_mem_nil, overlaid_refl .., rfl, Or.inr rfl⟩
  | some j =>
    obtain ⟨-, hj⟩ := bucketScan_some hs
    have hfree := overlaid_write 0 0 cf.bytes (b + j)
    have hbytes : (storeFp cf (b + j) 0).bytes = Function.update cf.bytes (b + j) 0 := rfl
    dsimp only
    rw [hbytes]
    cases hs₂ : bucketScan (Function.update cf.bytes (b + j) 0) c
      (keyFp shr cf.bucketPower key) with
    | none =>
      have hA : freed shr cf key = [b + j] := by simp only [freed, hb, hc, hs, hs₂]
      rw [hA]
      refine ⟨1, { storeFp cf (b + j) 0 with count := lowered cf.count }, rfl, ?_, hfree, rfl,
        Or.inr rfl⟩
      intro o ho
      rw [List.mem_singleton.mp ho, hj]
    | some l =>
      obtain ⟨-, hl⟩ := bucketScan_some hs₂
      have hA : freed shr cf key = [b + j, c + l] := by simp only [freed, hb, hc, hs, hs₂]
      rw [hA]
      refine ⟨0, storeFp (storeFp cf (b + j) 0) (c + l) 0, rfl, ?_,
        hfree.trans (overlaid_write 0 0 _ (c + l)), rfl, Or.inl rfl⟩
      intro o ho
      rcases List.mem_cons.mp ho with rfl | ho
      · exact hj
      · rw [List.mem_singleton.mp ho]
        exact ((hfree.other hfp hfp _).mp hl).1

end Keys

end RtsCache.CuckooSpec
