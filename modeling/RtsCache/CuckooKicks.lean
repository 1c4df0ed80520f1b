import RtsCache.CuckooSizing
import Mathlib.Data.Finset.Card
import Mathlib.Data.Finset.Range

/-!
# Where the kicks end

A kick fills a slot of one bucket and tries the other. A bucket that is
present has a free slot fewer each time it is tried, and ten kicks try it more
often than it has slots: the kicks end at a full bucket as soon as one of the
two is present or becomes so. Otherwise all ten are made.
-/

set_option autoImplicit false

namespace RtsCache.CuckooKicks
open RtsCache.CuckooIndex RtsCache.CuckooMachine RtsCache.CuckooSpec RtsCache.CuckooSizing
open RtsCache.TableOverlay

def kickSlot (rand : ℕ → UInt32) (k : ℕ) (i : UInt32) : ℕ :=
  bucketSize * i.toNat + (rand k % UInt32.ofNat bucketSize).toNat

def freeSlots (bytes : Bytes) (i : ℕ) : ℕ :=
  ((Finset.range bucketSize).filter fun j => bytes (bucketSize * i + j) = 0).card

/-- The buckets `i` and `j` are absent, and stay so when slots of both are filled. -/
def Silent (bytes : Bytes) (i j : ℕ) : Prop :=
  ∀ b, b = i ∨ b = j → ¬ Present bytes b ∧ b / 2 ≠ i ∧ b / 2 ≠ j

variable {rand : ℕ → UInt32} {bytes bytes' : Bytes} {cf cf' : CuckooFilter} {fp : Fingerprint}
  {i : UInt32} {b j k m n o : ℕ} {r : ℤ} {A : List ℕ}

theorem kickSlot_lt (rand : ℕ → UInt32) (k : ℕ) :
    (rand k % UInt32.ofNat bucketSize).toNat < bucketSize := by
  rw [UInt32.toNat_mod]
  exact Nat.mod_lt _ (by decide)

theorem present_iff : Present bytes b ↔ ∃ o, o / sizeofPointer = b ∧ bytes o ≠ 0 := by
  constructor
  · rintro ⟨j, hj, hv⟩
    refine ⟨_, ?_, hv⟩
    simp only [sizeofPointer] at hj ⊢
    omega
  · rintro ⟨o, rfl, hv⟩
    refine ⟨o % sizeofPointer, Nat.mod_lt _ (by decide), ?_⟩
    rwa [Nat.div_add_mod]

theorem slot_tested {i : ℕ} (hj : j < bucketSize) :
    (bucketSize * i + j) / sizeofPointer = b ↔ i / 2 = b := by
  simp only [bucketSize, sizeofPointer] at hj ⊢
  omega

theorem present_update (hfp : fp ≠ 0) :
    Present (Function.update bytes o fp) b ↔ Present bytes b ∨ o / sizeofPointer = b := by
  rw [present_iff, present_iff]
  constructor
  · rintro ⟨o', ho', hv⟩
    by_cases he : o' = o
    · exact Or.inr (he ▸ ho')
    · rw [Function.update_of_ne he] at hv
      exact Or.inl ⟨o', ho', hv⟩
  · rintro (⟨o', ho', hv⟩ | ho)
    · by_cases he : o' = o
      · exact ⟨o, he ▸ ho', by rwa [Function.update_self]⟩
      · exact ⟨o', ho', by rwa [Function.update_of_ne he]⟩
    · exact ⟨o, ho, by rwa [Function.update_self]⟩

theorem present_of_overlaid (h : Overlaid 0 fp A bytes bytes') (hfp : fp ≠ 0)
    (hp : Present bytes b) : Present bytes' b := by
  obtain ⟨j, hj, hv⟩ := hp
  exact ⟨j, hj, h.ne_of_ne hfp hv⟩

theorem free_le_of_overlaid (h : Overlaid 0 fp A bytes bytes') (hfp : fp ≠ 0) :
    freeSlots bytes' b ≤ freeSlots bytes b := by
  apply Finset.card_le_card
  intro j hj
  rw [Finset.mem_filter] at hj ⊢
  refine ⟨hj.1, ?_⟩
  by_contra hne
  exact h.ne_of_ne hfp hne hj.2

theorem free_update_lt (hfp : fp ≠ 0) (hj : j < bucketSize) (hv : bytes (bucketSize * b + j) = 0) :
    freeSlots (Function.update bytes (bucketSize * b + j) fp) b < freeSlots bytes b := by
  apply Finset.card_lt_card
  rw [Finset.ssubset_iff_of_subset]
  · refine ⟨j, Finset.mem_filter.mpr ⟨Finset.mem_range.mpr hj, hv⟩, ?_⟩
    intro hmem
    have hzero := (Finset.mem_filter.mp hmem).2
    rw [Function.update_self] at hzero
    exact hfp hzero
  · intro l hl
    rw [Finset.mem_filter] at hl ⊢
    refine ⟨hl.1, ?_⟩
    by_contra hne
    exact (overlaid_fill fp hv).ne_of_ne hfp hne hl.2

theorem free_le_four (bytes : Bytes) (b : ℕ) : freeSlots bytes b ≤ 4 :=
  Finset.card_filter_le _ _

theorem free_le_three (hj : j < bucketSize) (hv : bytes (bucketSize * b + j) ≠ 0) :
    freeSlots bytes b ≤ 3 := by
  have hlt : freeSlots bytes b < (Finset.range bucketSize).card := by
    apply Finset.card_lt_card
    rw [Finset.ssubset_iff_of_subset (Finset.filter_subset _ _)]
    refine ⟨j, Finset.mem_range.mpr hj, ?_⟩
    intro hmem
    exact hv (Finset.mem_filter.mp hmem).2
  rw [Finset.card_range] at hlt
  exact Nat.le_of_lt_succ hlt

theorem masked_of_lt (cf : CuckooFilter) (hi : i.toNat < 2^cf.bucketPower) :
    Masked cf.bucketPower i := by
  apply UInt32.toNat_inj.mp
  rw [UInt32.toNat_and, masks_toNat _ (Nat.lt_trans cf.power (by decide)),
    Nat.and_two_pow_sub_one_eq_mod, Nat.mod_eq_of_lt hi]

theorem present_kick (hfp : fp ≠ 0) :
    Present (storeFp cf (kickSlot rand k i) fp).bytes b ↔ Present cf.bytes b ∨ i.toNat / 2 = b := by
  rw [← slot_tested (kickSlot_lt rand k)]
  exact present_update hfp

theorem same_of_absent (hint : Internal cf fp b r cf') (h : ¬ Present cf.bytes b) :
    r = 0 ∧ cf' = cf := by
  cases hint with
  | jammed hj => exact absurd hj.1 h
  | absent _ => exact ⟨rfl, rfl⟩
  | stored j present hj free => exact absurd present h

theorem Silent.kick (rand : ℕ → UInt32) (k : ℕ) (h : Silent cf.bytes i.toNat j) (hfp : fp ≠ 0) :
    Silent (storeFp cf (kickSlot rand k i) fp).bytes j i.toNat := by
  intro b hb
  obtain ⟨habsent, hi, hj⟩ := h b hb.symm
  refine ⟨?_, hj, hi⟩
  rw [present_kick hfp, not_or]
  refine ⟨habsent, ?_⟩
  obtain ⟨-, hii, hij⟩ := h i.toNat (Or.inl rfl)
  rcases hb with rfl | rfl
  · exact hij
  · exact hii

variable [Tables]

theorem index_masked (h : Masked cf.bucketPower i) : i.toNat < 2^cf.bucketPower :=
  h.lt (Nat.lt_trans cf.power (by decide))

theorem alt_lt (cf : CuckooFilter) (fp : Fingerprint) (i : UInt32) :
    (altIndex fp i cf.bucketPower).toNat < 2^cf.bucketPower :=
  altIndex_lt fp i _ (Nat.lt_trans cf.power (by decide))

theorem jams_of_rest (hrest : ∀ cf', Internal (storeFp cf (kickSlot rand k i) fp) fp
      (altIndex fp i cf.bucketPower).toNat 0 cf' →
        Jams rand n (k+1) cf' fp (altIndex fp i cf.bucketPower)) :
    Jams rand (n+1) k cf fp i := by
  have halt : (altIndex fp i cf.bucketPower).toNat <
      2^(storeFp cf (kickSlot rand k i) fp).bucketPower := alt_lt cf fp i
  obtain ⟨r, cf', hins, hint⟩ := cfInsertInternal_spec fp halt
  rcases hint.result with ⟨rfl, -⟩ | ⟨rfl, -, -, hjam⟩
  · exact Or.inr ⟨cf', hins, hrest cf' hint⟩
  · exact Or.inl hjam

theorem jams_of_present (hfp : fp ≠ 0) (hi : Masked cf.bucketPower i)
    (hm : freeSlots cf.bytes (altIndex fp i cf.bucketPower).toNat ≤ m) (hn : 2 * m + 1 ≤ n)
    (hp : Present (storeFp cf (kickSlot rand k i) fp).bytes
      (altIndex fp i cf.bucketPower).toNat) : Jams rand n k cf fp i := by
  induction m generalizing n k cf with
  | zero =>
    obtain ⟨n, rfl⟩ : ∃ n', n = n' + 1 := ⟨n - 1, by omega⟩
    apply jams_of_rest
    intro cf₂ hint
    cases hint with
    | absent h => exact absurd hp h
    | stored l present hl free =>
      have hlt := free_update_lt hfp hl free
      have hle := free_le_of_overlaid (b := (altIndex fp i cf.bucketPower).toNat)
        (overlaid_write 0 fp cf.bytes (kickSlot rand k i)) hfp
      simp only [storeFp] at hlt
      omega
  | succ m ih =>
    obtain ⟨n, rfl⟩ : ∃ n', n = n' + 1 + 1 := ⟨n - 2, by omega⟩
    apply jams_of_rest
    intro cf₂ hint
    have hpow : cf₂.bucketPower = cf.bucketPower := hint.power
    have hmore := hint.overlaid
    cases hint with
    | absent h => exact absurd hp h
    | stored l present hl free =>
      have hlt := free_update_lt hfp hl free
      have hle := free_le_of_overlaid (b := (altIndex fp i cf.bucketPower).toNat)
        (overlaid_write 0 fp cf.bytes (kickSlot rand k i)) hfp
      apply jams_of_rest
      intro cf₄ hint₄
      rw [hpow, altIndex_back fp hi] at hint₄ ⊢
      have hpow₄ : cf₄.bucketPower = cf.bucketPower := hint₄.power.trans hpow
      have hmore₄ := (overlaid_write 0 fp _ (kickSlot rand (k+1)
        (altIndex fp i cf.bucketPower))).trans hint₄.overlaid
      have hle₄ := free_le_of_overlaid (b := (altIndex fp i cf.bucketPower).toNat) hmore₄ hfp
      apply ih
      · rw [hpow₄]
        exact hi
      · rw [hpow₄]
        simp only [storeFp] at hlt hle₄
        omega
      · omega
      · rw [hpow₄]
        exact present_of_overlaid (overlaid_write 0 fp _ _) hfp
          (present_of_overlaid hmore₄ hfp (present_of_overlaid hmore hfp hp))

/-- The kicks end at a full bucket if one of the two ever is present. -/
theorem jams_of_not_silent (hfp : fp ≠ 0) (hi : Masked cf.bucketPower i)
    (h : ¬ Silent cf.bytes i.toNat (altIndex fp i cf.bucketPower).toNat) :
    Jams rand cfMaxBucketKickOut k cf fp i := by
  by_cases h₀ : Present (storeFp cf (kickSlot rand k i) fp).bytes
      (altIndex fp i cf.bucketPower).toNat
  · exact jams_of_present hfp hi (free_le_four _ _) (by decide) h₀
  · apply jams_of_rest
    intro cf₁ hint₁
    obtain ⟨-, rfl⟩ := same_of_absent hint₁ h₀
    obtain ⟨a, ha⟩ : ∃ a, altIndex fp i cf.bucketPower = a := ⟨_, rfl⟩
    have halt : Masked (storeFp cf (kickSlot rand k i) fp).bucketPower a := by
      rw [← ha]
      exact altIndex_masked fp i cf.bucketPower
    have hback : altIndex fp a (storeFp cf (kickSlot rand k i) fp).bucketPower = i := by
      rw [← ha]
      exact altIndex_back fp hi
    rw [ha] at h h₀ ⊢
    by_cases h₁ : Present (storeFp (storeFp cf (kickSlot rand k i) fp) (kickSlot rand (k+1) a)
        fp).bytes i.toNat
    · exact jams_of_present hfp halt (free_le_four _ _) (by decide) (hback.symm ▸ h₁)
    · apply jams_of_rest
      rw [hback]
      intro cf₂ hint₂
      obtain ⟨-, rfl⟩ := same_of_absent hint₂ h₁
      rw [present_kick hfp, not_or] at h₀
      rw [present_kick hfp, present_kick hfp, not_or, not_or] at h₁
      -- what is left is that bucket `a` is tested by its own bytes
      have hself : a.toNat / 2 = a.toNat := by
        by_contra hne
        apply h
        rintro b (rfl | rfl)
        · exact ⟨h₁.1.1, h₁.1.2, h₀.2⟩
        · exact ⟨h₀.1, h₁.2, hne⟩
      have hwritten : (storeFp (storeFp cf (kickSlot rand k i) fp) (kickSlot rand (k+1) a)
          fp).bytes (kickSlot rand (k+1) a) ≠ 0 := ne_of_eq_of_ne (Function.update_self ..) hfp
      have hi₂ : Masked (storeFp (storeFp cf (kickSlot rand k i) fp) (kickSlot rand (k+1) a)
          fp).bucketPower i := hi
      apply jams_of_present (m := 3) hfp hi₂
      · show freeSlots _ (altIndex fp i cf.bucketPower).toNat ≤ 3
        rw [ha]
        exact free_le_three (kickSlot_lt rand (k+1)) hwritten
      · decide
      · show Present _ (altIndex fp i cf.bucketPower).toNat
        rw [ha, present_kick hfp, present_kick hfp]
        exact Or.inl (Or.inr hself)

theorem kicks_jam (rand : ℕ → UInt32) (hfp : fp ≠ 0) (hi : Masked cf.bucketPower i)
    (h : ¬ Silent cf.bytes i.toNat (altIndex fp i cf.bucketPower).toNat) :
    ∃ cf', cfReinsert rand cf fp i = some (1, cf') ∧ cf'.count = cf.count + 1 := by
  obtain ⟨r, cf', hrun, hk⟩ :=
    cfReinsertFrom_spec rand fp cfMaxBucketKickOut 0 cf i (index_masked hi)
  have hone := (cfReinsertFrom_jams cfMaxBucketKickOut 0 cf (index_masked hi) hrun).mpr
    (jams_of_not_silent hfp hi h)
  subst hone
  rcases hk.result with ⟨hzero, -⟩ | ⟨-, hcount, -⟩
  · cases hzero
  · exact ⟨cf', hrun, hcount⟩

structure KicksOnly (rand : ℕ → UInt32) (n k : ℕ) (cf : CuckooFilter) (fp : Fingerprint)
    (i : UInt32) (cf' : CuckooFilter) : Prop where
  power : cf'.bucketPower = cf.bucketPower
  count : cf'.count = cf.count
  written : ∀ t < n, cf'.bytes (kickSlot rand (k + t) (moved fp cf.bucketPower t i)) = fp
  rest : ∀ o, (∀ t < n, o ≠ kickSlot rand (k + t) (moved fp cf.bucketPower t i)) →
    cf'.bytes o = cf.bytes o

theorem kicks_silent (rand : ℕ → UInt32) (n k : ℕ) (hfp : fp ≠ 0) (hi : Masked cf.bucketPower i)
    (h : Silent cf.bytes i.toNat (altIndex fp i cf.bucketPower).toNat) :
    ∃ cf', cfReinsertFrom rand n k cf fp i = some (0, cf') ∧ KicksOnly rand n k cf fp i cf' := by
  induction n generalizing k cf i with
  | zero =>
    refine ⟨cf, rfl, rfl, rfl, ?_, fun _ _ => rfl⟩
    exact fun t ht => absurd ht (Nat.not_lt_zero t)
  | succ n ih =>
    obtain ⟨a, ha⟩ : ∃ a, altIndex fp i cf.bucketPower = a := ⟨_, rfl⟩
    have hpow : (storeFp cf (kickSlot rand k i) fp).bucketPower = cf.bucketPower := rfl
    have halt : Masked (storeFp cf (kickSlot rand k i) fp).bucketPower a := by
      rw [← ha]
      exact altIndex_masked fp i cf.bucketPower
    have hback : altIndex fp a (storeFp cf (kickSlot rand k i) fp).bucketPower = i := by
      rw [← ha]
      exact altIndex_back fp hi
    rw [ha] at h
    have hsilent := h.kick rand k hfp
    obtain ⟨r, cf₁, hins, hint⟩ := cfInsertInternal_spec fp (index_masked halt)
    obtain ⟨rfl, rfl⟩ := same_of_absent hint (hsilent a.toNat (Or.inl rfl)).1
    obtain ⟨cf', hrest, hk⟩ := ih (k+1) halt (hback.symm ▸ hsilent)
    refine ⟨cf', ?_, hk.power, hk.count, ?_, ?_⟩
    · rw [cfReinsertFrom]
      simp only [indexBucket_eq (index_masked hi), Option.bind_eq_bind, Option.bind_some]
      show (cfInsertInternal (storeFp cf (kickSlot rand k i) fp) fp
        (altIndex fp i cf.bucketPower)).bind _ = _
      rw [← ha] at hins hrest
      rw [hins]
      exact hrest
    · intro t ht
      cases t with
      | zero =>
        by_cases hlater : ∃ t < n, kickSlot rand k i = kickSlot rand (k+1+t) (moved fp
            (storeFp cf (kickSlot rand k i) fp).bucketPower t a)
        · obtain ⟨t, ht, he⟩ := hlater
          have hw := hk.written t ht
          rw [← he] at hw
          exact hw
        · have hr := hk.rest (kickSlot rand k i) fun t ht he => hlater ⟨t, ht, he⟩
          exact hr.trans (Function.update_self ..)
      | succ t =>
        have hw := hk.written t (Nat.lt_of_succ_lt_succ ht)
        rw [Nat.add_right_comm, Nat.add_assoc, hpow, ← ha] at hw
        exact hw
    · intro o ho
      have hne := ho 0 (Nat.succ_pos n)
      have hrest := hk.rest o ?_
      · rw [hrest]
        exact Function.update_of_ne hne _ _
      · intro t ht
        have hne' := ho (t+1) (Nat.succ_lt_succ ht)
        rw [hpow, ← ha, Nat.add_right_comm, Nat.add_assoc]
        exact hne'

/-- The kicks report a success exactly when a bucket is present or becomes so. -/
theorem jams_iff (rand : ℕ → UInt32) (hfp : fp ≠ 0) (hi : Masked cf.bucketPower i) :
    Jams rand cfMaxBucketKickOut 0 cf fp i ↔
      ¬ Silent cf.bytes i.toNat (altIndex fp i cf.bucketPower).toNat := by
  constructor
  · intro hjams hs
    obtain ⟨cf', hrun, -⟩ := kicks_silent rand cfMaxBucketKickOut 0 hfp hi hs
    cases (cfReinsertFrom_jams cfMaxBucketKickOut 0 cf (index_masked hi) hrun).mpr hjams
  · exact jams_of_not_silent hfp hi

end RtsCache.CuckooKicks
