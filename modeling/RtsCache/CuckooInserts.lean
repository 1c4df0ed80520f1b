import RtsCache.CuckooKicks

/-!
# Inserting into a cuckoo filter

An insertion reports what it did in two cases: it fills the one free slot of
the first bucket and then finds the second bucket full, or its ten kicks find
neither bucket full and all but one of the slots they overwrite hold the
fingerprint already.
-/

set_option autoImplicit false

namespace RtsCache.CuckooInserts
open RtsCache.CuckooIndex RtsCache.CuckooMachine RtsCache.CuckooSpec RtsCache.CuckooSizing
open RtsCache.CuckooKicks RtsCache.TableOverlay

variable {bytes bytes' : Bytes} {i j : ℕ}

theorem Silent.symm (h : Silent bytes i j) : Silent bytes j i := by
  intro b hb
  obtain ⟨habsent, hi, hj⟩ := h b hb.symm
  exact ⟨habsent, hj, hi⟩

theorem count_succ_ne (count : UInt64) : count + 1 ≠ count := by
  intro h
  have hone : (1 : UInt64).toNat = 1 := rfl
  have hlt := count.toNat_lt
  rw [← UInt64.toNat_inj, UInt64.toNat_add, hone] at h
  omega

theorem silent_of_overlaid {fp : Fingerprint} {A : List ℕ} (hfp : fp ≠ 0)
    (ho : Overlaid 0 fp A bytes bytes') (h : Silent bytes' i j) : Silent bytes i j := by
  intro b hb
  obtain ⟨habsent, hi, hj⟩ := h b hb
  exact ⟨fun hp => habsent (present_of_overlaid ho hfp hp), hi, hj⟩

section Insertions
variable [Tables]

def keySlots (shr : UInt32 → UInt32) (p : ℕ) (key : Key) : Finset ℕ :=
  (Finset.range bucketSize).image (fun j => bucketSize * (index1 shr p key).toNat + j) ∪
    (Finset.range bucketSize).image fun j => bucketSize * (index2 shr p key).toNat + j

def copies (shr : UInt32 → UInt32) (cf : CuckooFilter) (key : Key) : ℕ :=
  ((keySlots shr cf.bucketPower key).filter fun o =>
    cf.bytes o = keyFp shr cf.bucketPower key).card

/-- The answer 0 stands for one more copy, is given when there is a free slot,
and any other for no change at all. -/
structure Reports (shr : UInt32 → UInt32) (cf : CuckooFilter) (key : Key) (r : ℤ)
    (cf' : CuckooFilter) : Prop where
  success : r = 0 ↔ copies shr cf' key = copies shr cf key + 1
  room : (∃ o, KeySlot shr cf.bucketPower key o ∧ cf.bytes o = 0) → r = 0
  failure : r ≠ 0 → cf'.bytes = cf.bytes ∧ cf'.count = cf.count

def Inserts (shr : UInt32 → UInt32) (cf : CuckooFilter) (key : Key) (rand : ℕ → UInt32)
    (coin : Bool) : Prop :=
  ∃ r cf', cfInsert shr cf key rand coin = some (r, cf') ∧ Reports shr cf key r cf'

/-- The first bucket is present and has a free slot, the second has no other
free slot and is present, at the latest when the first is filled. -/
def FillsLast (shr : UInt32 → UInt32) (cf : CuckooFilter) (key : Key) : Prop :=
  let i := (index1 shr cf.bucketPower key).toNat
  let j := (index2 shr cf.bucketPower key).toNat
  Present cf.bytes i ∧ (Present cf.bytes j ∨ i / 2 = j) ∧
    ∃ l < bucketSize, cf.bytes (bucketSize * i + l) = 0 ∧
      ∀ m < bucketSize, cf.bytes (bucketSize * j + m) = 0 → bucketSize * j + m = bucketSize * i + l

/-- No full bucket that is present is met before the kicks, and one of the two
buckets is present or becomes so by a slot of theirs being filled. -/
structure Settles (shr : UInt32 → UInt32) (cf : CuckooFilter) (key : Key) : Prop where
  made : ¬ Misreported shr cf key
  room : ¬ FillsLast shr cf key
  awake : ¬ Silent cf.bytes (index1 shr cf.bucketPower key).toNat
    (index2 shr cf.bucketPower key).toNat

def keyKick (shr : UInt32 → UInt32) (p : ℕ) (key : Key) (rand : ℕ → UInt32) (coin : Bool)
    (t : ℕ) : ℕ :=
  kickSlot rand t (moved (keyFp shr p key) p t (kickStart shr p key coin))

/-- Neither bucket is ever present, and one slot alone of those kicked holds
anything but the fingerprint. -/
def KicksOneSlot (shr : UInt32 → UInt32) (cf : CuckooFilter) (key : Key) (rand : ℕ → UInt32)
    (coin : Bool) : Prop :=
  let fp := keyFp shr cf.bucketPower key
  let slot := keyKick shr cf.bucketPower key rand coin
  Silent cf.bytes (index1 shr cf.bucketPower key).toNat (index2 shr cf.bucketPower key).toNat ∧
    ∃ t < cfMaxBucketKickOut, cf.bytes (slot t) ≠ fp ∧
      ∀ u < cfMaxBucketKickOut, cf.bytes (slot u) ≠ fp → slot u = slot t

variable {shr : UInt32 → UInt32} {cf cf' cf₁ cf₂ : CuckooFilter} {key : Key} {rand : ℕ → UInt32}
  {coin : Bool} {r : ℤ}

theorem mem_keySlots {p o : ℕ} : o ∈ keySlots shr p key ↔ KeySlot shr p key o := by
  simp only [keySlots, KeySlot, Finset.mem_union, Finset.mem_image, Finset.mem_range]
  constructor
  · rintro (⟨j, hj, rfl⟩ | ⟨j, hj, rfl⟩)
    · exact ⟨j, hj, Or.inl rfl⟩
    · exact ⟨j, hj, Or.inr rfl⟩
  · rintro ⟨j, hj, rfl | rfl⟩
    · exact Or.inl ⟨j, hj, rfl⟩
    · exact Or.inr ⟨j, hj, rfl⟩

theorem copies_congr (hp : cf'.bucketPower = cf.bucketPower) (hb : cf'.bytes = cf.bytes) :
    copies shr cf' key = copies shr cf key := by
  rw [copies, copies, hp, hb]

theorem copies_succ_iff (hp : cf'.bucketPower = cf.bucketPower)
    (hkeep : ∀ o, cf.bytes o = keyFp shr cf.bucketPower key →
      cf'.bytes o = keyFp shr cf.bucketPower key) :
    copies shr cf' key = copies shr cf key + 1 ↔
      ∃ e, (KeySlot shr cf.bucketPower key e ∧ cf.bytes e ≠ keyFp shr cf.bucketPower key ∧
          cf'.bytes e = keyFp shr cf.bucketPower key) ∧
        ∀ o, KeySlot shr cf.bucketPower key o → cf.bytes o ≠ keyFp shr cf.bucketPower key →
          cf'.bytes o = keyFp shr cf.bucketPower key → o = e := by
  obtain ⟨A, hA⟩ : ∃ A, (keySlots shr cf.bucketPower key).filter (fun o =>
    cf.bytes o = keyFp shr cf.bucketPower key) = A := ⟨_, rfl⟩
  obtain ⟨B, hB⟩ : ∃ B, (keySlots shr cf.bucketPower key).filter (fun o =>
    cf'.bytes o = keyFp shr cf.bucketPower key) = B := ⟨_, rfl⟩
  have hsub : A ⊆ B := by
    intro o ho
    rw [← hA, Finset.mem_filter] at ho
    rw [← hB, Finset.mem_filter]
    exact ⟨ho.1, hkeep o ho.2⟩
  have hnew : ∀ o, o ∈ B \ A ↔ KeySlot shr cf.bucketPower key o ∧
      cf.bytes o ≠ keyFp shr cf.bucketPower key ∧
      cf'.bytes o = keyFp shr cf.bucketPower key := by
    intro o
    rw [← hA, ← hB, Finset.mem_sdiff, Finset.mem_filter, Finset.mem_filter, mem_keySlots]
    tauto
  have hcard : copies shr cf' key = copies shr cf key + 1 ↔ (B \ A).card = 1 := by
    rw [copies, copies, hp, hA, hB, Finset.card_sdiff_of_subset hsub]
    have hle := Finset.card_le_card hsub
    omega
  rw [hcard, Finset.card_eq_one]
  constructor
  · rintro ⟨e, he⟩
    refine ⟨e, (hnew e).mp (he ▸ Finset.mem_singleton_self e), ?_⟩
    intro o hs hv hv'
    exact Finset.mem_singleton.mp (he ▸ (hnew o).mpr ⟨hs, hv, hv'⟩)
  · rintro ⟨e, he, hall⟩
    refine ⟨e, ?_⟩
    ext o
    rw [hnew, Finset.mem_singleton]
    constructor
    · exact fun ⟨hs, hv, hv'⟩ => hall o hs hv hv'
    · exact fun h => h ▸ he

theorem not_inserts_of_same (hrun : cfInsert shr cf key rand coin = some (0, cf'))
    (hp : cf'.bucketPower = cf.bucketPower) (hb : cf'.bytes = cf.bytes) :
    ¬ Inserts shr cf key rand coin := by
  rintro ⟨r, cf'', hrun', hrep⟩
  cases hrun.symm.trans hrun'
  have hmore := hrep.success.mp rfl
  rw [copies_congr hp hb] at hmore
  omega

theorem not_inserts_of_counted (hrun : cfInsert shr cf key rand coin = some (1, cf'))
    (hc : cf'.count = cf.count + 1) : ¬ Inserts shr cf key rand coin := by
  rintro ⟨r, cf'', hrun', hrep⟩
  cases hrun.symm.trans hrun'
  have hsame := (hrep.failure (by decide)).2
  rw [hc] at hsame
  exact count_succ_ne cf.count hsame

theorem inserts_iff_copies (hrun : cfInsert shr cf key rand coin = some (0, cf')) :
    Inserts shr cf key rand coin ↔ copies shr cf' key = copies shr cf key + 1 := by
  constructor
  · rintro ⟨r, cf'', hrun', hrep⟩
    cases hrun.symm.trans hrun'
    exact hrep.success.mp rfl
  · intro h
    refine ⟨0, cf', hrun, ⟨fun _ => h, fun _ => rfl⟩, fun _ => rfl, ?_⟩
    exact fun hne => absurd rfl hne

theorem not_fillsLast_of_full (h : Full cf.bytes (index1 shr cf.bucketPower key).toNat) :
    ¬ FillsLast shr cf key := by
  rintro ⟨-, -, l, hl, hv, -⟩
  exact h l hl hv

theorem fillsLast_jams {l : ℕ} (hl : l < bucketSize)
    (free : cf.bytes (bucketSize * (index1 shr cf.bucketPower key).toNat + l) = 0)
    (h : FillsLast shr cf key) :
    Jammed (storeFp cf (bucketSize * (index1 shr cf.bucketPower key).toNat + l)
      (keyFp shr cf.bucketPower key)).bytes (index2 shr cf.bucketPower key).toNat := by
  have hfp : keyFp shr cf.bucketPower key ≠ 0 := fp_ne_zero shr key _
  obtain ⟨-, htested, l', hl', -, hlast⟩ := h
  constructor
  · apply (present_update hfp).mpr
    rw [slot_tested hl]
    exact htested
  · intro m hm hv
    have hne : bucketSize * (index2 shr cf.bucketPower key).toNat + m ≠
        bucketSize * (index1 shr cf.bucketPower key).toNat + l := by
      intro he
      rw [he] at hv
      exact hfp ((Function.update_self ..).symm.trans hv)
    have hv' : cf.bytes (bucketSize * (index2 shr cf.bucketPower key).toNat + m) = 0 :=
      (Function.update_of_ne hne _ _).symm.trans hv
    have hm' := hlast m hm hv'
    -- both buckets are one, and `l` is its only free slot as well
    have hsame : (index2 shr cf.bucketPower key).toNat = (index1 shr cf.bucketPower key).toNat := by
      simp only [bucketSize] at hm hl' hm'
      omega
    have hl'' := hlast l hl (by rw [hsame]; exact free)
    rw [hsame] at hl'' hm' hne
    omega

theorem fillsLast_of_jammed {l : ℕ} (hl : l < bucketSize)
    (present : Present cf.bytes (index1 shr cf.bucketPower key).toNat)
    (free : cf.bytes (bucketSize * (index1 shr cf.bucketPower key).toNat + l) = 0)
    (h : Jammed (storeFp cf (bucketSize * (index1 shr cf.bucketPower key).toNat + l)
      (keyFp shr cf.bucketPower key)).bytes (index2 shr cf.bucketPower key).toNat) :
    FillsLast shr cf key := by
  have hfp : keyFp shr cf.bucketPower key ≠ 0 := fp_ne_zero shr key _
  have htested := (present_update hfp).mp h.1
  rw [slot_tested hl] at htested
  refine ⟨present, htested, l, hl, free, ?_⟩
  intro m hm hv
  by_contra hne
  exact h.2 m hm ((Function.update_of_ne hne _ _).trans hv)

theorem copies_of_stored {l : ℕ} (hl : l < bucketSize)
    (free : cf.bytes (bucketSize * (index1 shr cf.bucketPower key).toNat + l) = 0)
    (hp : cf'.bucketPower = cf.bucketPower)
    (hb : cf'.bytes = (storeFp cf (bucketSize * (index1 shr cf.bucketPower key).toNat + l)
      (keyFp shr cf.bucketPower key)).bytes) :
    copies shr cf' key = copies shr cf key + 1 := by
  have hfp : keyFp shr cf.bucketPower key ≠ 0 := fp_ne_zero shr key _
  apply (copies_succ_iff hp _).mpr
  · refine ⟨_, ⟨⟨l, hl, Or.inl rfl⟩, ?_, ?_⟩, ?_⟩
    · rw [free]
      exact hfp.symm
    · rw [hb]
      exact Function.update_self ..
    · intro o _ hv hv'
      by_contra hne
      rw [hb] at hv'
      exact hv ((Function.update_of_ne hne _ _).symm.trans hv')
  · intro o hv
    rw [hb]
    exact (overlaid_fill _ free).keeps hv

theorem keyKick_slot (shr : UInt32 → UInt32) (p : ℕ) (key : Key) (rand : ℕ → UInt32) (coin : Bool)
    (t : ℕ) : KeySlot shr p key (keyKick shr p key rand coin t) := by
  apply candidate_slot _ (kickSlot_lt rand t)
  apply candidate_moved
  cases coin
  · exact Or.inr rfl
  · exact Or.inl rfl

theorem copies_of_kicks (hk : KicksOnly rand cfMaxBucketKickOut 0 cf
      (keyFp shr cf.bucketPower key) (kickStart shr cf.bucketPower key coin) cf') :
    copies shr cf' key = copies shr cf key + 1 ↔
      ∃ t < cfMaxBucketKickOut,
        cf.bytes (keyKick shr cf.bucketPower key rand coin t) ≠ keyFp shr cf.bucketPower key ∧
        ∀ u < cfMaxBucketKickOut,
          cf.bytes (keyKick shr cf.bucketPower key rand coin u) ≠ keyFp shr cf.bucketPower key →
            keyKick shr cf.bucketPower key rand coin u =
              keyKick shr cf.bucketPower key rand coin t := by
  have hwritten : ∀ t < cfMaxBucketKickOut,
      cf'.bytes (keyKick shr cf.bucketPower key rand coin t) = keyFp shr cf.bucketPower key := by
    intro t ht
    have hw := hk.written t ht
    rwa [Nat.zero_add] at hw
  have hrest : ∀ o, (∀ t < cfMaxBucketKickOut, o ≠ keyKick shr cf.bucketPower key rand coin t) →
      cf'.bytes o = cf.bytes o := by
    intro o ho
    apply hk.rest
    intro t ht
    rw [Nat.zero_add]
    exact ho t ht
  have hkicked : ∀ o, cf.bytes o ≠ keyFp shr cf.bucketPower key →
      cf'.bytes o = keyFp shr cf.bucketPower key →
        ∃ t < cfMaxBucketKickOut, o = keyKick shr cf.bucketPower key rand coin t := by
    intro o hv hv'
    by_contra hnone
    apply hv
    rw [← hrest o fun t ht he => hnone ⟨t, ht, he⟩]
    exact hv'
  rw [copies_succ_iff hk.power]
  · constructor
    · rintro ⟨e, ⟨-, hv, hv'⟩, hall⟩
      obtain ⟨t, ht, rfl⟩ := hkicked e hv hv'
      refine ⟨t, ht, hv, ?_⟩
      intro u hu hvu
      exact hall _ (keyKick_slot shr _ key rand coin u) hvu (hwritten u hu)
    · rintro ⟨t, ht, hv, hall⟩
      refine ⟨_, ⟨keyKick_slot shr _ key rand coin t, hv, hwritten t ht⟩, ?_⟩
      intro o _ hvo hvo'
      obtain ⟨u, hu, rfl⟩ := hkicked o hvo hvo'
      exact hall u hu hvo
  · intro o hv
    by_contra hne
    apply hne
    by_cases hk' : ∃ t < cfMaxBucketKickOut, o = keyKick shr cf.bucketPower key rand coin t
    · obtain ⟨t, ht, rfl⟩ := hk'
      exact hwritten t ht
    · rw [hrest o fun t ht he => hk' ⟨t, ht, he⟩]
      exact hv

theorem silent_start (shr : UInt32 → UInt32) (cf : CuckooFilter) (key : Key) (coin : Bool) :
    Silent cf.bytes (kickStart shr cf.bucketPower key coin).toNat
        (altIndex (keyFp shr cf.bucketPower key) (kickStart shr cf.bucketPower key coin)
          cf.bucketPower).toNat ↔
      Silent cf.bytes (index1 shr cf.bucketPower key).toNat
        (index2 shr cf.bucketPower key).toNat := by
  cases coin with
  | true => rfl
  | false =>
    have hback := index2_back shr cf.bucketPower key
    show Silent cf.bytes (index2 shr cf.bucketPower key).toNat
      (altIndex _ (index2 shr cf.bucketPower key) _).toNat ↔ _
    rw [hback]
    exact ⟨Silent.symm, Silent.symm⟩

theorem not_fillsLast_of_tried
    (hint₁ : Internal cf (keyFp shr cf.bucketPower key) (index1 shr cf.bucketPower key).toNat 0 cf₁)
    (hint₂ : Internal cf₁ (keyFp shr cf.bucketPower key) (index2 shr cf.bucketPower key).toNat 0
      cf₂) : ¬ FillsLast shr cf key := by
  intro h
  cases hint₁ with
  | absent habsent => exact habsent h.1
  | stored l present hl free => exact hint₂.not_jammed rfl (fillsLast_jams hl free h)

theorem not_misreported_of_tried
    (hint₁ : Internal cf (keyFp shr cf.bucketPower key) (index1 shr cf.bucketPower key).toNat 0 cf₁)
    (hint₂ : Internal cf₁ (keyFp shr cf.bucketPower key) (index2 shr cf.bucketPower key).toNat 0
      cf₂) : ¬ Misreported shr cf key := by
  rintro (h | ⟨habsent, h⟩)
  · exact hint₁.not_jammed rfl h
  · cases hint₁ with
    | absent _ => exact hint₂.not_jammed rfl h
    | stored l present hl free => exact habsent present

theorem silent_tried
    (hint₁ : Internal cf (keyFp shr cf.bucketPower key) (index1 shr cf.bucketPower key).toNat 0 cf₁)
    (hint₂ : Internal cf₁ (keyFp shr cf.bucketPower key) (index2 shr cf.bucketPower key).toNat 0
      cf₂) :
    Silent cf₂.bytes (index1 shr cf.bucketPower key).toNat
        (index2 shr cf.bucketPower key).toNat ↔
      Silent cf.bytes (index1 shr cf.bucketPower key).toNat
        (index2 shr cf.bucketPower key).toNat := by
  constructor
  · exact silent_of_overlaid (fp_ne_zero shr key _) (hint₁.overlaid.trans hint₂.overlaid)
  · intro hs
    obtain ⟨-, rfl⟩ := same_of_absent hint₁ (hs _ (Or.inl rfl)).1
    obtain ⟨-, rfl⟩ := same_of_absent hint₂ (hs _ (Or.inr rfl)).1
    exact hs

/-- `cf_insert` answers 1 there and only there, whatever the random choices. -/
theorem cfInsert_settles (hrun : cfInsert shr cf key rand coin = some (r, cf')) :
    (r = 1 ∧ Settles shr cf key) ∨ (r = 0 ∧ ¬ Settles shr cf key) := by
  have hfp : keyFp shr cf.bucketPower key ≠ 0 := fp_ne_zero shr key _
  obtain ⟨r₁, cf₁, r₂, cf₂, -, hint₁, -, hint₂, hparts⟩ := cfInsert_parts shr cf key rand coin
  have hpow₂ := hint₂.power.trans hint₁.power
  rw [hparts] at hrun
  rcases hint₁.result with ⟨rfl, -⟩ | ⟨rfl, -, -, hjam⟩
  · rcases hint₂.result with ⟨rfl, -⟩ | ⟨rfl, -, hb₂, hjam⟩
    · have hstart : Masked cf₂.bucketPower (kickStart shr cf.bucketPower key coin) := by
        rw [hpow₂]
        exact kickStart_masked shr cf.bucketPower key coin
      have hkick : cfReinsert rand cf₂ (keyFp shr cf.bucketPower key)
        (kickStart shr cf.bucketPower key coin) = some (r, cf') := hrun
      have hjams := cfReinsertFrom_jams cfMaxBucketKickOut 0 cf₂ (index_masked hstart) hkick
      have hsilent := silent_start shr cf₂ key coin
      rw [hpow₂, silent_tried hint₁ hint₂] at hsilent
      rw [jams_iff rand hfp hstart, hpow₂, hsilent] at hjams
      obtain ⟨r', cf'', hkick', hk⟩ := cfReinsertFrom_spec rand (keyFp shr cf.bucketPower key)
        cfMaxBucketKickOut 0 cf₂ _ (index_masked hstart)
      cases hkick.symm.trans hkick'
      rcases hk.result with ⟨rfl, -⟩ | ⟨rfl, -⟩
      · exact Or.inr ⟨rfl, fun h => absurd (hjams.mpr h.awake) (by decide)⟩
      · exact Or.inl ⟨rfl, not_misreported_of_tried hint₁ hint₂,
          not_fillsLast_of_tried hint₁ hint₂, hjams.mp rfl⟩
    · cases hrun
      refine Or.inr ⟨rfl, fun h => ?_⟩
      cases hint₁ with
      | absent habsent => exact h.made (Or.inr ⟨habsent, hjam⟩)
      | stored l present hl free => exact h.room (fillsLast_of_jammed hl present free hjam)
  · cases hrun
    exact Or.inr ⟨rfl, fun h => h.made (Or.inl hjam)⟩

/-- In any filter, and for any random choices, when an insertion reports what
it did. -/
theorem inserts_iff (shr : UInt32 → UInt32) (cf : CuckooFilter) (key : Key)
    (rand : ℕ → UInt32) (coin : Bool) :
    Inserts shr cf key rand coin ↔ FillsLast shr cf key ∨ KicksOneSlot shr cf key rand coin := by
  have hfp : keyFp shr cf.bucketPower key ≠ 0 := fp_ne_zero shr key _
  obtain ⟨r₁, cf₁, r₂, cf₂, -, hint₁, -, hint₂, hparts⟩ := cfInsert_parts shr cf key rand coin
  have hpow₁ := hint₁.power
  have hpow₂ := hint₂.power.trans hpow₁
  rcases hint₁.result with ⟨rfl, hc₁⟩ | ⟨rfl, -, hb₁, hjam⟩
  · rcases hint₂.result with ⟨rfl, hc₂⟩ | ⟨rfl, -, hb₂, hjam⟩
    · have hrun : cfInsert shr cf key rand coin = cfReinsert rand cf₂
          (keyFp shr cf.bucketPower key) (kickStart shr cf.bucketPower key coin) := hparts
      rw [or_iff_right (not_fillsLast_of_tried hint₁ hint₂)]
      by_cases hs : Silent cf.bytes (index1 shr cf.bucketPower key).toNat
          (index2 shr cf.bucketPower key).toNat
      · obtain ⟨-, rfl⟩ := same_of_absent hint₁ (hs _ (Or.inl rfl)).1
        obtain ⟨-, rfl⟩ := same_of_absent hint₂ (hs _ (Or.inr rfl)).1
        have hstart := kickStart_masked shr cf₂.bucketPower key coin
        obtain ⟨cf', hkicks, hk⟩ := kicks_silent rand cfMaxBucketKickOut 0 hfp hstart
          ((silent_start shr cf₂ key coin).mpr hs)
        rw [inserts_iff_copies (hrun.trans hkicks), copies_of_kicks hk]
        exact (and_iff_right hs).symm
      · have hs₂ : ¬ Silent cf₂.bytes (index1 shr cf₂.bucketPower key).toNat
            (index2 shr cf₂.bucketPower key).toNat := by
          rwa [hpow₂, silent_tried hint₁ hint₂]
        rw [← silent_start shr cf₂ key coin] at hs₂
        obtain ⟨cf', hkicks, hcount⟩ := kicks_jam rand hfp
          (kickStart_masked shr cf₂.bucketPower key coin) hs₂
        rw [hpow₂] at hkicks
        rw [hc₂, hc₁] at hcount
        constructor
        · exact fun h => absurd h (not_inserts_of_counted (hrun.trans hkicks) hcount)
        · exact fun h => absurd h.1 hs
    · have hrun : cfInsert shr cf key rand coin = some (0, cf₂) := hparts
      cases hint₁ with
      | absent habsent =>
        have hnot := not_inserts_of_same hrun hpow₂ hb₂
        constructor
        · exact fun h => absurd h hnot
        · rintro (h | ⟨h, -⟩)
          · exact absurd h.1 habsent
          · exact absurd hjam.1 (h _ (Or.inr rfl)).1
      | stored l present hl free =>
        rw [inserts_iff_copies hrun]
        constructor
        · exact fun _ => Or.inl (fillsLast_of_jammed hl present free hjam)
        · exact fun _ => copies_of_stored hl free hpow₂ hb₂
  · have hrun : cfInsert shr cf key rand coin = some (0, cf₁) := hparts
    have hnot := not_inserts_of_same hrun hpow₁ hb₁
    constructor
    · exact fun h => absurd h hnot
    · rintro (h | ⟨h, -⟩)
      · exact absurd h (not_fillsLast_of_full hjam.2)
      · exact absurd hjam.1 (h _ (Or.inl rfl)).1

end Insertions

/-- The first insertion into a new filter stores the fingerprint in both buckets. -/
theorem not_inserts_first : ¬ Inserts id (newFilter 1000) [97] (fun _ => 0) true := by
  rintro ⟨r, cf', hrun, hrep⟩
  obtain ⟨cf'', hrun', htwice⟩ : ∃ cf'',
      cfInsert id (newFilter 1000) [97] (fun _ => 0) true = some (0, cf'') ∧
        copies id cf'' [97] = 2 := ⟨_, rfl, rfl⟩
  cases hrun.symm.trans hrun'
  have hmore := hrep.success.mp rfl
  rw [htwice] at hmore
  revert hmore
  decide

end RtsCache.CuckooInserts
