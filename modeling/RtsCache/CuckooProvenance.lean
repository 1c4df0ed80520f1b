import RtsCache.CuckooCount
import RtsCache.CuckooKicks
import RtsCache.CuckooReach

/-!
# Where the fingerprints of a filter come from

Whatever a run does, a non-empty slot lies in one of the two buckets of a key
that was inserted and holds that key's fingerprint. So a key is found only
where an inserted one shares its fingerprint and its pair of buckets, and the
upper half of the allocation, which the presence check reads, is never written.
-/

set_option autoImplicit false

namespace RtsCache.CuckooProvenance
open RtsCache.CuckooIndex RtsCache.CuckooMachine RtsCache.CuckooSpec RtsCache.CuckooSizing
open RtsCache.CuckooCount RtsCache.CuckooKicks RtsCache.CuckooReach RtsCache.TableOverlay

def insertedKeys (os : List Op) : List Key :=
  os.filterMap fun
    | .insert key _ _ => some key
    | .insertUnique key _ _ => some key
    | .delete _ => none
    | .reset => none

/-- Every fingerprint in the table is that of one of the keys, in its place. -/
def Traced (shr : UInt32 → UInt32) (keys : List Key) (cf : CuckooFilter) : Prop :=
  ∀ o, cf.bytes o ≠ 0 → ∃ key ∈ keys,
    KeySlot shr cf.bucketPower key o ∧ cf.bytes o = keyFp shr cf.bucketPower key

/-- Two keys the filter cannot tell apart. -/
def Alike (shr : UInt32 → UInt32) (p : ℕ) (key key' : Key) : Prop :=
  keyFp shr p key = keyFp shr p key' ∧
    ((index1 shr p key = index1 shr p key' ∧ index2 shr p key = index2 shr p key') ∨
      (index1 shr p key = index2 shr p key' ∧ index2 shr p key = index1 shr p key'))

variable {shr : UInt32 → UInt32} {cf cf' : CuckooFilter} {key : Key} {keys : List Key}
  {fp : Fingerprint} {i : UInt32} {rand : ℕ → UInt32} {coin : Bool} {n k p o : ℕ} {r : ℤ}

theorem candidate_alt (hi : Candidate shr p key i) :
    Candidate shr p key (altIndex (keyFp shr p key) i p) :=
  candidate_moved 1 hi

theorem candidate_lt (cf : CuckooFilter) (hi : Candidate shr cf.bucketPower key i) :
    i.toNat < 2^cf.bucketPower := by
  rcases hi with rfl | rfl
  · exact index1_lt shr cf key
  · exact index2_lt shr cf key

theorem internal_changed {b : ℕ} (h : Internal cf fp b r cf') (ho : cf'.bytes o ≠ cf.bytes o) :
    ∃ j < bucketSize, o = bucketSize * b + j := by
  cases h with
  | jammed h => exact absurd rfl ho
  | absent h => exact absurd rfl ho
  | stored j present hj free =>
    refine ⟨j, hj, ?_⟩
    by_contra hne
    exact ho (Function.update_of_ne hne _ _)

theorem reinsert_changed (hi : Candidate shr cf.bucketPower key i)
    (hrun : cfReinsertFrom rand n k cf (keyFp shr cf.bucketPower key) i = some (r, cf'))
    (ho : cf'.bytes o ≠ cf.bytes o) : KeySlot shr cf.bucketPower key o := by
  induction n generalizing k cf i with
  | zero =>
    cases hrun
    exact absurd rfl ho
  | succ n ih =>
    obtain ⟨j, hj⟩ : ∃ j, (rand k % UInt32.ofNat bucketSize).toNat = j := ⟨_, rfl⟩
    have hlt : j < bucketSize := by
      rw [← hj, UInt32.toNat_mod]
      exact Nat.mod_lt _ (by decide)
    have halt := candidate_alt hi
    rw [cfReinsertFrom] at hrun
    simp only [indexBucket_eq (candidate_lt cf hi), Option.bind_eq_bind, Option.bind_some,
      hj] at hrun
    obtain ⟨cf₁, hcf₁⟩ : ∃ cf₁,
        storeFp cf (bucketSize * i.toNat + j) (keyFp shr cf.bucketPower key) = cf₁ := ⟨_, rfl⟩
    have hpow₁ : cf₁.bucketPower = cf.bucketPower := by
      rw [← hcf₁]
      rfl
    have hlt₁ := candidate_lt cf halt
    rw [← hpow₁] at hlt₁
    obtain ⟨r₁, cf₂, hins, hint⟩ :=
      cfInsertInternal_spec (keyFp shr cf.bucketPower key) hlt₁
    rw [hcf₁, hpow₁] at hrun
    rw [hpow₁] at hins
    rw [hins] at hrun
    have hpow₂ : cf₂.bucketPower = cf.bucketPower := hint.power.trans hpow₁
    by_cases hkick : o = bucketSize * i.toNat + j
    · rw [hkick]
      exact candidate_slot hi hlt
    · have hsame : cf₁.bytes o = cf.bytes o := by
        rw [← hcf₁]
        exact Function.update_of_ne hkick _ _
      by_cases htry : cf₂.bytes o = cf.bytes o
      · by_cases hr : r₁ = 0
        · subst hr
          have hrest : cfReinsertFrom rand n (k+1) cf₂ (keyFp shr cf.bucketPower key)
              (altIndex (keyFp shr cf.bucketPower key) i cf.bucketPower) = some (r, cf') := hrun
          rw [← htry] at ho
          rw [← hpow₂] at halt hrest ⊢
          exact ih halt hrest ho
        · have hstop : some ((1 : ℤ), cf₂) = some (r, cf') := by
            rw [← hrun]
            exact (if_pos hr).symm
          cases hstop
          exact absurd htry ho
      · rw [← hsame] at htry
        obtain ⟨l, hl, rfl⟩ := internal_changed hint htry
        rw [hpow₁]
        exact candidate_slot halt hl

theorem insert_changed (hrun : cfInsert shr cf key rand coin = some (r, cf'))
    (ho : cf'.bytes o ≠ cf.bytes o) : KeySlot shr cf.bucketPower key o := by
  obtain ⟨r₁, cf₁, r₂, cf₂, -, hint₁, -, hint₂, hparts⟩ := cfInsert_parts shr cf key rand coin
  rw [hparts] at hrun
  have hfirst : cf₁.bytes o ≠ cf.bytes o → KeySlot shr cf.bucketPower key o := by
    intro h
    obtain ⟨j, hj, rfl⟩ := internal_changed hint₁ h
    exact candidate_slot (Or.inl rfl) hj
  have hsecond : cf₂.bytes o ≠ cf.bytes o → KeySlot shr cf.bucketPower key o := by
    intro h
    by_cases h₁ : cf₁.bytes o = cf.bytes o
    · rw [← h₁] at h
      obtain ⟨j, hj, rfl⟩ := internal_changed hint₂ h
      exact candidate_slot (Or.inr rfl) hj
    · exact hfirst h₁
  have hpow : cf₂.bucketPower = cf.bucketPower := hint₂.power.trans hint₁.power
  by_cases h₁ : r₁ = 0
  · by_cases h₂ : r₂ = 0
    · subst h₁ h₂
      by_cases h : cf₂.bytes o = cf.bytes o
      · have hstart : Candidate shr cf₂.bucketPower key
            (kickStart shr cf.bucketPower key coin) := by
          rw [hpow]
          cases coin with
          | true => exact Or.inl rfl
          | false => exact Or.inr rfl
        have hkicks : cfReinsertFrom rand cfMaxBucketKickOut 0 cf₂
            (keyFp shr cf₂.bucketPower key) (kickStart shr cf.bucketPower key coin) =
              some (r, cf') := by
          rw [hpow]
          exact hrun
        rw [← h] at ho
        rw [← hpow]
        exact reinsert_changed hstart hkicks ho
      · exact hsecond h
    · rw [if_neg (not_not.mpr h₁), if_pos h₂] at hrun
      cases hrun
      exact hsecond ho
  · rw [if_pos h₁] at hrun
    cases hrun
    exact hfirst ho

theorem insert_power (hrun : cfInsert shr cf key rand coin = some (r, cf')) :
    cf'.bucketPower = cf.bucketPower := by
  obtain ⟨r', cf'', hrun', hins⟩ := cfInsert_spec shr cf key rand coin
  cases hrun.symm.trans hrun'
  cases hins with
  | misreported h bytes power count full none => exact power
  | stored h held overlaid power count full none => exact power
  | kicked h held overlaid power result => exact power

theorem insert_writes (hrun : cfInsert shr cf key rand coin = some (r, cf'))
    (ho : cf'.bytes o ≠ cf.bytes o) : cf'.bytes o = keyFp shr cf.bucketPower key := by
  obtain ⟨r', cf'', hrun', hins⟩ := cfInsert_spec shr cf key rand coin
  cases hrun.symm.trans hrun'
  have hover : ∀ {A : List ℕ}, Overlaid 0 (keyFp shr cf.bucketPower key) A cf.bytes cf'.bytes →
      cf'.bytes o = keyFp shr cf.bucketPower key := by
    intro A h
    by_cases hA : o ∈ A
    · exact h.written o hA
    · rcases h.rest o hA with he | ⟨-, he⟩
      · exact absurd he ho
      · exact he
  cases hins with
  | misreported h bytes power count full none => exact absurd (congrFun bytes o) ho
  | stored h held overlaid power count full none => exact hover overlaid
  | kicked h held overlaid power result => exact hover overlaid

theorem traced_insert (ht : Traced shr keys cf) (hkey : key ∈ keys)
    (hrun : cfInsert shr cf key rand coin = some (r, cf')) : Traced shr keys cf' := by
  intro o hne
  rw [insert_power hrun]
  by_cases ho : cf'.bytes o = cf.bytes o
  · rw [ho] at hne ⊢
    exact ht o hne
  · exact ⟨key, hkey, insert_changed hrun ho, insert_writes hrun ho⟩

theorem traced_cleared (ht : Traced shr keys cf) (hp : cf'.bucketPower = cf.bucketPower)
    (hb : ∀ o, cf'.bytes o = 0 ∨ cf'.bytes o = cf.bytes o) : Traced shr keys cf' := by
  intro o hne
  rw [hp]
  rcases hb o with h | h
  · exact absurd h hne
  · rw [h] at hne ⊢
    exact ht o hne

theorem traced_delete (ht : Traced shr keys cf)
    (hrun : cfDelete shr cf key = some (r, cf')) : Traced shr keys cf' := by
  obtain ⟨r', cf'', hrun', hd⟩ := cfDelete_spec shr cf key
  cases hrun.symm.trans hrun'
  apply traced_cleared ht hd.power
  intro o
  by_cases hA : o ∈ freed shr cf key
  · exact Or.inl (hd.overlaid.written o hA)
  · rcases hd.overlaid.rest o hA with h | ⟨-, h⟩
    · exact Or.inr h
    · exact Or.inl h

theorem reset_clears (hrun : cfReset cf = some (r, cf')) :
    cf'.bucketPower = cf.bucketPower ∧ ∀ o, cf'.bytes o = 0 ∨ cf'.bytes o = cf.bytes o := by
  by_cases hp : cf.bucketPower = 0
  · rw [cfReset_stuck hp] at hrun
    cases hrun
  · obtain ⟨cf'', hrun', -, hpow, hbytes⟩ := cfReset_spec (Nat.one_le_iff_ne_zero.mpr hp)
    cases hrun.symm.trans hrun'
    refine ⟨hpow, fun o => ?_⟩
    rw [hbytes]
    split
    · exact Or.inl rfl
    · exact Or.inr rfl

theorem traced_step {op : Op} (ht : Traced shr keys cf)
    (hkeys : ∀ key ∈ insertedKeys [op], key ∈ keys)
    (hrun : countStep shr cf op = some (r, cf')) :
    cf'.bucketPower = cf.bucketPower ∧ Traced shr keys cf' := by
  cases op with
  | insert key rand coin =>
    have hkey : key ∈ keys := hkeys key (by simp [insertedKeys])
    exact ⟨insert_power hrun, traced_insert ht hkey hrun⟩
  | insertUnique key rand coin =>
    have hkey : key ∈ keys := hkeys key (by simp [insertedKeys])
    rw [countStep, cfInsertUnique] at hrun
    rcases cfLookup_spec shr cf key with ⟨hl, -⟩ | ⟨hl, -⟩
    · rw [hl] at hrun
      cases hrun
      exact ⟨rfl, ht⟩
    · rw [hl] at hrun
      have hinsert : cfInsert shr cf key rand coin = some (r, cf') := hrun
      exact ⟨insert_power hinsert, traced_insert ht hkey hinsert⟩
  | delete key =>
    obtain ⟨r', cf'', hrun', hd⟩ := cfDelete_spec shr cf key
    cases hrun.symm.trans hrun'
    exact ⟨hd.power, traced_delete ht hrun⟩
  | reset =>
    obtain ⟨hpow, hb⟩ := reset_clears hrun
    exact ⟨hpow, traced_cleared ht hpow hb⟩

theorem Traced.mono {keys' : List Key} (ht : Traced shr keys cf)
    (hsub : ∀ key ∈ keys, key ∈ keys') : Traced shr keys' cf := by
  intro o hne
  obtain ⟨key, hkey, h⟩ := ht o hne
  exact ⟨key, hsub key hkey, h⟩

theorem insertedKeys_append (os os' : List Op) :
    insertedKeys (os ++ os') = insertedKeys os ++ insertedKeys os' := List.filterMap_append

theorem traced_run {capacity : UInt32} {os : List Op}
    (hrun : countRun shr (newFilter capacity) os = some cf) :
    cf.bucketPower = (newFilter capacity).bucketPower ∧ Traced shr (insertedKeys os) cf := by
  induction os using List.reverseRecOn generalizing cf with
  | nil =>
    cases hrun
    exact ⟨rfl, fun o hne => absurd rfl hne⟩
  | append_singleton os op ih =>
    rw [countRun_snoc, Option.bind_eq_some_iff] at hrun
    obtain ⟨cf₁, hpre, hlast⟩ := hrun
    obtain ⟨⟨r, cf₂⟩, hstep, rfl⟩ := Option.map_eq_some_iff.mp hlast
    obtain ⟨hpow, ht⟩ := ih hpre
    rw [insertedKeys_append]
    have hold : Traced shr (insertedKeys os ++ insertedKeys [op]) cf₁ :=
      ht.mono fun key hkey => List.mem_append_left _ hkey
    have hnew : ∀ key ∈ insertedKeys [op], key ∈ insertedKeys os ++ insertedKeys [op] :=
      fun key hkey => List.mem_append_right _ hkey
    obtain ⟨hpow', ht'⟩ := traced_step hold hnew hstep
    exact ⟨hpow'.trans hpow, ht'⟩

theorem alike_of_slot {key' : Key} (hfp : keyFp shr p key = keyFp shr p key')
    (ho : KeySlot shr p key o) (ho' : KeySlot shr p key' o) : Alike shr p key key' := by
  have hback := index2_back shr p key
  have hback' := index2_back shr p key'
  have hsame : ∀ {a b : UInt32} {j l : ℕ}, j < bucketSize → l < bucketSize →
      o = bucketSize * a.toNat + j → o = bucketSize * b.toNat + l → a = b := by
    intro a b j l hj hl ha hb
    apply UInt32.toNat_inj.mp
    simp only [bucketSize] at hj hl ha hb
    omega
  have hstep : ∀ {a b : UInt32}, a = b →
      altIndex (keyFp shr p key) a p = altIndex (keyFp shr p key') b p := by
    intro a b hab
    rw [hab, hfp]
  refine ⟨hfp, ?_⟩
  obtain ⟨j, hj, h | h⟩ := ho
  · obtain ⟨l, hl, h' | h'⟩ := ho'
    · have heq := hsame hj hl h h'
      exact Or.inl ⟨heq, hstep heq⟩
    · have heq := hsame hj hl h h'
      exact Or.inr ⟨heq, (hstep heq).trans hback'⟩
  · obtain ⟨l, hl, h' | h'⟩ := ho'
    · have heq := hsame hj hl h h'
      exact Or.inr ⟨hback.symm.trans (hstep heq), heq⟩
    · have heq := hsame hj hl h h'
      exact Or.inl ⟨hback.symm.trans ((hstep heq).trans hback'), heq⟩

/-- In every state of every run, a key is found only where a key was inserted
that the filter cannot tell from it. -/
theorem lookup_traces (shr : UInt32 → UInt32) (capacity : UInt32) {os : List Op}
    (hrun : countRun shr (newFilter capacity) os = some cf) (key : Key)
    (hfound : cfLookup shr cf key = some 1) :
    ∃ k ∈ insertedKeys os, Alike shr (newFilter capacity).bucketPower k key := by
  obtain ⟨hpow, ht⟩ := traced_run hrun
  obtain ⟨o, hslot, hv⟩ := lookup_iff.mp hfound
  have hne : cf.bytes o ≠ 0 := by
    rw [hv]
    exact fp_ne_zero shr key _
  obtain ⟨k, hk, hkslot, hkv⟩ := ht o hne
  rw [← hpow]
  exact ⟨k, hk, alike_of_slot (hkv.symm.trans hv) hkslot hslot⟩

def history : List Op :=
  [.insert [97] (fun _ => 0) true, .insert [98] (fun _ => 0) true, .delete [98]]

theorem lookup_traces_stranger : ∃ cf, countRun id (newFilter 1000) history = some cf ∧
    cfLookup id cf [98] = some 0 ∧ cfLookup id cf [97] = some 1 ∧
      [1, 200, 145] ∉ insertedKeys history ∧ cfLookup id cf [1, 200, 145] = some 1 ∧
        ∃ k ∈ insertedKeys history, Alike id (newFilter 1000).bucketPower k [1, 200, 145] := by
  obtain ⟨cf, hrun, hgone, hkept, hfound⟩ : ∃ cf,
      countRun id (newFilter 1000) history = some cf ∧ cfLookup id cf [98] = some 0 ∧
        cfLookup id cf [97] = some 1 ∧ cfLookup id cf [1, 200, 145] = some 1 :=
    ⟨_, rfl, rfl, rfl, rfl⟩
  have hstranger : [1, 200, 145] ∉ insertedKeys history := by decide
  exact ⟨cf, hrun, hgone, hkept, hstranger, hfound,
    lookup_traces id 1000 hrun [1, 200, 145] hfound⟩

theorem Traced.outside (ht : Traced shr keys cf) (ho : bucketSize * 2^cf.bucketPower ≤ o) :
    cf.bytes o = 0 := by
  by_contra hne
  obtain ⟨key, -, ⟨j, hj, h⟩, -⟩ := ht o hne
  have h₁ := index1_lt shr cf key
  have h₂ := index2_lt shr cf key
  simp only [bucketSize] at hj h ho
  omega

theorem Traced.absent {b : ℕ} (ht : Traced shr keys cf) (hb : 2^cf.bucketPower ≤ 2 * b) :
    ¬ Present cf.bytes b := by
  rintro ⟨j, -, hne⟩
  apply hne
  apply ht.outside
  simp only [bucketSize, sizeofPointer]
  omega

theorem Traced.silent {a b : ℕ} (ht : Traced shr keys cf) (ha : a < 2^cf.bucketPower)
    (hb : b < 2^cf.bucketPower) (ha' : 2^cf.bucketPower ≤ 2 * a)
    (hb' : 2^cf.bucketPower ≤ 2 * b) : Silent cf.bytes a b := by
  rintro c (rfl | rfl)
  · exact ⟨ht.absent ha', by omega, by omega⟩
  · exact ⟨ht.absent hb', by omega, by omega⟩

/-- A key whose two buckets lie in the upper half is only ever kicked in: its
insertion overwrites the slots its ten draws choose, whatever they held,
changes nothing else and never counts. -/
theorem upper_keys_only_kick (shr : UInt32 → UInt32) (capacity : UInt32) {os : List Op}
    (hrun : countRun shr (newFilter capacity) os = some cf) (key : Key) (rand : ℕ → UInt32)
    (coin : Bool) (h₁ : 2^cf.bucketPower ≤ 2 * (index1 shr cf.bucketPower key).toNat)
    (h₂ : 2^cf.bucketPower ≤ 2 * (index2 shr cf.bucketPower key).toNat) :
    ∃ cf', cfInsert shr cf key rand coin = some (0, cf') ∧
      KicksOnly rand cfMaxBucketKickOut 0 cf (keyFp shr cf.bucketPower key)
        (kickStart shr cf.bucketPower key coin) cf' := by
  obtain ⟨-, ht⟩ := traced_run hrun
  obtain ⟨r₁, cf₁, r₂, cf₂, -, hint₁, -, hint₂, hparts⟩ := cfInsert_parts shr cf key rand coin
  obtain ⟨rfl, rfl⟩ := same_of_absent hint₁ (ht.absent h₁)
  obtain ⟨rfl, rfl⟩ := same_of_absent hint₂ (ht.absent h₂)
  have hlt₁ := index1_lt shr cf₂ key
  have hlt₂ := index2_lt shr cf₂ key
  have hstart : Silent cf₂.bytes (kickStart shr cf₂.bucketPower key coin).toNat
      (altIndex (keyFp shr cf₂.bucketPower key) (kickStart shr cf₂.bucketPower key coin)
        cf₂.bucketPower).toNat := by
    cases coin with
    | true => exact ht.silent hlt₁ hlt₂ h₁ h₂
    | false =>
      show Silent cf₂.bytes (index2 shr cf₂.bucketPower key).toNat
        (altIndex _ (index2 shr cf₂.bucketPower key) cf₂.bucketPower).toNat
      rw [index2_back]
      exact ht.silent hlt₂ hlt₁ h₂ h₁
  obtain ⟨cf', hkick, hk⟩ := kicks_silent rand cfMaxBucketKickOut 0 (fp_ne_zero shr key _)
    (kickStart_masked shr cf₂.bucketPower key coin) hstart
  exact ⟨cf', hparts.trans hkick, hk⟩

theorem upper_keys_only_kick_one : ∃ cf cf',
    countRun id (newFilter 1000) [.insert [97] (fun _ => 0) true] = some cf ∧
      cfInsert id cf [102] (fun _ => 3) false = some (0, cf') ∧
      KicksOnly (fun _ => 3) cfMaxBucketKickOut 0 cf (keyFp id cf.bucketPower [102])
        (kickStart id cf.bucketPower [102] false) cf' := by
  obtain ⟨cf, hrun, hp⟩ : ∃ cf,
      countRun id (newFilter 1000) [.insert [97] (fun _ => 0) true] = some cf ∧
        cf.bucketPower = 8 := ⟨_, rfl, rfl⟩
  have h₁ : 2^cf.bucketPower ≤ 2 * (index1 id cf.bucketPower [102]).toNat := by
    rw [hp]
    decide
  have h₂ : 2^cf.bucketPower ≤ 2 * (index2 id cf.bucketPower [102]).toNat := by
    rw [hp]
    decide
  obtain ⟨cf', hins, hk⟩ := upper_keys_only_kick id 1000 hrun [102] (fun _ => 3) false h₁ h₂
  exact ⟨cf, cf', hrun, hins, hk⟩

def slotsOf (words : List UInt32) (p : ℕ) : Finset ℕ :=
  (words.toFinset ×ˢ Finset.range bucketSize).image fun x =>
    bucketSize * (x.1 &&& masks p).toNat + x.2

theorem slotsOf_card (words : List UInt32) (p : ℕ) :
    (slotsOf words p).card ≤ words.length * bucketSize := by
  calc (slotsOf words p).card
      ≤ (words.toFinset ×ˢ Finset.range bucketSize).card := Finset.card_image_le
    _ = words.toFinset.card * bucketSize := by rw [Finset.card_product, Finset.card_range]
    _ ≤ words.length * bucketSize := Nat.mul_le_mul_right _ (List.toFinset_card_le words)

theorem mem_slotsOf {words : List UInt32} (h : KeySlot shr p key o)
    (hwords : ∀ i, Candidate shr p key i → ∃ word ∈ words, i = word &&& masks p) :
    o ∈ slotsOf words p := by
  obtain ⟨j, hj, h⟩ := h
  obtain ⟨b, hb, rfl⟩ : ∃ b, Candidate shr p key b ∧ o = bucketSize * b.toNat + j := by
    rcases h with h | h
    · exact ⟨_, Or.inl rfl, h⟩
    · exact ⟨_, Or.inr rfl, h⟩
  obtain ⟨word, hword, rfl⟩ := hwords b hb
  apply Finset.mem_image.mpr
  exact ⟨(word, j), Finset.mem_product.mpr ⟨List.mem_toFinset.mpr hword,
    Finset.mem_range.mpr hj⟩, rfl⟩

/-- Where the shift is constant a filter of any size holds at most 1024
fingerprints, however long it is used, and answers alike for keys with one
fingerprint. -/
theorem constant_shift_confines {c : UInt32} (hshr : ∀ hash, shr hash = c) (capacity : UInt32)
    {os : List Op} (hrun : countRun shr (newFilter capacity) os = some cf) :
    (usedSlots cf).card ≤ 1024 ∧ ∀ key key',
      keyFp shr cf.bucketPower key = keyFp shr cf.bucketPower key' →
        cfLookup shr cf key = cfLookup shr cf key' := by
  constructor
  · obtain ⟨-, ht⟩ := traced_run hrun
    obtain ⟨words, hlen, hwords⟩ := candidates_confined hshr
    have hsub : usedSlots cf ⊆ slotsOf words cf.bucketPower := by
      intro o ho
      rw [usedSlots, Finset.mem_filter] at ho
      obtain ⟨key, -, hslot, -⟩ := ht o ho.2
      exact mem_slotsOf hslot (hwords _ key)
    have hcard := (Finset.card_le_card hsub).trans (slotsOf_card words cf.bucketPower)
    rw [hlen] at hcard
    exact hcard
  · intro key key' hfp
    have h₁ : index1 shr cf.bucketPower key = index1 shr cf.bucketPower key' := by
      show shr _ &&& masks _ = shr _ &&& masks _
      rw [hshr, hshr]
    have h₂ : index2 shr cf.bucketPower key = index2 shr cf.bucketPower key' := by
      rw [index2, index2, hfp, h₁]
    rw [cfLookup_eq, cfLookup_eq, hfp, h₁, h₂]

theorem constant_shift_confines_one : ∃ cf,
    countRun (fun _ => 0) (newFilter 1000000) [.insert [97] (fun _ => 0) true] = some cf ∧
      (usedSlots cf).card ≤ 1024 := by
  obtain ⟨cf, hrun⟩ : ∃ cf, countRun (fun _ => 0) (newFilter 1000000)
      [.insert [97] (fun _ => 0) true] = some cf := ⟨_, rfl⟩
  exact ⟨cf, hrun, (constant_shift_confines (fun _ => rfl) 1000000 hrun).1⟩

end RtsCache.CuckooProvenance
