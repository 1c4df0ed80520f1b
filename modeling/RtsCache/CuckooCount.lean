import RtsCache.CuckooSpec
import RtsCache.RunRefinement
import Mathlib.Data.Finset.Card
import Mathlib.Data.Finset.Range

/-!
# The count of the cuckoo filter

`count` goes up where nothing is stored and stays where something is. The
first insertion into a new filter leaves it wrong whatever the random choices
are; as long as nothing is inserted it stays right, except that `cf_reset`
clears four buckets and a filter of one bucket has no room for them.
-/

set_option autoImplicit false

namespace RtsCache.CuckooCount
open RtsCache.CuckooIndex RtsCache.CuckooMachine RtsCache.CuckooSpec RtsCache.TableOverlay

inductive Op where
  | insert (key : Key) (rand : ℕ → UInt32) (coin : Bool)
  | insertUnique (key : Key) (rand : ℕ → UInt32) (coin : Bool)
  | delete (key : Key)
  | reset

def countStep [Tables] (shr : UInt32 → UInt32) (cf : CuckooFilter) : Op → Option (ℤ × CuckooFilter)
  | .insert key rand coin => cfInsert shr cf key rand coin
  | .insertUnique key rand coin => cfInsertUnique shr cf key rand coin
  | .delete key => cfDelete shr cf key
  | .reset => cfReset cf

def countRun [Tables] (shr : UInt32 → UInt32) (cf : CuckooFilter) (os : List Op) :
    Option CuckooFilter :=
  os.foldlM (fun cf o => (countStep shr cf o).map Prod.snd) cf

def usedSlots (cf : CuckooFilter) : Finset ℕ :=
  (Finset.range (bucketSize * 2^cf.bucketPower)).filter fun o => cf.bytes o ≠ 0

def Accounted (cf : CuckooFilter) : Prop := cf.count.toNat = (usedSlots cf).card

/-- How the count may change: up with an insertion reported as stored, down
with a deletion that freed a slot; a reset clears it. -/
def CountKept (shr : UInt32 → UInt32) (cf : CuckooFilter) (r : ℤ) (cf' : CuckooFilter) :
    Op → Prop
  | .insert _ _ _ => cf'.count = if r = 0 then cf.count + 1 else cf.count
  | .insertUnique key _ _ =>
    cf'.count = if r = 0 ∧ cfLookup shr cf key = some 0 then cf.count + 1 else cf.count
  | .delete _ => (cf'.bytes = cf.bytes → cf'.count = cf.count) ∧
      (cf'.bytes ≠ cf.bytes → cf'.count = cf.count - 1)
  | .reset => cf'.count = 0

/-- Every call of the run returns, with the count right before and after it. -/
def Accounts (shr : UInt32 → UInt32) (cf₀ : CuckooFilter) (os : List Op) : Prop :=
  ∀ pre o, pre ++ [o] <+: os → ∃ cf r cf', countRun shr cf₀ pre = some cf ∧
    countStep shr cf o = some (r, cf') ∧ Accounted cf ∧ Accounted cf' ∧ CountKept shr cf r cf' o

/-- A deletion, or a reset of a filter of more than one bucket. -/
def Quiet (p : ℕ) (o : Op) : Prop := (∃ key, o = .delete key) ∨ (o = .reset ∧ 1 ≤ p)

def NoInsertion (p : ℕ) (os : List Op) : Prop := ∀ o ∈ os, Quiet p o

variable {shr : UInt32 → UInt32} {cf cf' : CuckooFilter} {i : ℕ} {r : ℤ} {key : Key}
  {rand : ℕ → UInt32} {coin : Bool} {capacity : UInt32}

theorem mem_usedSlots {j : ℕ} (hi : i < 2^cf.bucketPower) (hj : j < bucketSize)
    (hne : cf.bytes (bucketSize * i + j) ≠ 0) : bucketSize * i + j ∈ usedSlots cf := by
  rw [usedSlots, Finset.mem_filter, Finset.mem_range]
  refine ⟨?_, hne⟩
  simp only [bucketSize] at hj ⊢
  omega

theorem one_lt_used (hi : i < 2^cf.bucketPower) (hf : Full cf.bytes i) :
    1 < (usedSlots cf).card := by
  apply Finset.one_lt_card.mpr
  refine ⟨_, mem_usedSlots hi (by decide) (hf 0 (by decide)), _,
    mem_usedSlots hi (by decide) (hf 1 (by decide)), ?_⟩
  omega

theorem used_pos (hh : Held shr cf key) : 0 < (usedSlots cf).card := by
  obtain ⟨o, ⟨j, hj, ho⟩, hv⟩ := hh
  have hne : cf.bytes o ≠ 0 := by
    rw [hv]
    exact fp_ne_zero shr key _
  apply Finset.card_pos.mpr
  rcases ho with rfl | rfl
  · exact ⟨_, mem_usedSlots (index1_lt shr cf key) hj hne⟩
  · exact ⟨_, mem_usedSlots (index2_lt shr cf key) hj hne⟩

theorem insert_not_accounted (hc : cf.count = 0)
    (hrun : cfInsert shr cf key rand coin = some (r, cf')) : ¬ Accounted cf' := by
  obtain ⟨r', cf'', hrun', hins⟩ := cfInsert_spec shr cf key rand coin
  cases hrun.symm.trans hrun'
  intro ha
  have hone : (0 + 1 : UInt64).toNat = 1 := rfl
  have hzero : (0 : UInt64).toNat = 0 := rfl
  unfold Accounted at ha
  cases hins with
  | misreported h bytes power count full none =>
    obtain ⟨i, hi, hf⟩ := full
    have := one_lt_used (power.symm ▸ hi) hf
    rw [count, hc, hone] at ha
    omega
  | stored h held overlaid power count full none =>
    obtain ⟨i, hi, hf⟩ := full
    have := one_lt_used (power.symm ▸ hi) hf
    rw [count, hc, hone] at ha
    omega
  | kicked h held overlaid power result =>
    rcases result with ⟨-, count⟩ | ⟨-, count, i, hi, hf⟩
    · have := used_pos held
      rw [count, hc, hzero] at ha
      omega
    · have := one_lt_used (power.symm ▸ hi) hf
      rw [count, hc, hone] at ha
      omega

theorem newFilter_accounted (capacity : UInt32) : Accounted (newFilter capacity) := by
  have hnone : usedSlots (newFilter capacity) = ∅ := by
    simp [usedSlots, newFilter]
  rw [Accounted, hnone]
  rfl

theorem newFilter_not_held (capacity : UInt32) (key : Key) :
    ¬ Held shr (newFilter capacity) key := by
  rintro ⟨o, -, hv⟩
  exact fp_ne_zero shr key _ hv.symm

theorem filter_ext (hc : cf'.count = cf.count) (hp : cf'.bucketPower = cf.bucketPower)
    (hb : cf'.bytes = cf.bytes) : cf' = cf := by
  obtain ⟨count, p, limit, bytes, hpow, hroom⟩ := cf
  obtain ⟨count', p', limit', bytes', hpow', hroom'⟩ := cf'
  subst hroom hroom'
  cases hc
  cases hp
  cases hb
  rfl

theorem delete_newFilter (shr : UInt32 → UInt32) (capacity : UInt32) (key : Key) :
    ∃ r, cfDelete shr (newFilter capacity) key = some (r, newFilter capacity) := by
  obtain ⟨r, cf', hrun, hd⟩ := cfDelete_spec shr (newFilter capacity) key
  have hsame : cf' = newFilter capacity := by
    apply filter_ext _ hd.power
    · funext o
      by_cases ho : o ∈ freed shr (newFilter capacity) key
      · exact hd.overlaid.written o ho
      · rcases hd.overlaid.rest o ho with h | ⟨-, h⟩
        · exact h
        · exact h
    · rcases hd.count with h | h
      · exact h
      · exact h
  exact ⟨r, hsame ▸ hrun⟩

theorem indexBucket_reset (hp : 1 ≤ cf.bucketPower) (hi : i < bucketSize) :
    indexBucket cf i = some (bucketSize * i) := by
  have hpow : 2^1 ≤ 2^cf.bucketPower := Nat.pow_le_pow_right (by decide) hp
  have hroom := cf.room
  simp only [sizeofPointer, bucketSize] at hroom hi
  have hle : bucketSize * (i + 1) ≤ cf.limit := by
    simp only [bucketSize]
    omega
  rw [indexBucket, if_pos hle]

theorem resetLoop_eq (is : List ℕ) (his : ∀ i ∈ is, i < bucketSize) (cf : CuckooFilter)
    (hp : 1 ≤ cf.bucketPower) : is.foldlM resetBucket cf =
      some { cf with
        bytes := is.foldl (fun bytes i => bucketReset bytes (bucketSize * i)) cf.bytes } := by
  induction is generalizing cf with
  | nil => rfl
  | cons i is ih =>
    have hi := indexBucket_reset hp (his i List.mem_cons_self)
    rw [List.foldlM_cons, resetBucket, hi]
    exact ih (fun i h => his i (List.mem_cons_of_mem _ h)) _ hp

theorem cfReset_spec (hp : 1 ≤ cf.bucketPower) :
    ∃ cf', cfReset cf = some (0, cf') ∧ cf'.count = 0 ∧ cf'.bucketPower = cf.bucketPower ∧
      ∀ o, cf'.bytes o = if o < bucketSize * bucketSize then 0 else cf.bytes o := by
  have hloop := resetLoop_eq (List.range bucketSize) (fun i h => List.mem_range.mp h) cf hp
  refine ⟨{ cf with
    count := 0
    bytes := (List.range bucketSize).foldl (fun bytes i => bucketReset bytes (bucketSize * i))
      cf.bytes }, ?_, rfl, rfl, fun o => ?_⟩
  · rw [cfReset, hloop]
    rfl
  · rw [show List.range bucketSize = [0, 1, 2, 3] from rfl]
    simp only [List.foldl_cons, List.foldl_nil, bucketReset, bucketSize]
    grind

theorem resetLoop_stuck (is : List ℕ) (his : ∃ i ∈ is, ¬ bucketSize * (i + 1) ≤ cf.limit) :
    is.foldlM resetBucket cf = none := by
  induction is generalizing cf with
  | nil =>
    obtain ⟨i, hi, -⟩ := his
    cases hi
  | cons i is ih =>
    rw [List.foldlM_cons, resetBucket, indexBucket]
    split
    · rename_i hle
      apply ih
      obtain ⟨j, hj, hlt⟩ := his
      rcases List.mem_cons.mp hj with rfl | hj
      · exact absurd hle hlt
      · exact ⟨j, hj, hlt⟩
    · rfl

theorem cfReset_stuck (hp : cf.bucketPower = 0) : cfReset cf = none := by
  have hlimit : cf.limit = 8 := by
    rw [cf.room, hp]
    rfl
  have hthird : ∃ i ∈ List.range bucketSize, ¬ bucketSize * (i + 1) ≤ cf.limit := by
    rw [hlimit]
    exact ⟨2, by decide, by decide⟩
  rw [cfReset, resetLoop_stuck _ hthird]
  rfl

theorem reset_newFilter (hp : 1 ≤ (newFilter capacity).bucketPower) :
    cfReset (newFilter capacity) = some (0, newFilter capacity) := by
  obtain ⟨cf', hrun, hcount, hpower, hbytes⟩ := cfReset_spec hp
  have hsame : cf' = newFilter capacity := by
    apply filter_ext hcount hpower
    funext o
    rw [hbytes]
    split <;> rfl
  rw [hrun, hsame]

theorem step_newFilter (shr : UInt32 → UInt32) {o : Op}
    (ho : Quiet (newFilter capacity).bucketPower o) :
    ∃ r, countStep shr (newFilter capacity) o = some (r, newFilter capacity) := by
  rcases ho with ⟨key, rfl⟩ | ⟨rfl, hp⟩
  · exact delete_newFilter shr capacity key
  · exact ⟨0, reset_newFilter hp⟩

/-- Any other call on a new filter gets stuck or leaves the count wrong. -/
theorem quiet_of_accounted {o : Op}
    (hrun : countStep shr (newFilter capacity) o = some (r, cf')) (ha : Accounted cf') :
    Quiet (newFilter capacity).bucketPower o := by
  cases o with
  | insert key rand coin => exact absurd ha (insert_not_accounted rfl hrun)
  | insertUnique key rand coin =>
    have hlookup : cfLookup shr (newFilter capacity) key = some 0 := by
      rcases cfLookup_spec shr (newFilter capacity) key with ⟨-, hh⟩ | ⟨h, -⟩
      · exact absurd hh (newFilter_not_held capacity key)
      · exact h
    have hinsert : cfInsert shr (newFilter capacity) key rand coin = some (r, cf') := by
      rw [countStep, cfInsertUnique, hlookup] at hrun
      exact hrun
    exact absurd ha (insert_not_accounted rfl hinsert)
  | delete key => exact Or.inl ⟨key, rfl⟩
  | reset =>
    by_cases hp : (newFilter capacity).bucketPower = 0
    · have hstuck : cfReset (newFilter capacity) = some (r, cf') := hrun
      rw [cfReset_stuck hp] at hstuck
      cases hstuck
    · exact Or.inr ⟨rfl, Nat.one_le_iff_ne_zero.mpr hp⟩

theorem countRun_snoc (shr : UInt32 → UInt32) (cf : CuckooFilter) (os : List Op) (o : Op) :
    countRun shr cf (os ++ [o]) =
      (countRun shr cf os).bind fun cf => (countStep shr cf o).map Prod.snd := by
  rw [countRun, List.foldlM_append]
  apply bind_congr
  intro cf
  simp

theorem countRun_newFilter (shr : UInt32 → UInt32) {os : List Op}
    (hos : ∀ o ∈ os, Quiet (newFilter capacity).bucketPower o) :
    countRun shr (newFilter capacity) os = some (newFilter capacity) := by
  induction os using List.reverseRecOn with
  | nil => rfl
  | append_singleton os o ih =>
    obtain ⟨r, hr⟩ := step_newFilter shr (hos o (by simp))
    rw [countRun_snoc, ih fun o ho => hos o (List.mem_append_left _ ho), Option.bind_some, hr]
    rfl

/-- The count is right throughout exactly the runs that insert nothing. -/
theorem accounts_iff_no_insertion (shr : UInt32 → UInt32) (capacity : UInt32) (os : List Op) :
    Accounts shr (newFilter capacity) os ↔ NoInsertion (newFilter capacity).bucketPower os := by
  constructor
  · intro h
    induction os using List.reverseRecOn with
    | nil => exact fun o ho => absurd ho List.not_mem_nil
    | append_singleton os o ih =>
      have hos := ih fun pre o' hp => h pre o' (hp.trans (List.prefix_append os [o]))
      obtain ⟨cf, r, cf', hpre, hrun, -, ha, -⟩ := h os o (List.prefix_refl _)
      cases (countRun_newFilter shr hos).symm.trans hpre
      intro o' ho'
      rcases List.mem_append.mp ho' with ho' | ho'
      · exact hos o' ho'
      · exact List.mem_singleton.mp ho' ▸ quiet_of_accounted hrun ha
  · intro h pre o hp
    have hmem : ∀ o' ∈ pre ++ [o], Quiet (newFilter capacity).bucketPower o' :=
      fun o' ho' => h o' (hp.subset ho')
    have hpre := countRun_newFilter shr fun o' ho' => hmem o' (List.mem_append_left _ ho')
    have ho := hmem o (by simp)
    obtain ⟨r, hr⟩ := step_newFilter shr ho
    have hnew := newFilter_accounted capacity
    refine ⟨_, r, _, hpre, hr, hnew, hnew, ?_⟩
    rcases ho with ⟨key, rfl⟩ | ⟨rfl, -⟩
    · exact ⟨fun _ => rfl, fun hne => absurd rfl hne⟩
    · rfl

/-- One insertion into a new filter stores a fingerprint and counts nothing. -/
theorem stored_not_counted :
    ¬ Accounts id (newFilter 1000) [.insert [97] (fun _ => 0) true] ∧
      ∃ cf', cfInsert id (newFilter 1000) [97] (fun _ => 0) true = some (0, cf') ∧
        cf'.count = 0 ∧ cfLookup id cf' [97] = some 1 := by
  obtain ⟨cf', hrun, hcount, hlookup⟩ : ∃ cf',
      cfInsert id (newFilter 1000) [97] (fun _ => 0) true = some (0, cf') ∧ cf'.count = 0 ∧
        cfLookup id cf' [97] = some 1 := ⟨_, rfl, rfl, rfl⟩
  refine ⟨?_, cf', hrun, hcount, hlookup⟩
  intro h
  obtain ⟨cf, r, cf'', hpre, hstep, -, ha, -⟩ := h [] _ (List.prefix_refl _)
  cases hpre
  cases hrun.symm.trans hstep
  have hpos := used_pos (lookup_iff.mp hlookup)
  rw [Accounted, hcount] at ha
  exact absurd hpos (ha ▸ Nat.lt_irrefl 0)

end RtsCache.CuckooCount
