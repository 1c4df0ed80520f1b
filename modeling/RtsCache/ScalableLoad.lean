import RtsCache.ScalableRuns
import Mathlib.Algebra.Order.Field.Basic
import Mathlib.Algebra.Order.Field.Rat
import Mathlib.Tactic.NormNum.Ineq
import Mathlib.Tactic.NormNum.Inv
import Mathlib.Tactic.NormNum.Pow

/-!
# When `scf_insert` asks for another sub-filter

The load is tested against the exponent of the size, and the answer of
`cf_insert` is read the other way round: a sub-filter is asked for long before
the last one is full, and after most insertions that store their key. Neither
the random choices nor the tables have a part in it.
-/

set_option autoImplicit false

namespace RtsCache.ScalableLoad
open RtsCache.CuckooIndex RtsCache.CuckooMachine RtsCache.CuckooSpec RtsCache.ScalableMachine
open RtsCache.ScalableRuns (needScale Asks asks_iff scfInsert_eq)
open RtsCache.CuckooInserts (Settles cfInsert_settles)

abbrev Ratio := { q : ℚ // 0 < q ∧ q ≤ 1 }

/-- The quotient of the floats read exactly. Over 0 it is infinite, and for a
count of 0 no number, which exceeds nothing. -/
def exceeds (q : Ratio) : LoadFactor := fun count power =>
  if power = 0 then decide (0 < count) else decide ((q : ℚ) < (count.toNat : ℚ) / power)

section Decision

def internalWrites (cf : CuckooFilter) (i : ℕ) : List ℕ :=
  if bucketPresent cf i = some true then
    ((bucketScan cf.bytes (bucketSize * i) 0).map fun j => bucketSize * i + j).toList
  else []

variable {scf scf' : ScalableCuckooFilter} {cf cf' last : CuckooFilter} {key : Key}
  {rand : ℕ → UInt32} {coin : Bool} {fp : Fingerprint} {r : ℤ} {q : Ratio}

def written (bytes : Bytes) (A : List ℕ) (v : Fingerprint) : Bytes := fun o =>
  if o ∈ A then v else bytes o

theorem written_nil (bytes : Bytes) (v : Fingerprint) : written bytes [] v = bytes := by
  ext o
  simp [written]

theorem written_append (bytes : Bytes) (A B : List ℕ) (v : Fingerprint) :
    written (written bytes A v) B v = written bytes (A ++ B) v := by
  ext o
  by_cases hB : o ∈ B
  · simp [written, hB]
  · simp [written, hB]

theorem written_singleton (bytes : Bytes) (o : ℕ) (v : Fingerprint) :
    Function.update bytes o v = written bytes [o] v := by
  ext p
  simp [written, Function.update_apply]

theorem internalWrites_nil {i : ℕ} (hi : i < 2^cf.bucketPower) :
    internalWrites cf i = [] ↔ ¬ Present cf.bytes i ∨ Full cf.bytes i := by
  obtain ⟨present, hp, hiff⟩ := bucketPresent_eq hi
  have hfull : bucketScan cf.bytes (bucketSize * i) 0 = none ↔ Full cf.bytes i := bucketScan_none
  rw [internalWrites, hp, ← hiff, ← hfull]
  cases present with
  | false => simp
  | true => simp

theorem internal_written {i : UInt32} (hi : i.toNat < 2^cf.bucketPower)
    (hrun : cfInsertInternal cf fp i = some (r, cf')) :
    cf'.bytes = written cf.bytes (internalWrites cf i.toNat) fp := by
  obtain ⟨present, hp, -⟩ := bucketPresent_eq hi
  have hb := indexBucket_eq hi
  cases present with
  | false =>
    have hwrites : internalWrites cf i.toNat = [] := by
      rw [internalWrites, hp]
      rfl
    simp only [cfInsertInternal, hp] at hrun
    cases hrun
    rw [hwrites, written_nil]
  | true =>
    cases hs : bucketScan cf.bytes (bucketSize * i.toNat) 0 with
    | none =>
      have hwrites : internalWrites cf i.toNat = [] := by
        rw [internalWrites, hp, hs]
        rfl
      have hfull : cfInsertInternal cf fp i = some (1, { cf with count := cf.count + 1 }) := by
        rw [cfInsertInternal, hp]
        simp [hb, bucketInsert, hs]
      cases hrun.symm.trans hfull
      rw [hwrites, written_nil]
    | some j =>
      have hwrites : internalWrites cf i.toNat = [bucketSize * i.toNat + j] := by
        rw [internalWrites, hp, hs]
        rfl
      have hfree : cfInsertInternal cf fp i =
          some (0, storeFp cf (bucketSize * i.toNat + j) fp) := by
        rw [cfInsertInternal, hp]
        simp [hb, bucketInsert, hs, storeFp]
      cases hrun.symm.trans hfree
      rw [hwrites, ← written_singleton]
      rfl

theorem overloaded_iff (hload : scf.loadFactor = some (exceeds q)) (hp : last.bucketPower ≠ 0) :
    overloaded scf last = true ↔ (q : ℚ) * last.bucketPower < last.count.toNat := by
  have hpos : (0 : ℚ) < last.bucketPower := Nat.cast_pos.mpr (Nat.pos_of_ne_zero hp)
  rw [overloaded, hload]
  show exceeds q last.count last.bucketPower = true ↔ _
  rw [exceeds, if_neg hp, decide_eq_true_eq, lt_div_iff₀ hpos]

theorem power_le (q : Ratio) (p : ℕ) : (q : ℚ) * p ≤ q * 2^p := by
  have hle : p ≤ 2^p := Nat.le_of_lt Nat.lt_two_pow_self
  have hcast : (p : ℚ) ≤ 2^p := by exact_mod_cast hle
  exact mul_le_mul_of_nonneg_left hcast (le_of_lt q.property.1)

variable [Tables] {shr : UInt32 → UInt32}

def kickWrites (rand : ℕ → UInt32) : ℕ → ℕ → CuckooFilter → Fingerprint → UInt32 → List ℕ
  | 0, _, _, _, _ => []
  | n+1, k, cf, fp, i =>
    let o := bucketSize * i.toNat + (rand k % UInt32.ofNat bucketSize).toNat
    let cf := storeFp cf o fp
    let i := altIndex fp i cf.bucketPower
    o :: (internalWrites cf i.toNat ++
      match cfInsertInternal cf fp i with
      | some (0, cf) => kickWrites rand n (k+1) cf fp i
      | _ => [])

/-- The slots an insertion writes its fingerprint into. -/
def insertWrites (shr : UInt32 → UInt32) (cf : CuckooFilter) (key : Key) (rand : ℕ → UInt32)
    (coin : Bool) : List ℕ :=
  let fp := keyFp shr cf.bucketPower key
  let i := index1 shr cf.bucketPower key
  let j := index2 shr cf.bucketPower key
  internalWrites cf i.toNat ++
    match cfInsertInternal cf fp i with
    | some (0, cf₁) => internalWrites cf₁ j.toNat ++
      match cfInsertInternal cf₁ fp j with
      | some (0, cf₂) =>
        kickWrites rand cfMaxBucketKickOut 0 cf₂ fp (kickStart shr cf.bucketPower key coin)
      | _ => []
    | _ => []

def Stores (shr : UInt32 → UInt32) (cf : CuckooFilter) (key : Key) (rand : ℕ → UInt32)
    (coin : Bool) : Prop := insertWrites shr cf key rand coin ≠ []

structure ScalesIfNeeded (shr : UInt32 → UInt32) (q : Ratio) (scf : ScalableCuckooFilter)
    (last : CuckooFilter) (key : Key) (rand : ℕ → UInt32) (coin : Bool) : Prop where
  divisor : last.bucketPower ≠ 0
  needed : Asks shr scf key rand coin →
    (q : ℚ) * 2^last.bucketPower < last.count.toNat ∨
      (overloaded scf last = false ∧ ¬ Stores shr last key rand coin)
  spared : overloaded scf last = false → Stores shr last key rand coin →
    ¬ Asks shr scf key rand coin

/-- There is a last sub-filter to decide on, and the decision is right. -/
def Decides (shr : UInt32 → UInt32) (q : Ratio) (scf : ScalableCuckooFilter) (key : Key)
    (rand : ℕ → UInt32) (coin : Bool) : Prop :=
  ∃ last, lastFilter scf = some last ∧ ScalesIfNeeded shr q scf last key rand coin

theorem kicks_written (n k : ℕ) (cf : CuckooFilter) {i : UInt32} (hi : i.toNat < 2^cf.bucketPower)
    (hrun : cfReinsertFrom rand n k cf fp i = some (r, cf')) :
    cf'.bytes = written cf.bytes (kickWrites rand n k cf fp i) fp := by
  induction n generalizing k cf i with
  | zero =>
    cases hrun
    exact (written_nil _ _).symm
  | succ n ih =>
    obtain ⟨o, ho⟩ : ∃ o, bucketSize * i.toNat + (rand k % UInt32.ofNat bucketSize).toNat = o :=
      ⟨_, rfl⟩
    rw [cfReinsertFrom] at hrun
    simp only [indexBucket_eq hi, ho, Option.bind_eq_bind, Option.bind_some] at hrun
    rw [kickWrites, ho]
    have halt : (altIndex fp i (storeFp cf o fp).bucketPower).toNat <
        2^(storeFp cf o fp).bucketPower :=
      altIndex_lt fp i _ (Nat.lt_trans cf.power (by decide))
    obtain ⟨r₁, cf₁, hins, hint⟩ := cfInsertInternal_spec fp halt
    have hfirst : cf₁.bytes = written cf.bytes
        ([o] ++ internalWrites (storeFp cf o fp)
          (altIndex fp i (storeFp cf o fp).bucketPower).toNat) fp := by
      rw [internal_written halt hins, ← written_append, ← written_singleton]
      rfl
    rw [hins] at hrun
    rw [hins, ← List.singleton_append, ← List.append_assoc, ← written_append, ← hfirst]
    rcases hint.result with ⟨rfl, -⟩ | ⟨rfl, -⟩
    · exact ih (k+1) cf₁ (hint.power.symm ▸ halt) hrun
    · cases hrun
      exact (written_nil _ _).symm

theorem insert_written (hrun : cfInsert shr cf key rand coin = some (r, cf')) :
    cf'.bytes = written cf.bytes (insertWrites shr cf key rand coin)
      (keyFp shr cf.bucketPower key) := by
  obtain ⟨r₁, cf₁, r₂, cf₂, hins₁, hint₁, hins₂, hint₂, hparts⟩ :=
    cfInsert_parts shr cf key rand coin
  have hi := index1_lt shr cf key
  have hj : (index2 shr cf.bucketPower key).toNat < 2^cf₁.bucketPower := by
    rw [hint₁.power]
    exact index2_lt shr cf key
  have hfirst := internal_written hi hins₁
  have hsecond := internal_written hj hins₂
  rw [hparts] at hrun
  rw [insertWrites]
  rw [hins₁, ← written_append, ← hfirst]
  rcases hint₁.result with ⟨rfl, -⟩ | ⟨rfl, -⟩
  · simp only [hins₂]
    rw [← written_append, ← hsecond]
    rcases hint₂.result with ⟨rfl, -⟩ | ⟨rfl, -⟩
    · have hstart : (kickStart shr cf.bucketPower key coin).toNat < 2^cf₂.bucketPower := by
        rw [hint₂.power, hint₁.power]
        exact kickStart_lt shr cf key coin
      exact kicks_written cfMaxBucketKickOut 0 cf₂ hstart hrun
    · cases hrun
      exact (written_nil _ _).symm
  · cases hrun
    exact (written_nil _ _).symm

theorem stores_iff : Stores shr cf key rand coin ↔ ¬ Misreported shr cf key := by
  obtain ⟨r₁, cf₁, r₂, cf₂, hins₁, hint₁, hins₂, hint₂, -⟩ := cfInsert_parts shr cf key rand coin
  have hi := index1_lt shr cf key
  have hj := index2_lt shr cf key
  unfold Stores insertWrites
  dsimp only
  rw [hins₁]
  cases hint₁ with
  | jammed h =>
    have hnone := (internalWrites_nil hi).mpr (Or.inr h.2)
    rw [hnone]
    exact iff_of_false (fun h => h rfl) (fun hn => hn (Or.inl h))
  | absent h =>
    have hnone := (internalWrites_nil hi).mpr (Or.inl h)
    simp only [hnone, hins₂]
    rcases hint₂.result with ⟨rfl, -⟩ | ⟨rfl, -, -, hjam⟩
    · apply iff_of_true
      · simp [kickWrites, cfMaxBucketKickOut]
      · rintro (hjam | ⟨-, hjam⟩)
        · exact h hjam.1
        · exact hint₂.not_jammed rfl hjam
    · have hnone₂ := (internalWrites_nil hj).mpr (Or.inr hjam.2)
      rw [hnone₂]
      exact iff_of_false (fun h => h rfl) (fun hn => hn (Or.inr ⟨h, hjam⟩))
  | stored l present hl free =>
    have hfull : ¬ Full cf.bytes (index1 shr cf.bucketPower key).toNat := fun h => h l hl free
    have hsome : internalWrites cf (index1 shr cf.bucketPower key).toNat ≠ [] := by
      rw [ne_eq, internalWrites_nil hi]
      rintro (h | h)
      · exact h present
      · exact hfull h
    apply iff_of_true
    · simp [hsome]
    · rintro (hjam | ⟨h, -⟩)
      · exact hfull hjam.2
      · exact h present

theorem needScale_scaleFactor {need : Bool}
    (h : needScale shr scf last key rand coin = some (need, scf')) :
    scf'.scaleFactor = scf.scaleFactor := by
  rw [needScale] at h
  split at h
  · cases h
    rfl
  · obtain ⟨⟨r, cf'⟩, -, h⟩ := Option.bind_eq_some_iff.mp h
    cases h
    rfl

theorem scfInsert_asks (hlast : lastFilter scf = some last) (hscale : scf.scaleFactor.isSome) :
    (∃ scf', scfInsert shr true scf key rand coin = some (-1, scf')) ↔
      Asks shr scf key rand coin := by
  obtain ⟨scale, hscale⟩ := Option.isSome_iff_exists.mp hscale
  obtain ⟨need, scf₁, hneed⟩ : ∃ need scf₁,
      needScale shr scf last key rand coin = some (need, scf₁) := by
    obtain ⟨r, cf', hrun, -⟩ := cfInsert_spec shr last key rand coin
    rw [needScale]
    split
    · exact ⟨true, scf, rfl⟩
    · rw [hrun]
      exact ⟨_, _, rfl⟩
  have hsame := needScale_scaleFactor hneed
  rw [scfInsert_eq, hlast, Option.bind_some, hneed, Option.bind_some, hsame, hscale]
  cases need with
  | false =>
    apply iff_of_false
    · rintro ⟨scf', h⟩
      cases h
    · rintro ⟨last', scf', hlast', h⟩
      cases hlast.symm.trans hlast'
      cases hneed.symm.trans h
  | true => exact iff_of_true ⟨scf₁, rfl⟩ ⟨last, scf₁, hlast, hneed⟩

theorem scalesIfNeeded_iff (hlast : lastFilter scf = some last)
    (hload : scf.loadFactor = some (exceeds q)) :
    ScalesIfNeeded shr q scf last key rand coin ↔
      last.bucketPower ≠ 0 ∧ ((q : ℚ) * 2^last.bucketPower < last.count.toNat ∨
        ((last.count.toNat : ℚ) ≤ q * last.bucketPower ∧
          (Settles shr last key ∨ Misreported shr last key))) := by
  have hasks : Asks shr scf key rand coin ↔ overloaded scf last = true ∨ ¬ Settles shr last key :=
    asks_iff hlast
  have hstores : Stores shr last key rand coin ↔ ¬ Misreported shr last key := stores_iff
  constructor
  · rintro ⟨divisor, needed, spared⟩
    have hover := overloaded_iff hload divisor
    apply And.intro divisor
    by_cases hload' : overloaded scf last = true
    · rcases needed (hasks.mpr (Or.inl hload')) with h | ⟨h, -⟩
      · exact Or.inl h
      · exact absurd hload' (by rw [h]; decide)
    · have hbelow := Bool.eq_false_iff.mpr hload'
      have hlow := not_lt.mp fun h => hload' (hover.mpr h)
      apply Or.inr (And.intro hlow _)
      by_contra hneither
      obtain ⟨hsettles, hmis⟩ := not_or.mp hneither
      exact spared hbelow (hstores.mpr hmis) (hasks.mpr (Or.inr hsettles))
  · rintro ⟨divisor, hcond⟩
    have hover := overloaded_iff hload divisor
    rcases hcond with hfull | ⟨hlow, hinsert⟩
    · have hload' : overloaded scf last = true :=
        hover.mpr (lt_of_le_of_lt (power_le q last.bucketPower) hfull)
      constructor
      · exact divisor
      · exact fun _ => Or.inl hfull
      · intro h
        exact absurd hload' (by rw [h]; decide)
    · have hbelow : overloaded scf last = false :=
        Bool.eq_false_iff.mpr fun h => absurd (hover.mp h) (not_lt.mpr hlow)
      have hneed : Asks shr scf key rand coin → ¬ Stores shr last key rand coin := by
        intro ha
        have hsettles := (hasks.mp ha).resolve_left (by rw [hbelow]; decide)
        rw [hstores, not_not]
        exact hinsert.resolve_left hsettles
      constructor
      · exact divisor
      · exact fun ha => Or.inr ⟨hbelow, hneed ha⟩
      · exact fun _ hst ha => hneed ha hst

end Decision

section Sample
attribute [local instance] zeroTables

def nineTenths : Ratio := ⟨9 / 10, by norm_num, by norm_num⟩

def alone (cf : CuckooFilter) : ScalableCuckooFilter where
  loadFactor := some (exceeds nineTenths)
  scaleFactor := some scfDefaultScaleFactorFunc
  filterCount := 1
  capacity := cfSDefaultCapacity.toUInt64
  filters := some [some cf]

def elevenKeys : CuckooFilter := { newFilter cfSDefaultCapacity with count := 11 }

theorem elevenKeys_overloaded : overloaded (alone elevenKeys) elevenKeys = true := by
  apply (overloaded_iff (q := nineTenths) rfl (by decide)).mpr
  show (9 / 10 : ℚ) * (12 : ℕ) < (11 : ℕ)
  norm_num

theorem elevenKeys_asks [Tables] (shr : UInt32 → UInt32) (key : Key) (rand : ℕ → UInt32)
    (coin : Bool) : Asks shr (alone elevenKeys) key rand coin :=
  (asks_iff rfl).mpr (Or.inl elevenKeys_overloaded)

theorem elevenKeys_not_needed [Tables] (shr : UInt32 → UInt32) :
    ¬ Decides shr nineTenths (alone elevenKeys) [97] (fun _ => 0) true := by
  rintro ⟨last, hlast, h⟩
  have hsame : last = elevenKeys := (Option.some_inj.mp hlast).symm
  rw [hsame] at h
  rcases h.needed (elevenKeys_asks shr _ _ _) with hload | ⟨hbelow, -⟩
  · have hload' : (9 / 10 : ℚ) * 2^12 < (11 : ℕ) := hload
    norm_num at hload'
  · rw [elevenKeys_overloaded] at hbelow
    cases hbelow

end Sample

end RtsCache.ScalableLoad
