import RtsCache.CuckooSizing
import RtsCache.ScalableLoad

/-!
# The sizes `scf_insert` scales to

The scale factor is given the exponent of the last sub-filter in place of its
number of buckets. Eight times the exponent, rounded up to a power of two and
divided by the slots of a bucket, is never more buckets than there were,
whatever the tables.
-/

set_option autoImplicit false

namespace RtsCache.ScalableGrowth
open RtsCache.CuckooIndex RtsCache.CuckooMachine RtsCache.CuckooSpec RtsCache.CuckooSizing
open RtsCache.RunRefinement RtsCache.ScalableMachine RtsCache.ScalableLoad
open RtsCache.CuckooInserts (Settles)
open RtsCache.ScalableRuns (needScale Asks asks_iff scfInsert_eq)

structure Insertion where
  key : Key
  rand : ℕ → UInt32
  coin : Bool
  memory : Bool

def buckets (cf : CuckooFilter) : ℕ := 2^cf.bucketPower

def scaledPower (p : ℕ) : ℕ :=
  (newFilter (scfDefaultScaleFactorFunc (UInt32.ofNat p))).bucketPower

variable {p : ℕ}

theorem scale_toNat (hp : p < 31) :
    (scfDefaultScaleFactorFunc (UInt32.ofNat p)).toNat = 8 * p := by
  have hfour : (UInt32.ofNat bucketSize).toNat = 4 := rfl
  have htwo : (2 : UInt32).toNat = 2 := rfl
  rw [scfDefaultScaleFactorFunc, UInt32.toNat_mul, UInt32.toNat_mul, hfour, htwo,
    UInt32.toNat_ofNat']
  omega

theorem scaledPower_le (hp : p < 31) : scaledPower p ≤ p := by
  have hscale := scale_toNat hp
  have hsized : Sized (scfDefaultScaleFactorFunc (UInt32.ofNat p)) := by
    rw [sized_iff, hscale]
    omega
  have hbounded := hsized.bounded
  rw [hsized.power, hscale] at hbounded
  have hlt : 2^scaledPower p < 2^(p+1) := by
    have hp' : p + 1 ≤ 2^p := Nat.lt_two_pow_self
    have hcases : 4 * p ≤ 2 * 2^p := by
      cases p with
      | zero => omega
      | succ k =>
        have hk : k + 1 ≤ 2^k := Nat.lt_two_pow_self
        rw [Nat.pow_succ]
        omega
    rw [Nat.pow_succ]
    simp only [bucketSize] at hbounded
    rw [scaledPower]
    omega
  exact Nat.le_of_lt_succ ((Nat.pow_lt_pow_iff_right (by decide)).mp hlt)

/-- Nor do the sizes grow over any number of steps. -/
theorem scaledPower_iterate_le (hp : p < 31) (n : ℕ) : scaledPower^[n+1] p ≤ scaledPower^[n] p := by
  have hbound : ∀ n, scaledPower^[n] p < 31 := by
    intro n
    induction n with
    | zero => exact hp
    | succ n ih =>
      rw [Function.iterate_succ_apply']
      exact Nat.lt_of_le_of_lt (scaledPower_le ih) ih
  rw [Function.iterate_succ_apply']
  exact scaledPower_le (hbound n)

section Runs
variable [Tables]

def InsertCall (shr : UInt32 → UInt32) (scf : ScalableCuckooFilter) (x : Insertion) (r : ℤ)
    (scf' : ScalableCuckooFilter) : Prop :=
  scfInsert shr x.memory scf x.key x.rand x.coin = some (r, scf')

/-- The call follows `last` and has `cf_new` build `new`. -/
structure Creates (shr : UInt32 → UInt32) (scf : ScalableCuckooFilter) (x : Insertion)
    (last new : CuckooFilter) : Prop where
  followed : lastFilter scf = some last
  asked : Asks shr scf x.key x.rand x.coin
  built : ∃ scaleFactor, scf.scaleFactor = some scaleFactor ∧
    cfNew x.memory (scaleFactor (UInt32.ofNat last.bucketPower)) = (0, some new)

/-- Every sub-filter made in the run, behind one of which the bits of eight
times the size fit, has twice the buckets of the one before it. -/
def Grows (shr : UInt32 → UInt32) (scf : ScalableCuckooFilter) (xs : List (Insertion × ℤ)) : Prop :=
  ∀ ys x r t, ys ++ [(x, r)] <+: xs → Run (InsertCall shr) scf ys t →
    ∀ last new, 8 * buckets last < 2^32 → Creates shr t x last new →
      2 * buckets last ≤ buckets new

/-- Wherever a sub-filter can be made, the last one takes the key. -/
def NeverScales (shr : UInt32 → UInt32) (scf : ScalableCuckooFilter)
    (xs : List (Insertion × ℤ)) : Prop :=
  ∀ ys x r t, ys ++ [(x, r)] <+: xs → Run (InsertCall shr) scf ys t →
    ∀ last, x.memory = true → 8 * buckets last < 2^32 → lastFilter t = some last →
      overloaded t last = false ∧ Settles shr last x.key

variable {shr : UInt32 → UInt32} {scf scf' t : ScalableCuckooFilter} {last new : CuckooFilter}
  {x : Insertion} {r : ℤ}

theorem creates_iff (hscale : scf.scaleFactor = some scfDefaultScaleFactorFunc)
    (hlast : lastFilter scf = some last) :
    (∃ new, Creates shr scf x last new) ↔
      x.memory = true ∧ ¬ (overloaded scf last = false ∧ Settles shr last x.key) := by
  have hasks : Asks shr scf x.key x.rand x.coin ↔ _ := asks_iff hlast
  rw [not_and_or, Bool.not_eq_false, ← hasks]
  constructor
  · rintro ⟨new, -, hasked, scaleFactor, -, hbuilt⟩
    rw [cfNew] at hbuilt
    split at hbuilt
    · rename_i hmemory
      exact ⟨hmemory, hasked⟩
    · cases hbuilt
  · rintro ⟨hmemory, hasked⟩
    use newFilter (scfDefaultScaleFactorFunc (UInt32.ofNat last.bucketPower))
    refine ⟨hlast, hasked, scfDefaultScaleFactorFunc, hscale, ?_⟩
    rw [hmemory]
    rfl

theorem creates_le (hscale : scf.scaleFactor = some scfDefaultScaleFactorFunc)
    (h : Creates shr scf x last new) : buckets new ≤ buckets last := by
  obtain ⟨scaleFactor, hfactor, hbuilt⟩ := h.built
  cases hscale.symm.trans hfactor
  have hnew : new = newFilter (scfDefaultScaleFactorFunc (UInt32.ofNat last.bucketPower)) := by
    rw [cfNew] at hbuilt
    split at hbuilt
    · cases hbuilt
      rfl
    · cases hbuilt
  rw [buckets, buckets, hnew]
  exact Nat.pow_le_pow_right (by decide) (scaledPower_le last.power)

theorem insertCall_scaleFactor (h : InsertCall shr scf x r scf') :
    scf'.scaleFactor = scf.scaleFactor := by
  unfold InsertCall at h
  rw [scfInsert_eq] at h
  obtain ⟨last, -, h⟩ := Option.bind_eq_some_iff.mp h
  obtain ⟨⟨need, scf₁⟩, hneed, h⟩ := Option.bind_eq_some_iff.mp h
  have hsame : scf₁.scaleFactor = scf.scaleFactor := needScale_scaleFactor hneed
  cases need with
  | false =>
    cases h
    exact hsame
  | true =>
    obtain ⟨scaleFactor, -, h⟩ := Option.bind_eq_some_iff.mp h
    dsimp only at h
    split at h
    · cases h
      exact hsame
    · cases h

end Runs

section Sample

/-- The exponents 12 and 5: 4096 buckets are followed by 32. -/
def Shrinks [Tables] (shr : UInt32 → UInt32) : Prop := ∃ scf',
  Run (InsertCall shr) (alone elevenKeys) [(⟨[97], fun _ => 0, true, true⟩, -1)] scf' ∧
    ¬ Grows shr (alone elevenKeys) [(⟨[97], fun _ => 0, true, true⟩, -1)]

theorem elevenKeys_shrinks [Tables] (shr : UInt32 → UInt32) : Shrinks shr := by
  have hasks := elevenKeys_asks shr [97] (fun _ => 0) true
  obtain ⟨scf', hcall⟩ := (scfInsert_asks rfl rfl).mpr hasks
  have hcreates : Creates shr (alone elevenKeys) ⟨[97], fun _ => 0, true, true⟩ elevenKeys
      (newFilter (scfDefaultScaleFactorFunc 12)) :=
    ⟨rfl, hasks, scfDefaultScaleFactorFunc, rfl, rfl⟩
  use scf'
  constructor
  · exact .snoc .nil hcall
  · intro h
    have htwice := h [] _ _ (alone elevenKeys) (List.prefix_refl _) .nil _ _ (by decide) hcreates
    revert htwice
    decide

end Sample

end RtsCache.ScalableGrowth
