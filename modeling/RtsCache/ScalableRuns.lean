import RtsCache.ScalableMachine
import RtsCache.CuckooInserts
import RtsCache.CuckooRuns

/-!
# Runs of the scalable cuckoo filter

A run starts with one sub-filter of the default capacity in place. `cf_insert`
answers 0 where it has stored a key, which `scf_insert` takes for saturation,
and `cf_new` answers 0 where it has made a filter, which `scf_insert` takes for
a failure: every attempt to scale ends with -1 and the one sub-filter there
was. An insertion is reported only where the kicks stop at a full bucket. What
is proved holds for any tables, filled by `init` or not.
-/

set_option autoImplicit false

namespace RtsCache.ScalableRuns
open RtsCache.CuckooIndex RtsCache.CuckooMachine RtsCache.CuckooSpec RtsCache.TableOverlay
open RtsCache.RunRefinement RtsCache.ScalableMachine
open RtsCache.CuckooRuns (HeldOutside held_after_insert)
open RtsCache.CuckooInserts (Settles cfInsert_settles)

structure Op where
  unique : Bool
  key : Key
  rand : ℕ → UInt32
  coin : Bool

/-- `reported` are the keys whose insertion answered 1. -/
structure Tracked where
  scf : ScalableCuckooFilter
  reported : List Key

def start (load : LoadFactor) (scale : UInt32 → UInt32) : Tracked where
  scf := {
    loadFactor := some load
    scaleFactor := some scale
    filterCount := 1
    capacity := cfSDefaultCapacity.toUInt64
    filters := some [some (newFilter cfSDefaultCapacity)] }
  reported := []

structure Single (scf : ScalableCuckooFilter) (cf : CuckooFilter) : Prop where
  filters : scf.filters = some [some cf]
  count : scf.filterCount = 1
  factor : scf.scaleFactor.isSome = true

variable {scf : ScalableCuckooFilter} {cf : CuckooFilter}

theorem lastIndex_single (hs : Single scf cf) : lastIndex scf = 0 := by
  rw [lastIndex, hs.count]
  rfl

theorem lastFilter_single (hs : Single scf cf) : lastFilter scf = some cf := by
  rw [lastFilter, lastIndex_single hs, hs.filters]
  rfl

theorem setLast_single (hs : Single scf cf) (cf' : CuckooFilter) :
    Single (setLast scf cf') cf' := by
  constructor
  · rw [setLast, lastIndex_single hs, hs.filters]
    rfl
  · exact hs.count
  · exact hs.factor

theorem start_single (load : LoadFactor) (scale : UInt32 → UInt32) :
    Single (start load scale).scf (newFilter cfSDefaultCapacity) := ⟨rfl, rfl, rfl⟩

section Runs
variable [Tables]

def call (shr : UInt32 → UInt32) (scf : ScalableCuckooFilter) (o : Op) :
    Option (ℤ × ScalableCuckooFilter) :=
  if o.unique then scfInsertUnique shr true scf o.key o.rand o.coin
  else scfInsert shr true scf o.key o.rand o.coin

def ScalableCall (shr : UInt32 → UInt32) (t : Tracked) (o : Op) (r : ℤ) (t' : Tracked) : Prop :=
  call shr t.scf o = some (r, t'.scf) ∧
    t'.reported = if r = 1 then o.key :: t.reported else t.reported

def Found (shr : UInt32 → UInt32) (t : Tracked) : Prop :=
  ∀ key ∈ t.reported, scfLookup shr t.scf key = some 1

/-- `needScale` of `scf_insert`, and the sub-filters at that point. -/
def needScale (shr : UInt32 → UInt32) (scf : ScalableCuckooFilter) (last : CuckooFilter) (key : Key)
    (rand : ℕ → UInt32) (coin : Bool) : Option (Bool × ScalableCuckooFilter) :=
  if overloaded scf last then some (true, scf) else do
    let (inserted, cf) ← cfInsert shr last key rand coin
    some (decide (inserted = 0), setLast scf cf)

def Asks (shr : UInt32 → UInt32) (scf : ScalableCuckooFilter) (key : Key) (rand : ℕ → UInt32)
    (coin : Bool) : Prop :=
  ∃ last scf', lastFilter scf = some last ∧ needScale shr scf last key rand coin = some (true, scf')

structure Grows (shr : UInt32 → UInt32) (scf : ScalableCuckooFilter) (key : Key) (r : ℤ)
    (scf' : ScalableCuckooFilter) : Prop where
  result : r = 1
  count : scf'.filterCount = scf.filterCount + 1
  appended : ∃ filters fresh, scf.filters = some filters ∧
    scf'.filters = some (filters ++ [some fresh]) ∧ Held shr fresh key

def Inserts (shr : UInt32 → UInt32) (scf : ScalableCuckooFilter) (o : Op) : Prop :=
  o.unique = true → scfLookup shr scf o.key = some 0

def GrowsIfScaling (shr : UInt32 → UInt32) (t : Tracked) (o : Op) (r : ℤ) (t' : Tracked) : Prop :=
  Inserts shr t.scf o → Asks shr t.scf o.key o.rand o.coin → Grows shr t.scf o.key r t'.scf

/-- The last sub-filter can take the key: it is not over the load and its
buckets are as `Settles` has them. -/
def Takes (shr : UInt32 → UInt32) (scf : ScalableCuckooFilter) (key : Key) : Prop :=
  ∃ last, lastFilter scf = some last ∧ overloaded scf last = false ∧ Settles shr last key

/-- A call that inserts finds a sub-filter that takes its key, and its kicks
spare a copy for every reported key with another fingerprint. -/
def StepOk (shr : UInt32 → UInt32) (t : Tracked) (o : Op) : Prop :=
  Inserts shr t.scf o → Takes shr t.scf o.key ∧
    ∀ cf, lastFilter t.scf = some cf → ∀ k ∈ t.reported,
      keyFp shr cf.bucketPower k ≠ keyFp shr cf.bucketPower o.key →
        HeldOutside shr cf (overwritten shr cf o.key o.rand o.coin) k

def OneFilter (t : Tracked) : Prop := ∃ cf, Single t.scf cf

variable {shr : UInt32 → UInt32} {scf' : ScalableCuckooFilter} {cf' : CuckooFilter}
  {key : Key} {rand : ℕ → UInt32} {coin : Bool} {o : Op} {r : ℤ} {t t' : Tracked}
  {load : LoadFactor} {scale : UInt32 → UInt32}

theorem lookup_single (shr : UInt32 → UInt32) (hs : Single scf cf) (key : Key) :
    (scfLookup shr scf key = some 1 ∧ Held shr cf key) ∨
      (scfLookup shr scf key = some 0 ∧ ¬ Held shr cf key) := by
  have hrange : List.range scf.filterCount.toNat = [0] := by
    rw [hs.count]
    rfl
  have hrun : scfLookup shr scf key =
      (cfLookup shr cf key).bind fun found => if found ≠ 0 then some 1 else some 0 := by
    rw [scfLookup, hs.filters, hrange]
    rfl
  rcases cfLookup_spec shr cf key with ⟨h, hh⟩ | ⟨h, hh⟩
  · rw [hrun, h]
    exact Or.inl ⟨rfl, hh⟩
  · rw [hrun, h]
    exact Or.inr ⟨rfl, hh⟩

theorem lookup_single_iff (hs : Single scf cf) (key : Key) :
    scfLookup shr scf key = some 1 ↔ Held shr cf key := by
  rcases lookup_single shr hs key with ⟨h, hh⟩ | ⟨h, hh⟩
  · exact ⟨fun _ => hh, fun _ => h⟩
  · constructor
    · intro h'
      cases h.symm.trans h'
    · exact fun h' => absurd h' hh

theorem scfInsert_eq (shr : UInt32 → UInt32) (memory : Bool) (scf : ScalableCuckooFilter)
    (key : Key) (rand : ℕ → UInt32) (coin : Bool) :
    scfInsert shr memory scf key rand coin = (lastFilter scf).bind fun last =>
      (needScale shr scf last key rand coin).bind fun x =>
        if ¬ x.1 then some (1, x.2)
        else x.2.scaleFactor.bind fun scaleFactor =>
          if (cfNew memory (scaleFactor (UInt32.ofNat last.bucketPower))).1 = 0 then some (-1, x.2)
          else none := by
  rw [scfInsert]
  cases lastFilter scf with
  | none => rfl
  | some last =>
    simp only [needScale, Option.bind_eq_bind, Option.bind_some]
    split
    · rfl
    · rw [Option.bind_assoc]
      rfl

theorem asks_iff (hlast : lastFilter scf = some cf) : Asks shr scf key rand coin ↔
    overloaded scf cf = true ∨ ¬ Settles shr cf key := by
  obtain ⟨r, cf', hrun, -⟩ := cfInsert_spec shr cf key rand coin
  have hneed : Asks shr scf key rand coin ↔
      ∃ scf', needScale shr scf cf key rand coin = some (true, scf') := by
    constructor
    · rintro ⟨last', scf', hlast', h⟩
      cases hlast.symm.trans hlast'
      exact ⟨scf', h⟩
    · rintro ⟨scf', h⟩
      exact ⟨cf, scf', hlast, h⟩
  rw [hneed, needScale]
  by_cases hload : overloaded scf cf = true
  · rw [if_pos hload]
    exact iff_of_true ⟨scf, rfl⟩ (Or.inl hload)
  · rw [if_neg hload, or_iff_right hload, hrun]
    rcases cfInsert_settles hrun with ⟨rfl, h⟩ | ⟨rfl, h⟩
    · apply iff_of_false _ (not_not.mpr h)
      rintro ⟨scf', h'⟩
      cases h'
    · exact iff_of_true ⟨_, rfl⟩ h

theorem asks_iff_not_takes (hlast : lastFilter scf = some cf) :
    Asks shr scf key rand coin ↔ ¬ Takes shr scf key := by
  have htakes : Takes shr scf key ↔ overloaded scf cf = false ∧ Settles shr cf key := by
    constructor
    · rintro ⟨last, hlast', h⟩
      cases hlast.symm.trans hlast'
      exact h
    · exact fun h => ⟨cf, hlast, h⟩
  rw [asks_iff hlast, htakes, not_and_or, Bool.not_eq_false]

/-- A call of `scf_insert` either fails to scale or stores the key where it is. -/
theorem scfInsert_spec (shr : UInt32 → UInt32) (hs : Single scf cf) (o : Op) :
    ∃ r scf' cf', scfInsert shr true scf o.key o.rand o.coin = some (r, scf') ∧ Single scf' cf' ∧
      ((¬ Takes shr scf o.key ∧ r = -1) ∨
        (Takes shr scf o.key ∧ r = 1 ∧ cfInsert shr cf o.key o.rand o.coin = some (1, cf'))) := by
  obtain ⟨scale, hscale⟩ := Option.isSome_iff_exists.mp hs.factor
  have hlast := lastFilter_single hs
  have hasks : Asks shr scf o.key o.rand o.coin ↔ _ := asks_iff hlast
  rw [asks_iff_not_takes hlast] at hasks
  by_cases hload : overloaded scf cf = true
  · refine ⟨-1, scf, cf, ?_, hs, Or.inl ⟨hasks.mpr (Or.inl hload), rfl⟩⟩
    simp [scfInsert, hlast, hload, hscale, cfNew]
  · obtain ⟨r, cf', hrun, -⟩ := cfInsert_spec shr cf o.key o.rand o.coin
    rcases cfInsert_settles hrun with ⟨rfl, h⟩ | ⟨rfl, h⟩
    · have htakes : Takes shr scf o.key := ⟨cf, hlast, Bool.eq_false_iff.mpr hload, h⟩
      refine ⟨1, setLast scf cf', cf', ?_, setLast_single hs cf', Or.inr ⟨htakes, rfl, hrun⟩⟩
      simp [scfInsert, hlast, hload, hrun]
    · refine ⟨-1, setLast scf cf', cf', ?_, setLast_single hs cf',
        Or.inl ⟨hasks.mpr (Or.inr h), rfl⟩⟩
      have hscale' : (setLast scf cf').scaleFactor = some scale := hscale
      simp [scfInsert, hlast, hload, hrun, hscale', cfNew]

inductive Called (shr : UInt32 → UInt32) (scf : ScalableCuckooFilter) (cf : CuckooFilter) (o : Op) :
    ℤ → ScalableCuckooFilter → CuckooFilter → Prop
  | present (h : ¬ Inserts shr scf o) : Called shr scf cf o 0 scf cf
  | scaling {scf' : ScalableCuckooFilter} {cf' : CuckooFilter} (h : Inserts shr scf o)
      (scales : ¬ Takes shr scf o.key) : Called shr scf cf o (-1) scf' cf'
  | stored {scf' : ScalableCuckooFilter} {cf' : CuckooFilter} (h : Inserts shr scf o)
      (takes : Takes shr scf o.key) (run : cfInsert shr cf o.key o.rand o.coin = some (1, cf')) :
      Called shr scf cf o 1 scf' cf'

theorem call_spec (shr : UInt32 → UInt32) (hs : Single scf cf) (o : Op) :
    ∃ r scf' cf', call shr scf o = some (r, scf') ∧ Single scf' cf' ∧
      Called shr scf cf o r scf' cf' := by
  by_cases hi : Inserts shr scf o
  · obtain ⟨r, scf', cf', hrun, hs', hcase⟩ := scfInsert_spec shr hs o
    have hcall : call shr scf o = some (r, scf') := by
      unfold call
      split
      · rename_i hu
        rw [scfInsertUnique, hi hu]
        exact hrun
      · exact hrun
    refine ⟨r, scf', cf', hcall, hs', ?_⟩
    rcases hcase with ⟨h, rfl⟩ | ⟨h, rfl, hins⟩
    · exact .scaling hi h
    · exact .stored hi h hins
  · obtain ⟨hu, hl⟩ : o.unique = true ∧ scfLookup shr scf o.key ≠ some 0 := by
      rwa [Inserts, Classical.not_imp] at hi
    have hfound : scfLookup shr scf o.key = some 1 := by
      rcases lookup_single shr hs o.key with ⟨h, -⟩ | ⟨h, -⟩
      · exact h
      · exact absurd h hl
    refine ⟨0, scf, cf, ?_, hs, .present hi⟩
    rw [call, if_pos hu, scfInsertUnique, hfound]
    rfl

theorem found_single (hs : Single t.scf cf) :
    Found shr t ↔ ∀ key ∈ t.reported, Held shr cf key := by
  unfold Found
  simp only [lookup_single_iff hs]

/-- Which calls keep the reported keys found and grow where they scale. -/
theorem step_iff (hs : Single t.scf cf) (hf : Found shr t) (hcall : ScalableCall shr t o r t') :
    Found shr t' ∧ GrowsIfScaling shr t o r t' ↔ StepOk shr t o := by
  obtain ⟨scf', reported'⟩ := t'
  obtain ⟨hrun, hreported⟩ := hcall
  obtain ⟨r', scf'', cf', hrun', hs', hcase⟩ := call_spec shr hs o
  have hlast := lastFilter_single hs
  cases hrun.symm.trans hrun'
  cases hcase with
  | present h =>
    have hsame : reported' = t.reported := hreported.trans (if_neg (by decide))
    have hf' : Found shr ⟨t.scf, reported'⟩ := by
      rw [hsame]
      exact hf
    exact ⟨fun _ h' => absurd h' h, fun _ => ⟨hf', fun h' => absurd h' h⟩⟩
  | scaling h scales =>
    constructor
    · rintro ⟨-, hgrows⟩
      have hone := (hgrows h ((asks_iff_not_takes hlast).mpr scales)).result
      cases hone
    · exact fun hok => absurd (hok h).1 scales
  | stored h takes run =>
    have hsame : reported' = o.key :: t.reported := hreported.trans (if_pos rfl)
    obtain ⟨r, cf'', hrun'', hins⟩ := cfInsert_spec shr cf o.key o.rand o.coin
    cases run.symm.trans hrun''
    have hheld := (found_single hs).mp hf
    rw [found_single hs']
    have hiff : (∀ k ∈ reported', Held shr cf' k) ↔
        ∀ k ∈ t.reported, keyFp shr cf.bucketPower k ≠ keyFp shr cf.bucketPower o.key →
          HeldOutside shr cf (overwritten shr cf o.key o.rand o.coin) k := by
      cases hins with
      | kicked _ held overlaid power _ =>
        apply held_after_insert power overlaid held hheld
        · intro k hk hmem
          rw [hsame] at hmem
          exact (List.mem_cons.mp hmem).resolve_left hk
        · intro k hmem
          rw [hsame]
          exact List.mem_cons_of_mem _ hmem
    constructor
    · rintro ⟨hfound, -⟩ -
      refine ⟨takes, fun cf₁ hlast₁ => ?_⟩
      cases hlast.symm.trans hlast₁
      exact hiff.mp hfound
    · intro hok
      refine ⟨hiff.mpr ((hok h).2 cf hlast), fun _ hasks => ?_⟩
      exact absurd takes ((asks_iff_not_takes hlast).mp hasks)

theorem scalableCall_unique (s : Tracked) (o : Op) (r : ℤ) (t t' : Tracked)
    (h : ScalableCall shr s o r t) (h' : ScalableCall shr s o r t') : t = t' := by
  obtain ⟨scf, reported⟩ := t
  obtain ⟨scf', reported'⟩ := t'
  obtain ⟨hrun, hr⟩ := h
  obtain ⟨hrun', hr'⟩ := h'
  cases hrun.symm.trans hrun'
  cases hr.trans hr'.symm
  rfl

theorem oneFilter_step (shr : UInt32 → UInt32) (t : Tracked) (o : Op) (r : ℤ) (t' : Tracked)
    (hs : OneFilter t) (hcall : ScalableCall shr t o r t') : OneFilter t' := by
  obtain ⟨cf, hs⟩ := hs
  obtain ⟨r', scf', cf', hrun, hs', -⟩ := call_spec shr hs o
  have heq := hcall.1.symm.trans hrun
  rw [Option.some_inj, Prod.mk.injEq] at heq
  exact ⟨cf', heq.2 ▸ hs'⟩

theorem insert_stuck (hlast : lastFilter scf = none) (key : Key) (rand : ℕ → UInt32)
    (coin : Bool) : scfInsert shr true scf key rand coin = none := by
  rw [scfInsert, hlast]
  rfl

theorem configured_stuck (shr : UInt32 → UInt32) (cfSDefaultLoadFactor : LoadFactor)
    (hnull : scf.filters = none) :
    ∃ scf', scfConfigure cfSDefaultLoadFactor true true scf = some (0, scf') ∧
      ∀ key rand coin, scfInsert shr true scf' key rand coin = none := by
  obtain ⟨load, factor, count, capacity, filters⟩ := scf
  cases hnull
  refine ⟨_, rfl, fun key rand coin => ?_⟩
  apply insert_stuck
  show (some [(none : Option CuckooFilter)]).bind
    (fun filters => (filters[(1 - 1 : UInt64).toNat]?).bind id) = none
  rfl

end Runs

section Sample
attribute [local instance] zeroTables

def sampleOp (key : Key) : Op := ⟨false, key, fun _ => 0, true⟩

def sampleStart : Tracked := start (fun _ _ => false) scfDefaultScaleFactorFunc

/-- Both keys have the bucket index 0. The kicks of the first fill that bucket;
the second is refused and lost. -/
def Refused [Tables] (shr : UInt32 → UInt32) : Prop := ∃ t t',
  Run (ScalableCall shr) sampleStart [(sampleOp [108, 111, 108], 1)] t ∧
    ScalableCall shr t (sampleOp [102, 104, 99]) (-1) t' ∧
    ¬ GrowsIfScaling shr t (sampleOp [102, 104, 99]) (-1) t' ∧ t'.scf.filterCount = 1 ∧
    scfLookup shr t'.scf [102, 104, 99] = some 0

theorem refused_of_answers [Tables] {shr : UInt32 → UInt32} (h : ∃ scf₁,
      call shr sampleStart.scf (sampleOp [108, 111, 108]) = some (1, scf₁) ∧
      ∃ scf₂, call shr scf₁ (sampleOp [102, 104, 99]) = some (-1, scf₂) ∧ scf₂.filterCount = 1 ∧
        scfLookup shr scf₂ [102, 104, 99] = some 0 ∧
      ∃ cf₁, lastFilter scf₁ = some cf₁ ∧
      ∃ cf₂, cfInsert shr cf₁ [102, 104, 99] (fun _ => 0) true = some (0, cf₂)) :
    Refused shr := by
  obtain ⟨scf₁, h₁, scf₂, h₂, hcount, hlookup, cf₁, hlast, cf₂, hins⟩ := h
  have hasks : Asks shr scf₁ [102, 104, 99] (fun _ => 0) true := by
    rcases cfInsert_settles hins with ⟨h, -⟩ | ⟨-, h⟩
    · cases h
    · exact (asks_iff hlast).mpr (Or.inr h)
  refine ⟨⟨scf₁, _⟩, ⟨scf₂, _⟩, .snoc .nil ⟨h₁, rfl⟩, ⟨h₂, rfl⟩, ?_, hcount, hlookup⟩
  intro hgrows
  have hresult := (hgrows (fun h => by cases h) hasks).result
  cases hresult

end Sample

section Filled

def sampleKeys : Key × Key := ([108, 111, 108], [97, 114, 97])

def sampleUnique (key : Key) : Op := { sampleOp key with unique := true }

def sampleCalls : List (Op × ℤ) :=
  [(sampleOp sampleKeys.1, 1), (sampleOp sampleKeys.2, 1), (sampleUnique sampleKeys.1, 0)]

end Filled

end RtsCache.ScalableRuns
