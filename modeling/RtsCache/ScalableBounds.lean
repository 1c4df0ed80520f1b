import RtsCache.ScalableRuns

/-!
# The array of sub-filters

`scf_configure` sets up an array of one pointer and counts one sub-filter, but
`cf_new` does not hand its filter back and the pointer stays null. No call
puts a filter there: lookups and deletions stop at the null pointer, and an
insertion reads through it.
-/

set_option autoImplicit false

namespace RtsCache.ScalableBounds
open RtsCache.CuckooIndex RtsCache.CuckooMachine RtsCache.RunRefinement
open RtsCache.ScalableMachine RtsCache.ScalableRuns

/-- `memory` says whether a new sub-filter can be allocated. -/
inductive Call where
  | insert (o : Op) (memory : Bool)
  | lookup (key : Key)
  | delete (key : Key)
  | reset

/-- The array `scf_configure` leaves. -/
structure NullArray (scf : ScalableCuckooFilter) : Prop where
  array : scf.filters = some [none]
  count : scf.filterCount = 1

variable {scf scf' : ScalableCuckooFilter} {load : LoadFactor} {array memory : Bool}

theorem configured_null (hnull : scf.filters = none)
    (hconf : scfConfigure load array memory scf = some (0, scf')) : NullArray scf' := by
  unfold scfConfigure at hconf
  dsimp only at hconf
  rw [hnull] at hconf
  cases array with
  | false => cases hconf
  | true =>
    cases memory with
    | false => cases hconf
    | true =>
      cases hconf
      exact ⟨rfl, rfl⟩

theorem range_count (h : NullArray scf) : List.range scf.filterCount.toNat = [0] := by
  rw [h.count]
  rfl

theorem reset_null (h : NullArray scf) : scfReset scf = some (-1, scf) := by
  rw [scfReset, h.array, range_count h]
  show some (-1, { scf with filters := some [none] }) = _
  rw [← h.array]

theorem lastFilter_null (h : NullArray scf) : lastFilter scf = none := by
  rw [lastFilter, lastIndex, h.array, h.count]
  rfl

section Runs
variable [Tables]

def boundStep (shr : UInt32 → UInt32) (scf : ScalableCuckooFilter) :
    Call → Option (ℤ × ScalableCuckooFilter)
  | .insert o memory =>
    if o.unique then scfInsertUnique shr memory scf o.key o.rand o.coin
    else scfInsert shr memory scf o.key o.rand o.coin
  | .lookup key => (scfLookup shr scf key).map fun r => (r, scf)
  | .delete key => scfDelete shr scf key
  | .reset => scfReset scf

def BoundStep (shr : UInt32 → UInt32) (scf : ScalableCuckooFilter) (c : Call) (r : ℤ)
    (scf' : ScalableCuckooFilter) : Prop :=
  boundStep shr scf c = some (r, scf')

/-- The insertion gets to `scf->filters[scf->filterCount] = newFilter`. -/
def Appends (shr : UInt32 → UInt32) (scf : ScalableCuckooFilter) (o : Op) (memory : Bool) : Prop :=
  Inserts shr scf o ∧ Asks shr scf o.key o.rand o.coin ∧ memory = false

structure Bounded (shr : UInt32 → UInt32) (scf : ScalableCuckooFilter)
    (filters : List (Option CuckooFilter)) : Prop where
  array : scf.filters = some filters
  count : scf.filterCount.toNat ≤ filters.length
  built : ∀ i < scf.filterCount.toNat, ∃ cf capacity, filters[i]? = some (some cf) ∧
    cf.bucketPower = (newFilter capacity).bucketPower
  appended : ∀ o memory, Appends shr scf o memory → scf.filterCount.toNat < filters.length

variable {shr : UInt32 → UInt32} {key : Key} {c : Call} {r : ℤ}

theorem lookup_null (shr : UInt32 → UInt32) (h : NullArray scf) (key : Key) :
    scfLookup shr scf key = some 1 := by
  rw [scfLookup, h.array, range_count h]
  rfl

theorem delete_null (shr : UInt32 → UInt32) (h : NullArray scf) (key : Key) :
    scfDelete shr scf key = some (-1, scf) := by
  rw [scfDelete, h.array, range_count h]
  show some (-1, { scf with filters := some [none] }) = _
  rw [← h.array]

theorem insert_null (shr : UInt32 → UInt32) (memory : Bool) (h : NullArray scf) (key : Key)
    (rand : ℕ → UInt32) (coin : Bool) : scfInsert shr memory scf key rand coin = none := by
  rw [scfInsert, lastFilter_null h]
  rfl

theorem boundStep_null (h : NullArray scf) (hstep : BoundStep shr scf c r scf') : scf' = scf := by
  cases c with
  | insert o memory =>
    unfold BoundStep boundStep at hstep
    dsimp only at hstep
    split at hstep
    · rw [scfInsertUnique, lookup_null shr h] at hstep
      cases hstep
      rfl
    · rw [insert_null shr memory h] at hstep
      cases hstep
  | lookup key =>
    rw [BoundStep, boundStep, lookup_null shr h] at hstep
    cases hstep
    rfl
  | delete key =>
    rw [BoundStep, boundStep, delete_null shr h] at hstep
    cases hstep
    rfl
  | reset =>
    rw [BoundStep, boundStep, reset_null h] at hstep
    cases hstep
    rfl

theorem run_null {xs : List (Call × ℤ)} (h : NullArray scf)
    (hrun : Run (BoundStep shr) scf xs scf') : NullArray scf' := by
  apply Run.invariant h _ hrun
  intro s o r s' hs hstep
  rw [boundStep_null hs hstep]
  exact hs

/-- In every state of every run the array has the slots that are counted, no
call appends to it, and what it holds is no filter. -/
theorem never_bounded (hnull : scf.filters = none)
    (hconf : scfConfigure load array memory scf = some (0, scf')) {xs : List (Call × ℤ)}
    {t : ScalableCuckooFilter} (hrun : Run (BoundStep shr) scf' xs t) :
    (∃ filters, t.filters = some filters ∧ t.filterCount.toNat ≤ filters.length) ∧
      (∀ o memory, ¬ Appends shr t o memory) ∧ ∀ filters, ¬ Bounded shr t filters := by
  have h := run_null (configured_null hnull hconf) hrun
  refine ⟨⟨_, h.array, ?_⟩, ?_, ?_⟩
  · rw [h.count]
    decide
  · rintro o memory ⟨-, ⟨last, _, hlast, -⟩, -⟩
    cases (lastFilter_null h).symm.trans hlast
  · intro filters hb
    cases h.array.symm.trans hb.array
    have hzero : 0 < t.filterCount.toNat := by
      rw [h.count]
      decide
    obtain ⟨cf, capacity, hcf, -⟩ := hb.built 0 hzero
    cases hcf

end Runs

section Sample
-- nothing has called `init`
attribute [local instance] zeroTables

def zeroed : ScalableCuckooFilter :=
  { loadFactor := none, scaleFactor := none, filterCount := 0, capacity := 0, filters := none }

theorem never_bounded_run : ∃ scf', scfConfigure (fun _ _ => false) true true zeroed =
      some (0, scf') ∧
    ∃ t, Run (BoundStep id) scf' [(.lookup [97], 1), (.insert ⟨true, [97], fun _ => 0,
      true⟩ true, 0), (.delete [97], -1), (.reset, -1)] t ∧
      ∀ filters, ¬ Bounded id t filters := by
  obtain ⟨scf', hconf⟩ : ∃ scf', scfConfigure (fun _ _ => false) true true zeroed =
    some (0, scf') := ⟨_, rfl⟩
  have hnull := configured_null rfl hconf
  have hlookup : BoundStep id scf' (.lookup [97]) 1 scf' := by
    rw [BoundStep, boundStep, lookup_null id hnull]
    rfl
  have hinsert : BoundStep id scf' (.insert ⟨true, [97], fun _ => 0, true⟩ true) 0
      scf' := by
    rw [BoundStep, boundStep, if_pos rfl, scfInsertUnique, lookup_null id hnull]
    rfl
  have hdelete : BoundStep id scf' (.delete [97]) (-1) scf' :=
    delete_null id hnull [97]
  have hreset : BoundStep id scf' .reset (-1) scf' := reset_null hnull
  have hrun := Run.snoc (.snoc (.snoc (.snoc .nil hlookup) hinsert) hdelete) hreset
  exact ⟨scf', hconf, scf', hrun, (never_bounded rfl hconf hrun).2.2⟩

theorem not_bounded_configured : ∃ scf', scfConfigure (fun _ _ => false) true true zeroed =
    some (0, scf') ∧ ¬ ∃ filters, Bounded id scf' filters := by
  refine ⟨_, rfl, ?_⟩
  rintro ⟨filters, hb⟩
  cases hb.array
  obtain ⟨cf, capacity, hcf, -⟩ := hb.built 0 (by decide)
  cases hcf

end Sample

end RtsCache.ScalableBounds
