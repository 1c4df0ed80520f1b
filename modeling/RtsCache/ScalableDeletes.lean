import RtsCache.ScalableBounds
import RtsCache.CuckooCount

/-!
# How far deletions get

`scf_delete` goes on to the next sub-filter only after a `cf_delete` that
answers 0, which takes the fingerprint twice; `scf_insert` puts keys into the
last sub-filter only. The array of sub-filters is followed as a list here, and
the loops over it as one recursion.
-/

set_option autoImplicit false

namespace RtsCache.ScalableDeletes
open RtsCache.CuckooIndex RtsCache.CuckooMachine RtsCache.CuckooSpec
open RtsCache.CuckooCount (cfReset_spec cfReset_stuck)
open RtsCache.RunRefinement RtsCache.ScalableMachine RtsCache.ScalableRuns RtsCache.ScalableBounds

/-- Two slots, one of either bucket, hold the fingerprint of the key. -/
def Twice (shr : UInt32 → UInt32) (cf : CuckooFilter) (key : Key) : Prop :=
  ∃ j < bucketSize, ∃ l < bucketSize,
    bucketSize * (index1 shr cf.bucketPower key).toNat + j ≠
      bucketSize * (index2 shr cf.bucketPower key).toNat + l ∧
    cf.bytes (bucketSize * (index1 shr cf.bucketPower key).toNat + j) =
      keyFp shr cf.bucketPower key ∧
    cf.bytes (bucketSize * (index2 shr cf.bucketPower key).toNat + l) =
      keyFp shr cf.bucketPower key

structure Cleared (cf cf' : CuckooFilter) : Prop where
  power : cf'.bucketPower = cf.bucketPower
  bytes : ∀ o, cf'.bytes o = cf.bytes o ∨ cf'.bytes o = 0

structure Holds (scf : ScalableCuckooFilter) (cfs : List CuckooFilter)
    (rest : List (Option CuckooFilter)) : Prop where
  array : scf.filters = some (cfs.map some ++ rest)
  count : scf.filterCount.toNat = cfs.length

def changeEach (change : CuckooFilter → Option (ℤ × CuckooFilter)) (fails : ℤ → Bool) :
    List CuckooFilter → Option (ℤ × List CuckooFilter)
  | [] => some (0, [])
  | cf::cfs => do
    let (r, cf) ← change cf
    if fails r then some (-1, cf::cfs)
    else do
      let (r, cfs) ← changeEach change fails cfs
      some (r, cf::cfs)

variable {shr : UInt32 → UInt32} {cf cf' : CuckooFilter} {key : Key} {r : ℤ}
  {scf scf' : ScalableCuckooFilter} {cfs cfs' front behind : List CuckooFilter}
  {rest : List (Option CuckooFilter)} {change : CuckooFilter → Option (ℤ × CuckooFilter)}
  {fails : ℤ → Bool}

section Filter

theorem Cleared.twice (hc : Cleared cf cf') (h : Twice shr cf' key) : Twice shr cf key := by
  have hfp : keyFp shr cf.bucketPower key ≠ 0 := fp_ne_zero shr key _
  have hkeep : ∀ o, cf'.bytes o = keyFp shr cf.bucketPower key →
      cf.bytes o = keyFp shr cf.bucketPower key := by
    intro o ho
    rcases hc.bytes o with he | hz
    · exact he.symm.trans ho
    · exact absurd (ho.symm.trans hz) hfp
  obtain ⟨j, hj, l, hl, hne, h₁, h₂⟩ := h
  rw [hc.power] at hne h₁ h₂
  exact ⟨j, hj, l, hl, hne, hkeep _ h₁, hkeep _ h₂⟩

theorem delete_cleared (h : cfDelete shr cf key = some (r, cf')) : Cleared cf cf' := by
  obtain ⟨r₁, cf₁, hrun, hdel⟩ := cfDelete_spec shr cf key
  cases h.symm.trans hrun
  refine ⟨hdel.power, fun o => ?_⟩
  by_cases ho : o ∈ freed shr cf key
  · exact Or.inr (hdel.overlaid.written o ho)
  · exact (hdel.overlaid.rest o ho).imp_right And.right

theorem delete_once (hno : ¬ Twice shr cf key) : ∃ cf', cfDelete shr cf key = some (1, cf') := by
  obtain ⟨b, hb⟩ : ∃ b, bucketSize * (index1 shr cf.bucketPower key).toNat = b := ⟨_, rfl⟩
  obtain ⟨c, hc⟩ : ∃ c, bucketSize * (index2 shr cf.bucketPower key).toNat = c := ⟨_, rfl⟩
  rw [cfDelete_eq shr cf key hb hc]
  cases hs : bucketScan cf.bytes b (keyFp shr cf.bucketPower key) with
  | none => exact ⟨_, rfl⟩
  | some j =>
    obtain ⟨hj, hv⟩ := bucketScan_some hs
    have hbytes : (storeFp cf (b + j) 0).bytes = Function.update cf.bytes (b + j) 0 := rfl
    cases hs₂ : bucketScan (storeFp cf (b + j) 0).bytes c (keyFp shr cf.bucketPower key) with
    | none => exact ⟨{ storeFp cf (b + j) 0 with count := lowered cf.count }, by simp [hs₂]⟩
    | some l =>
      obtain ⟨hl, hvl⟩ := bucketScan_some hs₂
      have hne : c + l ≠ b + j := by
        intro he
        rw [hbytes, he, Function.update_self] at hvl
        exact fp_ne_zero shr key _ hvl.symm
      rw [hbytes, Function.update_of_ne hne] at hvl
      exact absurd ⟨j, hj, l, hl, by rw [hb, hc]; exact hne.symm, hb ▸ hv, hc ▸ hvl⟩ hno

end Filter

section Array

theorem getElem_front (done : List (Option CuckooFilter)) (x : Option CuckooFilter) :
    (done ++ x :: rest)[done.length]? = some x := by
  simp

/-- The index loop carries the sub-filters it is done with in front. -/
theorem eachFilter_eq (change : CuckooFilter → Option (ℤ × CuckooFilter)) (fails : ℤ → Bool)
    (cfs : List CuckooFilter) (rest done : List (Option CuckooFilter)) :
    eachFilter (changeAt change) fails (List.range' done.length cfs.length)
        (done ++ (cfs.map some ++ rest)) =
      (changeEach change fails cfs).map fun x => (x.1, done ++ (x.2.map some ++ rest)) := by
  induction cfs generalizing done with
  | nil => rfl
  | cons cf cfs ih =>
    rw [List.length_cons, List.range'_succ, eachFilter, List.map_cons, List.cons_append,
      getElem_front]
    cases hc : change cf with
    | none => simp [changeAt, changeEach, hc]
    | some x =>
      obtain ⟨r, cf'⟩ := x
      have hset : (done ++ some cf :: (cfs.map some ++ rest)).set done.length (some cf') =
          (done ++ [some cf']) ++ (cfs.map some ++ rest) := by simp
      have hnext := ih (done ++ [some cf'])
      rw [List.length_append, List.length_singleton] at hnext
      by_cases hf : fails r
      · simp [changeAt, changeEach, hc, hf]
      · simp only [changeAt, changeEach, hc, Option.map_some, Option.bind_eq_bind,
          Option.bind_some, hf, Bool.false_eq_true, if_false, hset, hnext]
        cases changeEach change fails cfs <;> simp

theorem eachFilter_holds (hs : Holds scf cfs rest)
    (change : CuckooFilter → Option (ℤ × CuckooFilter)) (fails : ℤ → Bool) :
    eachFilter (changeAt change) fails (List.range scf.filterCount.toNat)
        (cfs.map some ++ rest) =
      (changeEach change fails cfs).map fun x => (x.1, x.2.map some ++ rest) := by
  have hloop := eachFilter_eq change fails cfs rest []
  rwa [List.nil_append, List.length_nil, ← List.range_eq_range', ← hs.count] at hloop

theorem delete_eq (hs : Holds scf cfs rest) : scfDelete shr scf key =
    (changeEach (fun cf => cfDelete shr cf key) (fun r => r ≠ 0) cfs).map fun x =>
      (x.1, { scf with filters := some (x.2.map some ++ rest) }) := by
  unfold scfDelete
  rw [hs.array]
  dsimp only
  rw [eachFilter_holds hs]
  cases changeEach (fun cf => cfDelete shr cf key) (fun r => r ≠ 0) cfs <;> rfl

theorem reset_eq (hs : Holds scf cfs rest) : scfReset scf =
    (changeEach cfReset (fun r => r = -1) cfs).map fun x =>
      (x.1, { scf with filters := some (x.2.map some ++ rest) }) := by
  unfold scfReset
  rw [hs.array]
  dsimp only
  rw [eachFilter_holds hs]
  cases changeEach cfReset (fun r => r = -1) cfs <;> rfl

theorem changeEach_cleared (hchange : ∀ cf r cf', change cf = some (r, cf') → Cleared cf cf')
    (h : changeEach change fails cfs = some (r, cfs')) : List.Forall₂ Cleared cfs cfs' := by
  induction cfs generalizing r cfs' with
  | nil =>
    cases h
    exact .nil
  | cons cf cfs ih =>
    obtain ⟨⟨r₁, cf₁⟩, hc, h⟩ := Option.bind_eq_some_iff.mp h
    have hrefl : ∀ cfs : List CuckooFilter, List.Forall₂ Cleared cfs cfs := fun cfs =>
      List.forall₂_same.mpr fun cf _ => ⟨rfl, fun _ => Or.inl rfl⟩
    by_cases hf : fails r₁
    · simp only [hf, if_true] at h
      cases h
      exact .cons (hchange _ _ _ hc) (hrefl _)
    · simp only [hf, Bool.false_eq_true, if_false] at h
      obtain ⟨⟨r₂, cfs₂⟩, hrest, h⟩ := Option.bind_eq_some_iff.mp h
      cases h
      exact .cons (hchange _ _ _ hc) (ih hrest)

/-- The loop ends at a failure; what is behind it stays. -/
theorem changeEach_stops (fails : ℤ → Bool) (htotal : ∀ cf, ∃ r cf', change cf = some (r, cf'))
    (hc : change cf = some (r, cf')) (hf : fails r = true) (front behind : List CuckooFilter) :
    ∃ front' cf', changeEach change fails (front ++ cf :: behind) =
        some (-1, front' ++ cf' :: behind) ∧ front'.length = front.length := by
  induction front with
  | nil => exact ⟨[], cf', by simp [changeEach, hc, hf], rfl⟩
  | cons a front ih =>
    obtain ⟨r₁, a₁, ha⟩ := htotal a
    by_cases hf₁ : fails r₁
    · exact ⟨a₁ :: front, cf, by simp [changeEach, ha, hf₁], rfl⟩
    · obtain ⟨front', cf₁, hrun, hlen⟩ := ih
      refine ⟨a₁ :: front', cf₁, ?_, by simp [hlen]⟩
      simp [changeEach, ha, hf₁, hrun]

theorem lookupFrom_iff (shr : UInt32 → UInt32) (key : Key) (cfs : List CuckooFilter)
    (rest done : List (Option CuckooFilter)) :
    scfLookupFrom shr (done ++ (cfs.map some ++ rest)) key (List.range' done.length cfs.length) =
      some 1 ↔ ∃ cf ∈ cfs, Held shr cf key := by
  induction cfs generalizing done with
  | nil => simp [scfLookupFrom]
  | cons cf cfs ih =>
    rw [List.length_cons, List.range'_succ, scfLookupFrom, List.map_cons, List.cons_append,
      getElem_front, List.exists_mem_cons_iff]
    have hnext := ih (done ++ [some cf])
    rw [List.length_append, List.length_singleton, List.append_assoc] at hnext
    rcases cfLookup_spec shr cf key with ⟨hrun, hh⟩ | ⟨hrun, hh⟩
    · simp [lookupAt, hrun, hh]
    · simpa [lookupAt, hrun, hh] using hnext

theorem lookup_holds (hs : Holds scf cfs rest) :
    scfLookup shr scf key = some 1 ↔ ∃ cf ∈ cfs, Held shr cf key := by
  have hloop := lookupFrom_iff shr key cfs rest []
  rw [List.nil_append, List.length_nil, ← List.range_eq_range'] at hloop
  unfold scfLookup
  rw [hs.array, hs.count]
  exact hloop

end Array

section Insertion
variable {last : CuckooFilter} {memory : Bool} {rand : ℕ → UInt32} {coin : Bool}

theorem lastIndex_holds (hs : Holds scf (front ++ [last]) rest) :
    lastIndex scf = front.length := by
  have hcount := hs.count
  rw [List.length_append, List.length_singleton] at hcount
  have hone : (1 : UInt64) ≤ scf.filterCount := by
    rw [UInt64.le_iff_toNat_le, hcount, UInt64.toNat_one]
    omega
  rw [lastIndex, UInt64.toNat_sub_of_le _ _ hone, hcount, UInt64.toNat_one]
  omega

theorem setLast_holds (hs : Holds scf (front ++ [last]) rest) (cf : CuckooFilter) :
    Holds (setLast scf cf) (front ++ [cf]) rest := by
  have hlen := hs.count
  constructor
  · rw [setLast, hs.array, lastIndex_holds hs]
    simp
  · simpa [setLast] using hlen

theorem scaled_same {created : (UInt32 → UInt32) → ℤ}
    (h : (scf.scaleFactor.bind fun f => if created f = 0 then some (-1, scf) else none) =
      some (r, scf')) : scf = scf' := by
  obtain ⟨f, -, h⟩ := Option.bind_eq_some_iff.mp h
  split at h
  · cases h
    rfl
  · cases h

theorem insert_holds (hs : Holds scf (front ++ [last]) rest)
    (h : scfInsert shr memory scf key rand coin = some (r, scf')) :
    ∃ last', Holds scf' (front ++ [last']) rest := by
  have hlast : lastFilter scf = some last := by
    rw [lastFilter, hs.array, lastIndex_holds hs]
    simp
  unfold scfInsert at h
  rw [hlast] at h
  simp only [Option.bind_eq_bind, Option.bind_some] at h
  by_cases hload : overloaded scf last
  · simp only [hload, if_true, not_true_eq_false, if_false] at h
    exact ⟨last, scaled_same h ▸ hs⟩
  · simp only [hload, Bool.false_eq_true, if_false] at h
    obtain ⟨⟨inserted, cf⟩, -, h⟩ := Option.bind_eq_some_iff.mp h
    dsimp only at h
    split at h
    · cases h
      exact ⟨cf, setLast_holds hs cf⟩
    · exact ⟨cf, scaled_same h ▸ setLast_holds hs cf⟩

end Insertion

section Runs
variable {i : ℕ} {c : Call} {xs : List (Call × ℤ)}

/-- Sub-filter `i`, not the last one, does not hold the key twice. -/
structure Stops (shr : UInt32 → UInt32) (key : Key) (i : ℕ) (cfs : List CuckooFilter) : Prop where
  inner : i + 1 < cfs.length
  once : ∀ cf, cfs[i]? = some cf → ¬ Twice shr cf key

def Stopping (shr : UInt32 → UInt32) (key : Key) (i n : ℕ) (rest : List (Option CuckooFilter))
    (scf : ScalableCuckooFilter) : Prop :=
  ∃ cfs, Holds scf cfs rest ∧ cfs.length = n ∧ Stops shr key i cfs

theorem Stops.cleared (hs : Stops shr key i cfs) (h : List.Forall₂ Cleared cfs cfs') :
    Stops shr key i cfs' := by
  have hlen := h.length_eq
  refine ⟨hlen ▸ hs.inner, fun cf' hcf' htwice => ?_⟩
  obtain ⟨hi', rfl⟩ := List.getElem?_eq_some_iff.mp hcf'
  have hi : i < cfs.length := by omega
  exact hs.once _ (List.getElem?_eq_getElem hi) ((h.get hi hi').twice htwice)

theorem stopping_changed {n : ℕ} (hs : Stopping shr key i n rest scf)
    (hchange : ∀ cf r cf', change cf = some (r, cf') → Cleared cf cf')
    (h : ∀ cfs, Holds scf cfs rest → ((changeEach change fails cfs).map fun x =>
      (x.1, { scf with filters := some (x.2.map some ++ rest) })) = some (r, scf')) :
    Stopping shr key i n rest scf' := by
  obtain ⟨cfs, hs, hlen, hstops⟩ := hs
  obtain ⟨⟨r₁, cfs'⟩, hrun, hmade⟩ := Option.map_eq_some_iff.mp (h cfs hs)
  cases hmade
  have hall := changeEach_cleared hchange hrun
  exact ⟨cfs', ⟨rfl, hs.count.trans hall.length_eq⟩, hall.length_eq.symm.trans hlen,
    hstops.cleared hall⟩

theorem reset_cleared (h : cfReset cf = some (r, cf')) : Cleared cf cf' := by
  by_cases hp : 1 ≤ cf.bucketPower
  · obtain ⟨cf₁, hrun, -, hpower, hbytes⟩ := cfReset_spec hp
    cases h.symm.trans hrun
    refine ⟨hpower, fun o => ?_⟩
    rw [hbytes]
    split
    · exact Or.inr rfl
    · exact Or.inl rfl
  · rw [cfReset_stuck (by omega)] at h
    cases h

theorem stopping_insert {n : ℕ} {memory : Bool} {rand : ℕ → UInt32} {coin : Bool} {k : Key}
    (hs : Stopping shr key i n rest scf)
    (h : scfInsert shr memory scf k rand coin = some (r, scf')) :
    Stopping shr key i n rest scf' := by
  obtain ⟨cfs, hs, hlen, hinner, honce⟩ := hs
  rcases List.eq_nil_or_concat' cfs with rfl | ⟨front, last, rfl⟩
  · cases hinner
  · obtain ⟨last', hs'⟩ := insert_holds hs h
    rw [List.length_append, List.length_singleton] at hlen hinner
    refine ⟨front ++ [last'], hs', by simpa using hlen, by simpa using hinner, fun cf hcf => ?_⟩
    rw [List.getElem?_append_left (by omega)] at hcf
    exact honce cf (by rwa [List.getElem?_append_left (by omega)])

/-- No call makes a deletion get further. -/
theorem stopping_step {n : ℕ} (hs : Stopping shr key i n rest scf)
    (hstep : BoundStep shr scf c r scf') : Stopping shr key i n rest scf' := by
  unfold BoundStep at hstep
  cases c with
  | insert o memory =>
    simp only [boundStep] at hstep
    split at hstep
    · obtain ⟨found, -, hstep⟩ := Option.bind_eq_some_iff.mp hstep
      split at hstep
      · cases hstep
        exact hs
      · exact stopping_insert hs hstep
    · exact stopping_insert hs hstep
  | lookup k =>
    obtain ⟨found, -, hsame⟩ := Option.map_eq_some_iff.mp hstep
    cases hsame
    exact hs
  | delete k =>
    apply stopping_changed hs (fun cf r cf' h => delete_cleared h)
    intro cfs hs
    rw [← delete_eq hs]
    exact hstep
  | reset =>
    apply stopping_changed hs (fun cf r cf' h => reset_cleared h)
    intro cfs hs
    rw [← reset_eq hs]
    exact hstep

theorem delete_stops (hs : Holds scf cfs rest) (hstops : Stops shr key i cfs) :
    ∃ scf' cfs', scfDelete shr scf key = some (-1, scf') ∧ Holds scf' cfs' rest ∧
      cfs'.drop (i+1) = cfs.drop (i+1) := by
  obtain ⟨hinner, honce⟩ := hstops
  have hi : i < cfs.length := by omega
  obtain ⟨cf', hdel⟩ := delete_once (honce _ (List.getElem?_eq_getElem hi))
  have htotal : ∀ cf, ∃ r cf', cfDelete shr cf key = some (r, cf') := by
    intro cf
    obtain ⟨r, cf', hrun, -⟩ := cfDelete_spec shr cf key
    exact ⟨r, cf', hrun⟩
  obtain ⟨front', cf₁, hrun, hlen⟩ := changeEach_stops (fun r => r ≠ 0) htotal hdel rfl (cfs.take i)
    (cfs.drop (i+1))
  have hsplit : cfs.take i ++ cfs[i] :: cfs.drop (i+1) = cfs := by
    rw [← List.drop_eq_getElem_cons hi, List.take_append_drop]
  rw [hsplit] at hrun
  rw [List.length_take_of_le hi.le] at hlen
  refine ⟨_, front' ++ cf₁ :: cfs.drop (i+1), by rw [delete_eq hs, hrun]; rfl, ⟨rfl, ?_⟩, ?_⟩
  · have hcount := hs.count
    simp only [List.length_append, List.length_cons, List.length_drop, hlen]
    omega
  · rw [← hlen, List.drop_append, List.drop_eq_nil_of_le (by omega)]
    simp

/-- Where a sub-filter but the last does not hold a key twice, no run of calls
makes `scf_delete` of that key succeed or change a sub-filter behind it; what
is stored there is found again. -/
theorem deletes_stop (hs : Holds scf cfs rest) (hi : i + 1 < cfs.length)
    (honce : ∀ cf, cfs[i]? = some cf → ¬ Twice shr cf key)
    (hrun : Run (BoundStep shr) scf xs scf') :
    ∃ cfs₁ cfs₂ scf₂, Holds scf' cfs₁ rest ∧ cfs₁.length = cfs.length ∧
      scfDelete shr scf' key = some (-1, scf₂) ∧ Holds scf₂ cfs₂ rest ∧
      cfs₂.drop (i+1) = cfs₁.drop (i+1) ∧
      ∀ k, (∃ cf ∈ cfs₁.drop (i+1), Held shr cf k) → scfLookup shr scf₂ k = some 1 := by
  have hinv := hrun.invariant (I := Stopping shr key i cfs.length rest)
    ⟨cfs, hs, rfl, hi, honce⟩ fun s c r s' h hstep => stopping_step h hstep
  obtain ⟨cfs₁, hs₁, hlen, hstops⟩ := hinv
  obtain ⟨scf₂, cfs₂, hdel, hs₂, hsame⟩ := delete_stops hs₁ hstops
  refine ⟨cfs₁, cfs₂, scf₂, hs₁, hlen, hdel, hs₂, hsame, ?_⟩
  rintro k ⟨cf, hcf, hheld⟩
  rw [← hsame] at hcf
  exact (lookup_holds hs₂).mpr ⟨cf, List.mem_of_mem_drop hcf, hheld⟩

def twoNew : ScalableCuckooFilter where
  loadFactor := some fun _ _ => false
  scaleFactor := some scfDefaultScaleFactorFunc
  filterCount := 2
  capacity := 2000
  filters := some [some (newFilter 1000), some (newFilter 1000)]

theorem deletes_stop_two : ∃ r scf scf₂,
    BoundStep id twoNew (.insert ⟨false, [97], fun _ => 0, true⟩ true) r scf ∧
      scfDelete id scf [97] = some (-1, scf₂) := by
  obtain ⟨r, scf, hstep⟩ : ∃ r scf,
      BoundStep id twoNew (.insert ⟨false, [97], fun _ => 0, true⟩ true) r scf := ⟨_, _, rfl⟩
  have hs : Holds twoNew [newFilter 1000, newFilter 1000] [] := ⟨rfl, rfl⟩
  have honce : ∀ cf, [newFilter 1000, newFilter 1000][0]? = some cf → ¬ Twice id cf [97] := by
    rintro cf hcf ⟨j, -, l, -, -, hfp, -⟩
    cases hcf
    exact fp_ne_zero id [97] _ hfp.symm
  obtain ⟨_, _, scf₂, -, -, hdel, -⟩ := deletes_stop hs (by decide) honce (Run.nil.snoc hstep)
  exact ⟨r, scf, scf₂, hstep, hdel⟩

end Runs

end RtsCache.ScalableDeletes
