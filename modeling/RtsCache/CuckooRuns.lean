import RtsCache.CuckooSpec
import RtsCache.RunRefinement

/-!
# Runs of the cuckoo filter

Beside the filter a run keeps how often each key is owed: its insertions that
reported success less its deletions. A key that is owed can be missed for three
reasons only: an insertion into a full bucket was reported but not made, a kick
overwrote the last copy of a fingerprint, or a deletion freed the copies in
both buckets.
-/

set_option autoImplicit false

namespace RtsCache.CuckooRuns
open RtsCache.CuckooIndex RtsCache.CuckooMachine RtsCache.CuckooSpec RtsCache.TableOverlay
open RtsCache.RunRefinement

inductive Op where
  | insert (key : Key) (rand : ℕ → UInt32) (coin : Bool)
  | delete (key : Key)

structure Tracked where
  filter : CuckooFilter
  owed : Key → ℕ

def start (capacity : UInt32) : Tracked := ⟨newFilter capacity, fun _ => 0⟩

section Runs
variable [Tables]

/-- One call of a run. Only a key that is owed is deleted. -/
def FilterCall (shr : UInt32 → UInt32) (t : Tracked) (o : Op) (r : ℤ) (t' : Tracked) : Prop :=
  match o with
  | .insert key rand coin => cfInsert shr t.filter key rand coin = some (r, t'.filter) ∧
      t'.owed = if r = 0 then Function.update t.owed key (t.owed key + 1) else t.owed
  | .delete key => 0 < t.owed key ∧ cfDelete shr t.filter key = some (r, t'.filter) ∧
      t'.owed = Function.update t.owed key (t.owed key - 1)

def Found (shr : UInt32 → UInt32) (t : Tracked) : Prop :=
  ∀ key, 0 < t.owed key → cfLookup shr t.filter key = some 1

/-- The key has a copy of its fingerprint outside the slots `A`. -/
def HeldOutside (shr : UInt32 → UInt32) (cf : CuckooFilter) (A : List ℕ) (key : Key) : Prop :=
  ∃ o, KeySlot shr cf.bucketPower key o ∧ cf.bytes o = keyFp shr cf.bucketPower key ∧ o ∉ A

/-- An insertion is safe when it is not merely reported, unless the fingerprint
is there already, and when its kicks spare a copy for every owed key with
another fingerprint; a deletion, when it spares one for every key that stays
owed and has the same fingerprint. -/
def StepOk (shr : UInt32 → UInt32) (t : Tracked) : Op → Prop
  | .insert key rand coin =>
    (Misreported shr t.filter key → Held shr t.filter key) ∧
      ∀ k, 0 < t.owed k → keyFp shr t.filter.bucketPower k ≠ keyFp shr t.filter.bucketPower key →
        HeldOutside shr t.filter (overwritten shr t.filter key rand coin) k
  | .delete key =>
    ∀ k, 0 < t.owed k → (k = key → 1 < t.owed key) →
      keyFp shr t.filter.bucketPower k = keyFp shr t.filter.bucketPower key →
        HeldOutside shr t.filter (freed shr t.filter key) k

variable {shr : UInt32 → UInt32} {cf cf' : CuckooFilter} {key k : Key} {rand : ℕ → UInt32}
  {coin : Bool} {A : List ℕ} {r : ℤ} {t t' : Tracked} {fp : Fingerprint}

theorem heldOutside_nil : HeldOutside shr cf [] key ↔ Held shr cf key := by
  simp [HeldOutside, Held]

theorem held_other (hp : cf'.bucketPower = cf.bucketPower)
    (ho : Overlaid 0 fp A cf.bytes cf'.bytes) (hk : keyFp shr cf.bucketPower key ≠ fp) :
    Held shr cf' key ↔ HeldOutside shr cf A key := by
  have hfp : keyFp shr cf.bucketPower key ≠ 0 := fp_ne_zero shr key _
  unfold Held HeldOutside
  rw [hp]
  simp only [ho.other hk hfp]

theorem held_same (hp : cf'.bucketPower = cf.bucketPower)
    (ho : Overlaid 0 fp A cf.bytes cf'.bytes) (hk : keyFp shr cf.bucketPower key = fp)
    (hh : Held shr cf key) : Held shr cf' key := by
  obtain ⟨o, hs, hv⟩ := hh
  refine ⟨o, hp.symm ▸ hs, ?_⟩
  rw [hp, hk]
  exact ho.keeps (hv.trans hk)

theorem held_congr (hp : cf'.bucketPower = cf.bucketPower) (hb : cf'.bytes = cf.bytes) :
    Held shr cf' key ↔ Held shr cf key := by
  unfold Held
  rw [hp, hb]

/-- An insertion that writes keeps the keys of `P` found exactly if it spares a
copy for each. -/
theorem held_after_insert (hp : cf'.bucketPower = cf.bucketPower)
    (ho : Overlaid 0 (keyFp shr cf.bucketPower key) A cf.bytes cf'.bytes)
    (hkey : Held shr cf' key) {P P' : Key → Prop} (hf : ∀ k, P k → Held shr cf k)
    (hold : ∀ k, k ≠ key → P' k → P k) (hmono : ∀ k, P k → P' k) :
    (∀ k, P' k → Held shr cf' k) ↔
      ∀ k, P k → keyFp shr cf.bucketPower k ≠ keyFp shr cf.bucketPower key →
        HeldOutside shr cf A k := by
  constructor
  · intro h k hk hne
    exact (held_other hp ho hne).mp (h k (hmono k hk))
  · intro h k hk
    by_cases hkk : k = key
    · exact hkk ▸ hkey
    · have hk' := hold k hkk hk
      by_cases hfp : keyFp shr cf.bucketPower k = keyFp shr cf.bucketPower key
      · exact held_same hp ho hfp (hf k hk')
      · exact (held_other hp ho hfp).mpr (h k hk' hfp)

theorem found_iff : Found shr t ↔ ∀ k, 0 < t.owed k → Held shr t.filter k := by
  unfold Found
  simp only [lookup_iff]

theorem insert_found_iff (hf : Found shr t)
    (hcall : FilterCall shr t (.insert key rand coin) r t') :
    Found shr t' ↔ StepOk shr t (.insert key rand coin) := by
  obtain ⟨hrun, howed⟩ := hcall
  obtain ⟨r', cf', hrun', hins⟩ := cfInsert_spec shr t.filter key rand coin
  cases hrun.symm.trans hrun'
  have hother : ∀ k, k ≠ key → t'.owed k = t.owed k := by
    intro k hk
    rw [howed]
    split
    · exact Function.update_of_ne hk _ _
    · rfl
  have hold : ∀ k, k ≠ key → 0 < t'.owed k → 0 < t.owed k := by
    intro k hk hpos
    rwa [hother k hk] at hpos
  have hmono : ∀ k, 0 < t.owed k → 0 < t'.owed k := by
    intro k hpos
    by_cases hk : k = key
    · subst hk
      rw [howed]
      split
      · rw [Function.update_self]
        exact Nat.succ_pos _
      · exact hpos
    · rwa [hother k hk]
  rw [found_iff] at hf ⊢
  unfold StepOk
  cases hins with
  | misreported h bytes power count full none =>
    have hgain : 0 < t'.owed key := by
      rw [howed, if_pos rfl, Function.update_self]
      exact Nat.succ_pos _
    constructor
    · intro h'
      refine ⟨fun _ => (held_congr power bytes).mp (h' key hgain), fun k hk _ => ?_⟩
      rw [none]
      exact heldOutside_nil.mpr (hf k hk)
    · rintro ⟨hheld, -⟩ k hk
      apply (held_congr power bytes).mpr
      by_cases hkk : k = key
      · exact hkk ▸ hheld h
      · exact hf k (hold k hkk hk)
  | stored h held overlaid power count full none =>
    rw [held_after_insert power overlaid held hf hold hmono]
    exact ⟨fun h' => ⟨fun hm => absurd hm h, h'⟩, fun h' => h'.2⟩
  | kicked h held overlaid power result =>
    rw [held_after_insert power overlaid held hf hold hmono]
    exact ⟨fun h' => ⟨fun hm => absurd hm h, h'⟩, fun h' => h'.2⟩

theorem delete_found_iff (hf : Found shr t) (hcall : FilterCall shr t (.delete key) r t') :
    Found shr t' ↔ StepOk shr t (.delete key) := by
  obtain ⟨hpos, hrun, howed⟩ := hcall
  obtain ⟨r', cf', hrun', hd⟩ := cfDelete_spec shr t.filter key
  cases hrun.symm.trans hrun'
  have hiff : ∀ k, 0 < t'.owed k ↔ 0 < t.owed k ∧ (k = key → 1 < t.owed key) := by
    intro k
    rw [howed]
    by_cases hk : k = key
    · subst hk
      rw [Function.update_self]
      simp
      omega
    · rw [Function.update_of_ne hk]
      simp [hk]
  have hother : ∀ k, Held shr t'.filter k ↔ HeldOutside shr t.filter (freed shr t.filter key) k :=
    fun k => held_other hd.power hd.overlaid (fp_ne_zero shr k _)
  rw [found_iff] at hf ⊢
  unfold StepOk
  constructor
  · intro h k hk hkk _
    exact (hother k).mp (h k ((hiff k).mpr ⟨hk, hkk⟩))
  · intro h k hk
    obtain ⟨hk', hkk⟩ := (hiff k).mp hk
    apply (hother k).mpr
    by_cases hfp : keyFp shr t.filter.bucketPower k = keyFp shr t.filter.bucketPower key
    · exact h k hk' hkk hfp
    · obtain ⟨o, hs, hv⟩ := hf k hk'
      refine ⟨o, hs, hv, fun ho => hfp ?_⟩
      exact hv.symm.trans (hd.held o ho)

theorem filterCall_unique (s : Tracked) (o : Op) (r : ℤ) (t t' : Tracked)
    (h : FilterCall shr s o r t) (h' : FilterCall shr s o r t') : t = t' := by
  obtain ⟨cf, owed⟩ := t
  obtain ⟨cf', owed'⟩ := t'
  cases o with
  | insert key rand coin =>
    obtain ⟨hr, ho⟩ := h
    obtain ⟨hr', ho'⟩ := h'
    cases hr.symm.trans hr'
    cases ho.trans ho'.symm
    rfl
  | delete key =>
    obtain ⟨-, hr, ho⟩ := h
    obtain ⟨-, hr', ho'⟩ := h'
    cases hr.symm.trans hr'
    cases ho.trans ho'.symm
    rfl

theorem filterCall_returns (t : Tracked) (o : Op) (ho : ∀ key, o = .delete key → 0 < t.owed key) :
    ∃ r t', FilterCall shr t o r t' := by
  cases o with
  | insert key rand coin =>
    obtain ⟨r, cf', hr, -⟩ := cfInsert_spec shr t.filter key rand coin
    exact ⟨r, ⟨cf', _⟩, hr, rfl⟩
  | delete key =>
    obtain ⟨r, cf', hr, -⟩ := cfDelete_spec shr t.filter key
    exact ⟨r, ⟨cf', _⟩, ho key rfl, hr, rfl⟩

/-- Over every run from a new filter no owed key is ever missed exactly when
every call of the run is safe; and no further call gets stuck. -/
theorem no_false_negatives_iff (shr : UInt32 → UInt32) (capacity : UInt32)
    {xs : List (Op × ℤ)} (hrun : Run (FilterCall shr) (start capacity) xs t) :
    ((∀ ys u, ys <+: xs → Run (FilterCall shr) (start capacity) ys u → Found shr u) ↔
      ∀ ys o r u, ys ++ [(o, r)] <+: xs → Run (FilterCall shr) (start capacity) ys u →
        StepOk shr u o) ∧
    ∀ o, (∀ key, o = .delete key → 0 < t.owed key) → ∃ r u, FilterCall shr t o r u := by
  constructor
  · apply hrun.always_iff
    · intro key hk
      exact absurd hk (Nat.lt_irrefl 0)
    · intro s o r s' hs hcall
      cases o with
      | insert key rand coin => exact insert_found_iff hs hcall
      | delete key => exact delete_found_iff hs hcall
    · exact filterCall_unique
  · exact fun o ho => filterCall_returns t o ho

end Runs

section Sample

def rand₀ : ℕ → UInt32 := fun _ => 0

/-- In a filter of one bucket the first insertion fills it; the second is
reported without being made. -/
theorem reported_key_missed : ∃ t,
    Run (FilterCall id) (start 1)
      [(.insert [97] rand₀ false, 1), (.insert [98] rand₀ false, 0)] t ∧
      0 < t.owed [98] ∧ cfLookup id t.filter [98] = some 0 := by
  obtain ⟨cf₁, h₁, cf₂, h₂, hlookup⟩ : ∃ cf₁,
      cfInsert id (newFilter 1) [97] rand₀ false = some (1, cf₁) ∧
        ∃ cf₂, cfInsert id cf₁ [98] rand₀ false = some (0, cf₂) ∧
          cfLookup id cf₂ [98] = some 0 := ⟨_, rfl, _, rfl, rfl⟩
  have hcall₁ : FilterCall id (start 1) (.insert [97] rand₀ false) 1 ⟨cf₁, fun _ => 0⟩ :=
    ⟨h₁, rfl⟩
  have hcall₂ : FilterCall id ⟨cf₁, fun _ => 0⟩ (.insert [98] rand₀ false) 0
      ⟨cf₂, Function.update (fun _ => 0) [98] 1⟩ := ⟨h₂, rfl⟩
  refine ⟨_, .snoc (.snoc .nil hcall₁) hcall₂, ?_, hlookup⟩
  show 0 < Function.update (fun _ => 0) [98] 1 [98]
  rw [Function.update_self]
  exact Nat.one_pos

theorem no_false_negatives_iff_one : ∃ t,
    Run (FilterCall id) (start 1000) [(.insert [97] rand₀ true, 0)] t ∧ 0 < t.owed [97] ∧
      Found id t := by
  obtain ⟨cf₁, h₁⟩ : ∃ cf₁, cfInsert id (newFilter 1000) [97] rand₀ true = some (0, cf₁) :=
    ⟨_, rfl⟩
  have hcall : FilterCall id (start 1000) (.insert [97] rand₀ true) 0
      ⟨cf₁, Function.update (fun _ => 0) [97] 1⟩ := ⟨h₁, rfl⟩
  have hrun : Run (FilterCall id) (start 1000) [(.insert [97] rand₀ true, 0)] _ := .snoc .nil hcall
  have howed : 0 < Function.update (fun _ => 0) ([97] : Key) 1 [97] := by
    rw [Function.update_self]
    exact Nat.one_pos
  have hok : StepOk id (start 1000) (.insert [97] rand₀ true) := by
    constructor
    · rintro (⟨⟨j, -, hj⟩, -⟩ | ⟨-, ⟨j, -, hj⟩, -⟩)
      · exact absurd rfl hj
      · exact absurd rfl hj
    · exact fun k hk => absurd hk (Nat.lt_irrefl 0)
  have hfound := (no_false_negatives_iff id 1000 hrun).1.mpr 
    (Run.steps_cons filterCall_unique hcall hok Run.steps_nil)
  exact ⟨_, hrun, howed, hfound _ _ (List.prefix_refl _) hrun⟩

end Sample

end RtsCache.CuckooRuns
