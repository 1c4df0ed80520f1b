import RtsCache.CuckooCount
import RtsCache.CuckooKicks
import Mathlib.Data.Multiset.Filter
import Mathlib.Data.Sym.Sym2

/-!
# What the kicks relocate

A kick writes the fingerprint it carries over the one in its slot and goes on
with the former: nothing is relocated. The table gains the fingerprint and
loses none only if each write but one falls on a slot that holds it already,
and that one on an empty slot.
-/

set_option autoImplicit false

namespace RtsCache.CuckooRelocation
open RtsCache.CuckooIndex RtsCache.CuckooMachine RtsCache.CuckooSpec RtsCache.CuckooSizing
open RtsCache.CuckooCount RtsCache.CuckooKicks RtsCache.TableOverlay

/-- A fingerprint with its two buckets. -/
def entry (p : ℕ) (fp : Fingerprint) (i : UInt32) : Fingerprint × Sym2 UInt32 :=
  (fp, s(i, altIndex fp i p))

def entries (cf : CuckooFilter) : Multiset (Fingerprint × Sym2 UInt32) :=
  (usedSlots cf).val.map fun o =>
    entry cf.bucketPower (cf.bytes o) (UInt32.ofNat (o / bucketSize))

/-- Success of the kicks adds the fingerprint to those stored. -/
def Relocates (rand : ℕ → UInt32) (cf : CuckooFilter) (fp : Fingerprint) (i : UInt32) : Prop :=
  ∀ r cf', cfReinsert rand cf fp i = some (r, cf') → r ≠ 0 →
    entries cf' = entry cf.bucketPower fp i ::ₘ entries cf

/-- Every kick falls on a slot that holds the fingerprint, and the buckets
tried are absent until one is full. -/
def Keeps (rand : ℕ → UInt32) (fp : Fingerprint) (p : ℕ) : ℕ → ℕ → Bytes → UInt32 → Prop
  | 0, _, _, _ => False
  | n+1, k, bytes, i =>
    let a := altIndex fp i p
    bytes (kickSlot rand k i) = fp ∧
      (Jammed bytes a.toNat ∨ (¬ Present bytes a.toNat ∧ Keeps rand fp p n (k+1) bytes a))

/-- The same, but for one empty slot that a kick or a try fills. -/
def Adds (rand : ℕ → UInt32) (fp : Fingerprint) (p : ℕ) : ℕ → ℕ → Bytes → UInt32 → Prop
  | 0, _, _, _ => False
  | n+1, k, bytes, i =>
    let o := kickSlot rand k i
    let a := altIndex fp i p
    (bytes o = 0 ∧
      (Jammed (Function.update bytes o fp) a.toNat ∨
        (¬ Present (Function.update bytes o fp) a.toNat ∧
          Keeps rand fp p n (k+1) (Function.update bytes o fp) a))) ∨
    (bytes o = fp ∧
      ((¬ Present bytes a.toNat ∧ Adds rand fp p n (k+1) bytes a) ∨
        (Present bytes a.toNat ∧ ∃ j, bucketScan bytes (bucketSize * a.toNat) 0 = some j ∧
          Keeps rand fp p n (k+1) (Function.update bytes (bucketSize * a.toNat + j) fp) a)))

variable {rand : ℕ → UInt32} {bytes bytes' : Bytes} {cf cf' : CuckooFilter} {fp : Fingerprint}
  {i : UInt32} {j k n : ℕ} {r : ℤ}

theorem cfInsertInternal_free (hi : i.toNat < 2^cf.bucketPower) (hp : Present cf.bytes i.toNat)
    (hs : bucketScan cf.bytes (bucketSize * i.toNat) 0 = some j) :
    cfInsertInternal cf fp i = some (0, storeFp cf (bucketSize * i.toNat + j) fp) := by
  obtain ⟨present, hpresent, hiff⟩ := bucketPresent_eq hi
  rw [cfInsertInternal, hpresent, hiff.mpr hp]
  simp [indexBucket_eq hi, bucketInsert, hs, storeFp]

theorem reinsert_cases (hi : i.toNat < 2^cf.bucketPower)
    (hrun : cfReinsertFrom rand (n+1) k cf fp i = some (1, cf')) :
    let cf₁ := storeFp cf (kickSlot rand k i) fp
    let a := altIndex fp i cf.bucketPower
    (Jammed cf₁.bytes a.toNat ∧ cf'.bytes = cf₁.bytes) ∨
    (¬ Present cf₁.bytes a.toNat ∧ cfReinsertFrom rand n (k+1) cf₁ fp a = some (1, cf')) ∨
    ∃ j, Present cf₁.bytes a.toNat ∧
      bucketScan cf₁.bytes (bucketSize * a.toNat) 0 = some j ∧
      cfReinsertFrom rand n (k+1) (storeFp cf₁ (bucketSize * a.toNat + j) fp) fp a =
        some (1, cf') := by
  intro cf₁ a
  have halt : a.toNat < 2^cf₁.bucketPower := alt_lt cf fp i
  rw [cfReinsertFrom] at hrun
  simp only [indexBucket_eq hi, Option.bind_eq_bind, Option.bind_some] at hrun
  change (cfInsertInternal cf₁ fp a).bind _ = _ at hrun
  by_cases hp : Present cf₁.bytes a.toNat
  · cases hs : bucketScan cf₁.bytes (bucketSize * a.toNat) 0 with
    | some j =>
      rw [cfInsertInternal_free halt hp hs] at hrun
      exact Or.inr (Or.inr ⟨j, hp, rfl, hrun⟩)
    | none =>
      have hfull := bucketScan_none.mp hs
      obtain ⟨r, cf₂, hins, hint⟩ := cfInsertInternal_spec fp halt
      rw [hins] at hrun
      rcases hint.result with ⟨rfl, -⟩ | ⟨rfl, -, hb, -⟩
      · exact absurd ⟨hp, hfull⟩ (hint.not_jammed rfl)
      · cases hrun
        exact Or.inl ⟨⟨hp, hfull⟩, hb⟩
  · obtain ⟨r, cf₂, hins, hint⟩ := cfInsertInternal_spec fp halt
    obtain ⟨rfl, rfl⟩ := same_of_absent hint hp
    rw [hins] at hrun
    exact Or.inr (Or.inl ⟨hp, hrun⟩)

theorem reinsert_overlaid (hi : i.toNat < 2^cf.bucketPower)
    (hrun : cfReinsertFrom rand n k cf fp i = some (r, cf')) :
    cf'.bucketPower = cf.bucketPower ∧ ∃ A, Overlaid 0 fp A cf.bytes cf'.bytes := by
  obtain ⟨r', cf'', hrun', hk⟩ := cfReinsertFrom_spec rand fp n k cf i hi
  cases hrun.symm.trans hrun'
  exact ⟨hk.power, _, hk.overlaid⟩

theorem reinsert_keeps {o : ℕ} (hi : i.toNat < 2^cf.bucketPower)
    (hrun : cfReinsertFrom rand n k cf fp i = some (r, cf')) (ho : cf.bytes o = fp) :
    cf'.bytes o = fp := by
  obtain ⟨-, A, hA⟩ := reinsert_overlaid hi hrun
  exact hA.keeps ho

theorem storeFp_same {o : ℕ} (ho : cf.bytes o = fp) : storeFp cf o fp = cf := by
  apply filter_ext
  · rfl
  · rfl
  · show Function.update cf.bytes o fp = cf.bytes
    rw [← ho]
    exact Function.update_eq_self ..

theorem storeFp_self (cf : CuckooFilter) (o : ℕ) (fp : Fingerprint) :
    (storeFp cf o fp).bytes o = fp :=
  Function.update_self ..

theorem storeFp_keeps {o o' : ℕ} (ho : cf.bytes o = fp) : (storeFp cf o' fp).bytes o = fp :=
  (overlaid_write 0 fp cf.bytes o').keeps ho

theorem stored_stays {o : ℕ} (hi : i.toNat < 2^cf.bucketPower)
    (hrun : cfReinsertFrom rand n k (storeFp cf o fp) fp i = some (r, cf')) : cf'.bytes o = fp :=
  reinsert_keeps (show i.toNat < 2^(storeFp cf o fp).bucketPower from hi) hrun (storeFp_self ..)

theorem kicked_stays (hi : i.toNat < 2^cf.bucketPower)
    (hrun : cfReinsertFrom rand (n+1) k cf fp i = some (1, cf')) :
    cf'.bytes (kickSlot rand k i) = fp := by
  have halt := alt_lt cf fp i
  rcases reinsert_cases hi hrun with ⟨-, hb⟩ | ⟨-, hrest⟩ | ⟨j, -, -, hrest⟩
  · rw [hb]
    exact storeFp_self ..
  · exact stored_stays halt hrest
  · have halt₁ : (altIndex fp i cf.bucketPower).toNat <
        2^(storeFp (storeFp cf (kickSlot rand k i) fp)
          (bucketSize * (altIndex fp i cf.bucketPower).toNat + j) fp).bucketPower := halt
    exact reinsert_keeps halt₁ hrest (storeFp_keeps (storeFp_self ..))

theorem keeps_iff (hfp : fp ≠ 0) (hi : i.toNat < 2^cf.bucketPower)
    (hrun : cfReinsertFrom rand n k cf fp i = some (1, cf')) :
    cf'.bytes = cf.bytes ↔ Keeps rand fp cf.bucketPower n k cf.bytes i := by
  induction n generalizing k i with
  | zero => cases hrun
  | succ n ih =>
    have halt := alt_lt cf fp i
    by_cases ho : cf.bytes (kickSlot rand k i) = fp
    · have hcases := reinsert_cases hi hrun
      rw [storeFp_same ho] at hcases
      rw [Keeps]
      rcases hcases with ⟨hjam, hb⟩ | ⟨habsent, hrest⟩ | ⟨j, hp, hs, hrest⟩
      · exact ⟨fun _ => ⟨ho, Or.inl hjam⟩, fun _ => hb⟩
      · rw [ih halt hrest]
        constructor
        · exact fun h => ⟨ho, Or.inr ⟨habsent, h⟩⟩
        · rintro ⟨-, hjam | ⟨-, h⟩⟩
          · exact absurd hjam.1 habsent
          · exact h
      · obtain ⟨hj, hfree⟩ := bucketScan_some hs
        constructor
        · intro hsame
          have hw := stored_stays halt hrest
          rw [hsame, hfree] at hw
          exact absurd hw.symm hfp
        · rintro ⟨-, hjam | ⟨habsent, -⟩⟩
          · exact absurd hfree (hjam.2 j hj)
          · exact absurd hp habsent
    · constructor
      · intro hsame
        rw [← hsame] at ho
        exact absurd (kicked_stays hi hrun) ho
      · exact fun h => absurd h.1 ho

theorem one_more_iff {o : ℕ} (hfp : fp ≠ 0) (ho : bytes o = 0) (ho' : bytes' o = fp) :
    (∃ e, bytes e = 0 ∧ bytes' = Function.update bytes e fp) ↔
      bytes' = Function.update bytes o fp := by
  constructor
  · rintro ⟨e, -, rfl⟩
    by_cases he : o = e
    · rw [he]
    · rw [Function.update_of_ne he, ho] at ho'
      exact absurd ho'.symm hfp
  · exact fun h => ⟨o, ho, h⟩

theorem first_fills_iff (hfp : fp ≠ 0) (hi : i.toNat < 2^cf.bucketPower)
    (hrun : cfReinsertFrom rand (n+1) k cf fp i = some (1, cf')) :
    cf'.bytes = Function.update cf.bytes (kickSlot rand k i) fp ↔
      Jammed (Function.update cf.bytes (kickSlot rand k i) fp)
          (altIndex fp i cf.bucketPower).toNat ∨
        (¬ Present (Function.update cf.bytes (kickSlot rand k i) fp)
            (altIndex fp i cf.bucketPower).toNat ∧
          Keeps rand fp cf.bucketPower n (k+1) (Function.update cf.bytes (kickSlot rand k i) fp)
            (altIndex fp i cf.bucketPower)) := by
  have halt : (altIndex fp i cf.bucketPower).toNat <
      2^(storeFp cf (kickSlot rand k i) fp).bucketPower := alt_lt cf fp i
  rcases reinsert_cases hi hrun with ⟨hjam, hb⟩ | ⟨habsent, hrest⟩ | ⟨j, hp, hs, hrest⟩
  · constructor
    · intro _
      exact Or.inl hjam
    · intro _
      exact hb
  · have hkeeps := keeps_iff hfp halt hrest
    constructor
    · intro h
      exact Or.inr ⟨habsent, hkeeps.mp h⟩
    · rintro (hjam | ⟨-, h⟩)
      · exact absurd hjam.1 habsent
      · exact hkeeps.mpr h
  · obtain ⟨hj, hfree⟩ := bucketScan_some hs
    constructor
    · intro h
      have hw := stored_stays halt hrest
      rw [h] at hw
      exact absurd (hfree.symm.trans hw).symm hfp
    · rintro (hjam | ⟨habsent, -⟩)
      · exact absurd hfree (hjam.2 j hj)
      · exact absurd hp habsent

theorem later_fills_iff (hfp : fp ≠ 0) (hi : i.toNat < 2^cf.bucketPower)
    (ho : cf.bytes (kickSlot rand k i) = fp)
    (hrun : cfReinsertFrom rand (n+1) k cf fp i = some (1, cf'))
    (ih : cfReinsertFrom rand n (k+1) cf fp (altIndex fp i cf.bucketPower) = some (1, cf') →
      ((∃ e, cf.bytes e = 0 ∧ cf'.bytes = Function.update cf.bytes e fp) ↔
        Adds rand fp cf.bucketPower n (k+1) cf.bytes (altIndex fp i cf.bucketPower))) :
    (∃ e, cf.bytes e = 0 ∧ cf'.bytes = Function.update cf.bytes e fp) ↔
      (¬ Present cf.bytes (altIndex fp i cf.bucketPower).toNat ∧
          Adds rand fp cf.bucketPower n (k+1) cf.bytes (altIndex fp i cf.bucketPower)) ∨
        (Present cf.bytes (altIndex fp i cf.bucketPower).toNat ∧
          ∃ j, bucketScan cf.bytes (bucketSize * (altIndex fp i cf.bucketPower).toNat) 0 = some j ∧
            Keeps rand fp cf.bucketPower n (k+1) (Function.update cf.bytes
              (bucketSize * (altIndex fp i cf.bucketPower).toNat + j) fp)
              (altIndex fp i cf.bucketPower)) := by
  have hcases := reinsert_cases hi hrun
  rw [storeFp_same ho] at hcases
  rcases hcases with ⟨hjam, hb⟩ | ⟨habsent, hrest⟩ | ⟨j, hp, hs, hrest⟩
  · constructor
    · rintro ⟨e, he, hsame⟩
      have hv : cf'.bytes e = fp := by
        rw [hsame]
        exact Function.update_self ..
      rw [hb, he] at hv
      exact absurd hv.symm hfp
    · rintro (⟨habsent, -⟩ | ⟨-, j, hs, -⟩)
      · exact absurd hjam.1 habsent
      · obtain ⟨hj, hfree⟩ := bucketScan_some hs
        exact absurd hfree (hjam.2 j hj)
  · rw [ih hrest]
    constructor
    · intro h
      exact Or.inl ⟨habsent, h⟩
    · rintro (⟨-, h⟩ | ⟨hp, -⟩)
      · exact h
      · exact absurd hp habsent
  · obtain ⟨-, hfree⟩ := bucketScan_some hs
    have halt : (altIndex fp i cf.bucketPower).toNat < 2^(storeFp cf (bucketSize *
      (altIndex fp i cf.bucketPower).toNat + j) fp).bucketPower := alt_lt cf fp i
    have hkeeps := keeps_iff hfp halt hrest
    rw [one_more_iff hfp hfree (stored_stays (alt_lt cf fp i) hrest)]
    constructor
    · intro h
      exact Or.inr ⟨hp, j, hs, hkeeps.mp h⟩
    · rintro (⟨habsent, -⟩ | ⟨-, j', hs', h⟩)
      · exact absurd hp habsent
      · cases hs.symm.trans hs'
        exact hkeeps.mpr h

theorem kicked_empty_or_own (hi : i.toNat < 2^cf.bucketPower)
    (hrun : cfReinsertFrom rand (n+1) k cf fp i = some (1, cf')) {e : ℕ} (he : cf.bytes e = 0)
    (hsame : cf'.bytes = Function.update cf.bytes e fp) :
    cf.bytes (kickSlot rand k i) = 0 ∨ cf.bytes (kickSlot rand k i) = fp := by
  have hkicked := kicked_stays hi hrun
  rw [hsame] at hkicked
  by_cases hoe : kickSlot rand k i = e
  · rw [hoe]
    exact Or.inl he
  · rw [Function.update_of_ne hoe] at hkicked
    exact Or.inr hkicked

theorem adds_iff (hfp : fp ≠ 0) (hi : i.toNat < 2^cf.bucketPower)
    (hrun : cfReinsertFrom rand n k cf fp i = some (1, cf')) :
    (∃ e, cf.bytes e = 0 ∧ cf'.bytes = Function.update cf.bytes e fp) ↔
      Adds rand fp cf.bucketPower n k cf.bytes i := by
  induction n generalizing k i with
  | zero => cases hrun
  | succ n ih =>
    have halt := alt_lt cf fp i
    rw [Adds]
    by_cases hzero : cf.bytes (kickSlot rand k i) = 0
    · have hne : cf.bytes (kickSlot rand k i) ≠ fp := by
        rw [hzero]
        exact hfp.symm
      rw [one_more_iff hfp hzero (kicked_stays hi hrun), first_fills_iff hfp hi hrun]
      constructor
      · intro h
        exact Or.inl ⟨hzero, h⟩
      · rintro (⟨-, h⟩ | ⟨h, -⟩)
        · exact h
        · exact absurd h hne
    · by_cases ho : cf.bytes (kickSlot rand k i) = fp
      · rw [later_fills_iff hfp hi ho hrun fun hrest => ih halt hrest]
        constructor
        · intro h
          exact Or.inr ⟨ho, h⟩
        · rintro (⟨h, -⟩ | ⟨-, h⟩)
          · exact absurd h hzero
          · exact h
      · constructor
        · rintro ⟨e, he, hsame⟩
          rcases kicked_empty_or_own hi hrun he hsame with h | h
          · exact absurd h hzero
          · exact absurd h ho
        · rintro (⟨h, -⟩ | ⟨h, -⟩)
          · exact absurd h hzero
          · exact absurd h ho

theorem reinsert_outside {o : ℕ} (hi : i.toNat < 2^cf.bucketPower)
    (hrun : cfReinsertFrom rand n k cf fp i = some (1, cf')) (ho : cf'.bytes o ≠ cf.bytes o) :
    o / bucketSize = i.toNat ∨ o / bucketSize = (altIndex fp i cf.bucketPower).toNat := by
  induction n generalizing k cf i with
  | zero => cases hrun
  | succ n ih =>
    by_contra hout
    rw [not_or] at hout
    have hslot : ∀ (b : UInt32) l, l < bucketSize → o / bucketSize ≠ b.toNat →
        o ≠ bucketSize * b.toNat + l := by
      intro b l hl hne he
      apply hne
      simp only [bucketSize] at hl he ⊢
      omega
    have hkick : o ≠ kickSlot rand k i := hslot i _ (kickSlot_lt rand k) hout.1
    have hsame : (storeFp cf (kickSlot rand k i) fp).bytes o = cf.bytes o :=
      Function.update_of_ne hkick _ _
    have halt := alt_lt cf fp i
    have hback := altIndex_back fp (masked_of_lt cf hi)
    have hlater : ∀ cf₁ : CuckooFilter,
        cfReinsertFrom rand n (k+1) cf₁ fp (altIndex fp i cf.bucketPower) = some (1, cf') →
        cf₁.bucketPower = cf.bucketPower → cf₁.bytes o ≠ cf.bytes o := by
      intro cf₁ hrest hpow hv
      rw [← hv] at ho
      rw [← hpow] at hrest halt
      have h := ih halt hrest ho
      rw [hpow, hback] at h
      exact h.elim hout.2 hout.1
    rcases reinsert_cases hi hrun with ⟨-, hb⟩ | ⟨-, hrest⟩ | ⟨j, -, hs, hrest⟩
    · rw [hb] at ho
      exact ho hsame
    · exact hlater _ hrest rfl hsame
    · have htry := hslot _ j (bucketScan_some hs).1 hout.2
      exact hlater _ hrest rfl ((Function.update_of_ne htry _ _).trans hsame)

theorem entry_swap (cf : CuckooFilter) (fp : Fingerprint) (hi : i.toNat < 2^cf.bucketPower) :
    entry cf.bucketPower fp (altIndex fp i cf.bucketPower) = entry cf.bucketPower fp i := by
  rw [entry, entry, altIndex_back fp (masked_of_lt cf hi), Sym2.eq_swap]

theorem entries_of_filled {e : ℕ} (hfp : fp ≠ 0) (hi : i.toNat < 2^cf.bucketPower)
    (hp : cf'.bucketPower = cf.bucketPower) (he : cf.bytes e = 0)
    (hb : cf'.bytes = Function.update cf.bytes e fp)
    (hslot : e / bucketSize = i.toNat ∨ e / bucketSize = (altIndex fp i cf.bucketPower).toNat) :
    entries cf' = entry cf.bucketPower fp i ::ₘ entries cf := by
  have hlt : e < bucketSize * 2^cf.bucketPower := by
    have halt := alt_lt cf fp i
    have hdiv : e / bucketSize < 2^cf.bucketPower := by
      rcases hslot with h | h
      · rw [h]
        exact hi
      · rw [h]
        exact halt
    simp only [bucketSize] at hdiv ⊢
    omega
  have hnot : e ∉ usedSlots cf := fun h => (Finset.mem_filter.mp h).2 he
  have hused : usedSlots cf' = insert e (usedSlots cf) := by
    ext o
    rw [usedSlots, usedSlots, hp, Finset.mem_insert, Finset.mem_filter, Finset.mem_filter,
      Finset.mem_range, hb]
    by_cases hoe : o = e
    · subst hoe
      rw [Function.update_self]
      exact ⟨fun _ => Or.inl rfl, fun _ => ⟨hlt, hfp⟩⟩
    · rw [Function.update_of_ne hoe, or_iff_right hoe]
  rw [entries, entries, hused, Finset.insert_val_of_notMem hnot, Multiset.map_cons, hp, hb,
    Function.update_self]
  congr 1
  · rcases hslot with h | h
    · rw [h, UInt32.ofNat_toNat]
    · rw [h, UInt32.ofNat_toNat]
      exact entry_swap cf fp hi
  · apply Multiset.map_congr rfl
    intro o ho
    have hoe : o ≠ e := fun h => hnot (h ▸ ho)
    rw [Function.update_of_ne hoe]

def holding (cf : CuckooFilter) (fp : Fingerprint) : Finset ℕ :=
  (Finset.range (bucketSize * 2^cf.bucketPower)).filter fun o => cf.bytes o = fp

theorem count_entries (cf : CuckooFilter) {x : Fingerprint} (hx : x ≠ 0) :
    Multiset.count x ((entries cf).map Prod.fst) = (holding cf x).card := by
  have hfilter : (usedSlots cf).filter (fun o => x = cf.bytes o) = holding cf x := by
    ext o
    simp only [holding, usedSlots, Finset.mem_filter]
    constructor
    · exact fun h => ⟨h.1.1, h.2.symm⟩
    · exact fun h => ⟨⟨h.1, by rw [h.2]; exact hx⟩, h.2.symm⟩
  rw [entries, Multiset.map_map, Multiset.count_map, ← hfilter]
  rfl

theorem filled_of_entries {A : List ℕ} (hfp : fp ≠ 0) (hp : cf'.bucketPower = cf.bucketPower)
    (ho : Overlaid 0 fp A cf.bytes cf'.bytes)
    (hrange : ∀ o, cf'.bytes o ≠ cf.bytes o → o < bucketSize * 2^cf.bucketPower)
    (h : entries cf' = entry cf.bucketPower fp i ::ₘ entries cf) :
    ∃ e, cf.bytes e = 0 ∧ cf'.bytes = Function.update cf.bytes e fp := by
  have hcount : ∀ x, x ≠ 0 →
      (holding cf' x).card = (holding cf x).card + if x = fp then 1 else 0 := by
    intro x hx
    rw [← count_entries cf' hx, ← count_entries cf hx, h, Multiset.map_cons, Multiset.count_cons]
    rfl
  have hsub : holding cf fp ⊆ holding cf' fp := by
    intro o hmem
    rw [holding, Finset.mem_filter] at hmem ⊢
    rw [hp]
    exact ⟨hmem.1, ho.keeps hmem.2⟩
  have hone : (holding cf' fp \ holding cf fp).card = 1 := by
    rw [Finset.card_sdiff_of_subset hsub, hcount fp hfp, if_pos rfl]
    omega
  obtain ⟨e, he⟩ := Finset.card_eq_one.mp hone
  have hnew : ∀ o, cf'.bytes o ≠ cf.bytes o → o = e := by
    intro o hne
    have hv : cf'.bytes o = fp := by
      by_cases hA : o ∈ A
      · exact ho.written o hA
      · exact (ho.rest o hA).elim (fun hsame => absurd hsame hne) fun hfill => hfill.2
    have hmem : o ∈ holding cf' fp \ holding cf fp := by
      rw [Finset.mem_sdiff, holding, holding, Finset.mem_filter, Finset.mem_filter, hp,
        Finset.mem_range]
      exact ⟨⟨hrange o hne, hv⟩, fun hold => hne (hv.trans hold.2.symm)⟩
    rw [he] at hmem
    exact Finset.mem_singleton.mp hmem
  obtain ⟨hgain, hold⟩ := Finset.mem_sdiff.mp (he ▸ Finset.mem_singleton_self e)
  rw [holding, Finset.mem_filter, hp] at hgain
  rw [holding, Finset.mem_filter, not_and] at hold
  refine ⟨e, ?_, ?_⟩
  · by_contra hx
    have hother : cf.bytes e ≠ fp := hold hgain.1
    -- no other fingerprint is held less often, so none has been overwritten
    have hle : (holding cf (cf.bytes e)).card ≤ (holding cf' (cf.bytes e)).card := by
      rw [hcount _ hx]
      exact Nat.le_add_right _ _
    have hback : holding cf' (cf.bytes e) ⊆ holding cf (cf.bytes e) := by
      intro o hmem
      rw [holding, Finset.mem_filter] at hmem ⊢
      rw [hp] at hmem
      exact ⟨hmem.1, ((ho.other hother hx o).mp hmem.2).1⟩
    have hsame := Finset.eq_of_subset_of_card_le hback hle
    have hkept : e ∈ holding cf' (cf.bytes e) := by
      rw [hsame, holding, Finset.mem_filter]
      exact ⟨hgain.1, rfl⟩
    exact hother ((Finset.mem_filter.mp hkept).2.symm.trans hgain.2)
  · funext o
    by_cases hoe : o = e
    · rw [hoe, Function.update_self]
      exact hgain.2
    · rw [Function.update_of_ne hoe]
      by_contra hne
      exact hoe (hnew o hne)

/-- A success of the kicks relocates exactly when it fills one empty slot. -/
theorem entries_iff (hfp : fp ≠ 0) (hi : i.toNat < 2^cf.bucketPower)
    (hrun : cfReinsertFrom rand n k cf fp i = some (1, cf')) :
    entries cf' = entry cf.bucketPower fp i ::ₘ entries cf ↔
      ∃ e, cf.bytes e = 0 ∧ cf'.bytes = Function.update cf.bytes e fp := by
  obtain ⟨hp, A, hA⟩ := reinsert_overlaid hi hrun
  have halt := alt_lt cf fp i
  constructor
  · apply filled_of_entries hfp hp hA
    intro o hne
    have hout := reinsert_outside hi hrun hne
    simp only [bucketSize] at hout ⊢
    omega
  · rintro ⟨e, he, hb⟩
    apply entries_of_filled hfp hi hp he hb
    apply reinsert_outside hi hrun
    rw [hb, Function.update_self, he]
    exact hfp

theorem entry_zero_not_mem (cf : CuckooFilter) : entry cf.bucketPower 0 i ∉ entries cf := by
  intro h
  obtain ⟨o, ho, he⟩ := Multiset.mem_map.mp h
  have hused : o ∈ usedSlots cf := ho
  rw [usedSlots, Finset.mem_filter] at hused
  exact hused.2 (congrArg Prod.fst he)

/-- In any filter, and for any random choices, when the kicks only relocate. -/
theorem relocates_iff (rand : ℕ → UInt32) (cf : CuckooFilter) (fp : Fingerprint)
    (hi : i.toNat < 2^cf.bucketPower) :
    Relocates rand cf fp i ↔
      (fp ≠ 0 ∧ (Silent cf.bytes i.toNat (altIndex fp i cf.bucketPower).toNat ∨
        Adds rand fp cf.bucketPower cfMaxBucketKickOut 0 cf.bytes i)) ∨
      (fp = 0 ∧ ¬ Jams rand cfMaxBucketKickOut 0 cf fp i) := by
  obtain ⟨r, cf', hrun, hk⟩ := cfReinsertFrom_spec rand fp cfMaxBucketKickOut 0 cf i hi
  have hjams := cfReinsertFrom_jams cfMaxBucketKickOut 0 cf hi hrun
  have hrel : Relocates rand cf fp i ↔
      (r ≠ 0 → entries cf' = entry cf.bucketPower fp i ::ₘ entries cf) := by
    constructor
    · exact fun h => h r cf' hrun
    · intro h r' cf'' hrun' hne
      cases hrun.symm.trans hrun'
      exact h hne
  have hone : (1 : ℤ) ≠ 0 := by decide
  rw [hrel]
  by_cases hfp : fp = 0
  · rw [or_iff_right fun h => h.1 hfp, and_iff_right hfp, ← hjams]
    rcases hk.result with ⟨rfl, -⟩ | ⟨rfl, -⟩
    · exact ⟨fun _ => by decide, fun _ hne => absurd rfl hne⟩
    · subst hfp
      constructor
      · intro h
        have hmem : entry cf.bucketPower 0 i ∈ entries cf' := by
          rw [h hone]
          exact Multiset.mem_cons_self _ _
        rw [← hk.power] at hmem
        exact absurd hmem (entry_zero_not_mem cf')
      · exact fun h => absurd rfl h
  · rw [or_iff_left fun h => hfp h.1, and_iff_right hfp]
    have hsilent := jams_iff rand hfp (masked_of_lt cf hi)
    rw [← hjams] at hsilent
    rcases hk.result with ⟨rfl, -⟩ | ⟨rfl, -⟩
    · constructor
      · intro _
        by_contra h
        cases hsilent.mpr fun hs => h (Or.inl hs)
      · exact fun _ hne => absurd rfl hne
    · rw [or_iff_right (hsilent.mp rfl), ← adds_iff hfp hi hrun, ← entries_iff hfp hi hrun]
      exact ⟨fun h => h hone, fun h _ => h⟩

section Sample

def oneBucket (full : List ℕ) : CuckooFilter :=
  { newFilter 1 with bytes := fun o => if o ∈ full then 7 else 0 }

theorem relocates_iff_last : (∃ cf', cfReinsert (fun _ => 0) (oneBucket [1, 2, 3]) 9 0 =
    some (1, cf')) ∧ Relocates (fun _ => 0) (oneBucket [1, 2, 3]) 9 0 := by
  refine ⟨⟨_, rfl⟩, ?_⟩
  have hzero : (0 : UInt32).toNat < 2^(oneBucket [1, 2, 3]).bucketPower := by decide
  apply (relocates_iff _ (oneBucket [1, 2, 3]) 9 hzero).mpr
  refine Or.inl ⟨by decide, Or.inr (Or.inl ⟨rfl, Or.inl ⟨?_, ?_⟩⟩)⟩
  · exact ⟨0, by decide, by decide⟩
  · intro j hj
    have hcases : j = 0 ∨ j = 1 ∨ j = 2 ∨ j = 3 := by
      simp only [bucketSize] at hj
      omega
    rcases hcases with rfl | rfl | rfl | rfl <;> decide

/-- The kick overwrites one of four fingerprints, which is lost. -/
theorem not_relocates_full : ¬ Relocates (fun _ => 0) (oneBucket [0, 1, 2, 3]) 9 0 := by
  intro h
  obtain ⟨cf', hrun, hfour⟩ : ∃ cf',
      cfReinsert (fun _ => 0) (oneBucket [0, 1, 2, 3]) 9 0 = some (1, cf') ∧
        Multiset.card (entries cf') = 4 := ⟨_, rfl, rfl⟩
  have hcons := h 1 cf' hrun (by decide)
  have hbefore : Multiset.card (entries (oneBucket [0, 1, 2, 3])) = 4 := rfl
  rw [hcons, Multiset.card_cons, hbefore] at hfour
  cases hfour

end Sample

end RtsCache.CuckooRelocation
