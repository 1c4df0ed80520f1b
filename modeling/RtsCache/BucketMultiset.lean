import RtsCache.CuckooSpec
import RtsCache.RunRefinement
import RtsCache.SlotMultiset

/-!
# A bucket as a multiset

What a bucket stores are its slots other than 0, counted. Insertions and
deletions act on it as on a multiset of at most four fingerprints, whatever
holes earlier deletions left.
-/

set_option autoImplicit false

namespace RtsCache.BucketMultiset
open RtsCache.CuckooIndex RtsCache.CuckooMachine RtsCache.CuckooSpec RtsCache.RunRefinement
open RtsCache.SlotMultiset

abbrev Mark := { fp : Fingerprint // fp ≠ 0 }

inductive BucketOp where
  | insert (fp : Mark)
  | delete (fp : Mark)

def bucketCall (bucket : ℕ) (bytes : Bytes) : BucketOp → ℤ × Bytes
  | .insert fp => bucketInsert bytes bucket fp
  | .delete fp => bucketDelete bytes bucket fp

def BucketCall (bucket : ℕ) (bytes : Bytes) (o : BucketOp) (r : ℤ) (bytes' : Bytes) : Prop :=
  bucketCall bucket bytes o = (r, bytes')

def stored (bytes : Bytes) (bucket : ℕ) : Multiset Fingerprint :=
  occupied 0 bucketSize fun i => bytes (bucket + i)

/-- What a call that answered `r` does to the multiset. -/
def counted (s : Multiset Fingerprint) : BucketOp × ℤ → Multiset Fingerprint
  | (.insert fp, r) => if r = 0 then (fp : Fingerprint) ::ₘ s else s
  | (.delete fp, r) => if r = 0 then s.erase fp else s

/-- What the operations on a bucket have to be for the multiset it stores. -/
structure Bounded (bytes : Bytes) (bucket : ℕ) : Prop where
  card : (stored bytes bucket).card ≤ bucketSize
  insert : ∀ fp : Mark, (bucketInsert bytes bucket fp).1 = 0 ↔
    (stored bytes bucket).card < bucketSize
  rejected : ∀ fp : Mark, (bucketInsert bytes bucket fp).1 ≠ 0 →
    (bucketInsert bytes bucket fp).2 = bytes
  delete : ∀ fp : Mark, (bucketDelete bytes bucket fp).1 = 0 ↔
    (fp : Fingerprint) ∈ stored bytes bucket
  missing : ∀ fp : Mark, (bucketDelete bytes bucket fp).1 ≠ 0 →
    (bucketDelete bytes bucket fp).2 = bytes
  index : ∀ fp : Mark, 0 ≤ bucketFpIndex bytes bucket fp ↔
    (fp : Fingerprint) ∈ stored bytes bucket
  slot : ∀ fp : Mark, 0 ≤ bucketFpIndex bytes bucket fp →
    ∃ i < bucketSize, bucketFpIndex bytes bucket fp = i ∧ bytes (bucket + i) = fp

def insertedDeleted (bytes : Bytes) (bucket : ℕ) (fp : Mark) : Multiset Fingerprint :=
  stored (bucketDelete (bucketInsert bytes bucket fp).2 bucket fp).2 bucket

variable {bytes bytes' : Bytes} {bucket : ℕ} {fp : Mark}

theorem stored_reset (bytes : Bytes) (bucket : ℕ) :
    stored (bucketReset bytes bucket) bucket = 0 := by
  apply occupied_empty
  intro i hi
  rw [bucketReset, if_pos]
  omega

theorem card_stored_le (bytes : Bytes) (bucket : ℕ) :
    (stored bytes bucket).card ≤ bucketSize :=
  card_occupied_le 0 bucketSize _

theorem mem_stored : (fp : Fingerprint) ∈ stored bytes bucket ↔
    ∃ i < bucketSize, bytes (bucket + i) = fp := by
  rw [stored, mem_occupied]
  exact and_iff_right fp.property

theorem scan_isSome : (bucketScan bytes bucket fp).isSome ↔
    (fp : Fingerprint) ∈ stored bytes bucket := by
  rw [mem_stored]
  cases hs : bucketScan bytes bucket fp with
  | none =>
    have hnone := bucketScan_none.mp hs
    simp only [Option.isSome_none, Bool.false_eq_true, false_iff]
    rintro ⟨i, hi, h⟩
    exact hnone i hi h
  | some i => simpa using ⟨i, bucketScan_some hs⟩

theorem stored_update {j : ℕ} (hj : j < bucketSize) (bytes : Bytes) (v : Fingerprint) :
    stored (Function.update bytes (bucket + j) v) bucket =
      occupied 0 bucketSize (Function.update (fun i => bytes (bucket + i)) j v) := by
  have hslots : (fun i => Function.update bytes (bucket + j) v (bucket + i)) =
      Function.update (fun i => bytes (bucket + i)) j v := by
    ext i
    by_cases hi : i = j
    · subst hi
      rw [Function.update_self, Function.update_self]
    · rw [Function.update_of_ne hi, Function.update_of_ne (by omega)]
  rw [stored, hslots]

theorem insert_cases (bytes : Bytes) (bucket : ℕ) (fp : Mark) :
    ((bucketInsert bytes bucket fp).1 = 0 ∧ (stored bytes bucket).card < bucketSize ∧
        stored (bucketInsert bytes bucket fp).2 bucket =
          (fp : Fingerprint) ::ₘ stored bytes bucket) ∨
      (bucketInsert bytes bucket fp = (-1, bytes) ∧ (stored bytes bucket).card = bucketSize) := by
  cases hs : bucketScan bytes bucket 0 with
  | none =>
    apply Or.inr
    constructor
    · rw [bucketInsert, hs]
    · exact card_occupied_full (bucketScan_none.mp hs)
  | some j =>
    obtain ⟨hj, hfree⟩ := bucketScan_some hs
    have hrun : bucketInsert bytes bucket fp = (0, Function.update bytes (bucket + j) fp) := by
      rw [bucketInsert, hs]
    rw [hrun]
    have hfill := occupied_fill (m := fun i => bytes (bucket + i)) hj hfree fp.property
    rw [← stored_update hj] at hfill
    exact Or.inl ⟨rfl, card_occupied_lt hj hfree, hfill⟩

theorem delete_cases (bytes : Bytes) (bucket : ℕ) (fp : Mark) :
    ((bucketDelete bytes bucket fp).1 = 0 ∧ (fp : Fingerprint) ∈ stored bytes bucket ∧
        stored (bucketDelete bytes bucket fp).2 bucket = (stored bytes bucket).erase fp) ∨
      (bucketDelete bytes bucket fp = (-1, bytes) ∧ (fp : Fingerprint) ∉ stored bytes bucket) := by
  have hiff : (bucketScan bytes bucket fp).isSome ↔ (fp : Fingerprint) ∈ stored bytes bucket :=
    scan_isSome
  cases hs : bucketScan bytes bucket fp with
  | none =>
    apply Or.inr
    constructor
    · rw [bucketDelete, hs]
    · rw [← hiff, hs]
      decide
  | some j =>
    obtain ⟨hj, hval⟩ := bucketScan_some hs
    have hrun : bucketDelete bytes bucket fp = (0, Function.update bytes (bucket + j) 0) := by
      rw [bucketDelete, hs]
    rw [hrun]
    have hclear := occupied_clear (m := fun i => bytes (bucket + i)) hj hval fp.property
    rw [← stored_update hj] at hclear
    have hmem := hiff.mp (by rw [hs]; rfl)
    exact Or.inl ⟨rfl, hmem, hclear⟩

theorem bounded (bytes : Bytes) (bucket : ℕ) : Bounded bytes bucket := by
  have hfails : (-1 : ℤ) ≠ 0 := by decide
  constructor
  · exact card_stored_le bytes bucket
  · intro fp
    rcases insert_cases bytes bucket fp with ⟨hr, hlt, -⟩ | ⟨hr, hfull⟩
    · exact iff_of_true hr hlt
    · rw [hr, hfull]
      exact iff_of_false hfails (Nat.lt_irrefl _)
  · intro fp hr
    rcases insert_cases bytes bucket fp with ⟨h, -⟩ | ⟨h, -⟩
    · exact absurd h hr
    · rw [h]
  · intro fp
    rcases delete_cases bytes bucket fp with ⟨hr, hmem, -⟩ | ⟨hr, hmem⟩
    · exact iff_of_true hr hmem
    · rw [hr]
      exact iff_of_false hfails hmem
  · intro fp hr
    rcases delete_cases bytes bucket fp with ⟨h, -⟩ | ⟨h, -⟩
    · exact absurd h hr
    · rw [h]
  · intro fp
    rw [← scan_isSome, bucketFpIndex]
    cases bucketScan bytes bucket fp with
    | none => decide
    | some i => simp
  · intro fp h
    rw [bucketFpIndex] at h ⊢
    cases hs : bucketScan bytes bucket fp with
    | none =>
      rw [hs] at h
      exact absurd h (by decide)
    | some i =>
      obtain ⟨hi, hval⟩ := bucketScan_some hs
      exact ⟨i, hi, rfl, hval⟩

theorem call_counted (o : BucketOp) {r : ℤ} (hcall : BucketCall bucket bytes o r bytes') :
    stored bytes' bucket = counted (stored bytes bucket) (o, r) := by
  cases o with
  | insert fp =>
    have hrun : bucketInsert bytes bucket fp = (r, bytes') := hcall
    rcases insert_cases bytes bucket fp with ⟨hr, -, hst⟩ | ⟨hr, -⟩
    · rw [hrun] at hr hst
      rw [hst, counted, if_pos hr]
    · cases hrun.symm.trans hr
      rfl
  | delete fp =>
    have hrun : bucketDelete bytes bucket fp = (r, bytes') := hcall
    rcases delete_cases bytes bucket fp with ⟨hr, -, hst⟩ | ⟨hr, -⟩
    · rw [hrun] at hr hst
      rw [hst, counted, if_pos hr]
    · cases hrun.symm.trans hr
      rfl

theorem run_counted {xs : List (BucketOp × ℤ)}
    (hrun : Run (BucketCall bucket) (bucketReset bytes bucket) xs bytes') :
    stored bytes' bucket = xs.foldl counted 0 := by
  induction hrun with
  | nil => exact stored_reset bytes bucket
  | snoc run last ih =>
    rw [call_counted _ last, ih, List.foldl_append, List.foldl_cons, List.foldl_nil]

theorem insertedDeleted_iff (bytes : Bytes) (bucket : ℕ) (fp : Mark) :
    insertedDeleted bytes bucket fp = stored bytes bucket ↔
      (stored bytes bucket).card < bucketSize ∨ (fp : Fingerprint) ∉ stored bytes bucket := by
  unfold insertedDeleted
  rcases insert_cases bytes bucket fp with ⟨-, hlt, hst⟩ | ⟨hr, hfull⟩
  · apply iff_of_true _ (Or.inl hlt)
    rcases delete_cases (bucketInsert bytes bucket fp).2 bucket fp with ⟨-, -, hdel⟩ | ⟨-, hmem⟩
    · rw [hdel, hst, Multiset.erase_cons_head]
    · rw [hst] at hmem
      exact absurd (Multiset.mem_cons_self _ _) hmem
  · rw [hr, hfull, or_iff_right (Nat.lt_irrefl _)]
    rcases delete_cases bytes bucket fp with ⟨-, hmem, hdel⟩ | ⟨hdel, hmem⟩
    · apply iff_of_false _ (fun h => h hmem)
      intro h
      have hcard := Multiset.card_erase_lt_of_mem hmem
      rw [← hdel, h] at hcard
      exact Nat.lt_irrefl _ hcard
    · rw [hdel]
      exact iff_of_true rfl hmem

/-- Every history of insertions and deletions leaves a bounded multiset. -/
theorem bucket_multiset {xs : List (BucketOp × ℤ)}
    (hrun : Run (BucketCall bucket) (bucketReset bytes bucket) xs bytes') :
    stored bytes' bucket = xs.foldl counted 0 ∧ Bounded bytes' bucket ∧
      ∀ fp : Mark, insertedDeleted bytes' bucket fp = stored bytes' bucket ↔
        (stored bytes' bucket).card < bucketSize ∨ (fp : Fingerprint) ∉ stored bytes' bucket :=
  ⟨run_counted hrun, bounded bytes' bucket, insertedDeleted_iff bytes' bucket⟩

section Sample

def one : Mark := ⟨1, by decide⟩

def filled : ℕ → Bytes
  | 0 => bucketReset (fun _ => 0) 0
  | n+1 => (bucketInsert (filled n) 0 one).2

def fills : List (BucketOp × ℤ) := List.replicate 4 (.insert one, 0)

theorem fills_run : Run (BucketCall 0) (filled 0) fills (filled 4) := by
  have h₁ : Run (BucketCall 0) (filled 0) [(.insert one, 0)] (filled 1) := .snoc .nil rfl
  have h₂ : Run (BucketCall 0) (filled 0) (List.replicate 2 (.insert one, 0)) (filled 2) :=
    .snoc h₁ rfl
  have h₃ : Run (BucketCall 0) (filled 0) (List.replicate 3 (.insert one, 0)) (filled 3) :=
    .snoc h₂ rfl
  exact .snoc h₃ rfl

def two : Mark := ⟨2, by decide⟩

def refills : List (BucketOp × ℤ) :=
  [(.insert one, 0), (.insert two, 0), (.insert two, 0), (.delete one, 0), (.delete one, -1),
    (.insert two, 0), (.insert one, 0), (.insert one, -1)]

def samples : Multiset Fingerprint := {1, 2, 2, 2}

theorem bucket_multiset_refilled : ∃ bytes,
    Run (BucketCall 0) (bucketReset (fun _ => 0) 0) refills bytes ∧
      stored bytes 0 = samples ∧ Bounded bytes 0 ∧ insertedDeleted bytes 0 one ≠ samples := by
  let exec := fun bytes o => some (bucketCall 0 bytes o)
  obtain ⟨bytes, hreplay⟩ : ∃ bytes,
      replay exec (bucketReset (fun _ => 0) 0) refills = some bytes := ⟨_, rfl⟩
  have hrun : Run (BucketCall 0) (bucketReset (fun _ => 0) 0) refills bytes :=
    replay_run (fun _ _ _ _ h => Option.some.inj h) hreplay
  obtain ⟨hstored, hbounded, hrestored⟩ := bucket_multiset hrun
  have hsamples : stored bytes 0 = samples := by
    rw [hstored]
    decide
  refine ⟨bytes, hrun, hsamples, hbounded, ?_⟩
  rw [← hsamples, ne_eq, hrestored one, hsamples]
  decide

/-- The fifth insertion fails and the deletion takes one of the four. -/
theorem not_restored_filled : ¬ ∀ (bytes bytes' : Bytes) (bucket : ℕ) (xs : List (BucketOp × ℤ)),
    Run (BucketCall bucket) (bucketReset bytes bucket) xs bytes' →
      ∀ fp : Mark, insertedDeleted bytes' bucket fp = stored bytes' bucket := by
  intro h
  have hrestored := (insertedDeleted_iff (filled 4) 0 one).mp (h _ _ _ _ fills_run one)
  rw [run_counted fills_run] at hrestored
  revert hrestored
  decide

end Sample

end RtsCache.BucketMultiset
