import RtsCache.CuckooSpec

/-!
# The program

`main` of `pmem.c` puts its words into a filter, counts the answers 0 of
`cf_insert`, takes the words out again and reports a mismatch. `cf_new` leaves
the local variable as it was, so the filter is whatever its storage holds, and
the answers of `cf_delete` are the wrong way round for the test. Nothing calls
`init`, so the tables are zero.
-/

set_option autoImplicit false

namespace RtsCache.PmemMain
open RtsCache.CuckooIndex RtsCache.CuckooMachine RtsCache.CuckooSpec

def wordCount : ℕ := 20

inductive Report where
  | notCreated (capacity : UInt32)
  | mismatched (expected : ℤ) (got : UInt64)
  | notRemoved (word : Key)
  deriving DecidableEq, Repr

def octets (s : String) : List UInt8 := s.toList.map Char.toUInt8

def Report.text : Report → List UInt8
  | notCreated capacity =>
    octets "Could not create filter with capacity " ++ octets (toString capacity) ++ octets "\n"
  | mismatched expected got =>
    octets "Mismatched count: expected " ++ octets (toString expected) ++ octets ", got " ++
      octets (toString got) ++ octets "\n"
  | notRemoved word => octets "Could not remove " ++ word ++ octets " from filter\n"

structure Draws where
  rand : ℕ → UInt32
  coin : Bool

/-- What the storage of the local variable holds: a filter, or a count beside a
null pointer. -/
inductive Local where
  | filter (cf : CuckooFilter)
  | null (count : UInt64)

namespace Local

def count : Local → UInt64
  | filter cf => cf.count
  | null count => count

def isInit : Local → Bool
  | filter _ => true
  | null _ => false

variable [Tables]

def insert (shr : UInt32 → UInt32) (key : Key) (draws : Draws) : Local → Option (ℤ × Local)
  | filter cf => do
    let (r, cf) ← cfInsert shr cf key draws.rand draws.coin
    pure (r, filter cf)
  | null count => pure (-1, null count)

def delete (shr : UInt32 → UInt32) (key : Key) : Local → Option (ℤ × Local)
  | filter cf => do
    let (r, cf) ← cfDelete shr cf key
    pure (r, filter cf)
  | null count => pure (-1, null count)

end Local

section Loops
variable [Tables]

/-- The first loop, from word `i` on. `strlen` of a null pointer has no result. -/
def insertWords (shr : UInt32 → UInt32) (draws : ℕ → Draws) :
    ℕ → List (Option Key) → ℕ → Local → Option (ℕ × Local)
  | _, [], insertedWords, filter => pure (insertedWords, filter)
  | i, word::words, insertedWords, filter => do
    let word ← word
    let (r, filter) ← filter.insert shr word (draws i)
    insertWords shr draws (i+1) words (if r = 0 then insertedWords + 1 else insertedWords) filter

/-- The second loop, up to the first word `cf_delete` does not answer 0 for. -/
def deleteWords (shr : UInt32 → UInt32) :
    List (Option Key) → Local → Option (Option Key × Local)
  | [], filter => pure (none, filter)
  | word::words, filter => do
    let word ← word
    let (r, filter) ← filter.delete shr word
    if r ≠ 0 then pure (some word, filter) else deleteWords shr words filter

def failure (report : Report) : ℤ × List UInt8 := (1, report.text)

def removeAll (shr : UInt32 → UInt32) (words : List (Option Key)) (filter : Local) :
    Option (ℤ × List UInt8) := do
  let (unremoved, filter) ← deleteWords shr words filter
  match unremoved with
  | some word => pure (failure (.notRemoved word))
  | none =>
    if filter.count ≠ 0 then pure (failure (.mismatched 0 filter.count)) else pure (0, [])

def fillAndRemove (shr : UInt32 → UInt32) (draws : ℕ → Draws) (words : List (Option Key))
    (filter : Local) : Option (ℤ × List UInt8) := do
  let (insertedWords, filter) ← insertWords shr draws 0 words 0 filter
  if UInt64.ofNat insertedWords ≠ filter.count then
    pure (failure (.mismatched insertedWords filter.count))
  else removeAll shr words filter

end Loops

def main (shr : UInt32 → UInt32) (memory : Bool) (draws : ℕ → Draws) (words : List (Option Key))
    (filter : Local) : Option (ℤ × List UInt8) :=
  if (cfNew memory 1000).1 = -1 then pure (failure (.notCreated 1000))
  else @fillAndRemove zeroTables shr draws words filter

variable {shr : UInt32 → UInt32} {draws : ℕ → Draws} {d : Draws} {words : List (Option Key)}
  {l l' : Local} {n n' i : ℕ} {key : Key} {r : ℤ} {code : ℤ} {out : List UInt8}

section Words
variable [Tables]

theorem insert_isSome (shr : UInt32 → UInt32) (key : Key) (d : Draws) (l : Local) :
    ∃ r l', l.insert shr key d = some (r, l') := by
  cases l with
  | filter cf =>
    obtain ⟨r, cf', hrun, -⟩ := cfInsert_spec shr cf key d.rand d.coin
    exact ⟨r, .filter cf', by simp [Local.insert, hrun]⟩
  | null count => exact ⟨-1, .null count, rfl⟩

theorem delete_isSome (shr : UInt32 → UInt32) (key : Key) (l : Local) :
    ∃ r l', l.delete shr key = some (r, l') := by
  cases l with
  | filter cf =>
    obtain ⟨r, cf', hrun, -⟩ := cfDelete_spec shr cf key
    exact ⟨r, .filter cf', by simp [Local.delete, hrun]⟩
  | null count => exact ⟨-1, .null count, rfl⟩

theorem insert_counted (h : l.insert shr key d = some (r, l')) :
    l'.isInit = l.isInit ∧ (l.isInit = true → r ≠ 0 → l'.count = l.count + 1) := by
  cases l with
  | null count =>
    cases h
    exact ⟨rfl, fun hinit => by cases hinit⟩
  | filter cf =>
    obtain ⟨⟨r₁, cf₁⟩, hrun, h⟩ := Option.bind_eq_some_iff.mp h
    cases h
    obtain ⟨r', cf'', hrun', hins⟩ := cfInsert_spec shr cf key d.rand d.coin
    cases hrun.symm.trans hrun'
    refine ⟨rfl, fun _ hr => ?_⟩
    cases hins with
    | misreported => exact absurd rfl hr
    | stored => exact absurd rfl hr
    | kicked _ _ _ _ result =>
      rcases result with ⟨hzero, -⟩ | ⟨-, hcount, -⟩
      · exact absurd hzero hr
      · exact hcount

theorem delete_uncounted (h : l.delete shr key = some (0, l')) :
    l.isInit = true ∧ l'.count = l.count := by
  cases l with
  | null count => cases h
  | filter cf =>
    obtain ⟨⟨r₁, cf₁⟩, hrun, h⟩ := Option.bind_eq_some_iff.mp h
    cases h
    rw [cfDelete_eq shr cf key rfl rfl] at hrun
    split at hrun
    · cases hrun
    · split at hrun
      · cases hrun
      · cases hrun
        exact ⟨rfl, rfl⟩

theorem insertWords_none : insertWords shr draws i words n l = none ↔ none ∈ words := by
  induction words generalizing i n l with
  | nil => simp [insertWords]
  | cons word words ih =>
    cases word with
    | none => simp [insertWords]
    | some word =>
      obtain ⟨r, l', hrun⟩ := insert_isSome shr word (draws i) l
      simp [insertWords, hrun, ih]

theorem insertWords_counts (h : insertWords shr draws i words n l = some (n', l')) :
    l'.isInit = l.isInit ∧ n ≤ n' ∧ n' ≤ n + words.length ∧
      (l.isInit = true → n' = n → l'.count = l.count + UInt64.ofNat words.length) := by
  induction words generalizing i n l with
  | nil =>
    cases h
    simp
  | cons word words ih =>
    obtain ⟨word, rfl, h⟩ := Option.bind_eq_some_iff.mp h
    obtain ⟨⟨r, l₁⟩, hrun, h⟩ := Option.bind_eq_some_iff.mp h
    obtain ⟨hinit, hcount⟩ := insert_counted hrun
    obtain ⟨hinit', hle, hub, hsame⟩ := ih h
    rw [List.length_cons]
    by_cases hr : r = 0
    · simp only [hr, if_true] at hle hub
      refine ⟨hinit'.trans hinit, by omega, by omega, fun _ he => ?_⟩
      omega
    · simp only [hr, if_false] at hle hub hsame
      refine ⟨hinit'.trans hinit, hle, by omega, fun hl he => ?_⟩
      rw [hsame (hinit.trans hl) he, hcount hl hr, UInt64.ofNat_add, UInt64.add_assoc,
        UInt64.add_comm 1]
      rfl

theorem deleteWords_isSome (shr : UInt32 → UInt32) (l : Local) (hall : none ∉ words) :
    ∃ x, deleteWords shr words l = some x := by
  induction words generalizing l with
  | nil => exact ⟨(none, l), rfl⟩
  | cons word words ih =>
    rw [List.mem_cons, not_or] at hall
    cases word with
    | none => exact absurd rfl hall.1
    | some word =>
      obtain ⟨r, l', hrun⟩ := delete_isSome shr word l
      by_cases hr : r = 0
      · obtain ⟨x, hx⟩ := ih l' hall.2
        exact ⟨x, by simp [deleteWords, hrun, hr, hx]⟩
      · exact ⟨(some word, l'), by simp [deleteWords, hrun, hr]⟩

theorem deleteWords_count (h : deleteWords shr words l = some (none, l')) :
    (words ≠ [] → l.isInit = true) ∧ l'.count = l.count := by
  induction words generalizing l with
  | nil =>
    cases h
    exact ⟨fun hne => absurd rfl hne, rfl⟩
  | cons word words ih =>
    obtain ⟨word, rfl, h⟩ := Option.bind_eq_some_iff.mp h
    obtain ⟨⟨r, l₁⟩, hrun, h⟩ := Option.bind_eq_some_iff.mp h
    by_cases hr : r = 0
    · simp only [hr, ne_eq, not_true_eq_false, if_false] at h
      obtain ⟨hinit, hcount⟩ := delete_uncounted (hr ▸ hrun)
      exact ⟨fun _ => hinit, (ih h).2.trans hcount⟩
    · simp [hr] at h

end Words

/-- How the program can end: with a report, or with a filter that had counted
the words down from 0 before it got them. -/
def Ended (l : Local) (code : ℤ) (out : List UInt8) : Prop :=
  (code = 1 ∧ ∃ report : Report, out = report.text) ∨
    (code = 0 ∧ out = [] ∧ l.isInit = true ∧ l.count + UInt64.ofNat wordCount = 0)

section Results
variable [Tables]

theorem removeAll_result (shr : UInt32 → UInt32) (l : Local) (hne : words ≠ [])
    (hall : none ∉ words) :
    ∃ code out, removeAll shr words l = some (code, out) ∧
      ((code = 1 ∧ ∃ report : Report, out = report.text) ∨
        (code = 0 ∧ out = [] ∧ l.isInit = true ∧ l.count = 0)) := by
  obtain ⟨⟨unremoved, l'⟩, hrun⟩ := deleteWords_isSome shr l hall
  cases unremoved with
  | some word =>
    exact ⟨1, _, by simp only [removeAll, hrun]; rfl, Or.inl ⟨rfl, .notRemoved word, rfl⟩⟩
  | none =>
    obtain ⟨hinit, hcount⟩ := deleteWords_count hrun
    by_cases hzero : l'.count = 0
    · refine ⟨0, [], ?_, Or.inr ⟨rfl, rfl, hinit hne, hcount.symm.trans hzero⟩⟩
      simp [removeAll, hrun, hzero]
    · refine ⟨1, _, ?_, Or.inl ⟨rfl, .mismatched 0 l'.count, rfl⟩⟩
      simp [removeAll, hrun, hzero, failure]

theorem fillAndRemove_result (shr : UInt32 → UInt32) (draws : ℕ → Draws) (l : Local)
    (hlen : words.length = wordCount) (hall : none ∉ words) :
    ∃ code out, fillAndRemove shr draws words l = some (code, out) ∧ Ended l code out := by
  have hsome : insertWords shr draws 0 words 0 l ≠ none := fun h => hall (insertWords_none.mp h)
  have hne : words ≠ [] := by
    rintro rfl
    cases hlen
  obtain ⟨⟨inserted, l'⟩, hrun⟩ := Option.ne_none_iff_exists'.mp hsome
  obtain ⟨hinit, -, hub, hsame⟩ := insertWords_counts hrun
  by_cases hc : UInt64.ofNat inserted = l'.count
  · obtain ⟨code, out, hrest, hend⟩ := removeAll_result shr l' hne hall
    refine ⟨code, out, by simp [fillAndRemove, hrun, hc, hrest], hend.imp_right ?_⟩
    rintro ⟨hcode, hout, hinit', hzero⟩
    have hnone : inserted = 0 := by
      have := congrArg UInt64.toNat (hc.trans hzero)
      rw [UInt64.toNat_ofNat', UInt64.toNat_zero] at this
      simp only [wordCount] at hlen
      omega
    have hl := hinit.symm.trans hinit'
    exact ⟨hcode, hout, hl, hlen ▸ (hsame hl hnone).symm.trans hzero⟩
  · refine ⟨1, _, ?_, Or.inl ⟨rfl, .mismatched inserted l'.count, rfl⟩⟩
    simp [fillAndRemove, hrun, hc, failure]

end Results

section Program
attribute [local instance] zeroTables

end Program

end RtsCache.PmemMain
