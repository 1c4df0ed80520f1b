import RtsCache.DelimitedText
import RtsCache.HashmapForeach

/-!
# The printed state of the map

`hm_tx_debug` of `hashmap_tx.c` prints the coefficients, the sizes and the keys
of every bucket in use. Two maps print the same text only if their chains hold
the same keys in the same order.
-/

set_option autoImplicit false

namespace RtsCache.HashmapDebug
open RtsCache.UndoHeap RtsCache.UndoMachine RtsCache.UndoRules RtsCache.PoolLayout
open RtsCache.HashmapMachine RtsCache.HashmapInvariant RtsCache.DelimitedText
open RtsCache.HashmapCreate RtsCache.HashmapRuns

abbrev Text := List Char

/-- `%u`, `%zu` and `PRIu64`. -/
def decimal (n : ℕ) : Text := Nat.toDigits 10 n

def signedDecimal (n : Int32) : Text :=
  if n < 0 then '-' :: decimal n.toInt.natAbs else decimal n.toInt.natAbs

def field (before : String) (n : ℕ) (behind : Char) : Text :=
  before.toList ++ (decimal n ++ [behind])

/-- The format `"a: %u b: %u p: %" PRIu64 "\n"`. -/
def coefficientsText (a b : UInt32) (p : UInt64) : Text :=
  field "a: " a.toNat ' ' ++ (field "b: " b.toNat ' ' ++ field "p: " p.toNat '\n')

/-- The format `"count: %" PRIu64 ", buckets: %zu\n"`. -/
def sizesText (count nbuckets : UInt64) : Text :=
  field "count: " count.toNat ',' ++ field " buckets: " nbuckets.toNat '\n'

/-- The loop over a chain; `out` is the text printed so far. -/
def debugChain : ℕ → PMEMoid → Int32 → Text → Pmem (Int32 × Text)
  | 0, _, _, _ => stuck
  | n+1, var, num, out =>
    if var.isNull then pure (num, out)
    else do
      let key ← dRo var .key
      let out := out ++ (decimal key.toNat ++ [' '])
      let next ← dRo var .entryNext
      debugChain n next (num + 1) out

def debugBuckets (buckets : PMEMoid) : ℕ → ℕ → Text → Pmem Text
  | 0, _, _ => stuck
  | n+1, i, out => do
    let nbuckets ← dRo buckets .nbuckets
    if i < nbuckets.toNat then do
      let var ← dRo buckets (.bucket i)
      if var.isNull then debugBuckets buckets n (i+1) out
      else do
        let out := out ++ (decimal i ++ [':'] ++ [' '])
        let fl ← fuel
        let (num, out) ← debugChain fl var 0 out
        debugBuckets buckets n (i+1) (out ++ (['('] ++ signedDecimal num ++ [')', '\n']))
    else pure out

def hmTxDebug (hashmap : PMEMoid) (out : Text) : Pmem Text := do
  let buckets ← dRo hashmap .buckets
  let a ← dRo hashmap .hashFunA
  let b ← dRo hashmap .hashFunB
  let p ← dRo hashmap .hashFunP
  let out := out ++ coefficientsText a b p
  let count ← dRo hashmap .count
  let nbuckets ← dRo buckets .nbuckets
  let out := out ++ sizesText count nbuckets
  let fl ← fuel
  debugBuckets buckets fl 0 out

/-- `hm_tx_cmd` with what it prints to the file that `arg` stands for. -/
def hmTxCmdOut (hashmap : PMEMoid) (cmd : UInt32) (arg : UInt64) (out : Text) :
    Pmem (ℤ × Text) :=
  if cmd = 0 then do
    hmTxRebuild hashmap arg
    pure (0, out)
  else if cmd = 1 then
    if arg = 0 then pure (-22, out)
    else do
      let out ← hmTxDebug hashmap out
      pure (0, out)
  else pure (-22, out)

def keyText (key : UInt64) : Text := decimal key.toNat ++ [' ']

def lineText (x : ℕ × List UInt64) : Text :=
  decimal x.1 ++ [':'] ++ [' '] ++ x.2.flatMap keyText ++
    (['('] ++ signedDecimal (Int32.ofNat x.2.length) ++ [')', '\n'])

def usedFrom (T : ℕ → List Node) (i m : ℕ) : List (ℕ × List UInt64) :=
  (List.range' i m).filterMap fun j =>
    if T j = [] then none else some (j, (T j).map Node.key)

def debugText (a b : UInt32) (p n : UInt64) (T : ℕ → List Node) : Text :=
  coefficientsText a b p ++ (sizesText (UInt64.ofNat (nodes n.toNat T).length) n ++
    (usedFrom T 0 n.toNat).flatMap lineText)

example : debugText 1 0 hashFuncCoeffP 2 twoChains =
    "a: 1 b: 0 p: 32212254719\ncount: 2, buckets: 2\n0: 0 (1)\n1: 1 (1)\n".toList := by
  decide +kernel

section Runs

variable {env : PoolEnv} {s : PoolState} {E : Cause → PoolState → Prop} {hm bs : PMEMoid}
  {a b : UInt32} {p n : UInt64} {T : ℕ → List Node}

theorem wp_debugChain (xs : List Node) (o : PMEMoid) (fl : ℕ) (num : Int32) (out : Text)
    {Q : Int32 × Text → PoolState → Prop} (hc : Chain s.heap o xs) (hf : xs.length < fl)
    (hQ : Q (num + Int32.ofNat xs.length, out ++ (xs.map Node.key).flatMap keyText) s) :
    wp env (debugChain fl o num out) Q E s := by
  induction xs generalizing o fl num out with
  | nil =>
    obtain ⟨fl, rfl⟩ := Nat.exists_eq_succ_of_ne_zero (Nat.ne_of_gt hf)
    rw [debugChain, if_pos ((chain_nil _ _).mp hc), wp_pure]
    simpa using hQ
  | cons x xs ih =>
    obtain ⟨fl, rfl⟩ := Nat.exists_eq_succ_of_ne_zero (Nat.ne_of_gt (Nat.zero_lt_of_lt hf))
    obtain ⟨rfl, hx, c, hn, hc⟩ := (chain_cons _ _ _ _).mp hc
    rw [debugChain, if_neg (by simp [hx.notNull]), wp_bind, wp_dRo hx.key]
    dsimp only
    rw [wp_bind, wp_dRo hn]
    apply ih c fl _ _ hc (Nat.lt_of_succ_lt_succ hf)
    have hlen : num + 1 + Int32.ofNat xs.length = num + Int32.ofNat (x :: xs).length := by
      rw [List.length_cons, Int32.ofNat_add, Int32.add_assoc, Int32.add_comm 1]
      rfl
    rw [hlen, List.append_assoc]
    exact hQ

theorem wp_debugBuckets (ht : Table s.heap hm bs a b p n T) (hfuel : 2^64 < env.fuel)
    (m i fl : ℕ) (out : Text) (hm' : i + m = n.toNat) (hf : m < fl)
    {Q : Text → PoolState → Prop} (hQ : Q (out ++ (usedFrom T i m).flatMap lineText) s) :
    wp env (debugBuckets bs fl i out) Q E s := by
  induction m generalizing i fl out with
  | zero =>
    obtain ⟨fl, rfl⟩ := Nat.exists_eq_succ_of_ne_zero (Nat.ne_of_gt hf)
    obtain rfl : i = n.toNat := by omega
    rw [debugBuckets, wp_bind, wp_dRo ht.nbuckets, if_neg (Nat.lt_irrefl _), wp_pure]
    simpa [usedFrom] using hQ
  | succ m ih =>
    obtain ⟨fl, rfl⟩ := Nat.exists_eq_succ_of_ne_zero (Nat.ne_of_gt (Nat.zero_lt_of_lt hf))
    have hi : i < n.toNat := by omega
    obtain ⟨o, ho, hc⟩ := ht.slot i hi
    rw [usedFrom, List.range'_succ, List.filterMap_cons] at hQ
    rw [debugBuckets, wp_bind, wp_dRo ht.nbuckets, if_pos hi, wp_bind, wp_dRo ho]
    cases hT : T i with
    | nil =>
      rw [if_pos hT] at hQ
      rw [hT] at hc
      rw [if_pos ((chain_nil _ _).mp hc)]
      exact ih (i+1) fl out (by omega) (Nat.lt_of_succ_lt_succ hf) hQ
    | cons x xs =>
      have hne : T i ≠ [] := by
        rw [hT]
        exact List.cons_ne_nil _ _
      have hnull : o.isNull = false := by
        rw [hT] at hc
        obtain ⟨rfl, hx, -⟩ := (chain_cons _ _ _ _).mp hc
        exact hx.notNull
      have hlen : (T i).length < env.fuel :=
        Nat.lt_of_le_of_lt (length_le_nodes hi) (Nat.lt_of_le_of_lt ht.length_le hfuel)
      rw [if_neg hne, List.flatMap_cons] at hQ
      rw [if_neg (by simp [hnull])]
      dsimp only
      rw [wp_bind, wp_fuel, wp_bind]
      apply wp_debugChain (T i) o _ _ _ hc hlen
      apply ih (i+1) fl _ (by omega) (Nat.lt_of_succ_lt_succ hf)
      simpa [lineText, usedFrom, Int32.zero_add] using hQ

theorem hmTxDebug_prints (ht : Table s.heap hm bs a b p n T) (hfuel : 2^64 < env.fuel)
    (out : Text) : hmTxDebug hm out env s = .ok (out ++ debugText a b p n T) s := by
  have hlt : n.toNat < env.fuel := Nat.lt_trans n.toNat_lt hfuel
  have hwp : wp env (hmTxDebug hm out) (fun r s' => r = out ++ debugText a b p n T ∧ s' = s)
      (fun _ _ => False) s := by
    rw [hmTxDebug, wp_bind, wp_dRo ht.buckets, wp_bind, wp_dRo ht.coeffA, wp_bind,
      wp_dRo ht.coeffB, wp_bind, wp_dRo ht.coeffP]
    dsimp only
    rw [wp_bind, wp_dRo ht.count, wp_bind, wp_dRo ht.nbuckets, wp_bind, wp_fuel]
    apply wp_debugBuckets ht hfuel n.toNat 0 _ _ (Nat.zero_add _) hlt
    constructor
    · rw [debugText, List.append_assoc, List.append_assoc]
    · rfl
  obtain ⟨r, s', hrun, rfl, rfl⟩ := wp_returns hwp
  exact hrun

end Runs

theorem decimal_inj : Function.Injective decimal := by
  intro m n h
  have hvalue := congrArg (fun ds => Nat.ofDigitChars 10 ds 0) h
  simpa [decimal, Nat.ofDigitChars_ten_toDigits] using hvalue

theorem decimal_digit (n : ℕ) : ∀ c ∈ decimal n, c.isDigit = true := by
  intro c hc
  exact Nat.isDigit_of_mem_toDigits (by decide) (by decide) hc

theorem delimited_decimal {c : Char} (hc : ¬ c.isDigit = true) :
    Delimited fun n => decimal n ++ [c] :=
  delimited_word decimal_inj decimal_digit hc

theorem delimited_keys : Delimited fun ks : List UInt64 => ks.flatMap keyText ++ ['('] := by
  have hkey : Delimited keyText :=
    (delimited_decimal (c := ' ') (by decide)).comp fun _ _ h => UInt64.toNat_inj.mp h
  apply hkey.list
  intro k r s heq
  obtain ⟨c, cs, hcs⟩ := List.exists_cons_of_ne_nil (Nat.toDigits_ne_nil (n := k.toNat) (b := 10))
  have hc : c.isDigit = true := decimal_digit k.toNat c (by simp [decimal, hcs])
  rw [keyText, decimal, hcs] at heq
  obtain ⟨rfl, -⟩ := List.cons_eq_cons.mp heq
  exact absurd hc (by decide)

theorem delimited_line : Delimited lineText := by
  have hindex : Delimited fun i => decimal i ++ [':'] ++ [' '] :=
    (delimited_decimal (c := ':') (by decide)).followed fun _ => [' ']
  have hline := (hindex.append delimited_keys).followed fun x =>
    signedDecimal (Int32.ofNat x.2.length) ++ [')', '\n']
  simpa [lineText, funext_iff, Delimited] using hline

theorem lineText_ne (x : ℕ × List UInt64) : lineText x ≠ [] := by
  simp [lineText]

theorem delimited_field (before : String) {behind : Char} (hbehind : ¬ behind.isDigit = true) :
    Delimited fun n => field before n behind :=
  (delimited_decimal hbehind).after before.toList

theorem delimited_coefficients :
    Delimited fun x : UInt32 × UInt32 × UInt64 => coefficientsText x.1 x.2.1 x.2.2 := by
  have h32 (before : String) : Delimited fun k : UInt32 => field before k.toNat ' ' :=
    (delimited_field before (by decide)).comp fun _ _ h => UInt32.toNat_inj.mp h
  have h64 : Delimited fun k : UInt64 => field "p: " k.toNat '\n' :=
    (delimited_field "p: " (by decide)).comp fun _ _ h => UInt64.toNat_inj.mp h
  exact (h32 "a: ").append ((h32 "b: ").append h64)

theorem delimited_sizes : Delimited fun x : UInt64 × UInt64 => sizesText x.1 x.2 := by
  have h64 (before : String) {behind : Char} (hbehind : ¬ behind.isDigit = true) :
      Delimited fun k : UInt64 => field before k.toNat behind :=
    (delimited_field before hbehind).comp fun _ _ h => UInt64.toNat_inj.mp h
  exact (h64 "count: " (by decide)).append (h64 " buckets: " (by decide))

section Same

variable {T T' : ℕ → List Node}

theorem mem_usedFrom {i m j : ℕ} {ks : List UInt64} :
    (j, ks) ∈ usedFrom T i m ↔ i ≤ j ∧ j < i + m ∧ T j ≠ [] ∧ ks = (T j).map Node.key := by
  simp only [usedFrom, List.mem_filterMap, List.mem_range'_1]
  constructor
  · rintro ⟨k, hk, h⟩
    by_cases hT : T k = []
    · simp [hT] at h
    · rw [if_neg hT] at h
      cases h
      exact ⟨hk.1, hk.2, hT, rfl⟩
  · rintro ⟨hle, hlt, hT, rfl⟩
    exact ⟨j, ⟨hle, hlt⟩, if_neg hT⟩

theorem usedFrom_eq_iff (n : ℕ) :
    usedFrom T 0 n = usedFrom T' 0 n ↔ ∀ i < n, (T i).map Node.key = (T' i).map Node.key := by
  constructor
  · intro h i hi
    by_cases hT : T i = []
    · by_cases hT' : T' i = []
      · rw [hT, hT']
      · have hmem : (i, (T' i).map Node.key) ∈ usedFrom T 0 n := by
          rw [h]
          exact mem_usedFrom.mpr ⟨Nat.zero_le i, by omega, hT', rfl⟩
        exact absurd hT (mem_usedFrom.mp hmem).2.2.1
    · have hmem : (i, (T i).map Node.key) ∈ usedFrom T' 0 n := by
        rw [← h]
        exact mem_usedFrom.mpr ⟨Nat.zero_le i, by omega, hT, rfl⟩
      exact (mem_usedFrom.mp hmem).2.2.2
  · intro h
    apply List.filterMap_congr
    intro i hi
    have hkeys := h i (by simpa using (List.mem_range'_1.mp hi).2)
    have hnil : T i = [] ↔ T' i = [] := by
      rw [← List.map_eq_nil_iff (f := Node.key), hkeys, List.map_eq_nil_iff]
    by_cases hT : T i = []
    · rw [if_pos hT, if_pos (hnil.mp hT)]
    · rw [if_neg hT, if_neg fun h => hT (hnil.mpr h), hkeys]

theorem length_nodes_of_keys {n : ℕ} (h : ∀ i < n, (T i).map Node.key = (T' i).map Node.key) :
    (nodes n T).length = (nodes n T').length := by
  rw [nodes, nodes, List.length_flatMap, List.length_flatMap]
  congr 1
  apply List.map_congr_left
  intro i hi
  have hlen := congrArg List.length (h i (List.mem_range.mp hi))
  simpa using hlen

/-- Two maps print the same text if and only if they agree on the coefficients,
the number of buckets and the keys of every chain in order. -/
theorem debugText_eq_iff (a b a' b' : UInt32) (p n p' n' : UInt64) :
    debugText a b p n T = debugText a' b' p' n' T' ↔
      a = a' ∧ b = b' ∧ p = p' ∧ n = n' ∧
        ∀ i < n.toNat, (T i).map Node.key = (T' i).map Node.key := by
  constructor
  · intro h
    obtain ⟨hcoeff, hrest⟩ := delimited_coefficients (a, b, p) (a', b', p') _ _ h
    obtain ⟨hsizes, hlines⟩ := delimited_sizes (_, n) (_, n') _ _ hrest
    cases hcoeff
    obtain rfl : n = n' := congrArg Prod.snd hsizes
    have hused := delimited_line.flatMap_inj lineText_ne hlines
    exact ⟨rfl, rfl, rfl, rfl, (usedFrom_eq_iff _).mp hused⟩
  · rintro ⟨rfl, rfl, rfl, rfl, hkeys⟩
    rw [debugText, debugText, length_nodes_of_keys hkeys, (usedFrom_eq_iff _).mpr hkeys]

end Same

section Command

variable {env env' : PoolEnv} {s s' : PoolState} {hm bs hm' bs' : PMEMoid}
  {a b a' b' : UInt32} {p n p' n' : UInt64} {T T' : ℕ → List Node} {arg arg' : UInt64}

theorem hmTxCmdOut_prints (ht : Table s.heap hm bs a b p n T) (hfuel : 2^64 < env.fuel)
    (harg : arg ≠ 0) (out : Text) :
    hmTxCmdOut hm 1 arg out env s = .ok (0, out ++ debugText a b p n T) s := by
  have hcmd : ¬ (1 : UInt32) = 0 := by decide
  have hrun := hmTxDebug_prints ht hfuel out
  rw [hmTxCmdOut, if_neg hcmd, if_pos rfl, if_neg harg]
  simp only [bind, hrun]
  rfl

theorem hmTxCmd_eq (ht : Table s.heap hm bs a b p n T) (hfuel : 2^64 < env.fuel) (cmd : UInt32)
    (arg : UInt64) (out : Text) :
    hmTxCmd hm cmd arg env s = (Prod.fst <$> hmTxCmdOut hm cmd arg out) env s := by
  by_cases h0 : cmd = 0
  · rw [hmTxCmd, hmTxCmdOut, if_pos h0, if_pos h0]
    simp only [Functor.map, bind, pure]
    cases hmTxRebuild hm arg env s <;> rfl
  by_cases h1 : cmd = 1
  · by_cases harg : arg = 0
    · rw [hmTxCmd, hmTxCmdOut, if_neg h0, if_neg h0, if_neg fun h => h.2 harg, if_pos h1,
        if_pos harg]
      rfl
    · subst h1
      have hrun := hmTxCmdOut_prints ht hfuel harg out
      rw [hmTxCmd, if_neg h0, if_pos ⟨rfl, harg⟩]
      simp only [Functor.map, hrun]
      rfl
  · rw [hmTxCmd, hmTxCmdOut, if_neg h0, if_neg h0, if_neg fun h => h1 h.1, if_neg h1]
    rfl

/-- What `HASHMAP_CMD_DEBUG` prints about a map tells its shape: another map
prints the same if and only if it has the same coefficients, as many buckets and
the same keys in the same order in every one of them. Nothing is changed. -/
theorem debug_tells_shape (ht : Table s.heap hm bs a b p n T)
    (ht' : Table s'.heap hm' bs' a' b' p' n' T') (hfuel : 2^64 < env.fuel)
    (hfuel' : 2^64 < env'.fuel) (harg : arg ≠ 0) (harg' : arg' ≠ 0) (out out' : Text) :
    ∃ text text', hmTxCmdOut hm 1 arg out env s = .ok (0, out ++ text) s ∧
      hmTxCmdOut hm' 1 arg' out' env' s' = .ok (0, out' ++ text') s' ∧
      (text = text' ↔ a = a' ∧ b = b' ∧ p = p' ∧ n = n' ∧
        ∀ i < n.toNat, (T i).map Node.key = (T' i).map Node.key) :=
  ⟨_, _, hmTxCmdOut_prints ht hfuel harg out, hmTxCmdOut_prints ht' hfuel' harg' out',
    debugText_eq_iff a b a' b' p n p' n'⟩

theorem debug_tells_shape_two : ∃ text text',
    hmTxCmdOut newMap 1 1 [] quietEnv twoState = .ok (0, [] ++ text) twoState ∧
      hmTxCmdOut newMap 1 1 [] quietEnv newState = .ok (0, [] ++ text') newState ∧
      text ≠ text' := by
  have hfuel : 2^64 < quietEnv.fuel := Nat.lt_succ_self _
  have hone : (1 : UInt64) ≠ 0 := by decide
  have hcreated : Created newState.heap newMap := newHeap_created
  obtain ⟨bs', a', b', hnew⟩ := hcreated.table
  obtain ⟨text, text', hrun, hrun', heq⟩ := debug_tells_shape (s := twoState)
    twoHeap_table hnew hfuel hfuel hone hone [] []
  refine ⟨text, text', hrun, hrun', fun h => ?_⟩
  exact absurd (heq.mp h).2.2.2.1 (by decide)

end Command

end RtsCache.HashmapDebug
