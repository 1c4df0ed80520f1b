import RtsCache.CuckooCount
import RtsCache.RandomBits

/-!
# The filter with its source of chance

The filter takes its random choices from `rand` and `rand_bool`, which share
one sequence of numbers, and 31 coins come from one word. Still every list of
choices comes about: what calls can return with free choices is exactly what
they can return with numbers in the range of `rand`.
-/

set_option autoImplicit false

namespace RtsCache.CuckooDraws
open RtsCache.CuckooIndex RtsCache.CuckooMachine RtsCache.CuckooCount RtsCache.RandomBits

inductive Call where
  | insert (key : Key)
  | insertUnique (key : Key)
  | delete (key : Key)
  | reset

def cfReinsertDrawing [Tables] :
    ℕ → CuckooFilter → Generator → Fingerprint → UInt32 → Option (ℤ × CuckooFilter × Generator)
  | 0, cf, g, _, _ => pure (0, cf, g)
  | n+1, cf, g, fp, i => do
    let (x, g) := rand g
    let j := x % UInt32.ofNat bucketSize
    let oldFp := fp
    let bucket ← indexBucket cf i.toNat
    let cf := storeFp cf (bucket + j.toNat) oldFp
    let fp := oldFp
    let i := altIndex fp i cf.bucketPower
    let (inserted, cf) ← cfInsertInternal cf fp i
    if inserted ≠ 0 then pure (1, cf, g) else cfReinsertDrawing n cf g fp i

def cfInsertDrawing [Tables] (shr : UInt32 → UInt32) (leftFirst : Bool) (cf : CuckooFilter)
    (g : Generator) (key : Key) : Option (ℤ × CuckooFilter × Generator) := do
  let ifp := indexAndFingerprint shr key cf.bucketPower
  let (inserted, cf) ← cfInsertInternal cf ifp.fp ifp.indices
  if inserted ≠ 0 then pure (0, cf, g)
  else do
    let index2 := altIndex ifp.fp ifp.indices cf.bucketPower
    let (inserted, cf) ← cfInsertInternal cf ifp.fp index2
    if inserted ≠ 0 then pure (0, cf, g)
    else do
      let (coin, g) := randBool leftFirst g
      cfReinsertDrawing cfMaxBucketKickOut cf g ifp.fp (if coin then ifp.indices else index2)

def cfInsertUniqueDrawing [Tables] (shr : UInt32 → UInt32) (leftFirst : Bool) (cf : CuckooFilter)
    (g : Generator) (key : Key) : Option (ℤ × CuckooFilter × Generator) := do
  let found ← cfLookup shr cf key
  if found ≠ 0 then pure (0, cf, g) else cfInsertDrawing shr leftFirst cf g key

def drawingStep [Tables] (shr : UInt32 → UInt32) (leftFirst : Bool) (s : CuckooFilter × Generator) :
    Call → Option (ℤ × CuckooFilter × Generator)
  | .insert key => cfInsertDrawing shr leftFirst s.1 s.2 key
  | .insertUnique key => cfInsertUniqueDrawing shr leftFirst s.1 s.2 key
  | .delete key => do
    let (r, cf) ← cfDelete shr s.1 key
    pure (r, cf, s.2)
  | .reset => do
    let (r, cf) ← cfReset s.1
    pure (r, cf, s.2)

def callOf : Op → Call
  | .insert key _ _ => .insert key
  | .insertUnique key _ _ => .insertUnique key
  | .delete key => .delete key
  | .reset => .reset

def results {σ ω : Type} (step : σ → ω → Option (ℤ × σ)) : σ → List ω → Option (List ℤ × σ)
  | s, [] => some ([], s)
  | s, o::os => do
    let (r, s) ← step s o
    let (rs, s) ← results step s os
    pure (r::rs, s)

variable {shr : UInt32 → UInt32} {leftFirst : Bool} {cf cf' : CuckooFilter} {g g' : Generator}
  {fp : Fingerprint} {i : UInt32} {key : Key} {r : ℤ} {n k : ℕ}

/-- The generator once `c` more numbers are drawn. -/
def dropped (g : Generator) (c : ℕ) : Generator :=
  { g with draws := fun m => g.draws (c+m) }

theorem rand_eq (g : Generator) : RandomBits.rand g = (g.draws 0, dropped g 1) := by
  simp only [RandomBits.rand, dropped, Nat.add_comm 1]

theorem dropped_dropped (g : Generator) (c d : ℕ) :
    dropped (dropped g c) d = dropped g (c+d) := by
  simp only [dropped, Nat.add_assoc]

section Choices

theorem reinsert_chosen [Tables] {rand : ℕ → UInt32} (hrand : ∀ m, rand (k+m) = g.draws m)
    (hrun : cfReinsertDrawing n cf g fp i = some (r, cf', g')) :
    cfReinsertFrom rand n k cf fp i = some (r, cf') := by
  induction n generalizing k cf g i with
  | zero =>
    cases hrun
    rfl
  | succ n ih =>
    have hfirst : rand k = g.draws 0 := hrand 0
    simp only [cfReinsertDrawing, RandomBits.rand, ← hfirst, Option.bind_eq_bind,
      Option.bind_eq_some_iff] at hrun
    obtain ⟨bucket, hbucket, x, hx, hrest⟩ := hrun
    simp only [cfReinsertFrom, hbucket, hx, Option.bind_eq_bind, Option.bind_some]
    split at hrest
    · rename_i hr
      rw [if_pos hr]
      cases hrest
      rfl
    · rename_i hr
      rw [if_neg hr]
      apply ih _ hrest
      intro m
      rw [Nat.add_assoc, Nat.add_comm 1, hrand]

theorem insert_chosen [Tables] (hrun : cfInsertDrawing shr leftFirst cf g key = some (r, cf', g')) :
    cfInsert shr cf key (fun m => g.draws (2+m)) (randBool leftFirst g).1 = some (r, cf') := by
  simp only [cfInsertDrawing, Option.bind_eq_bind, Option.bind_eq_some_iff] at hrun
  obtain ⟨x, hx, hrest⟩ := hrun
  simp only [cfInsert, hx, Option.bind_eq_bind, Option.bind_some]
  split at hrest
  · rename_i hr
    rw [if_pos hr]
    cases hrest
    rfl
  · rename_i hr
    rw [if_neg hr]
    obtain ⟨y, hy, hrest⟩ := Option.bind_eq_some_iff.mp hrest
    rw [hy, Option.bind_some]
    split at hrest
    · rename_i hr'
      rw [if_pos hr']
      cases hrest
      rfl
    · rename_i hr'
      rw [if_neg hr']
      apply reinsert_chosen _ hrest
      intro m
      rw [randBool_eq, Nat.zero_add, Nat.add_comm]

/-- A call with a generator is the call with some choices. -/
theorem step_chosen [Tables] {o : Call}
    (hrun : drawingStep shr leftFirst (cf, g) o = some (r, cf', g')) :
    ∃ o', callOf o' = o ∧ countStep shr cf o' = some (r, cf') := by
  cases o with
  | insert key => exact ⟨.insert key _ _, rfl, insert_chosen hrun⟩
  | insertUnique key =>
    use .insertUnique key (fun m => g.draws (2+m)) (randBool leftFirst g).1, rfl
    obtain ⟨found, hfound, hrest⟩ := Option.bind_eq_some_iff.mp hrun
    simp only [countStep, cfInsertUnique, hfound, Option.bind_eq_bind, Option.bind_some]
    split at hrest
    · rename_i hr
      rw [if_pos hr]
      cases hrest
      rfl
    · rename_i hr
      rw [if_neg hr]
      exact insert_chosen hrest
  | delete key =>
    obtain ⟨x, hx, hrest⟩ := Option.bind_eq_some_iff.mp hrun
    cases hrest
    exact ⟨.delete key, rfl, hx⟩
  | reset =>
    obtain ⟨x, hx, hrest⟩ := Option.bind_eq_some_iff.mp hrun
    cases hrest
    exact ⟨.reset, rfl, hx⟩

theorem results_cons {σ ω : Type} {step : σ → ω → Option (ℤ × σ)} {s s' : σ} {o : ω} {os : List ω}
    {rs : List ℤ} : results step s (o::os) = some (rs, s') ↔
      ∃ r t rs', step s o = some (r, t) ∧ results step t os = some (rs', s') ∧ rs = r::rs' := by
  constructor
  · intro h
    obtain ⟨x, hx, hrest⟩ := Option.bind_eq_some_iff.mp h
    obtain ⟨y, hy, hrest⟩ := Option.bind_eq_some_iff.mp hrest
    cases hrest
    exact ⟨_, _, _, hx, hy, rfl⟩
  · rintro ⟨r, t, rs', hx, hy, rfl⟩
    simp [results, hx, hy]

theorem results_chosen [Tables] {calls : List Call} {rs : List ℤ}
    (hrun : results (drawingStep shr leftFirst) (cf, g) calls = some (rs, cf', g')) :
    ∃ os, os.map callOf = calls ∧ results (countStep shr) cf os = some (rs, cf') := by
  induction calls generalizing cf g rs with
  | nil =>
    cases hrun
    exact ⟨[], rfl, rfl⟩
  | cons o calls ih =>
    obtain ⟨r, t, rs', hstep, hrest, rfl⟩ := results_cons.mp hrun
    obtain ⟨o', rfl, hchosen⟩ := step_chosen hstep
    obtain ⟨os, rfl, hos⟩ := ih hrest
    exact ⟨o'::os, rfl, results_cons.mpr ⟨r, t.1, rs', hchosen, hos, rfl⟩⟩

end Choices

section Numbers

def followed (c : ℕ) (xs draws : ℕ → UInt32) : ℕ → UInt32 := fun m =>
  if m < c then xs m else draws (m-c)

theorem followed_ranged {c : ℕ} {xs draws : ℕ → UInt32} (hxs : Ranged xs) (hdraws : Ranged draws) :
    Ranged (followed c xs draws) := by
  intro m
  unfold followed
  split
  · exact hxs m
  · exact hdraws _

theorem followed_lt {c m : ℕ} (xs draws : ℕ → UInt32) (hm : m < c) :
    followed c xs draws m = xs m := if_pos hm

theorem followed_add (c m : ℕ) (xs draws : ℕ → UInt32) :
    followed c xs draws (c+m) = draws m := by
  rw [followed, if_neg (by omega), Nat.add_sub_cancel_left]

theorem reinsert_realised [Tables] {rand : ℕ → UInt32}
    (hrun : cfReinsertFrom rand n k cf fp i = some (r, cf')) :
    ∃ c, ∀ g : Generator, (∀ m < c, g.draws m % UInt32.ofNat bucketSize =
        rand (k+m) % UInt32.ofNat bucketSize) →
      cfReinsertDrawing n cf g fp i = some (r, cf', dropped g c) := by
  induction n generalizing k cf i with
  | zero =>
    cases hrun
    use 0
    intro g _
    simp [cfReinsertDrawing, dropped]
  | succ n ih =>
    simp only [cfReinsertFrom, Option.bind_eq_bind, Option.bind_eq_some_iff] at hrun
    obtain ⟨bucket, hbucket, x, hx, hrest⟩ := hrun
    have hdraw : ∀ g : Generator,
        g.draws 0 % UInt32.ofNat bucketSize = rand k % UInt32.ofNat bucketSize →
        cfReinsertDrawing (n+1) cf g fp i = if x.1 ≠ 0 then some (1, x.2, dropped g 1)
          else cfReinsertDrawing n x.2 (dropped g 1) fp (altIndex fp i cf.bucketPower) := by
      intro g hg
      simp only [cfReinsertDrawing, rand_eq, hg, hbucket, hx, Option.bind_eq_bind,
        Option.bind_some]
      rfl
    split at hrest
    · rename_i hr
      cases hrest
      use 1
      intro g hg
      rw [hdraw g (hg 0 (by decide)), if_pos hr]
    · rename_i hr
      obtain ⟨c, hc⟩ := ih hrest
      use c+1
      intro g hg
      rw [hdraw g (hg 0 (Nat.succ_pos c)), if_neg hr, Nat.add_comm c, ← dropped_dropped]
      apply hc
      intro m hm
      have hm' := hg (1+m) (by omega)
      rwa [← Nat.add_assoc] at hm'

/-- With what numbers a call returns what it does with given choices. -/
inductive Realised (step : Bool → Generator → Option (ℤ × CuckooFilter × Generator)) (r : ℤ)
    (cf' : CuckooFilter) : Prop
  | still (h : ∀ leftFirst g, step leftFirst g = some (r, cf', g))
  | drawn (coin : Bool) (c : ℕ) (xs : ℕ → UInt32)
      (h : ∀ leftFirst g, (randBool leftFirst g).1 = coin →
        (∀ m < c, g.draws (2+m) % UInt32.ofNat bucketSize = xs m % UInt32.ofNat bucketSize) →
          step leftFirst g = some (r, cf', dropped (randBool leftFirst g).2 c))

theorem insert_realised [Tables] {rand : ℕ → UInt32} {coin : Bool}
    (hrun : cfInsert shr cf key rand coin = some (r, cf')) :
    Realised (fun leftFirst g => cfInsertDrawing shr leftFirst cf g key) r cf' := by
  simp only [cfInsert, Option.bind_eq_bind, Option.bind_eq_some_iff] at hrun
  obtain ⟨x, hx, hrest⟩ := hrun
  split at hrest
  · rename_i hr
    cases hrest
    apply Realised.still
    intro leftFirst g
    simp [cfInsertDrawing, hx, hr]
  · rename_i hr
    obtain ⟨y, hy, hrest⟩ := Option.bind_eq_some_iff.mp hrest
    split at hrest
    · rename_i hr'
      cases hrest
      apply Realised.still
      intro leftFirst g
      simp only [cfInsertDrawing, hx, hy, Option.bind_eq_bind, Option.bind_some, if_neg hr,
        if_pos hr']
      rfl
    · rename_i hr'
      obtain ⟨c, hc⟩ := reinsert_realised hrest
      apply Realised.drawn coin c rand
      intro leftFirst g hcoin hdraws
      simp only [cfInsertDrawing, hx, hy, Option.bind_eq_bind, Option.bind_some, if_neg hr,
        if_neg hr', hcoin]
      apply hc
      intro m hm
      rw [Nat.zero_add, ← hdraws m hm, randBool_eq, Nat.add_comm]

theorem step_realised [Tables] {o : Op} (hrun : countStep shr cf o = some (r, cf')) :
    Realised (fun leftFirst g => drawingStep shr leftFirst (cf, g) (callOf o)) r cf' := by
  cases o with
  | insert key rand coin => exact insert_realised hrun
  | insertUnique key rand coin =>
    obtain ⟨found, hfound, hrest⟩ := Option.bind_eq_some_iff.mp hrun
    simp only [callOf, drawingStep, cfInsertUniqueDrawing, hfound, Option.bind_eq_bind,
      Option.bind_some]
    split at hrest
    · rename_i hr
      cases hrest
      simp only [if_pos hr]
      exact Realised.still fun _ _ => rfl
    · rename_i hr
      simp only [if_neg hr]
      exact insert_realised hrest
  | delete key =>
    apply Realised.still
    intro leftFirst g
    have hdelete : cfDelete shr cf key = some (r, cf') := hrun
    simp [callOf, drawingStep, hdelete]
  | reset =>
    apply Realised.still
    intro leftFirst g
    have hreset : cfReset cf = some (r, cf') := hrun
    simp [callOf, drawingStep, hreset]

def pending (n : ℕ) : ℕ := if n = 0 then 30 else n-1

structure Ready (n : ℕ) (bits : ℕ → Bool) (g : Generator) : Prop where
  left : g.gcount = UInt32.ofNat n
  word : ∀ i < n, g.rbits.toNat.testBit i = bits i

theorem coin_realised (leftFirst coin : Bool) {n : ℕ} (hn : n < 31) (bits' : ℕ → Bool) :
    ∃ bits x y, x.toNat ≤ randMax ∧ y.toNat ≤ randMax ∧ ∀ g, Ready n bits g →
      g.draws 0 = x → g.draws 1 = y → (randBool leftFirst g).1 = coin ∧
        Ready (pending n) bits' (randBool leftFirst g).2 := by
  have hone : (1 : UInt32).toNat % 32 = 1 := rfl
  let bits : ℕ → Bool := fun i => if i = 0 then coin else bits' (i-1)
  obtain ⟨x, y, hx, hy, hword⟩ := draws_exist leftFirst (packed bits)
  refine ⟨bits, x, y, hx, hy, fun g hg h₀ h₁ => ?_⟩
  have hzero : (UInt32.ofNat n = 0) = (n = 0) := by
    rw [← UInt32.toNat_inj, UInt32.toNat_ofNat', Nat.mod_eq_of_lt (by omega)]
    rfl
  have hcur : ∀ i < pending n + 1, (current leftFirst g).toNat.testBit i = bits i := by
    intro i hi
    unfold pending at hi
    rw [current, hg.left]
    simp only [hzero]
    split
    · rename_i hz
      rw [if_pos hz] at hi
      rw [wordAt, h₀, h₁, hword, packed_bit _ hi]
    · rename_i hz
      rw [if_neg hz] at hi
      exact hg.word i (by omega)
  rw [randBool_eq]
  constructor
  · exact hcur 0 (Nat.succ_pos _)
  constructor
  case left =>
    show (if g.gcount = 0 then 31 else g.gcount) - 1 = UInt32.ofNat (pending n)
    rw [hg.left, pending]
    simp only [hzero]
    split
    · rfl
    · obtain ⟨m, rfl⟩ : ∃ m, n = m+1 := ⟨n-1, by omega⟩
      rw [UInt32.ofNat_add, Nat.add_sub_cancel]
      exact UInt32.add_sub_cancel _ _
  case word =>
    intro i hi
    show (current leftFirst g >>> 1).toNat.testBit i = bits' i
    rw [UInt32.toNat_shiftRight, hone, Nat.testBit_shiftRight, Nat.add_comm, hcur _ (by omega)]
    rfl

theorem results_realised [Tables] {os : List Op} {rs : List ℤ} (leftFirst : Bool)
    (hrun : results (countStep shr) cf os = some (rs, cf')) (hn : n < 31) :
    ∃ bits draws, Ranged draws ∧ ∀ g, Ready n bits g → g.draws = draws →
      ∃ g', results (drawingStep shr leftFirst) (cf, g) (os.map callOf) = some (rs, cf', g') := by
  induction os generalizing cf rs n with
  | nil =>
    cases hrun
    refine ⟨fun _ => true, fun _ => 0, fun _ => Nat.zero_le _, fun g _ _ => ⟨g, rfl⟩⟩
  | cons o os ih =>
    obtain ⟨r, cf₁, rs', hstep, hrest, rfl⟩ := results_cons.mp hrun
    cases step_realised hstep with
    | still h =>
      obtain ⟨bits, draws, hranged, hall⟩ := ih hrest hn
      refine ⟨bits, draws, hranged, fun g hg hd => ?_⟩
      obtain ⟨g', hg'⟩ := hall g hg hd
      exact ⟨g', results_cons.mpr ⟨r, (cf₁, g), rs', h leftFirst g, hg', rfl⟩⟩
    | drawn coin c xs h =>
      have hpending : pending n < 31 := by
        unfold pending
        split <;> omega
      obtain ⟨bits', draws', hranged, hall⟩ := ih hrest hpending
      obtain ⟨bits, x, y, hx, hy, hcoin⟩ := coin_realised leftFirst coin hn bits'
      let slots : ℕ → UInt32 := fun m => xs m % UInt32.ofNat bucketSize
      let pair : ℕ → UInt32 := fun m => if m = 0 then x else y
      have hslots : Ranged slots := by
        intro m
        have hlt : (xs m).toNat % 4 < 4 := Nat.mod_lt _ (by decide)
        have hmod : (slots m).toNat = (xs m).toNat % 4 := UInt32.toNat_mod _ _
        show (slots m).toNat ≤ 2^31-1
        omega
      have hpair : Ranged pair := by
        intro m
        show (if m = 0 then x else y).toNat ≤ randMax
        split
        · exact hx
        · exact hy
      -- two numbers for the coin, then one for each kick
      refine ⟨bits, followed 2 pair (followed c slots draws'),
        followed_ranged hpair (followed_ranged hslots hranged), fun g hg hd => ?_⟩
      have hbehind : ∀ m, g.draws (2+m) = followed c slots draws' m := by
        intro m
        rw [hd, followed_add]
      have hfirst : g.draws 0 = x := by rw [hd]; rfl
      have hsecond : g.draws 1 = y := by rw [hd]; rfl
      obtain ⟨hc, hready⟩ := hcoin g hg hfirst hsecond
      have hkicks : ∀ m < c, g.draws (2+m) % UInt32.ofNat bucketSize =
          xs m % UInt32.ofNat bucketSize := by
        intro m hm
        rw [hbehind, followed_lt _ _ hm]
        rw [← UInt32.toNat_inj, UInt32.toNat_mod, UInt32.toNat_mod, Nat.mod_mod]
      have hrest' : (dropped (randBool leftFirst g).2 c).draws = draws' := by
        funext m
        rw [randBool_eq]
        show g.draws (c+m+2) = draws' m
        rw [Nat.add_comm _ 2, hbehind, followed_add]
      obtain ⟨g', hg'⟩ := hall (dropped (randBool leftFirst g).2 c)
        ⟨hready.left, hready.word⟩ hrest'
      exact ⟨g', results_cons.mpr ⟨r, _, rs', h leftFirst g hc hkicks, hg', rfl⟩⟩

/-- Free choices are the numbers of `rand`: some choices make the calls return
`rs` and end in `cf'` exactly if some numbers in range do. -/
theorem choices_are_draws [Tables] (shr : UInt32 → UInt32) (leftFirst : Bool)
    (cf cf' : CuckooFilter)
    (calls : List Call) (rs : List ℤ) :
    (∃ os, os.map callOf = calls ∧ results (countStep shr) cf os = some (rs, cf')) ↔
    ∃ draws, Ranged draws ∧ ∃ g,
      results (drawingStep shr leftFirst) (cf, ⟨0, 0, draws⟩) calls = some (rs, cf', g) := by
  constructor
  · rintro ⟨os, rfl, hos⟩
    obtain ⟨bits, draws, hranged, hall⟩ := results_realised leftFirst hos (by decide : 0 < 31)
    obtain ⟨g, hg⟩ := hall ⟨0, 0, draws⟩ ⟨rfl, fun i hi => by cases hi⟩ rfl
    exact ⟨draws, hranged, g, hg⟩
  · rintro ⟨draws, -, g, hg⟩
    exact results_chosen hg

end Numbers

end RtsCache.CuckooDraws
