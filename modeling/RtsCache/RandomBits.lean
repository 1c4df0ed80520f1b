import RtsCache.FullPeriod
import RtsCache.HashMixer
import Mathlib.Order.Interval.Finset.Nat

/-!
# Random bits

`random.h`: a step of a generator of full period, tempered without loss, and
the bits `rand_bool` hands out. Of each word it uses the lower 31, and of the
numbers it asks `rand` for it uses two in 62.
-/

set_option autoImplicit false

namespace RtsCache.RandomBits
open RtsCache.WordMixing RtsCache.FullPeriod RtsCache.HashMixer

def temper (x : UInt32) : UInt32 :=
  let x := x ^^^ (x >>> 11)
  let x := x ^^^ ((x <<< 7) &&& 0x9D2C5680)
  let x := x ^^^ ((x <<< 15) &&& 0xEFC60000)
  x ^^^ (x >>> 18)

/-- The word returned, and what is stored in `seed`. -/
def lcg64Temper (seed : UInt64) : UInt32 × UInt64 :=
  let seed := 6364136223846793005 * seed + 1
  (temper (seed >>> 32).toUInt32, seed)

/-- The static variables, and the numbers `rand` has still to return. -/
structure Generator where
  gcount : UInt32
  rbits : UInt32
  draws : ℕ → UInt32

def rand (g : Generator) : UInt32 × Generator :=
  (g.draws 0, { g with draws := fun n => g.draws (n+1) })

def randMax : ℕ := 2^31-1

def Ranged (draws : ℕ → UInt32) : Prop := ∀ n, (draws n).toNat ≤ randMax

def seedOf (hi lo : UInt32) : UInt64 := (hi.toUInt64 <<< 32) ||| lo.toUInt64

/-- Which of the two calls of `rand` in the first line is made first is left
to the compiler. -/
def randBool (leftFirst : Bool) (g : Generator) : Bool × Generator :=
  let (x, g) := rand g
  let (y, g) := rand g
  let gseed := if leftFirst then seedOf x y else seedOf y x
  let g := if g.gcount = 0 then { g with gcount := 31, rbits := (lcg64Temper gseed).1 } else g
  (g.rbits &&& 1 = 1, { g with gcount := g.gcount - 1, rbits := g.rbits >>> 1 })

section Words

theorem temper_injective : Function.Injective temper := by
  have h11 : 0 < (11 : UInt32).toNat % 32 := by decide
  have h7 : 0 < (7 : UInt32).toNat % 32 := by decide
  have h15 : 0 < (15 : UInt32).toNat % 32 := by decide
  have h18 : 0 < (18 : UInt32).toNat % 32 := by decide
  intro x y h
  have h₁ := xorShift32_injective h18 h
  have h₂ := xorShiftLeft32_injective 0xEFC60000 h15 h₁
  have h₃ := xorShiftLeft32_injective 0x9D2C5680 h7 h₂
  exact xorShift32_injective h11 h₃

theorem temper_surjective : Function.Surjective temper :=
  Finite.surjective_of_injective temper_injective

end Words

section Period
open scoped UInt64.CommRing

def seedAfter (n : ℕ) (seed : UInt64) : UInt64 := (fun s => (lcg64Temper s).2)^[n] seed

theorem card_uint64 : Nat.card UInt64 = 2^64 := by
  have hbij : Function.Bijective UInt64.toFin :=
    ⟨fun _ _ => UInt64.toFin_inj.mp, fun n => ⟨UInt64.ofFin n, rfl⟩⟩
  rw [Nat.card_eq_of_bijective _ hbij, Nat.card_fin]
  rfl

theorem seed_minimalPeriod (seed : UInt64) :
    Function.minimalPeriod (fun s => (lcg64Temper s).2) seed = Nat.card UInt64 := by
  have hstep : (fun s => (lcg64Temper s).2) =
      congruential (1 + 4*1591034055961698251) (1 + 2*(0 : UInt64)) := by
    funext s
    rfl
  rw [hstep, card_uint64]
  exact congruential_minimalPeriod _ _ _ (n := 63) (by decide +kernel) (by decide +kernel)

theorem ncard_upper (w : UInt32) : {s : UInt64 | (s >>> 32).toUInt32 = w}.ncard = 2^32 := by
  have hupper : ∀ s : UInt64, (s >>> 32).toUInt32 = w ↔ s.toNat / 2^32 = w.toNat := by
    intro s
    have hlt := s.toNat_lt
    have hshift : (32 : UInt64).toNat % 64 = 32 := rfl
    rw [← UInt32.toNat_inj, UInt64.toNat_toUInt32, UInt64.toNat_shiftRight, hshift,
      Nat.shiftRight_eq_div_pow]
    omega
  have himage : UInt64.toNat '' {s | (s >>> 32).toUInt32 = w} =
      Finset.Ico (w.toNat*2^32) ((w.toNat+1)*2^32) := by
    ext n
    simp only [Set.mem_image, Set.mem_ofPred_eq, hupper, Finset.coe_Ico, Set.mem_Ico]
    constructor
    · rintro ⟨s, hs, rfl⟩
      omega
    · intro hn
      have hw := w.toNat_lt
      have hsize : n < UInt64.size := by
        show n < 2^64
        omega
      use UInt64.ofNat n
      rw [UInt64.toNat_ofNat_of_lt' hsize]
      omega
  rw [← Set.InjOn.ncard_image fun s _ t _ h => UInt64.toNat_inj.mp h, himage,
    Set.ncard_coe_finset, Nat.card_Ico]
  omega

/-- Of the words 2^64 calls in a row return, each is returned 2^32 times. -/
theorem lcg64_returns_evenly (seed : UInt64) (w : UInt32) :
    {n | n < 2^64 ∧ (lcg64Temper (seedAfter n seed)).1 = w}.ncard = 2^32 := by
  have hvisits := ncard_visits (seed_minimalPeriod ((lcg64Temper seed).2)) fun s =>
    temper (s >>> 32).toUInt32 = w
  obtain ⟨v, rfl⟩ := temper_surjective w
  have hsame : ∀ n, (lcg64Temper (seedAfter n seed)).1 =
      temper ((fun s => (lcg64Temper s).2)^[n] (lcg64Temper seed).2 >>> 32).toUInt32 := by
    intro n
    rw [← Function.iterate_succ_apply, Function.iterate_succ_apply']
    rfl
  simp only [hsame]
  rw [card_uint64] at hvisits
  rw [hvisits]
  simp only [temper_injective.eq_iff]
  exact ncard_upper v

end Period

section Draws

theorem seedOf_toNat (hi lo : UInt32) : (seedOf hi lo).toNat = hi.toNat*2^32 + lo.toNat := by
  have hlt := hi.toNat_lt
  have hshift : (32 : UInt64).toNat % 64 = 32 := rfl
  rw [seedOf, UInt64.toNat_or, UInt64.toNat_shiftLeft, UInt32.toNat_toUInt64,
    UInt32.toNat_toUInt64, hshift, Nat.shiftLeft_eq, Nat.mod_eq_of_lt (by omega),
    Nat.mul_comm, ← Nat.two_pow_add_eq_or_of_lt lo.toNat_lt]

theorem lcg64Temper_word (hi lo : UInt32) {v : UInt32}
    (hv : (6364136223846793005*(hi.toNat*2^32 + lo.toNat) + 1)/2^32 % 2^32 = v.toNat) :
    (lcg64Temper (seedOf hi lo)).1 = temper v := by
  have hshift : (32 : UInt64).toNat % 64 = 32 := rfl
  have hone : (1 : UInt64).toNat = 1 := rfl
  have ha : (6364136223846793005 : UInt64).toNat = 6364136223846793005 := rfl
  apply congrArg temper
  rw [← UInt32.toNat_inj, UInt64.toNat_toUInt32, UInt64.toNat_shiftRight, hshift,
    Nat.shiftRight_eq_div_pow, UInt64.toNat_add, UInt64.toNat_mul, seedOf_toNat, ha, hone, ← hv]
  generalize 6364136223846793005*(hi.toNat*2^32 + lo.toNat) = n
  omega

/-- Numbers `rand` can return lead to every word: three lower halves do. -/
theorem seed_exists (w : UInt32) : ∃ hi lo : UInt32, hi.toNat ≤ randMax ∧ lo.toNat ≤ randMax ∧
    (lcg64Temper (seedOf hi lo)).1 = w := by
  obtain ⟨v, rfl⟩ := temper_surjective w
  have hv := v.toNat_lt
  have hmax : randMax = 2^31-1 := rfl
  obtain ⟨z, hz, hzv⟩ : ∃ z < 2^32, z = v.toNat*0x329e28a5 % 2^32 :=
    ⟨_, Nat.mod_lt _ (by decide), rfl⟩
  have hof : ∀ n ≤ randMax, (UInt32.ofNat n).toNat = n := by
    intro n hn
    rw [UInt32.toNat_ofNat']
    omega
  have hchoose : ∀ n lo : ℕ, n ≤ randMax → lo ≤ randMax →
      (6364136223846793005*(n*2^32 + lo) + 1)/2^32 % 2^32 = v.toNat →
      ∃ hi lo : UInt32, hi.toNat ≤ randMax ∧ lo.toNat ≤ randMax ∧
        (lcg64Temper (seedOf hi lo)).1 = temper v := by
    intro n lo hn hlo h
    refine ⟨UInt32.ofNat n, UInt32.ofNat lo, (hof n hn).symm ▸ hn, (hof lo hlo).symm ▸ hlo, ?_⟩
    apply lcg64Temper_word
    rw [hof n hn, hof lo hlo]
    exact h
  by_cases h₀ : z < 2^31
  · apply hchoose z 0 <;> omega
  · by_cases h₁ : z < 0x38bf6901 + 2^31
    · apply hchoose (z - 0x38bf6901) 1 <;> omega
    · apply hchoose (z - 0xaa3e3b03) 3 <;> omega

end Draws

section Calls
variable {leftFirst : Bool} {draws : ℕ → UInt32} {g : Generator} {m : ℕ}

def packed (bits : ℕ → Bool) : UInt32 := UInt32.ofNat (Nat.ofBits fun i : Fin 31 => bits i)

theorem packed_bit (bits : ℕ → Bool) {i : ℕ} (hi : i < 31) :
    (packed bits).toNat.testBit i = bits i := by
  have hlt := Nat.ofBits_lt_two_pow fun i : Fin 31 => bits i
  rw [packed, UInt32.toNat_ofNat', Nat.mod_eq_of_lt (by omega), Nat.testBit_ofBits_lt _ _ hi]

theorem draws_exist (leftFirst : Bool) (w : UInt32) : ∃ x y : UInt32,
    x.toNat ≤ randMax ∧ y.toNat ≤ randMax ∧
      (lcg64Temper (if leftFirst then seedOf x y else seedOf y x)).1 = w := by
  obtain ⟨hi, lo, hhi, hlo, hw⟩ := seed_exists w
  cases leftFirst with
  | true => exact ⟨hi, lo, hhi, hlo, hw⟩
  | false => exact ⟨lo, hi, hlo, hhi, hw⟩

def after (leftFirst : Bool) (m : ℕ) (g : Generator) : Generator :=
  (fun g => (randBool leftFirst g).2)^[m] g

def wordAt (leftFirst : Bool) (draws : ℕ → UInt32) (k : ℕ) : UInt32 :=
  (lcg64Temper (if leftFirst then seedOf (draws k) (draws (k+1))
    else seedOf (draws (k+1)) (draws k))).1

def current (leftFirst : Bool) (g : Generator) : UInt32 :=
  if g.gcount = 0 then wordAt leftFirst g.draws 0 else g.rbits

theorem randBool_eq (leftFirst : Bool) (g : Generator) :
    randBool leftFirst g = ((current leftFirst g).toNat.testBit 0,
      ⟨(if g.gcount = 0 then 31 else g.gcount) - 1, current leftFirst g >>> 1,
        fun n => g.draws (n+2)⟩) := by
  have hbit : ∀ x : UInt32, (decide (x &&& 1 = 1)) = x.toNat.testBit 0 := by
    intro x
    have hone : (1 : UInt32).toNat = 1 := rfl
    rw [Nat.testBit_zero, decide_eq_decide, ← UInt32.toNat_inj, UInt32.toNat_and, hone,
      Nat.and_one_is_mod]
  by_cases hz : g.gcount = 0
  · simp only [randBool, rand, current, hz, if_true, hbit]
    rfl
  · simp only [randBool, rand, current, hz, if_false, hbit]

structure Drawn (leftFirst : Bool) (draws : ℕ → UInt32) (m : ℕ) (g : Generator) : Prop where
  rest : g.draws = fun n => draws (2*m+n)
  left : g.gcount.toNat = (31 - m % 31) % 31
  word : m % 31 ≠ 0 → g.rbits.toNat = (wordAt leftFirst draws (62*(m/31))).toNat >>> (m % 31)

theorem Drawn.current_eq (hg : Drawn leftFirst draws m g) :
    (current leftFirst g).toNat = (wordAt leftFirst draws (62*(m/31))).toNat >>> (m % 31) := by
  have hleft := hg.left
  rw [current]
  split
  · rename_i hz
    rw [hz] at hleft
    have hzero : (0 : UInt32).toNat = 0 := rfl
    have hfirst : m % 31 = 0 := by omega
    have hpos : 2*m = 62*(m/31) := by omega
    rw [hfirst, Nat.shiftRight_zero, hg.rest, ← hpos]
    rfl
  · rename_i hz
    apply hg.word
    intro hfirst
    have hzero : g.gcount.toNat = 0 := by omega
    exact hz (UInt32.toNat_inj.mp hzero)

theorem Drawn.step (hg : Drawn leftFirst draws m g) :
    (randBool leftFirst g).1 = (wordAt leftFirst draws (62*(m/31))).toNat.testBit (m % 31) ∧
      Drawn leftFirst draws (m+1) (randBool leftFirst g).2 := by
  have hcur := hg.current_eq
  have hleft := hg.left
  rw [randBool_eq]
  constructor
  · rw [hcur, Nat.testBit_shiftRight, Nat.add_zero]
  constructor
  case rest =>
    rw [hg.rest]
    funext n
    show draws (2*m+(n+2)) = draws (2*(m+1)+n)
    congr 1
    omega
  case left =>
    have hone : (1 : UInt32).toNat = 1 := rfl
    have h31 : (31 : UInt32).toNat = 31 := rfl
    have hzero : (0 : UInt32).toNat = 0 := rfl
    have hsub : ∀ x : UInt32, x ≠ 0 → (x - 1).toNat = x.toNat - 1 := by
      intro x hx
      have hpos : x.toNat ≠ 0 := fun h => hx (UInt32.toNat_inj.mp h)
      rw [UInt32.toNat_sub_of_le _ _ (UInt32.le_iff_toNat_le.mpr (by omega)), hone]
    dsimp only
    split
    · rename_i hz
      rw [hz] at hleft
      rw [hsub _ (by decide), h31]
      omega
    · rename_i hz
      rw [hsub _ hz, hleft]
      have hpos : g.gcount.toNat ≠ 0 := fun h => hz (UInt32.toNat_inj.mp h)
      omega
  case word =>
    intro hnext
    have hshift : (1 : UInt32).toNat % 32 = 1 := rfl
    have hdiv : (m+1)/31 = m/31 := by omega
    have hmod : (m+1) % 31 = m % 31 + 1 := by omega
    dsimp only
    rw [UInt32.toNat_shiftRight, hshift, hcur, hdiv, hmod, Nat.shiftRight_add]

theorem drawn_after (rbits : UInt32) (m : ℕ) :
    Drawn leftFirst draws m (after leftFirst m ⟨0, rbits, draws⟩) := by
  induction m with
  | zero => exact ⟨by simp [after], rfl, fun h => absurd rfl h⟩
  | succ m ih =>
    rw [after, Function.iterate_succ_apply']
    exact ih.step.2

/-- Each call returns the next of the 31 lower bits of a word made of two
numbers in 62, and any sequence of bits can be returned. -/
theorem randBool_bits (leftFirst : Bool) (rbits : UInt32) :
    (∀ draws m, (randBool leftFirst (after leftFirst m ⟨0, rbits, draws⟩)).1 =
      (wordAt leftFirst draws (62*(m/31))).toNat.testBit (m % 31)) ∧
    ∀ bits : ℕ → Bool, ∃ draws, Ranged draws ∧
      ∀ m, (randBool leftFirst (after leftFirst m ⟨0, rbits, draws⟩)).1 = bits m := by
  have hbits : ∀ draws m, (randBool leftFirst (after leftFirst m ⟨0, rbits, draws⟩)).1 =
      (wordAt leftFirst draws (62*(m/31))).toNat.testBit (m % 31) :=
    fun draws m => (drawn_after rbits m).step.1
  use hbits
  intro bits
  choose x y hx hy hword using fun k => draws_exist leftFirst (packed fun i => bits (31*k+i))
  use fun n => if n % 62 = 0 then x (n/62) else y (n/62)
  constructor
  · intro n
    dsimp only
    split
    · exact hx _
    · exact hy _
  · intro m
    have hlt : m % 31 < 31 := Nat.mod_lt _ (by decide)
    have hfirst : 62*(m/31) % 62 = 0 := Nat.mul_mod_right _ _
    have hsecond : (62*(m/31)+1) % 62 ≠ 0 := by omega
    have hdiv : (62*(m/31)+1)/62 = m/31 := by omega
    rw [hbits, wordAt, if_pos hfirst, if_neg hsecond, hdiv, Nat.mul_div_cancel_left _ (by decide),
      hword, packed_bit _ hlt, Nat.div_add_mod]

end Calls

end RtsCache.RandomBits
