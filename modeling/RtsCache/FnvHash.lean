import RtsCache.HashMixer
import RtsCache.LosslessFold

/-!
# The FNV hashes

The eight functions of `fnv.c`: FNV-1 and FNV-1a in 32 and 64 bits, over a
buffer and over a string, each with the multiplication written out in shifts
or, under `NO_FNV_GCC_OPTIMIZATION`, as a product.
-/

set_option autoImplicit false

namespace RtsCache.FnvHash
open RtsCache.HashMixer RtsCache.LosslessFold RtsCache.WordMixing

def fnv64Prime : UInt64 := 0x100000001b3

/-- The multiplication by the 32-bit prime; `gcc` tells which branch of the
`#if` is compiled. -/
def times32 (gcc : Bool) (hval : UInt32) : UInt32 :=
  if gcc then
    hval + ((hval <<< 1) + (hval <<< 4) + (hval <<< 7) + (hval <<< 8) + (hval <<< 24))
  else hval * fnv32Prime

def times64 (gcc : Bool) (hval : UInt64) : UInt64 :=
  if gcc then
    hval + ((hval <<< 1) + (hval <<< 4) + (hval <<< 5) + (hval <<< 7) + (hval <<< 8) +
      (hval <<< 40))
  else hval * fnv64Prime

def octet32 (gcc : Bool) (hval : UInt32) (octet : UInt8) : UInt32 :=
  times32 gcc hval ^^^ octet.toUInt32

def octet32a (gcc : Bool) (hval : UInt32) (octet : UInt8) : UInt32 :=
  times32 gcc (hval ^^^ octet.toUInt32)

def octet64 (gcc : Bool) (hval : UInt64) (octet : UInt8) : UInt64 :=
  times64 gcc hval ^^^ octet.toUInt64

def octet64a (gcc : Bool) (hval : UInt64) (octet : UInt8) : UInt64 :=
  times64 gcc (hval ^^^ octet.toUInt64)

section Loops

variable {W : Type}

def bufLoop (step : W → UInt8 → W) (buf : List UInt8) (hval : W) : W := buf.foldl step hval

/-- The loop over a string, in a block of memory that starts at `str`. Reading
past the block is `none`. -/
def strLoop (step : W → UInt8 → W) : List UInt8 → W → Option W
  | [], _ => none
  | octet :: rest, hval => if octet = 0 then some hval else strLoop step rest (step hval octet)

end Loops

def fnv32Buf (gcc : Bool) : List UInt8 → UInt32 → UInt32 := bufLoop (octet32 gcc)

def fnv32Str (gcc : Bool) : List UInt8 → UInt32 → Option UInt32 := strLoop (octet32 gcc)

def fnv32aBuf (gcc : Bool) : List UInt8 → UInt32 → UInt32 := bufLoop (octet32a gcc)

def fnv32aStr (gcc : Bool) : List UInt8 → UInt32 → Option UInt32 := strLoop (octet32a gcc)

def fnv64Buf (gcc : Bool) : List UInt8 → UInt64 → UInt64 := bufLoop (octet64 gcc)

def fnv64Str (gcc : Bool) : List UInt8 → UInt64 → Option UInt64 := strLoop (octet64 gcc)

def fnv64aBuf (gcc : Bool) : List UInt8 → UInt64 → UInt64 := bufLoop (octet64a gcc)

def fnv64aStr (gcc : Bool) : List UInt8 → UInt64 → Option UInt64 := strLoop (octet64a gcc)

theorem filter_hash (buf : List UInt8) (hval : UInt32) :
    CuckooIndex.fnv32aBuf buf hval = fnv32aBuf true buf hval := rfl

/-- How the functions of one hash belong together: both forms of the product
give the same word, and the function over a string that of the octets before
the first 0, whatever stands behind it. -/
structure Agree {W : Type} (buf : Bool → List UInt8 → W → W)
    (str : Bool → List UInt8 → W → Option W) : Prop where
  forms : ∀ octets hval, buf true octets hval = buf false octets hval
  string : ∀ gcc text rest hval, 0 ∉ text → str gcc (text ++ 0 :: rest) hval =
    some (buf gcc text hval)
  overrun : ∀ gcc block hval, 0 ∉ block → str gcc block hval = none

/-- What one hash tells apart: two starting values after any buffer, and two
buffers that differ in one octet. -/
structure TellsApart {W : Type} (buf : List UInt8 → W → W) : Prop where
  values : ∀ octets, Function.Bijective (buf octets)
  octets : ∀ front rest hval (b c : UInt8), b ≠ c →
    buf (front ++ b :: rest) hval ≠ buf (front ++ c :: rest) hval

section Loops

variable {W : Type} {step : W → UInt8 → W}

theorem strLoop_text (text rest : List UInt8) (hval : W) (ht : 0 ∉ text) :
    strLoop step (text ++ 0 :: rest) hval = some (bufLoop step text hval) := by
  induction text generalizing hval with
  | nil => rw [List.nil_append, strLoop, if_pos rfl, bufLoop, List.foldl_nil]
  | cons octet text ih =>
    have hoctet : octet ≠ 0 := fun h => ht (by simp [h])
    have htext : 0 ∉ text := fun h => ht (List.mem_cons_of_mem octet h)
    rw [List.cons_append, strLoop, if_neg hoctet, ih _ htext, bufLoop, bufLoop, List.foldl_cons]

theorem strLoop_overrun (block : List UInt8) (hval : W) (hb : 0 ∉ block) :
    strLoop step block hval = none := by
  induction block generalizing hval with
  | nil => rfl
  | cons octet block ih =>
    have hoctet : octet ≠ 0 := fun h => hb (by simp [h])
    have hblock : 0 ∉ block := fun h => hb (List.mem_cons_of_mem octet h)
    rw [strLoop, if_neg hoctet, ih _ hblock]

theorem agree_loops {steps : Bool → W → UInt8 → W} (hforms : steps true = steps false) :
    Agree (fun gcc => bufLoop (steps gcc)) (fun gcc => strLoop (steps gcc)) where
  forms octets hval := by rw [hforms]
  string _ text rest hval := strLoop_text text rest hval
  overrun _ block hval := strLoop_overrun block hval

theorem tellsApart_loop [Finite W] (hstate : ∀ b, Function.Injective fun s => step s b)
    (hletter : ∀ s, Function.Injective (step s)) : TellsApart (bufLoop step) where
  values octets := foldl_bijective hstate octets
  octets front rest hval _ _ hbc := foldl_ne hstate hletter front rest hbc hval

end Loops

theorem times32_eq (gcc : Bool) (hval : UInt32) : times32 gcc hval = hval * fnv32Prime := by
  cases gcc with
  | false => rfl
  | true => exact shifts_eq_mul hval

theorem shl64_eq_mul (x k m : UInt64) (hm : m.toNat = 2^(k.toNat % 64)) : x <<< k = x * m := by
  rw [← UInt64.toNat_inj, UInt64.toNat_shiftLeft, UInt64.toNat_mul, Nat.shiftLeft_eq, hm]

theorem times64_eq (gcc : Bool) (hval : UInt64) : times64 gcc hval = hval * fnv64Prime := by
  cases gcc with
  | false => rfl
  | true =>
    have hp : fnv64Prime = 1 + (0x2 + 0x10 + 0x20 + 0x80 + 0x100 + 0x10000000000) := rfl
    have hshifts : times64 true hval = hval + ((hval <<< 1) + (hval <<< 4) + (hval <<< 5) +
        (hval <<< 7) + (hval <<< 8) + (hval <<< 40)) := rfl
    rw [hshifts, hp, shl64_eq_mul hval 1 0x2 rfl, shl64_eq_mul hval 4 0x10 rfl,
      shl64_eq_mul hval 5 0x20 rfl, shl64_eq_mul hval 7 0x80 rfl,
      shl64_eq_mul hval 8 0x100 rfl, shl64_eq_mul hval 40 0x10000000000 rfl]
    simp only [UInt64.mul_add, UInt64.mul_one]

theorem times32_injective (gcc : Bool) : Function.Injective (times32 gcc) := by
  have hunit : IsUnit fnv32Prime := IsUnit.of_mul_eq_one _ prime_inv
  intro x y h
  rw [times32_eq, times32_eq] at h
  exact hunit.mul_left_injective h

theorem times64_injective (gcc : Bool) : Function.Injective (times64 gcc) := by
  have hunit : IsUnit fnv64Prime := IsUnit.of_mul_eq_one 0xce965057aff6957b (by decide)
  intro x y h
  rw [times64_eq, times64_eq] at h
  exact hunit.mul_left_injective h

theorem octet32_letter (s : UInt32) : Function.Injective fun b : UInt8 => s ^^^ b.toUInt32 := by
  intro b c h
  exact UInt8.toUInt32_inj.mp ((UInt32.xor_right_inj s).mp h)

theorem octet64_letter (s : UInt64) : Function.Injective fun b : UInt8 => s ^^^ b.toUInt64 := by
  intro b c h
  exact UInt8.toUInt64_inj.mp ((UInt64.xor_right_inj s).mp h)

theorem octet32_state (b : UInt8) : Function.Injective fun s : UInt32 => s ^^^ b.toUInt32 := by
  intro s t h
  exact (UInt32.xor_left_inj _).mp h

theorem octet64_state (b : UInt8) : Function.Injective fun s : UInt64 => s ^^^ b.toUInt64 := by
  intro s t h
  exact (UInt64.xor_left_inj _).mp h

/-- Whichever form is compiled, and over a string as over a buffer, the four
hashes are the same functions; no string function reads behind the first 0. -/
theorem fnv_forms_agree : Agree fnv32Buf fnv32Str ∧ Agree fnv32aBuf fnv32aStr ∧
    Agree fnv64Buf fnv64Str ∧ Agree fnv64aBuf fnv64aStr := by
  have h32 : times32 true = times32 false := by
    funext hval
    rw [times32_eq, times32_eq]
  have h64 : times64 true = times64 false := by
    funext hval
    rw [times64_eq, times64_eq]
  refine ⟨agree_loops ?_, agree_loops ?_, agree_loops ?_, agree_loops ?_⟩
  · funext hval octet
    rw [octet32, octet32, h32]
  · funext hval octet
    rw [octet32a, octet32a, h32]
  · funext hval octet
    rw [octet64, octet64, h64]
  · funext hval octet
    rw [octet64a, octet64a, h64]

theorem fnv32a_carried (gcc : Bool) (buf : List UInt8) (hval : UInt32) :
    fnv32Buf gcc buf hval * fnv32Prime = fnv32aBuf gcc buf (hval * fnv32Prime) := by
  apply foldl_carried (f := fun h => h * fnv32Prime)
  intro s b
  rw [octet32, octet32a, times32_eq, times32_eq]

theorem fnv64a_carried (gcc : Bool) (buf : List UInt8) (hval : UInt64) :
    fnv64Buf gcc buf hval * fnv64Prime = fnv64aBuf gcc buf (hval * fnv64Prime) := by
  apply foldl_carried (f := fun h => h * fnv64Prime)
  intro s b
  rw [octet64, octet64a, times64_eq, times64_eq]

/-- FNV-1 and FNV-1a tell apart equally much: two starting values and two
buffers that differ in one octet always, and any other two buffers for FNV-1
from one value just when FNV-1a does from the value times the prime. -/
theorem fnv_tells_apart (gcc : Bool) :
    (TellsApart (fnv32Buf gcc) ∧ TellsApart (fnv32aBuf gcc) ∧
      ∀ buf buf' hval, fnv32Buf gcc buf hval = fnv32Buf gcc buf' hval ↔
        fnv32aBuf gcc buf (hval * fnv32Prime) = fnv32aBuf gcc buf' (hval * fnv32Prime)) ∧
    TellsApart (fnv64Buf gcc) ∧ TellsApart (fnv64aBuf gcc) ∧
      ∀ buf buf' hval, fnv64Buf gcc buf hval = fnv64Buf gcc buf' hval ↔
        fnv64aBuf gcc buf (hval * fnv64Prime) = fnv64aBuf gcc buf' (hval * fnv64Prime) := by
  have h32 := times32_injective gcc
  have h64 := times64_injective gcc
  constructor
  · refine ⟨tellsApart_loop (fun b => (octet32_state b).comp h32) (fun s => octet32_letter _),
      tellsApart_loop (fun b => h32.comp (octet32_state b))
        (fun s => h32.comp (octet32_letter s)), ?_⟩
    intro buf buf' hval
    rw [← fnv32a_carried, ← fnv32a_carried, ← times32_eq gcc, ← times32_eq gcc, h32.eq_iff]
  · refine ⟨tellsApart_loop (fun b => (octet64_state b).comp h64) (fun s => octet64_letter _),
      tellsApart_loop (fun b => h64.comp (octet64_state b))
        (fun s => h64.comp (octet64_letter s)), ?_⟩
    intro buf buf' hval
    rw [← fnv64a_carried, ← fnv64a_carried, ← times64_eq gcc, ← times64_eq gcc, h64.eq_iff]

end RtsCache.FnvHash
