import RtsCache.LosslessFold
import RtsCache.WordMixing
import Mathlib.Algebra.Group.Units.Basic
import Mathlib.Data.Nat.Digits.Lemmas
import Mathlib.Data.UInt

/-!
# The Murmur hash

`murmur_hash_internal` of `hash_funcs.h`, and `murmur_hash_fp` with the digits
it writes. Each group of four octets is a step that loses nothing, and so is
the end of the hash. The groups are read in the byte order of the machine.
-/

set_option autoImplicit false

namespace RtsCache.MurmurHash
open RtsCache.LosslessFold RtsCache.WordMixing

inductive ByteOrder where
  | little
  | big

def murmur32Scramble (k : UInt32) : UInt32 :=
  let k := k * 0xcc9e2d51
  let k := (k <<< 15) ||| (k >>> 17)
  k * 0x1b873593

/-- The loop over the rest, from its last octet to its first. -/
def restWord (octets : List UInt8) : UInt32 :=
  octets.foldr (fun octet k => (k <<< 8) ||| octet.toUInt32) 0

def groupWord (order : ByteOrder) (group : List UInt8) : UInt32 :=
  match order with
  | .little => restWord group
  | .big => restWord group.reverse

def mixGroup (h k : UInt32) : UInt32 :=
  let h := h ^^^ murmur32Scramble k
  let h := (h <<< 13) ||| (h >>> 19)
  h * 5 + 0xe6546b64

/-- The loop over `n` groups: where `key` points then, and the hash. -/
def groupsLoop {W : Type} (step : W → List UInt8 → W) : ℕ → List UInt8 → W → List UInt8 × W
  | 0, key, h => (key, h)
  | n+1, key, h => groupsLoop step n (key.drop 4) (step h (key.take 4))

def finalize (len : ℕ) (h : UInt32) : UInt32 :=
  let h := h ^^^ UInt32.ofNat len
  let h := h ^^^ (h >>> 16)
  let h := h * 0x85ebca6b
  let h := h ^^^ (h >>> 13)
  let h := h * 0xc2b2ae35
  h ^^^ (h >>> 16)

def murmurHashInternal (order : ByteOrder) (key : List UInt8) (seed : UInt32) : UInt32 :=
  let len := key.length
  let (key, h) := groupsLoop (fun h group => mixGroup h (groupWord order group)) (len >>> 2)
    key seed
  let k := restWord (key.take (len &&& 3))
  finalize len (h ^^^ murmur32Scramble k)

section Steps

theorem scramble_injective : Function.Injective murmur32Scramble := by
  have hunit₁ : IsUnit (0xcc9e2d51 : UInt32) := IsUnit.of_mul_eq_one 0xdee13bb1 (by decide)
  have hunit₂ : IsUnit (0x1b873593 : UInt32) := IsUnit.of_mul_eq_one 0x56ed309b (by decide)
  intro x y h
  have h₁ := hunit₂.mul_left_injective h
  have hrot : Function.Injective fun x : UInt32 => (x <<< 15) ||| (x >>> 17) :=
    rotate32_injective (by decide) (by decide) (by decide)
  exact hunit₁.mul_left_injective (hrot h₁)

theorem mix_injective : Function.Injective fun h : UInt32 =>
    ((h <<< 13) ||| (h >>> 19)) * 5 + 0xe6546b64 := by
  have hunit : IsUnit (5 : UInt32) := IsUnit.of_mul_eq_one 0xcccccccd (by decide)
  have hrot : Function.Injective fun x : UInt32 => (x <<< 13) ||| (x >>> 19) :=
    rotate32_injective (by decide) (by decide) (by decide)
  intro x y h
  exact hrot (hunit.mul_left_injective ((UInt32.add_left_inj _).mp h))

theorem mixGroup_state (k : UInt32) : Function.Injective fun h => mixGroup h k := by
  intro x y h
  exact (UInt32.xor_left_inj _).mp (mix_injective h)

theorem mixGroup_word (h : UInt32) : Function.Injective (mixGroup h) := by
  intro x y hxy
  exact scramble_injective ((UInt32.xor_right_inj _).mp (mix_injective hxy))

theorem finalize_injective (len : ℕ) : Function.Injective (finalize len) := by
  have hunit₁ : IsUnit (0x85ebca6b : UInt32) := IsUnit.of_mul_eq_one 0xa5cb9243 (by decide)
  have hunit₂ : IsUnit (0xc2b2ae35 : UInt32) := IsUnit.of_mul_eq_one 0x7ed1b41d (by decide)
  have h16 : 0 < (16 : UInt32).toNat % 32 := by decide
  have h13 : 0 < (13 : UInt32).toNat % 32 := by decide
  intro x y h
  have h₁ := xorShift32_injective h16 h
  have h₂ := xorShift32_injective h13 (hunit₂.mul_left_injective h₁)
  have h₃ := xorShift32_injective h16 (hunit₁.mul_left_injective h₂)
  exact (UInt32.xor_left_inj _).mp h₃

end Steps

section Words

theorem restWord_toNat (octets : List UInt8) (hlen : octets.length ≤ 4) :
    (restWord octets).toNat = Nat.ofDigits 256 (octets.map UInt8.toNat) := by
  induction octets with
  | nil => rfl
  | cons octet octets ih =>
    have hlt : Nat.ofDigits 256 (octets.map UInt8.toNat) < 256^(octets.map UInt8.toNat).length :=
      Nat.ofDigits_lt_base_pow_length (by decide) (by
        intro x hx
        obtain ⟨o, -, rfl⟩ := List.mem_map.mp hx
        exact o.toNat_lt)
    rw [List.length_map] at hlt
    rw [List.length_cons] at hlen
    have hrest := ih (by omega)
    have hsmall : 256^octets.length ≤ 256^3 := Nat.pow_le_pow_right (by decide) (by omega)
    have hshift : (8 : UInt32).toNat % 32 = 8 := rfl
    show ((restWord octets <<< 8) ||| octet.toUInt32).toNat = _
    rw [UInt32.toNat_or, UInt32.toNat_shiftLeft, hshift, UInt8.toNat_toUInt32, hrest,
      List.map_cons, Nat.ofDigits_cons, Nat.shiftLeft_eq, Nat.mod_eq_of_lt (by omega),
      Nat.mul_comm, ← Nat.two_pow_add_eq_or_of_lt octet.toNat_lt, Nat.add_comm]

theorem restWord_inj {a b : List UInt8} (hlen : a.length = b.length) (ha : a.length ≤ 4)
    (h : restWord a = restWord b) : a = b := by
  have hnat := congrArg UInt32.toNat h
  rw [restWord_toNat a ha, restWord_toNat b (hlen ▸ ha)] at hnat
  have hoctet : ∀ l : List UInt8, ∀ x ∈ l.map UInt8.toNat, x < 256 := by
    intro l x hx
    obtain ⟨o, -, rfl⟩ := List.mem_map.mp hx
    exact o.toNat_lt
  have hmap := Nat.ofDigits_inj_of_len_eq (by decide) (by simpa using hlen) (hoctet a) (hoctet b)
    hnat
  exact List.map_injective_iff.mpr (fun x y hxy => UInt8.toNat_inj.mp hxy) hmap

theorem groupWord_inj (order : ByteOrder) {a b : List UInt8} (hlen : a.length = b.length)
    (ha : a.length ≤ 4) (h : groupWord order a = groupWord order b) : a = b := by
  cases order with
  | little => exact restWord_inj hlen ha h
  | big =>
    have hrev := restWord_inj (by simpa using hlen) (by simpa using ha) h
    exact List.reverse_injective hrev

end Words

section Hash
variable {order : ByteOrder}

def wordsOf (order : ByteOrder) : ℕ → List UInt8 → List UInt32
  | 0, _ => []
  | n+1, key => groupWord order (key.take 4) :: wordsOf order n (key.drop 4)

theorem groupsLoop_eq {W : Type} (step : W → UInt32 → W) (n : ℕ) (key : List UInt8) (h : W) :
    groupsLoop (fun h group => step h (groupWord order group)) n key h =
      (key.drop (4*n), (wordsOf order n key).foldl step h) := by
  induction n generalizing key h with
  | zero => rfl
  | succ n ih =>
    rw [groupsLoop, ih, List.drop_drop, wordsOf, List.foldl_cons, Nat.mul_succ, Nat.add_comm 4]

theorem hash_eq (order : ByteOrder) (key : List UInt8) (seed : UInt32) :
    murmurHashInternal order key seed = finalize key.length
      ((wordsOf order (key.length/4) key).foldl mixGroup seed ^^^
        murmur32Scramble (restWord (key.drop (4*(key.length/4))))) := by
  have hdiv : key.length >>> 2 = key.length/4 := Nat.shiftRight_eq_div_pow _ 2
  have hmod : key.length &&& 3 = key.length % 4 := Nat.and_two_pow_sub_one_eq_mod _ 2
  have htake : (key.drop (4*(key.length/4))).take (key.length % 4) =
      key.drop (4*(key.length/4)) := by
    apply List.take_of_length_le
    rw [List.length_drop]
    omega
  simp only [murmurHashInternal, hdiv, hmod, groupsLoop_eq, htake]

theorem wordsOf_append {front : List UInt8} {f : ℕ} (hf : front.length = 4*f) (n : ℕ)
    (key : List UInt8) :
    wordsOf order (f+n) (front ++ key) = wordsOf order f front ++ wordsOf order n key := by
  induction f generalizing front with
  | zero =>
    have hnil : front = [] := List.length_eq_zero_iff.mp hf
    rw [hnil, Nat.zero_add]
    rfl
  | succ f ih =>
    have hdrop : (front.drop 4).length = 4*f := by
      rw [List.length_drop]
      omega
    rw [Nat.succ_add, wordsOf, wordsOf, List.take_append_of_le_length (by omega),
      List.drop_append_of_le_length (by omega), ih hdrop, List.cons_append]

theorem hash_append {front : List UInt8} {f : ℕ} (hf : front.length = 4*f) (key : List UInt8)
    (seed : UInt32) : murmurHashInternal order (front ++ key) seed =
      finalize (front.length + key.length) ((wordsOf order (key.length/4) key).foldl mixGroup
        ((wordsOf order f front).foldl mixGroup seed) ^^^
          murmur32Scramble (restWord (key.drop (4*(key.length/4))))) := by
  have hdiv : (front.length + key.length)/4 = f + key.length/4 := by omega
  have hdrop : (front ++ key).drop (4*(f + key.length/4)) = key.drop (4*(key.length/4)) := by
    rw [List.drop_append, List.drop_eq_nil_of_le (by omega), List.nil_append]
    congr 1
    omega
  rw [hash_eq, List.length_append, hdiv, wordsOf_append hf, List.foldl_append, hdrop]

theorem hash_seed_bijective (order : ByteOrder) (key : List UInt8) :
    Function.Bijective fun seed => murmurHashInternal order key seed := by
  apply Finite.injective_iff_bijective.mp
  intro x y h
  dsimp only at h
  rw [hash_eq, hash_eq] at h
  have hxor := (UInt32.xor_left_inj _).mp (finalize_injective _ h)
  exact foldl_injective mixGroup_state _ hxor

theorem groupWord_surjective (order : ByteOrder) (w : UInt32) :
    ∃ group : List UInt8, group.length = 4 ∧ groupWord order group = w := by
  have hw := w.toNat_lt
  let octet : ℕ → UInt8 := fun i => UInt8.ofNat (w.toNat/256^i)
  have hoctet : ∀ i, (octet i).toNat = w.toNat/256^i % 256 := fun i => UInt8.toNat_ofNat'
  let group := [octet 0, octet 1, octet 2, octet 3]
  have hword : restWord group = w := by
    rw [← UInt32.toNat_inj, restWord_toNat _ (by simp [group])]
    simp only [group, List.map_cons, List.map_nil, hoctet, Nat.ofDigits_cons, Nat.ofDigits_nil]
    omega
  cases order with
  | little => exact ⟨group, rfl, hword⟩
  | big => exact ⟨group.reverse, rfl, by rw [groupWord, List.reverse_reverse, hword]⟩

theorem hash_group {front : List UInt8} {f : ℕ} (hf : front.length = 4*f) {group : List UInt8}
    (hg : group.length = 4) (rest : List UInt8) (seed : UInt32) :
    murmurHashInternal order (front ++ (group ++ rest)) seed =
      finalize (front.length + (4 + rest.length)) ((wordsOf order (rest.length/4) rest).foldl
        mixGroup (mixGroup ((wordsOf order f front).foldl mixGroup seed)
          (groupWord order group)) ^^^
            murmur32Scramble (restWord (rest.drop (4*(rest.length/4))))) := by
  have hlen : (group ++ rest).length = 4 + rest.length := by rw [List.length_append, hg]
  have hdiv : (4 + rest.length)/4 = rest.length/4 + 1 := by omega
  have hwords : wordsOf order (rest.length/4 + 1) (group ++ rest) =
      groupWord order group :: wordsOf order (rest.length/4) rest := by
    rw [wordsOf, List.take_append_of_le_length (by omega), List.take_of_length_le (by omega),
      List.drop_append_of_le_length (by omega), List.drop_eq_nil_of_le (by omega),
      List.nil_append]
  have hdrop : (group ++ rest).drop (4*(rest.length/4 + 1)) =
      rest.drop (4*(rest.length/4)) := by
    rw [List.drop_append, List.drop_eq_nil_of_le (by omega), List.nil_append]
    congr 1
    omega
  rw [hash_append hf, hlen, hdiv, hwords, hdrop, List.foldl_cons]

theorem hash_group_unique {front : List UInt8} {f : ℕ} (hf : front.length = 4*f)
    (rest : List UInt8) (seed target : UInt32) : ∃! group : List UInt8, group.length = 4 ∧
      murmurHashInternal order (front ++ (group ++ rest)) seed = target := by
  have hbij : Function.Bijective fun w => finalize (front.length + (4 + rest.length))
      ((wordsOf order (rest.length/4) rest).foldl mixGroup
        (mixGroup ((wordsOf order f front).foldl mixGroup seed) w) ^^^
          murmur32Scramble (restWord (rest.drop (4*(rest.length/4))))) := by
    apply Finite.injective_iff_bijective.mp
    intro x y h
    have hxor := (UInt32.xor_left_inj _).mp (finalize_injective _ h)
    exact mixGroup_word _ (foldl_injective mixGroup_state _ hxor)
  obtain ⟨w, hw⟩ := hbij.surjective target
  obtain ⟨group, hlen, hgroup⟩ := groupWord_surjective order w
  refine ⟨group, ⟨hlen, ?_⟩, ?_⟩
  · rw [hash_group hf hlen, hgroup]
    exact hw
  · rintro other ⟨hlen', hother⟩
    rw [hash_group hf hlen'] at hother
    have hsame : groupWord order other = groupWord order group := by
      rw [hgroup]
      exact hbij.injective (hother.trans hw.symm)
    exact groupWord_inj order (hlen'.trans hlen.symm) hlen'.le hsame

theorem hash_rest_ne {front : List UInt8} {f : ℕ} (hf : front.length = 4*f)
    {rest rest' : List UInt8} (hr : rest.length < 4) (hlen : rest.length = rest'.length)
    (hne : rest ≠ rest') (seed : UInt32) :
    murmurHashInternal order (front ++ rest) seed ≠
      murmurHashInternal order (front ++ rest') seed := by
  have hdiv : rest.length/4 = 0 := by omega
  intro h
  rw [hash_append hf, hash_append hf, ← hlen, hdiv] at h
  have hxor := (UInt32.xor_right_inj _).mp (finalize_injective _ h)
  exact hne (restWord_inj hlen hr.le (scramble_injective hxor))

def swapGroups : ℕ → List UInt8 → List UInt8
  | 0, key => key
  | n+1, key => (key.take 4).reverse ++ swapGroups n (key.drop 4)

theorem swapGroups_words (n : ℕ) (key : List UInt8) (hn : 4*n ≤ key.length) :
    (swapGroups n key).length = key.length ∧
      (swapGroups n key).drop (4*n) = key.drop (4*n) ∧
      wordsOf .little n (swapGroups n key) = wordsOf .big n key := by
  induction n generalizing key with
  | zero => exact ⟨rfl, rfl, rfl⟩
  | succ n ih =>
    have htake : (key.take 4).reverse.length = 4 := by
      rw [List.length_reverse, List.length_take]
      omega
    have hrest : 4*n ≤ (key.drop 4).length := by
      rw [List.length_drop]
      omega
    obtain ⟨hlen, hdrop, hwords⟩ := ih (key.drop 4) hrest
    rw [swapGroups]
    refine ⟨?_, ?_, ?_⟩
    · rw [List.length_append, hlen, htake, List.length_drop]
      omega
    · rw [List.drop_append, List.drop_eq_nil_of_le (by omega), List.nil_append, htake,
        Nat.mul_succ, Nat.add_sub_cancel, hdrop, List.drop_drop, Nat.add_comm 4]
    · rw [wordsOf, wordsOf, List.take_append_of_le_length (by omega),
        List.take_of_length_le (by omega), List.drop_append_of_le_length (by omega),
        List.drop_eq_nil_of_le (by omega), List.nil_append, hwords]
      rfl

/-- What the hash keeps apart, in either byte order: two seeds; two keys of
one length that differ in one group or behind the last; and the byte order
only turns the groups round. -/
theorem murmur_tells_apart (order : ByteOrder) :
    (∀ key, Function.Bijective fun seed => murmurHashInternal order key seed) ∧
    (∀ (front rest : List UInt8) seed target, 4 ∣ front.length →
      ∃! group : List UInt8, group.length = 4 ∧
        murmurHashInternal order (front ++ (group ++ rest)) seed = target) ∧
    (∀ (front rest rest' : List UInt8) seed, 4 ∣ front.length → rest.length < 4 →
      rest.length = rest'.length → rest ≠ rest' →
        murmurHashInternal order (front ++ rest) seed ≠
          murmurHashInternal order (front ++ rest') seed) ∧
    ∀ key seed, murmurHashInternal .big key seed =
      murmurHashInternal .little (swapGroups (key.length/4) key) seed := by
  refine ⟨hash_seed_bijective order, ?_, ?_, ?_⟩
  · rintro front rest seed target ⟨f, hf⟩
    exact hash_group_unique hf rest seed target
  · rintro front rest rest' seed ⟨f, hf⟩ hr hlen hne
    exact hash_rest_ne hf hr hlen hne seed
  · intro key seed
    obtain ⟨hlen, hdrop, hwords⟩ := swapGroups_words (key.length/4) key (by omega)
    rw [hash_eq, hash_eq, hlen, hdrop, hwords]

theorem murmur_tells_apart_zero : ∃! group : List UInt8, group.length = 4 ∧
    murmurHashInternal .little ([] ++ (group ++ [101])) 0 = 0 :=
  (murmur_tells_apart .little).2.1 [] [101] 0 0 (by decide)

end Hash

section Digits

/-- The loop of `int2bin` for `n` more digits; `buffer` points behind the
place at `pos`. A place in front of the buffer has no result. -/
def int2binFrom : ℕ → UInt32 → ℕ → List UInt8 → Option (List UInt8 × ℤ)
  | 0, _, pos, buffer => some (buffer, pos - 1)
  | _+1, _, 0, _ => none
  | n+1, a, pos+1, buffer =>
    int2binFrom n (a >>> 1) pos (buffer.set pos ((a &&& 1).toUInt8 + 48))

/-- What the buffer holds then, and which place the pointer returned is at. -/
def int2bin (a : UInt32) (buffer : List UInt8) : Option (List UInt8 × ℤ) :=
  int2binFrom 32 a buffer.length buffer

/-- The hash is taken for the address of the key; the digits are not used. -/
def murmurHashFp (order : ByteOrder) (memory : ℕ → Option UInt8) (hash seed : UInt32) :
    Option UInt32 := do
  let _ ← int2bin hash (List.replicate 32 0)
  let key ← (List.range 32).mapM fun i => memory (hash.toNat + i)
  pure (murmurHashInternal order key seed)

def digitsOf : ℕ → ℕ → List UInt8
  | 0, _ => []
  | n+1, a => digitsOf n (a/2) ++ [UInt8.ofNat (a % 2 + 48)]

def valueOf (digits : List UInt8) : ℕ := digits.foldl (fun v d => 2*v + (d.toNat - 48)) 0

theorem valueOf_digitsOf (n a : ℕ) (ha : a < 2^n) : valueOf (digitsOf n a) = a := by
  induction n generalizing a with
  | zero =>
    rw [Nat.pow_zero] at ha
    exact (Nat.lt_one_iff.mp ha).symm
  | succ n ih =>
    have hhalf : a/2 < 2^n := by omega
    have hdigit : (UInt8.ofNat (a % 2 + 48)).toNat = a % 2 + 48 := by
      rw [UInt8.toNat_ofNat']
      omega
    have hfold : valueOf (digitsOf n (a/2) ++ [UInt8.ofNat (a % 2 + 48)]) =
        2*valueOf (digitsOf n (a/2)) + ((UInt8.ofNat (a % 2 + 48)).toNat - 48) := by
      rw [valueOf, List.foldl_append]
      rfl
    rw [digitsOf, hfold, ih _ hhalf, hdigit]
    omega

theorem int2binFrom_eq (n : ℕ) (a : UInt32) (front back : List UInt8) :
    int2binFrom n a front.length (front ++ back) =
      if n ≤ front.length then
        some (front.take (front.length - n) ++ digitsOf n a.toNat ++ back,
          (front.length : ℤ) - n - 1)
      else none := by
  induction n generalizing a front back with
  | zero => simp [int2binFrom, digitsOf]
  | succ n ih =>
    have hone : (1 : UInt32).toNat % 32 = 1 := rfl
    have hone' : (1 : UInt32).toNat = 1 := rfl
    have h48 : (48 : UInt8).toNat = 48 := rfl
    have hdigit : (a &&& 1).toUInt8 + 48 = UInt8.ofNat (a.toNat % 2 + 48) := by
      rw [← UInt8.toNat_inj, UInt8.toNat_add, UInt32.toNat_toUInt8, UInt32.toNat_and, hone',
        Nat.and_one_is_mod, UInt8.toNat_ofNat', h48]
      omega
    have hhalf : (a >>> 1).toNat = a.toNat/2 := by
      rw [UInt32.toNat_shiftRight, hone, Nat.shiftRight_one]
    rcases List.eq_nil_or_concat front with rfl | ⟨front', x, rfl⟩
    · simp [int2binFrom]
    · have hset : (front'.concat x ++ back).set front'.length (UInt8.ofNat (a.toNat % 2 + 48)) =
          front' ++ UInt8.ofNat (a.toNat % 2 + 48) :: back := by simp
      rw [List.length_concat, int2binFrom, hdigit, hset, ih, hhalf]
      by_cases hn : n ≤ front'.length
      · rw [if_pos hn, if_pos (Nat.succ_le_succ hn), Nat.add_sub_add_right, digitsOf]
        simp [List.take_append_of_le_length]
      · rw [if_neg hn, if_neg fun h => hn (Nat.le_of_succ_le_succ h)]

/-- `int2bin` needs 32 places; the digits it writes at the end of the buffer
stand for the number. -/
theorem int2bin_digits (a : UInt32) (buffer : List UInt8) :
    (32 ≤ buffer.length → int2bin a buffer = some (buffer.take (buffer.length - 32) ++
      digitsOf 32 a.toNat, (buffer.length : ℤ) - 33)) ∧
    (buffer.length < 32 → int2bin a buffer = none) ∧
    valueOf (digitsOf 32 a.toNat) = a.toNat := by
  have heq := int2binFrom_eq 32 a buffer []
  rw [List.append_nil] at heq
  refine ⟨fun hlen => ?_, fun hlen => ?_, valueOf_digitsOf 32 _ a.toNat_lt⟩
  · rw [int2bin, heq, if_pos hlen, List.append_nil]
    congr 2
    omega
  · rw [int2bin, heq, if_neg (by omega)]

theorem mapM_isSome {α β : Type} (f : α → Option β) (xs : List α) :
    (xs.mapM f).isSome ↔ ∀ x ∈ xs, (f x).isSome := by
  induction xs with
  | nil => simp
  | cons x xs ih =>
    rw [List.forall_mem_cons, ← ih, List.mapM_cons]
    cases f x <;> cases xs.mapM f <;> simp

theorem murmurHashFp_isSome (order : ByteOrder) (memory : ℕ → Option UInt8) (hash seed : UInt32) :
    (murmurHashFp order memory hash seed).isSome ↔
      ∀ i < 32, (memory (hash.toNat + i)).isSome := by
  have hdigits := (int2bin_digits hash (List.replicate 32 0)).1 (by simp)
  have hread := mapM_isSome (fun i => memory (hash.toNat + i)) (List.range 32)
  simp only [List.mem_range] at hread
  rw [← hread, murmurHashFp, hdigits]
  cases (List.range 32).mapM fun i => memory (hash.toNat + i) <;> simp

end Digits

end RtsCache.MurmurHash
