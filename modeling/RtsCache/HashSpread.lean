import RtsCache.HashmapForeach
import RtsCache.PrimeHash
import Mathlib.NumberTheory.LucasPrimality
import Mathlib.Tactic.NormNum.Prime
import Mathlib.Tactic.ReduceModChar

/-!
# How the map's hash spreads keys of 32 bits

The coefficient `hash_fun_p` is a prime above every key of 32 bits, and for
those keys the hash does not overflow. So the rules of hashing modulo a prime
hold of the buckets and of the chains.
-/

set_option autoImplicit false

namespace RtsCache.HashSpread
open RtsCache.UndoHeap RtsCache.PoolLayout RtsCache.HashmapMachine RtsCache.HashmapInvariant
open RtsCache.HashmapRuns RtsCache.HashmapForeach RtsCache.PrimeHash

theorem coeff_prime : Nat.Prime hashFuncCoeffP.toNat := by
  show Nat.Prime 32212254719
  have hfactors : 32212254719 - 1 = 2 * 7 * 41057 * 56041 := by norm_num
  have hthird : Nat.Prime 41057 := by norm_num
  have hfourth : Nat.Prime 56041 := by norm_num
  apply lucas_primality _ 7
  · reduce_mod_char
  · intro q hq hdvd
    rw [hfactors, hq.dvd_mul, hq.dvd_mul, hq.dvd_mul] at hdvd
    -- no quotient of `p - 1` by one of its prime factors takes 7 to 1
    rcases hdvd with ((h | h) | h) | h
    · cases (Nat.prime_dvd_prime_iff_eq hq Nat.prime_two).mp h
      reduce_mod_char
      decide
    · cases (Nat.prime_dvd_prime_iff_eq hq (by norm_num)).mp h
      reduce_mod_char
      decide
    · cases (Nat.prime_dvd_prime_iff_eq hq hthird).mp h
      reduce_mod_char
      decide
    · cases (Nat.prime_dvd_prime_iff_eq hq hfourth).mp h
      reduce_mod_char
      decide

theorem small_lt (k : UInt32) : k.toNat < hashFuncCoeffP.toNat := by
  have hk := k.toNat_lt
  show k.toNat < 32212254719
  omega

theorem hashOf_small (a b : UInt32) (n : UInt64) (k : UInt32) :
    (hashOf a b hashFuncCoeffP n k.toUInt64).toNat =
      affine a.toNat b.toNat hashFuncCoeffP.toNat k.toNat % n.toNat := by
  have hprod : a.toNat * k.toNat ≤ (2^32 - 1) * (2^32 - 1) :=
    Nat.mul_le_mul (Nat.le_pred_of_lt a.toNat_lt) (Nat.le_pred_of_lt k.toNat_lt)
  have hb := b.toNat_lt
  have hfits : a.toNat * k.toNat + b.toNat < 2^64 := by omega
  have hmul : a.toNat * k.toNat < 2^64 := by omega
  simp only [hashOf, affine, UInt64.toNat_mod, UInt64.toNat_add, UInt64.toNat_mul,
    UInt32.toNat_toUInt64, Nat.mod_eq_of_lt hmul, Nat.mod_eq_of_lt hfits]

theorem not_dvd_coeff {a : UInt32} (ha : a ≠ 0) : ¬ hashFuncCoeffP.toNat ∣ a.toNat :=
  Nat.not_dvd_of_pos_of_lt (Nat.pos_of_ne_zero fun h => ha (UInt32.toNat_inj.mp h)) (small_lt a)

theorem affine_small_inj {a : UInt32} (b : UInt32) (ha : a ≠ 0) (K : Finset UInt32) :
    Set.InjOn (fun k : UInt32 => affine a.toNat b.toNat hashFuncCoeffP.toNat k.toNat) K := by
  intro x _ y _ h
  exact UInt32.toNat_inj.mp
    (affine_inj coeff_prime (not_dvd_coeff ha) (small_lt x) (small_lt y) h)

section Buckets
variable {n : UInt64}

theorem bucket_card {a : UInt32} (b : UInt32) (j : UInt64) (ha : a ≠ 0) (hn : n ≠ 0)
    (K : Finset UInt32) (hK : ∀ k ∈ K, hashOf a b hashFuncCoeffP n k.toUInt64 = j) :
    K.card ≤ hashFuncCoeffP.toNat / n.toNat + 1 := by
  have hpos : 0 < n.toNat := Nat.pos_of_ne_zero fun h => hn (UInt64.toNat_inj.mp h)
  have hclass := class_card (j := j.toNat) hpos K _ (affine_small_inj b ha K)
    fun _ _ => affine_lt coeff_prime
  have hall : K.filter (fun k : UInt32 =>
      affine a.toNat b.toNat hashFuncCoeffP.toNat k.toNat % n.toNat = j.toNat) = K := by
    apply Finset.filter_true_of_mem
    intro k hk
    rw [← hashOf_small, hK k hk]
  rwa [hall] at hclass

def lowKeys (n : UInt64) : Finset UInt32 :=
  (Finset.range (hashFuncCoeffP.toNat / n.toNat + 1)).image UInt32.ofNat

theorem lowKeys_le (h8 : 8 ≤ n.toNat) : hashFuncCoeffP.toNat / n.toNat + 1 ≤ 2^32 := by
  have hle : hashFuncCoeffP.toNat / n.toNat ≤ 32212254719 / 8 :=
    Nat.div_le_div_left h8 (by decide)
  omega

theorem low_toNat (h8 : 8 ≤ n.toNat) {m : ℕ}
    (hm : m ∈ Finset.range (hashFuncCoeffP.toNat / n.toNat + 1)) :
    (UInt32.ofNat m).toNat = m := by
  have hlt : m < 2^32 := (Finset.mem_range.mp hm).trans_le (lowKeys_le h8)
  exact UInt32.toNat_ofNat_of_lt' hlt

theorem lowKeys_card (h8 : 8 ≤ n.toNat) :
    (lowKeys n).card = hashFuncCoeffP.toNat / n.toNat + 1 := by
  have hinj : Set.InjOn UInt32.ofNat
      (Finset.range (hashFuncCoeffP.toNat / n.toNat + 1) : Set ℕ) := by
    intro x hx y hy h
    rw [← low_toNat h8 hx, ← low_toNat h8 hy, h]
  rw [lowKeys, Finset.card_image_of_injOn hinj, Finset.card_range]

/-- The number of buckets as the multiplier keeps the low keys in bucket 0. -/
theorem lowKeys_share (h8 : 8 ≤ n.toNat) (h32 : n.toNat < 2^32) {k : UInt32}
    (hk : k ∈ lowKeys n) : hashOf n.toUInt32 0 hashFuncCoeffP n k.toUInt64 = 0 := by
  obtain ⟨m, hm, rfl⟩ := Finset.mem_image.mp hk
  have hm' := Finset.mem_range.mp hm
  have hmn : n.toNat * m ≤ hashFuncCoeffP.toNat := by
    calc
      n.toNat * m ≤ n.toNat * (hashFuncCoeffP.toNat / n.toNat) :=
        Nat.mul_le_mul_left _ (by omega)
      _ ≤ hashFuncCoeffP.toNat := Nat.mul_div_le _ _
  have hndvd : n.toNat * m ≠ hashFuncCoeffP.toNat := by
    intro h
    have hdvd : n.toNat ∣ hashFuncCoeffP.toNat := ⟨m, h.symm⟩
    rcases (Nat.dvd_prime coeff_prime).mp hdvd with h | h
    · omega
    · have : hashFuncCoeffP.toNat = 32212254719 := rfl
      omega
  have hn : n.toUInt32.toNat = n.toNat := by
    rw [UInt64.toNat_toUInt32, Nat.mod_eq_of_lt h32]
  have hlt : n.toNat * m < hashFuncCoeffP.toNat := Nat.lt_of_le_of_ne hmn hndvd
  apply UInt64.toNat_inj.mp
  rw [hashOf_small, hn, low_toNat h8 hm, affine, UInt32.toNat_zero, Nat.add_zero,
    Nat.mod_eq_of_lt hlt, Nat.mul_mod_right, UInt64.toNat_zero]

/-- The most keys of 32 bits that one of `n` buckets takes under any
coefficients the map draws is the number of residues in one class modulo `n`,
rounded up. -/
theorem fullest_bucket (h8 : 8 ≤ n.toNat) (h32 : n.toNat < 2^32) :
    IsGreatest {m | ∃ (a b : UInt32) (j : UInt64) (K : Finset UInt32), a ≠ 0 ∧
        (∀ k ∈ K, hashOf a b hashFuncCoeffP n k.toUInt64 = j) ∧ K.card = m}
      (hashFuncCoeffP.toNat / n.toNat + 1) := by
  have hn : n ≠ 0 := by
    rintro rfl
    exact absurd h8 (by decide)
  constructor
  · refine ⟨n.toUInt32, 0, 0, lowKeys n, ?_, fun k hk => lowKeys_share h8 h32 hk,
      lowKeys_card h8⟩
    intro hzero
    have h := congrArg UInt32.toNat hzero
    rw [UInt64.toNat_toUInt32, Nat.mod_eq_of_lt h32] at h
    have : (0 : UInt32).toNat = 0 := rfl
    omega
  · rintro m ⟨a, b, j, K, ha, hK, rfl⟩
    exact bucket_card b j ha hn K hK

theorem fullest_bucket_ten :
    IsGreatest {m | ∃ (a b : UInt32) (j : UInt64) (K : Finset UInt32), a ≠ 0 ∧
        (∀ k ∈ K, hashOf a b hashFuncCoeffP initBucketsNum k.toUInt64 = j) ∧ K.card = m}
      3221225472 :=
  fullest_bucket (n := initBucketsNum) (by decide) (by decide)

end Buckets

section Chains
variable {b : UInt32} {n : UInt64} {A K : Finset UInt32}

theorem chain_length_le {h : Pool} {hm bs : PMEMoid} {a : UInt32} {T : ℕ → List Node}
    (ht : Table h hm bs a b hashFuncCoeffP n T)
    (hK : ∀ x ∈ nodes n.toNat T, ∃ k ∈ K, x.key = k.toUInt64) (key : UInt64) :
    (T (hashOf a b hashFuncCoeffP n key).toNat).length ≤
      (K.filter fun k : UInt32 => hashOf a b hashFuncCoeffP n k.toUInt64 =
        hashOf a b hashFuncCoeffP n key).card := by
  have hi := hashOf_lt a b hashFuncCoeffP n key ht.pos
  have hsub : (T (hashOf a b hashFuncCoeffP n key).toNat).Sublist (nodes n.toNat T) :=
    List.sublist_flatten_of_mem (List.mem_map_of_mem (List.mem_range.mpr hi))
  have hnodup : ((T (hashOf a b hashFuncCoeffP n key).toNat).map Node.key).Nodup :=
    ht.distinct.sublist (hsub.map _)
  calc
    _ = ((T (hashOf a b hashFuncCoeffP n key).toNat).map Node.key).toFinset.card := by
      rw [List.toFinset_card_of_nodup hnodup, List.length_map]
    _ ≤ _ := by
      apply Finset.card_le_card_of_surjOn UInt32.toUInt64
      intro k hk
      obtain ⟨x, hx, rfl⟩ := List.mem_map.mp (List.mem_toFinset.mp hk)
      obtain ⟨k, hkK, he⟩ := hK x (hsub.subset hx)
      have hplaced := UInt64.toNat_inj.mp (ht.placed _ hi x hx)
      rw [he] at hplaced
      exact ⟨k, Finset.mem_filter.mpr ⟨hkK, hplaced⟩, he.symm⟩

/-- Two different keys of 32 bits share a bucket under few of the coefficients. -/
theorem sharing_card (hA : ∀ a ∈ A, a ≠ 0) {x y : UInt32} (hne : x ≠ y) :
    (A.filter fun a => hashOf a b hashFuncCoeffP n x.toUInt64 =
      hashOf a b hashFuncCoeffP n y.toUInt64).card ≤
      2 * ((hashFuncCoeffP.toNat - 1) / n.toNat) := by
  have hcoll := collisions_card b.toNat n.toNat coeff_prime (small_lt x) (small_lt y)
    (fun h => hne (UInt32.toNat_inj.mp h)) A UInt32.toNat (fun a _ a' _ h => UInt32.toNat_inj.mp h)
    fun a ha => ⟨Nat.pos_of_ne_zero fun h => hA a ha (UInt32.toNat_inj.mp h), small_lt a⟩
  simpa only [← hashOf_small, UInt64.toNat_inj] using hcoll

/-- Maps that hold keys of 32 bits in `n` buckets, one map for each of the
coefficients `A`: summed over `A`, the chains a search for one key walks have
at most one node each for the key itself and `2 * ((p - 1) / n)` for each other. -/
theorem chains_average {heap : UInt32 → Pool} {hm bs : UInt32 → PMEMoid}
    {T : UInt32 → ℕ → List Node} (hA : ∀ a ∈ A, a ≠ 0)
    (hT : ∀ a ∈ A, Table (heap a) (hm a) (bs a) a b hashFuncCoeffP n (T a))
    (hK : ∀ a ∈ A, ∀ x ∈ nodes n.toNat (T a), ∃ k ∈ K, x.key = k.toUInt64) (key : UInt32) :
    ∑ a ∈ A, (T a (hashOf a b hashFuncCoeffP n key.toUInt64).toNat).length ≤
      A.card + 2 * ((hashFuncCoeffP.toNat - 1) / n.toNat) * (K.erase key).card := by
  have hothers := meetings_card A (K.erase key)
    (fun a k => hashOf a b hashFuncCoeffP n k.toUInt64 =
      hashOf a b hashFuncCoeffP n key.toUInt64) _
    fun k hk => sharing_card (b := b) (n := n) hA (Finset.ne_of_mem_erase hk)
  calc
    _ ≤ ∑ a ∈ A, (1 + ((K.erase key).filter fun k : UInt32 =>
        hashOf a b hashFuncCoeffP n k.toUInt64 =
          hashOf a b hashFuncCoeffP n key.toUInt64).card) := by
      apply Finset.sum_le_sum
      intro a ha
      apply (chain_length_le (hT a ha) (hK a ha) key.toUInt64).trans
      rw [Finset.filter_erase]
      have herase := Finset.pred_card_le_card_erase (a := key)
        (s := K.filter fun k : UInt32 => hashOf a b hashFuncCoeffP n k.toUInt64 =
          hashOf a b hashFuncCoeffP n key.toUInt64)
      omega
    _ = A.card + ∑ a ∈ A, ((K.erase key).filter fun k : UInt32 =>
        hashOf a b hashFuncCoeffP n k.toUInt64 =
          hashOf a b hashFuncCoeffP n key.toUInt64).card := by
      rw [Finset.sum_add_distrib, Finset.sum_const, smul_eq_mul, Nat.mul_one]
    _ ≤ _ := Nat.add_le_add_left hothers _

theorem twoHeap_recoeff (a : UInt32) (hone : hashOf a 0 hashFuncCoeffP 2 1 = 1) :
    Table (twoHeap.put newMap .hashFunA a) newMap newBuckets a 0 hashFuncCoeffP 2 twoChains := by
  have hkeep := Heap.keeps_put twoHeap newMap .hashFunA a
  have hzero : hashOf a 0 hashFuncCoeffP 2 0 = 0 := by simp [hashOf]
  have ht := twoHeap_table
  refine { ht with
    buckets := hkeep _ _ _ (Or.inr (by decide)) ht.buckets
    coeffA := Heap.get_put_self _ _ ht.coeffA
    coeffB := hkeep _ _ _ (Or.inr (by decide)) ht.coeffB
    coeffP := hkeep _ _ _ (Or.inr (by decide)) ht.coeffP
    nbuckets := hkeep _ _ _ (Or.inr (by decide)) ht.nbuckets
    count := hkeep _ _ _ (Or.inr (by decide)) ht.count
    slot := ?_
    placed := ?_ }
  · intro i hi
    obtain ⟨o, ho, hc⟩ := ht.slot i hi
    refine ⟨o, hkeep _ _ _ (Or.inr (by simp)) ho, chain_keeps hkeep (fun x _ => ?_) hc⟩
    exact ⟨Or.inr (by decide), Or.inr (by decide), Or.inr (by decide)⟩
  · intro i hi x hx
    have hcases : i = 0 ∨ i = 1 := by
      have hi' : i < 2 := hi
      omega
    rcases hcases with rfl | rfl
    · cases List.mem_singleton.mp hx
      rw [hzero]
      rfl
    · cases List.mem_singleton.mp hx
      rw [hone]
      rfl

theorem chains_average_two :
    ∑ a ∈ ({1, 3} : Finset UInt32), (twoChains (hashOf a 0 hashFuncCoeffP 2 0).toNat).length ≤
      2 + 2 * ((hashFuncCoeffP.toNat - 1) / 2) := by
  have hT : ∀ a ∈ ({1, 3} : Finset UInt32), Table (twoHeap.put newMap .hashFunA a) newMap
      newBuckets a 0 hashFuncCoeffP 2 twoChains := by
    intro a ha
    apply twoHeap_recoeff
    rcases Finset.mem_insert.mp ha with rfl | ha
    · decide
    · rw [Finset.mem_singleton.mp ha]
      decide
  have hA : ∀ a ∈ ({1, 3} : Finset UInt32), a ≠ 0 := by
    rintro a ha rfl
    simp at ha
  have hkeys : (nodes (2 : UInt64).toNat twoChains).map Node.key = [0, 1] := rfl
  have hK : ∀ x ∈ nodes (2 : UInt64).toNat twoChains,
      ∃ k ∈ ({0, 1} : Finset UInt32), x.key = k.toUInt64 := by
    intro x hx
    have hmem : x.key ∈ (nodes (2 : UInt64).toNat twoChains).map Node.key :=
      List.mem_map_of_mem hx
    rw [hkeys] at hmem
    rcases List.mem_pair.mp hmem with h | h
    · exact ⟨0, by simp, h⟩
    · exact ⟨1, by simp, h⟩
  have hall := chains_average (T := fun _ => twoChains) hA hT (fun _ _ => hK) 0
  simpa using hall

end Chains

end RtsCache.HashSpread
