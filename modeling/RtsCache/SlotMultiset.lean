import Mathlib.Data.Multiset.Filter
import Mathlib.Data.Multiset.Range
import Mathlib.Logic.Function.Basic

/-!
# The multiset in the slots of a table

Of `n` slots those that do not hold `z` are occupied. Writing a slot exchanges
one element of what they hold for another.
-/

set_option autoImplicit false

namespace RtsCache.SlotMultiset

variable {β : Type*} {z v : β} {n j : ℕ} {m : ℕ → β}

theorem map_update (hj : j < n) (m : ℕ → β) (v : β) : ∃ t : Multiset β,
    (Multiset.range n).map m = m j ::ₘ t ∧
      (Multiset.range n).map (Function.update m j v) = v ::ₘ t := by
  obtain ⟨s, hs⟩ := Multiset.exists_cons_of_mem (Multiset.mem_range.mpr hj)
  have hnot : j ∉ s := by
    have hnodup := Multiset.nodup_range n
    rw [hs] at hnodup
    exact (Multiset.nodup_cons.mp hnodup).1
  use s.map m
  constructor
  · rw [hs, Multiset.map_cons]
  · rw [hs, Multiset.map_cons, Function.update_self]
    congr 1
    apply Multiset.map_congr rfl
    intro i hi
    apply Function.update_of_ne
    rintro rfl
    exact hnot hi

variable [DecidableEq β]

def occupied (z : β) (n : ℕ) (m : ℕ → β) : Multiset β :=
  ((Multiset.range n).map m).filter (· ≠ z)

theorem mem_occupied : v ∈ occupied z n m ↔ v ≠ z ∧ ∃ i < n, m i = v := by
  simp [occupied, and_comm]

theorem card_occupied_le (z : β) (n : ℕ) (m : ℕ → β) : (occupied z n m).card ≤ n := by
  have hle := Multiset.card_le_card (Multiset.filter_le (· ≠ z) ((Multiset.range n).map m))
  rwa [Multiset.card_map, Multiset.card_range] at hle

theorem occupied_empty (h : ∀ i < n, m i = z) : occupied z n m = 0 := by
  apply Multiset.filter_eq_nil.mpr
  intro v hv
  obtain ⟨i, hi, rfl⟩ := Multiset.mem_map.mp hv
  exact not_not.mpr (h i (Multiset.mem_range.mp hi))

theorem card_occupied_full (h : ∀ i < n, m i ≠ z) : (occupied z n m).card = n := by
  have hall : occupied z n m = (Multiset.range n).map m := by
    apply Multiset.filter_eq_self.mpr
    intro v hv
    obtain ⟨i, hi, rfl⟩ := Multiset.mem_map.mp hv
    exact h i (Multiset.mem_range.mp hi)
  rw [hall, Multiset.card_map, Multiset.card_range]

theorem filter_free (z : β) (t : Multiset β) :
    (z ::ₘ t).filter (· ≠ z) = t.filter (· ≠ z) :=
  Multiset.filter_cons_of_neg t (fun h => h rfl)

theorem filter_held (hv : v ≠ z) (t : Multiset β) :
    (v ::ₘ t).filter (· ≠ z) = v ::ₘ t.filter (· ≠ z) :=
  Multiset.filter_cons_of_pos t hv

theorem occupied_fill (hj : j < n) (hfree : m j = z) (hv : v ≠ z) :
    occupied z n (Function.update m j v) = v ::ₘ occupied z n m := by
  obtain ⟨t, hm, hm'⟩ := map_update hj m v
  rw [occupied, occupied, hm, hm', hfree, filter_held hv, filter_free]

theorem occupied_clear (hj : j < n) (hval : m j = v) (hv : v ≠ z) :
    occupied z n (Function.update m j z) = (occupied z n m).erase v := by
  obtain ⟨t, hm, hm'⟩ := map_update hj m z
  rw [occupied, occupied, hm, hm', hval, filter_free, filter_held hv,
    Multiset.erase_cons_head]

theorem card_occupied_lt (hj : j < n) (hfree : m j = z) : (occupied z n m).card < n := by
  obtain ⟨t, hm, -⟩ := map_update hj m z
  have hcard : (m j ::ₘ t).card = n := by
    rw [← hm, Multiset.card_map, Multiset.card_range]
  have hle := Multiset.card_le_card (Multiset.filter_le (· ≠ z) t)
  rw [Multiset.card_cons] at hcard
  rw [occupied, hm, hfree, filter_free]
  omega

end RtsCache.SlotMultiset
