import RtsCache.QueueMachine
import Mathlib.Data.Nat.ModEq

/-!
# The window of the queue

`F` dequeues and `E.length` enqueues have succeeded; the counters hold these
numbers modulo 2^64 and the entry of the `n`-th enqueue sits in slot `n` modulo
the capacity. Slots of one window are distinct because it is no longer than
the capacity, and counters may wrap only when the capacity divides 2^64.
-/

set_option autoImplicit false

namespace RtsCache.QueueInvariant
open RtsCache.UndoHeap RtsCache.UndoMachine RtsCache.UndoRules RtsCache.PoolLayout
open RtsCache.QueueMachine

section Counters

theorem mod_ne_of_lt {c n m : ℕ} (hn : n < m) (hm : m < n + c) : n % c ≠ m % c := by
  intro he
  have hd : c ∣ m - n := (Nat.modEq_iff_dvd' hn.le).mp he
  have hle := Nat.le_of_dvd (by omega) hd
  omega

/-- Counter number `n` can be reduced after its wrap. -/
def Reducible (c : UInt64) (n : ℕ) : Prop := (∃ k, c.toNat = 2^k) ∨ n < 2^64

theorem Reducible.mono {c : UInt64} {n m : ℕ} (h : Reducible c m) (hn : n ≤ m) :
    Reducible c n :=
  h.imp_right fun hm => Nat.lt_of_le_of_lt hn hm

theorem counter_mod {c : UInt64} {n : ℕ} (h : Reducible c n) :
    (UInt64.ofNat n % c).toNat = n % c.toNat := by
  rw [UInt64.toNat_mod, UInt64.toNat_ofNat']
  rcases h with ⟨k, hk⟩ | hn
  · have hlt : 2^k < 2^64 := hk ▸ c.toNat_lt
    have hk' : k ≤ 64 := (Nat.pow_lt_pow_iff_right (by decide)).mp hlt |>.le
    rw [hk, Nat.mod_mod_of_dvd _ (Nat.pow_dvd_pow 2 hk')]
  · rw [Nat.mod_eq_of_lt hn]

theorem counter_sub {F B : ℕ} (hle : F ≤ B) (hlt : B - F < 2^64) :
    (UInt64.ofNat B - UInt64.ofNat F).toNat = B - F := by
  rw [← UInt64.ofNat_sub hle, UInt64.toNat_ofNat_of_lt' hlt]

theorem counter_succ (n : ℕ) : UInt64.ofNat n + 1 = UInt64.ofNat (n + 1) :=
  (UInt64.ofNat_add n 1).symm

end Counters

def EntryLive (h : QueuePool) (o : PMEMoid) : Prop :=
  ∃ obj, h o = some obj ∧ obj.kind = .queueEntry

/-- `E` lists the values of all successful enqueues, `ref n` is the entry of the
`n`-th; `h₀` is the pool before the queue was made. -/
structure Fifo (h₀ h : QueuePool) (q : PMEMoid) (c : UInt64) (F : ℕ) (E : List Int64)
    (ref : ℕ → PMEMoid) : Prop where
  queue : q.isNull = false
  front : h.get q .front = some (UInt64.ofNat F)
  back : h.get q .back = some (UInt64.ofNat E.length)
  capacity : h.get q .capacity = some c
  slots : ∀ i < c.toNat, ∃ o, h.get q (.entries i) = some o
  started : F ≤ E.length
  bounded : E.length ≤ F + c.toNat
  held : ∀ n, F ≤ n → n < E.length → h.get q (.entries (n % c.toNat)) = some (ref n)
  entry : ∀ n v, F ≤ n → E[n]? = some v →
    (ref n).isNull = false ∧ h.get (ref n) .value = some v
  distinct : ∀ n m, F ≤ n → n < E.length → F ≤ m → m < E.length → ref n = ref m → n = m
  owned : ∀ o, EntryLive h o ↔ EntryLive h₀ o ∨ ∃ n, F ≤ n ∧ n < E.length ∧ ref n = o
  apart : ∀ n, F ≤ n → n < E.length → ¬ EntryLive h₀ (ref n)

variable {h₀ h : QueuePool} {q : PMEMoid} {c : UInt64} {F : ℕ} {E : List Int64}
  {ref : ℕ → PMEMoid}

theorem entryLive_put {o p : PMEMoid} {m : QueueMember} {v : m.ty} :
    EntryLive (h.put o m v) p ↔ EntryLive h p := by
  have hk := h.put_kind o p m v
  unfold EntryLive
  cases hp : h p <;> cases hp' : h.put o m v p <;> simp_all

theorem entryLive_alloc {o p : PMEMoid} {obj : Obj QueueMember} (ho : h o = none)
    (hk : obj.kind = .queueEntry) :
    EntryLive (Function.update h o (some obj)) p ↔ EntryLive h p ∨ p = o := by
  unfold EntryLive
  by_cases hp : p = o
  · subst hp
    simp [hk]
  · simp [hp]

theorem entryLive_free {o p : PMEMoid} :
    EntryLive (Function.update h o none) p ↔ EntryLive h p ∧ p ≠ o := by
  unfold EntryLive
  by_cases hp : p = o
  · subst hp
    simp
  · simp [hp]

def Tidy (q : PMEMoid) (h : QueuePool) : Prop :=
  ∀ o obj, h o = some obj → o = q ∨ obj.kind = .queueEntry

theorem Tidy.put (ht : Tidy q h) (o : PMEMoid) (m : QueueMember) (v : m.ty) :
    Tidy q (h.put o m v) := by
  intro p obj hp
  have hkind := h.put_kind o p m v
  rw [hp] at hkind
  obtain ⟨old, hold, he⟩ := Option.map_eq_some_iff.mp hkind.symm
  exact (ht p old hold).imp_right he.symm.trans

theorem Tidy.alloc (ht : Tidy q h) (o : PMEMoid) {obj : Obj QueueMember}
    (hk : obj.kind = .queueEntry) : Tidy q (Function.update h o (some obj)) := by
  intro p obj' hp
  by_cases hpo : p = o
  · rw [hpo, Function.update_self] at hp
    exact Or.inr (Option.some.inj hp ▸ hk)
  · rw [Function.update_of_ne hpo] at hp
    exact ht p obj' hp

theorem Tidy.free (ht : Tidy q h) (o : PMEMoid) : Tidy q (Function.update h o none) := by
  intro p obj hp
  by_cases hpo : p = o
  · simp [hpo] at hp
  · rw [Function.update_of_ne hpo] at hp
    exact ht p obj hp

theorem Fifo.ref_ne (hf : Fifo h₀ h q c F E ref) {n : ℕ} (hF : F ≤ n) (hn : n < E.length) :
    ref n ≠ q := by
  intro he
  obtain ⟨-, hv⟩ := hf.entry n _ hF (List.getElem?_eq_getElem hn)
  obtain ⟨o₁, h₁, k₁⟩ := Heap.live_of_get hv
  obtain ⟨o₂, h₂, k₂⟩ := Heap.live_of_get hf.front
  rw [he] at h₁
  cases Option.some.inj (h₁.symm.trans h₂)
  exact absurd (k₁.symm.trans k₂) (by decide)

theorem Fifo.size_toNat (hf : Fifo h₀ h q c F E ref) :
    (UInt64.ofNat E.length - UInt64.ofNat F).toNat = E.length - F := by
  have hbound := hf.bounded
  have hc := c.toNat_lt
  exact counter_sub hf.started (by omega)

theorem fifo_new {size : ℕ} {junk : (m : QueueMember) → m.ty} (ho : h₀ q = none)
    (hn : q.isNull = false) (hs : size = 24 + 16 * c.toNat) :
    Fifo h₀ (Function.update h₀ q (some ⟨.queue, size, queueConstructor c junk⟩)) q c 0 [] ref := by
  have hget : ∀ m : QueueMember, m.kind = .queue → m.extent ≤ size →
      Heap.get (Function.update h₀ q
        (some ⟨.queue, size, queueConstructor c junk⟩) : QueuePool) q m =
        some (queueConstructor c junk m) := fun m hk he =>
    Heap.get_eq_some.mpr ⟨_, Function.update_self .., ⟨hk.symm, he⟩, rfl⟩
  have hext : ∀ m : QueueMember, m.extent ≤ 24 → m.extent ≤ size := fun m hm => by omega
  refine ⟨hn, hget .front rfl (hext _ (by decide)), hget .back rfl (hext _ (by decide)),
    hget .capacity rfl (hext _ (by decide)), fun i hi => ⟨_, hget (.entries i) rfl ?_⟩, by simp,
    by simp, by simp, by simp, by simp, fun o => ?_, by simp⟩
  · simp only [QueueMember.extent]
    omega
  · have hkeep : EntryLive (Function.update h₀ q
        (some ⟨.queue, size, queueConstructor c junk⟩)) o ↔ EntryLive h₀ o := by
      unfold EntryLive
      by_cases hoq : o = q
      · subst hoq
        simp [ho]
      · simp [hoq]
    simp [hkeep]

def enqueuedHeap (h : QueuePool) (q e : PMEMoid) (obj : Obj QueueMember) (pos : ℕ)
    (back : UInt64) (v : Int64) : QueuePool :=
  let h₁ : QueuePool := h.put q .back back
  let h₂ : QueuePool := Function.update h₁ e (some obj)
  let h₃ := h₂.put e .value v
  h₃.put q (.entries pos) e

section Enqueue
variable {e : PMEMoid}

section Heap
variable (cells : (m : QueueMember) → m.ty) (pos : ℕ) (back : UInt64) (v : Int64)

theorem enqueuedHeap_keeps (q : PMEMoid) (he : h e = none) :
    Heap.Keeps (fun p m => (p ≠ q ∨ m ≠ .back) ∧ (p ≠ q ∨ m ≠ .entries pos)) h
      (enqueuedHeap h q e ⟨.queueEntry, 8, cells⟩ pos back v) := by
  have he₁ : h.put q .back back e = none := Heap.put_eq_none.mpr he
  intro p m w hp hw
  apply Heap.keeps_put _ _ _ _ _ _ _ hp.2
  apply Heap.keeps_put _ _ _ _ _ _ _ (Or.inl (Heap.ne_of_free he hw))
  apply Heap.keeps_alloc _ _ _ he₁ _ _ _ trivial
  exact Heap.keeps_put _ _ _ _ _ _ _ hp.1 hw

theorem enqueuedHeap_value (hqe : q ≠ e) :
    (enqueuedHeap h q e ⟨.queueEntry, 8, cells⟩ pos back v).get e .value = some v := by
  rw [enqueuedHeap, Heap.get_put_of_ne _ _ _ _ hqe.symm]
  apply Heap.get_put_self (w := cells .value)
  exact Heap.get_eq_some.mpr ⟨_, Function.update_self .., ⟨rfl, Nat.le_refl 8⟩, rfl⟩

theorem enqueuedHeap_slot {pos : ℕ} {o : PMEMoid} (hqe : q ≠ e)
    (ho : h.get q (.entries pos) = some o) :
    (enqueuedHeap h q e ⟨.queueEntry, 8, cells⟩ pos back v).get q (.entries pos) = some e := by
  apply Heap.get_put_self (w := o)
  rw [Heap.get_put_of_ne _ _ _ _ hqe, Heap.get_congr (Function.update_of_ne hqe _ _),
    Heap.get_put_other _ _ _ _ (by simp)]
  exact ho

theorem enqueuedHeap_back {w : UInt64} (hqe : q ≠ e) (hw : h.get q .back = some w) :
    (enqueuedHeap h q e ⟨.queueEntry, 8, cells⟩ pos back v).get q .back = some back := by
  rw [enqueuedHeap, Heap.get_put_other _ _ _ _ (by simp), Heap.get_put_of_ne _ _ _ _ hqe,
    Heap.get_congr (Function.update_of_ne hqe _ _)]
  exact Heap.get_put_self _ _ hw

theorem enqueuedHeap_live (he : h e = none) (o : PMEMoid) :
    EntryLive (enqueuedHeap h q e ⟨.queueEntry, 8, cells⟩ pos back v) o ↔
      EntryLive h o ∨ o = e := by
  simp only [enqueuedHeap, entryLive_put]
  rw [entryLive_alloc (Heap.put_eq_none.mpr he) rfl, entryLive_put]

end Heap

theorem Fifo.distinct_snoc (hf : Fifo h₀ h q c F E ref) (he : h e = none) {n m : ℕ}
    (hF : F ≤ n) (hn : n < E.length + 1) (hF' : F ≤ m) (hm : m < E.length + 1)
    (heq : Function.update ref E.length e n = Function.update ref E.length e m) : n = m := by
  have hnew : Function.update ref E.length e E.length = e := Function.update_self ..
  have hold : ∀ n, n < E.length → Function.update ref E.length e n = ref n := fun n hn =>
    Function.update_of_ne hn.ne e ref
  have hfresh : ∀ n, F ≤ n → n < E.length → ref n ≠ e := fun n hF hn =>
    Heap.ne_of_free he (hf.entry n _ hF (List.getElem?_eq_getElem hn)).2
  by_cases hnB : n = E.length <;> by_cases hmB : m = E.length
  · omega
  · rw [hnB, hnew, hold m (by omega)] at heq
    exact absurd heq.symm (hfresh m hF' (by omega))
  · rw [hmB, hnew, hold n (by omega)] at heq
    exact absurd heq (hfresh n hF (by omega))
  · rw [hold n (by omega), hold m (by omega)] at heq
    exact hf.distinct n m hF (by omega) hF' (by omega) heq

theorem window_snoc {B : ℕ} (hF : F ≤ B) (o : PMEMoid) :
    (∃ n, F ≤ n ∧ n < B + 1 ∧ Function.update ref B e n = o) ↔
      (∃ n, F ≤ n ∧ n < B ∧ ref n = o) ∨ o = e := by
  have hnew : Function.update ref B e B = e := Function.update_self ..
  have hold : ∀ n, n < B → Function.update ref B e n = ref n := fun n hn =>
    Function.update_of_ne hn.ne e ref
  constructor
  · rintro ⟨n, hn, hnB, rfl⟩
    by_cases hlast : n = B
    · subst hlast
      exact Or.inr hnew
    · have hlt : n < B := by omega
      exact Or.inl ⟨n, hn, hlt, (hold n hlt).symm⟩
  · rintro (⟨n, hn, hnB, rfl⟩ | rfl)
    · exact ⟨n, hn, by omega, hold n hnB⟩
    · exact ⟨B, hF, by omega, hnew⟩

theorem fifo_enqueue (v : Int64) (cells : (m : QueueMember) → m.ty) {e : PMEMoid}
    (hf : Fifo h₀ h q c F E ref) (hfull : E.length < F + c.toNat) (he : h e = none)
    (hn : e.isNull = false) :
    Fifo h₀ (enqueuedHeap h q e ⟨.queueEntry, 8, cells⟩ (E.length % c.toNat)
      (UInt64.ofNat E.length + 1) v) q c F (E ++ [v]) (Function.update ref E.length e) := by
  have hlen : (E ++ [v]).length = E.length + 1 := by simp
  have hstart := hf.started
  have hcpos : 0 < c.toNat := by omega
  have hqe : q ≠ e := Heap.ne_of_free he hf.front
  have hlive : ¬ EntryLive h e := by
    rintro ⟨obj, ho, -⟩
    simp [he] at ho
  have hkeep := enqueuedHeap_keeps cells (E.length % c.toNat) (UInt64.ofNat E.length + 1) v q he
  obtain ⟨o, ho⟩ := hf.slots _ (Nat.mod_lt E.length hcpos)
  have hslot := enqueuedHeap_slot cells (UInt64.ofNat E.length + 1) v hqe ho
  have hnew : Function.update ref E.length e E.length = e := Function.update_self ..
  have hold : ∀ n, n < E.length → Function.update ref E.length e n = ref n := fun n hn =>
    Function.update_of_ne hn.ne e ref
  refine ⟨hf.queue, hkeep _ _ _ (by simp) hf.front, ?_, hkeep _ _ _ (by simp) hf.capacity, ?_,
    by omega, by omega, ?_, ?_, ?_, ?_, ?_⟩
  · rw [hlen, ← counter_succ]
    exact enqueuedHeap_back _ _ _ _ hqe hf.back
  · intro i hi
    by_cases hib : i = E.length % c.toNat
    · subst hib
      exact ⟨e, hslot⟩
    · obtain ⟨o, ho⟩ := hf.slots i hi
      exact ⟨o, hkeep _ _ _ (by simp [hib]) ho⟩
  · intro n hF hn
    rw [hlen] at hn
    by_cases hnB : n = E.length
    · subst hnB
      rw [hnew]
      exact hslot
    · have hlt : n < E.length := by omega
      have hne : n % c.toNat ≠ E.length % c.toNat := mod_ne_of_lt hlt (by omega)
      rw [hold n hlt]
      exact hkeep _ _ _ (by simp [hne]) (hf.held n hF (by omega))
  · intro n w hF hw
    by_cases hnB : n = E.length
    · subst hnB
      rw [List.getElem?_append_right (by omega), Nat.sub_self] at hw
      cases Option.some.inj hw
      rw [hnew]
      exact ⟨hn, enqueuedHeap_value _ _ _ _ hqe⟩
    · have hlt : n < E.length := by
        have := (List.getElem?_eq_some_iff.mp hw).1
        omega
      rw [List.getElem?_append_left (by omega)] at hw
      obtain ⟨h₁, h₂⟩ := hf.entry n w hF hw
      rw [hold n hlt]
      exact ⟨h₁, hkeep _ _ _ (by simp) h₂⟩
  · intro n m hF hn hF' hm heq
    rw [hlen] at hn hm
    exact hf.distinct_snoc he hF hn hF' hm heq
  · intro o
    rw [enqueuedHeap_live _ _ _ _ he, hf.owned, hlen, window_snoc hstart, or_assoc]
  · intro n hF hn
    rw [hlen] at hn
    by_cases hnB : n = E.length
    · subst hnB
      rw [hnew]
      exact fun ho => hlive ((hf.owned e).mpr (Or.inl ho))
    · rw [hold n (by omega)]
      exact hf.apart n hF (by omega)

end Enqueue

theorem fifo_dequeue (hf : Fifo h₀ h q c F E ref) (hF : F < E.length) :
    Fifo h₀ (Function.update (h.put q .front (UInt64.ofNat F + 1)) (ref F) none) q c (F + 1) E
      ref := by
  have hqr : q ≠ ref F := (hf.ref_ne (Nat.le_refl F) hF).symm
  have hbound := hf.bounded
  have hkeep : Heap.Keeps (fun p m => p ≠ ref F ∧ (p ≠ q ∨ m ≠ .front)) h
      (Function.update (h.put q .front (UInt64.ofNat F + 1)) (ref F) none) := by
    intro p m w hp hw
    apply Heap.keeps_free _ _ _ _ _ hp.1
    exact Heap.keeps_put _ _ _ _ _ _ _ hp.2 hw
  have hother : ∀ n, F + 1 ≤ n → n < E.length → ref n ≠ ref F := fun n hn hnE he => by
    have := hf.distinct n F (by omega) hnE (Nat.le_refl F) hF he
    omega
  refine ⟨hf.queue, ?_, hkeep _ _ _ ⟨hqr, by simp⟩ hf.back, hkeep _ _ _ ⟨hqr, by simp⟩ hf.capacity,
    fun i hi => ?_, hF, by omega, fun n hn hnE => ?_, fun n v hn hv => ?_,
    fun n m hn hnE hm hmE => hf.distinct n m (by omega) hnE (by omega) hmE, fun o => ?_,
    fun n hn hnE => hf.apart n (by omega) hnE⟩
  · rw [Heap.get_congr (Function.update_of_ne hqr _ _), counter_succ]
    exact Heap.get_put_self _ _ hf.front
  · obtain ⟨o, ho⟩ := hf.slots i hi
    exact ⟨o, hkeep _ _ _ ⟨hqr, by simp⟩ ho⟩
  · exact hkeep _ _ _ ⟨hqr, by simp⟩ (hf.held n (by omega) hnE)
  · have hnE := (List.getElem?_eq_some_iff.mp hv).1
    obtain ⟨h₁, h₂⟩ := hf.entry n v (by omega) hv
    exact ⟨h₁, hkeep _ _ _ ⟨hother n hn hnE, by simp⟩ h₂⟩
  · rw [entryLive_free, entryLive_put, hf.owned]
    constructor
    · rintro ⟨ho | ⟨n, hn, hnE, rfl⟩, hne⟩
      · exact Or.inl ho
      · have hnF : n ≠ F := fun hnF => hne (hnF ▸ rfl)
        exact Or.inr ⟨n, by omega, hnE, rfl⟩
    · rintro (ho | ⟨n, hn, hnE, rfl⟩)
      · exact ⟨Or.inl ho, fun he => hf.apart F (Nat.le_refl F) hF (he ▸ ho)⟩
      · exact ⟨Or.inr ⟨n, by omega, hnE, rfl⟩, hother n hn hnE⟩

end RtsCache.QueueInvariant
