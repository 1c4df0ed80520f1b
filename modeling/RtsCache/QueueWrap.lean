import RtsCache.QueueRuns
import RtsCache.UndoQuiet
import Mathlib.Data.Nat.Prime.Basic
import Mathlib.Order.Interval.Finset.Nat

/-!
# The queue across the wrap of its counters

An entry sits in the slot of its counter modulo the capacity. Past 2^64 the
slots go on in turn only when the capacity divides 2^64. For any other capacity
entry number 2^64 goes to slot 0, where an older entry may still wait.
-/

set_option autoImplicit false

namespace RtsCache.QueueWrap
open RtsCache.UndoHeap RtsCache.UndoMachine RtsCache.UndoRules RtsCache.UndoQuiet
open RtsCache.PoolLayout RtsCache.QueueMachine RtsCache.QueueInvariant RtsCache.QueueRuns
open RtsCache.RunRefinement

variable {s s₁ : QueueState} {q : PMEMoid} {c : UInt64} {F : ℕ} {L : List Int64}
  {ref : ℕ → PMEMoid} {h : QueuePool} {xs : List (QueueOp × ℤ)}

/-- The slots between the counters hold the stored values, oldest first. -/
def ShowsStored (q : PMEMoid) (c : UInt64) (xs : List (QueueOp × ℤ)) (h : QueuePool) : Prop :=
  ∃ front back : UInt64, h.get q .front = some front ∧ h.get q .back = some back ∧
    windowValues h q front back c = (stored xs).map some

theorem windowValues_head {front back : UInt64} (hpos : 0 < (back - front).toNat) :
    (windowValues h q front back c)[0]? =
      some ((h.get q (.entries (front % c).toNat)).bind fun o => h.get o .value) := by
  obtain ⟨k, hk⟩ := Nat.exists_eq_succ_of_ne_zero hpos.ne'
  have hfront : front + UInt64.ofNat 0 = front := UInt64.add_zero front
  rw [windowValues, windowRefs, hk, List.range_succ_eq_map, List.map_cons, List.map_cons,
    List.getElem?_cons_zero, hfront]
  rfl

/-- The slot of the oldest stored entry holds the newest one instead. -/
def Overwritten (q : PMEMoid) (c : UInt64) (xs : List (QueueOp × ℤ)) (h : QueuePool) : Prop :=
  ∃ (front : UInt64) (e : PMEMoid) (v w : Int64), h.get q .front = some front ∧
    h.get q (.entries (front % c).toNat) = some e ∧ h.get e .value = some v ∧
    (stored xs).getLast? = some v ∧ (stored xs).head? = some w ∧ w ≠ v

theorem not_shows_overwritten (ho : Overwritten q c xs h) : ¬ ShowsStored q c xs h := by
  obtain ⟨front, e, v, w, hfront, hslot, hv, -, hhead, hne⟩ := ho
  rintro ⟨front', back, hfront', -, hw⟩
  cases hfront.symm.trans hfront'
  have hlen := congrArg List.length hw
  rw [windowValues, windowRefs, List.length_map, List.length_map, List.length_range,
    List.length_map] at hlen
  have hpos : 0 < (stored xs).length := List.length_pos_of_mem (List.mem_of_mem_head? hhead)
  have hnew := windowValues_head (h := h) (q := q) (c := c) (hlen ▸ hpos)
  have hold : ((stored xs).map some)[0]? = some (some w) := by
    rw [List.getElem?_map, ← List.head?_eq_getElem?, hhead]
    rfl
  rw [hw, hold, hslot] at hnew
  have hvw : some w = some v := (Option.some.inj hnew).trans hv
  exact hne (Option.some.inj hvw)

section Before
variable {h₀ : QueuePool}

/-- The counters may reach 2^64; only a later enqueue meets the wrap. -/
theorem fifo_run_upto (hl : s₁.log = none) (hf : Fifo h₀ s₁.heap q c 0 [] ref)
    (hrun : Run (QueueCall q) s₁ xs s)
    (hred : (∃ k, c.toNat = 2^k) ∨ (enqueued xs).length ≤ 2^64) :
    s.log = none ∧ ∃ ref', Fifo h₀ s.heap q c (dequeued xs) (enqueued xs) ref' := by
  induction hrun with
  | nil => exact ⟨hl, ref, hf⟩
  | @snoc xs s s' o r _ hlast ih =>
    have hle : (enqueued xs).length ≤ (enqueued (xs ++ [(o, r)])).length := by
      simp [enqueued]
    obtain ⟨hl', ref', hf'⟩ := ih (hred.imp_right hle.trans)
    apply fifo_call_of hl' hf' _ _ hlast
    · rintro data rfl rfl
      have hlen : (enqueued (xs ++ [(.enqueue data, 0)])).length = (enqueued xs).length + 1 := by
        simp [enqueued]
      apply hred.imp_right
      intro hb
      omega
    · intro hlt
      apply hred.imp_right
      intro hb
      omega

theorem shows_stored (hf : Fifo h₀ s.heap q c (dequeued xs) (enqueued xs) ref)
    (hred : (∃ k, c.toNat = 2^k) ∨ (enqueued xs).length ≤ 2^64) :
    ShowsStored q c xs s.heap := by
  have hall : ∀ n, n < (enqueued xs).length → Reducible c n := fun n hn =>
    hred.imp_right hn.trans_le
  exact ⟨_, _, hf.front, hf.back, windowValues_eq_of hf hall⟩

end Before

section Room

def place (i : ℕ) : PMEMoid := ⟨1, UInt64.ofNat (2^35 + 64 * i)⟩

theorem place_off {i : ℕ} (hi : i < 2^32) : (place i).off.toNat = 2^35 + 64 * i := by
  rw [place, UInt64.toNat_ofNat', Nat.mod_eq_of_lt (by omega)]

theorem place_isNull {i : ℕ} (hi : i < 2^32) : (place i).isNull = false := by
  have hoff := place_off hi
  have hne : (place i).off ≠ 0 := by
    intro h
    rw [h, UInt64.toNat_zero] at hoff
    omega
  simpa [PMEMoid.isNull] using hne

theorem place_inj {i j : ℕ} (hi : i < 2^32) (hj : j < 2^32) (h : place i = place j) : i = j := by
  have := congrArg (fun o : PMEMoid => o.off.toNat) h
  simp only [place_off hi, place_off hj] at this
  omega

theorem exists_place (hf : Fifo (fun _ => none) h q c F L ref) (ht : Tidy q h)
    (hlt : L.length < F + c.toNat) (hc : c.toNat < 2^31) :
    ∃ i, i < 2^32 ∧ h (place i) = none := by
  let taken : Finset PMEMoid := insert q ((Finset.Ico F L.length).image ref)
  let places : Finset PMEMoid := (Finset.range (c.toNat + 1)).image place
  have hstart := hf.started
  have htaken : taken.card ≤ L.length - F + 1 := by
    calc taken.card ≤ ((Finset.Ico F L.length).image ref).card + 1 := Finset.card_insert_le ..
      _ ≤ (Finset.Ico F L.length).card + 1 := Nat.add_le_add_right Finset.card_image_le 1
      _ = L.length - F + 1 := by rw [Nat.card_Ico]
  have hplaces : places.card = c.toNat + 1 := by
    rw [Finset.card_image_of_injOn, Finset.card_range]
    intro i hi j hj he
    rw [Finset.mem_coe, Finset.mem_range] at hi hj
    exact place_inj (by omega) (by omega) he
  obtain ⟨e, he, hfree⟩ := Finset.exists_mem_notMem_of_card_lt_card (show taken.card < places.card
    by omega)
  obtain ⟨i, hi, rfl⟩ := Finset.mem_image.mp he
  rw [Finset.mem_range] at hi
  refine ⟨i, by omega, ?_⟩
  cases ho : h (place i) with
  | none => rfl
  | some obj =>
    exfalso
    apply hfree
    rw [Finset.mem_insert, Finset.mem_image]
    rcases ht _ obj ho with hq | hk
    · exact Or.inl hq
    · rcases (hf.owned (place i)).mp ⟨obj, ho, hk⟩ with ⟨_, hnone, -⟩ | ⟨n, hF, hn, href⟩
      · cases hnone
      · exact Or.inr ⟨n, Finset.mem_Ico.mpr ⟨hF, hn⟩, href⟩

end Room

section Serving

def servingEnv (e : PMEMoid) : QueueEnv where
  fails _ := false
  crashes _ := false
  place _ := e
  junk _ := Layout.zero
  fuel := 0

theorem servingEnv_quiet (e : PMEMoid) : Quiet (servingEnv e) := ⟨fun _ => rfl, fun _ => rfl⟩

variable {e : PMEMoid}

/-- A queue alone in its pool with its entries. -/
structure Serving (q : PMEMoid) (c : UInt64) (F : ℕ) (L : List Int64) (ref : ℕ → PMEMoid)
    (s : QueueState) : Prop where
  log : s.log = none
  tidy : Tidy q s.heap
  fifo : Fifo (fun _ => none) s.heap q c F L ref

theorem enqueue_returns (hs : Serving q c F L ref s) (hlt : L.length < F + c.toNat)
    (hc : c.toNat < 2^31) (v : Int64) :
    ∃ s', QueueCall q s (.enqueue v) 0 s' ∧ s'.log = none ∧ Tidy q s'.heap ∧
      EnqueuedAt q (UInt64.ofNat L.length % c).toNat (UInt64.ofNat L.length + 1) v s.heap
        s'.heap := by
  have hstart := hs.fifo.started
  obtain ⟨i, hi, hfree⟩ := exists_place hs.fifo hs.tidy hlt hc
  have hpos : (UInt64.ofNat L.length % c).toNat < c.toNat := by
    rw [UInt64.toNat_mod]
    exact Nat.mod_lt _ (by omega)
  obtain ⟨o, ho⟩ := hs.fifo.slots _ hpos
  have h : wp (servingEnv (place i)) (queueEnqueue q v) (fun r s' => r = 0 ∧ s'.log = none ∧
      Tidy q s'.heap ∧ EnqueuedAt q (UInt64.ofNat L.length % c).toNat
        (UInt64.ofNat L.length + 1) v s.heap s'.heap) (fun _ _ => False) s := by
    apply wp_queueEnqueue_enter hs.fifo
    · intro hfull
      omega
    · intro _
      have hserves : Serves (servingEnv (place i)) s 4 4 := (servingEnv_quiet _).serves 4 4
      have hoffers : Offers (servingEnv (place i)) s 2 := ⟨place_isNull hi, hfree⟩
      apply wp_transaction_calm hs.log hserves.first
        (wp_enqueueBody_at (s := s.tick.opened) rfl hs.fifo.back ho)
      · apply calm_enqueueBody hserves.enter hoffers.enter
        intro l hl
        cases hl
        rfl
      · intro _ s' hbody htidy
        exact ⟨rfl, rfl, htidy hs.tidy, hbody.2⟩
  obtain ⟨r, s', hok, rfl, hrest⟩ := wp_returns h
  exact ⟨s', ⟨_, hok⟩, hrest⟩

theorem enqueue_serves (hs : Serving q c F L ref s) (hlt : L.length < F + c.toNat)
    (hc : c.toNat < 2^31) (hB : L.length < 2^64) (v : Int64) :
    ∃ s' ref', QueueCall q s (.enqueue v) 0 s' ∧ Serving q c F (L ++ [v]) ref' s' := by
  obtain ⟨s', hcall, hlog, htidy, e, cells, he, hnull, heap⟩ := enqueue_returns hs hlt hc v
  rw [counter_mod (Or.inr hB)] at heap
  exact ⟨s', _, hcall, hlog, htidy, heap ▸ fifo_enqueue v cells hs.fifo hlt he hnull⟩

theorem dequeue_serves (hs : Serving q c F L ref s) (hlt : F < L.length) (hF : F < 2^64) :
    ∃ s', QueueCall q s .dequeue 0 s' ∧ Serving q c (F + 1) L ref s' := by
  have h : wp (servingEnv oidNull) (queueDequeue q)
      (fun r s' => r = 0 ∧ Serving q c (F + 1) L ref s') (fun _ _ => False) s := by
    apply wp_queueDequeue_enter hs.fifo
    · intro hempty
      omega
    · intro _
      rw [counter_mod (Or.inr hF)]
      have hserves : Serves (servingEnv oidNull) s 3 2 := (servingEnv_quiet _).serves 3 2
      apply wp_transaction_calm hs.log hserves.first
        (wp_dequeueBody (s := s.tick.opened) rfl hs.fifo hlt) (calm_dequeueBody hserves.enter)
      intro _ s' hbody htidy
      exact ⟨rfl, rfl, htidy hs.tidy, hbody.2⟩
  obtain ⟨r, s', hok, rfl, hrest⟩ := wp_returns h
  exact ⟨s', ⟨_, hok⟩, hrest⟩

end Serving

section Beyond

theorem enqueued_snoc (v : Int64) : enqueued (xs ++ [(.enqueue v, 0)]) = enqueued xs ++ [v] := by
  simp [enqueued]

theorem dequeued_enqueue (v : Int64) (r : ℤ) :
    dequeued (xs ++ [(.enqueue v, r)]) = dequeued xs := by
  simp [dequeued]

theorem enqueued_dequeue (r : ℤ) : enqueued (xs ++ [(.dequeue, r)]) = enqueued xs := by
  simp [enqueued]

theorem dequeued_snoc : dequeued (xs ++ [(.dequeue, 0)]) = dequeued xs + 1 := by
  simp [dequeued]

def Reaches (q : PMEMoid) (c : UInt64) (s₁ : QueueState) (F B : ℕ) : Prop :=
  ∃ xs s ref, Run (QueueCall q) s₁ xs s ∧ enqueued xs = List.replicate B 0 ∧ dequeued xs = F ∧
    Serving q c F (List.replicate B 0) ref s

theorem Reaches.enqueue {B : ℕ} (hr : Reaches q c s₁ F B) (hlt : B < F + c.toNat)
    (hc : c.toNat < 2^31) (hB : B < 2^64) : Reaches q c s₁ F (B + 1) := by
  obtain ⟨xs, s, ref, hrun, hen, hde, hs⟩ := hr
  have hlen : (List.replicate B (0 : Int64)).length = B := List.length_replicate
  obtain ⟨s', ref', hcall, hs'⟩ := enqueue_serves hs (by omega) hc (by omega) 0
  rw [← List.replicate_succ'] at hs'
  refine ⟨_, s', ref', hrun.snoc hcall, ?_, ?_, hs'⟩
  · rw [enqueued_snoc, hen, ← List.replicate_succ']
  · rw [dequeued_enqueue, hde]

theorem Reaches.dequeue {B : ℕ} (hr : Reaches q c s₁ F B) (hlt : F < B) (hF : F < 2^64) :
    Reaches q c s₁ (F + 1) B := by
  obtain ⟨xs, s, ref, hrun, hen, hde, hs⟩ := hr
  have hlen : (List.replicate B (0 : Int64)).length = B := List.length_replicate
  obtain ⟨s', hcall, hs'⟩ := dequeue_serves hs (by omega) hF
  refine ⟨_, s', ref, hrun.snoc hcall, ?_, ?_, hs'⟩
  · rw [enqueued_dequeue, hen]
  · rw [dequeued_snoc, hde]

theorem reaches_both (h₁ : Reaches q c s₁ 0 0) (hpos : 0 < c.toNat) (hc : c.toNat < 2^31) (n : ℕ)
    (hn : n ≤ 2^64) : Reaches q c s₁ n n := by
  induction n with
  | zero => exact h₁
  | succ n ih =>
    have hone := (ih (by omega)).enqueue (by omega) hc (by omega)
    exact hone.dequeue (by omega) (by omega)

theorem reaches_window (h₁ : Reaches q c s₁ 0 0) (hpos : 0 < c.toNat) (hc : c.toNat < 2^31)
    (n m : ℕ) (hm : m ≤ c.toNat) (hn : n + m ≤ 2^64) : Reaches q c s₁ n (n + m) := by
  induction m with
  | zero => exact reaches_both h₁ hpos hc n hn
  | succ m ih => exact (ih (by omega) (by omega)).enqueue (by omega) hc (by omega)

/-- Entry number 2^64 takes slot 0; the oldest entry waits there when the
window starts at a multiple of the capacity. -/
theorem overwrites {n m : ℕ} (hr : Reaches q c s₁ n (n + m)) (hm : 0 < m) (hlt : m < c.toNat)
    (hc : c.toNat < 2^31) (hn : n + m = 2^64) (hdvd : c.toNat ∣ n) :
    ∃ xs s, Run (QueueCall q) s₁ xs s ∧ (enqueued xs).length = 2^64 + 1 ∧
      Overwritten q c xs s.heap := by
  obtain ⟨xs, s, ref, hrun, hen, hde, hs⟩ := hr
  have hlen : (List.replicate (n + m) (0 : Int64)).length = 2^64 := by
    rw [List.length_replicate, hn]
  obtain ⟨s', hcall, -, -, e, cells, he, -, heap⟩ :=
    enqueue_returns hs (by rw [List.length_replicate]; omega) hc 1
  have hzero : UInt64.ofNat (2^64) = 0 := rfl
  rw [hlen, hzero, UInt64.zero_mod, UInt64.toNat_zero, UInt64.zero_add] at heap
  have hqe : q ≠ e := Heap.ne_of_free he hs.fifo.front
  have hkeep := enqueuedHeap_keeps cells 0 1 1 q he
  obtain ⟨o, ho⟩ := hs.fifo.slots 0 (by omega)
  have hslot : (UInt64.ofNat n % c).toNat = 0 := by
    rw [counter_mod (Or.inr (by omega))]
    exact Nat.mod_eq_zero_of_dvd hdvd
  -- the zeros that wait, and behind them the entry of value 1
  have hstored : stored (xs ++ [(.enqueue 1, 0)]) = List.replicate m 0 ++ [1] := by
    rw [stored, enqueued_snoc, dequeued_enqueue, hen, hde, List.drop_append_of_le_length (by simp),
      List.drop_replicate, Nat.add_sub_cancel_left]
  refine ⟨_, s', hrun.snoc hcall, ?_, UInt64.ofNat n, e, 1, 0, ?_, ?_, ?_, ?_, ?_, by decide⟩
  · rw [enqueued_snoc, hen, List.length_append, hlen]
    rfl
  · rw [heap]
    exact hkeep _ _ _ (by simp) hs.fifo.front
  · rw [hslot, heap]
    exact enqueuedHeap_slot cells 1 1 hqe ho
  · rw [heap]
    exact enqueuedHeap_value cells 0 1 1 hqe
  · rw [hstored, List.getLast?_concat]
  · obtain ⟨k, rfl⟩ := Nat.exists_eq_succ_of_ne_zero hm.ne'
    rw [hstored, List.replicate_succ]
    rfl

theorem queueNew_alone (hc : 24 + 16 * c.toNat ≤ pmemobjMaxAllocSize) :
    ∃ q s₁, queueNew c quietQueueEnv emptyQueuePool = .ok (some q) s₁ ∧ Reaches q c s₁ 0 0 := by
  have hmax : pmemobjMaxAllocSize < 2^35 := by decide
  have hsize := queueSize_toNat (c := c) (by omega)
  obtain ⟨s₁, hnew, ht⟩ : ∃ s₁, queueNew c quietQueueEnv emptyQueuePool = .ok (some ⟨1, 4096⟩) s₁ ∧
      Tidy ⟨1, 4096⟩ s₁.heap := by
    have hfits : ¬ Layout.maxAlloc QueueMember < 24 + 16 * c.toNat := Nat.not_lt.mpr hc
    unfold queueNew allocAtomic
    rw [hsize]
    refine ⟨_, if_neg ?_, ?_⟩
    · simp [quietQueueEnv, emptyQueuePool, Handle.isNull, PMEMoid.isNull, hfits]
    · intro o obj ho
      by_cases hoq : o = ⟨1, 4096⟩
      · exact Or.inl hoq
      · have hnone : none = some obj := (Function.update_of_ne hoq _ _).symm.trans ho
        cases hnone
  obtain ⟨hl, hf⟩ := queueNew_fifo hnew (by omega) fun _ => oidNull
  exact ⟨_, s₁, hnew, [], s₁, _, .nil, rfl, rfl, hl, ht, hf⟩

theorem exists_overwritten (hpos : 0 < c.toNat) (hc : 24 + 16 * c.toNat ≤ pmemobjMaxAllocSize)
    (hpow : ¬ ∃ k, c.toNat = 2^k) :
    ∃ q s₁ xs s, queueNew c quietQueueEnv emptyQueuePool = .ok (some q) s₁ ∧
      Run (QueueCall q) s₁ xs s ∧ (enqueued xs).length = 2^64 + 1 ∧
      Overwritten q c xs s.heap := by
  have hmax : pmemobjMaxAllocSize < 2^35 := by decide
  have hmod : 0 < 2^64 % c.toNat := by
    apply Nat.pos_of_ne_zero
    intro hzero
    obtain ⟨k, -, hk⟩ := (Nat.dvd_prime_pow Nat.prime_two).mp (Nat.dvd_of_mod_eq_zero hzero)
    exact hpow ⟨k, hk⟩
  have hlt : 2^64 % c.toNat < c.toNat := Nat.mod_lt _ hpos
  have hle : 2^64 % c.toNat ≤ 2^64 := Nat.mod_le _ _
  have hdvd : c.toNat ∣ 2^64 - 2^64 % c.toNat := Nat.dvd_sub_mod _
  obtain ⟨q, s₁, hnew, h₁⟩ := queueNew_alone hc
  have hr := reaches_window h₁ hpos (by omega) (2^64 - 2^64 % c.toNat) (2^64 % c.toNat) hlt.le
    (by omega)
  obtain ⟨xs, s, hrun, hlen, hbad⟩ := overwrites hr hmod hlt (by omega) (by omega) hdvd
  exact ⟨q, s₁, xs, s, hnew, hrun, hlen, hbad⟩

/-- Every run of at most `N` successful enqueues shows what is stored exactly
when the capacity is a power of two or the counters do not wrap; otherwise the
newest entry can get into the slot of the oldest. -/
theorem shows_stored_iff (c : UInt64) (N : ℕ) (hpos : 0 < c.toNat)
    (hc : 24 + 16 * c.toNat ≤ pmemobjMaxAllocSize) :
    ((∀ (env : QueueEnv) (s₀ s₁ s : QueueState) (q : PMEMoid) (xs : List (QueueOp × ℤ)),
      queueNew c env s₀ = .ok (some q) s₁ → Run (QueueCall q) s₁ xs s →
      (enqueued xs).length ≤ N → ShowsStored q c xs s.heap) ↔
    (∃ k, c.toNat = 2^k) ∨ N ≤ 2^64) ∧
    ((¬ ∃ k, c.toNat = 2^k) → ∃ q s₁ xs s,
      queueNew c quietQueueEnv emptyQueuePool = .ok (some q) s₁ ∧ Run (QueueCall q) s₁ xs s ∧
      (enqueued xs).length = 2^64 + 1 ∧ Overwritten q c xs s.heap) := by
  have hmax : pmemobjMaxAllocSize < 2^35 := by decide
  refine ⟨⟨?_, ?_⟩, exists_overwritten hpos hc⟩
  · intro hall
    by_contra hno
    rw [not_or, Nat.not_le] at hno
    obtain ⟨q, s₁, xs, s, hnew, hrun, hlen, hbad⟩ := exists_overwritten hpos hc hno.1
    exact not_shows_overwritten hbad (hall _ _ s₁ s q xs hnew hrun (by omega))
  · intro hgood env s₀ s₁ s q xs hnew hrun hN
    obtain ⟨hl, hf⟩ := queueNew_fifo hnew (by omega) fun _ => oidNull
    have hred := hgood.imp_right hN.trans
    obtain ⟨-, ref, hf'⟩ := fifo_run_upto hl hf hrun hred
    exact shows_stored hf' hred

theorem shows_stored_iff_three :
    (¬ ∀ (env : QueueEnv) (s₀ s₁ s : QueueState) (q : PMEMoid) (xs : List (QueueOp × ℤ)),
      queueNew 3 env s₀ = .ok (some q) s₁ → Run (QueueCall q) s₁ xs s →
      (enqueued xs).length ≤ 2^64 + 1 → ShowsStored q 3 xs s.heap) ∧
    ∃ q s₁ xs s, queueNew 3 quietQueueEnv emptyQueuePool = .ok (some q) s₁ ∧
      Run (QueueCall q) s₁ xs s ∧ (enqueued xs).length = 2^64 + 1 ∧ Overwritten q 3 xs s.heap := by
  have hpow : ¬ ∃ k, (3 : UInt64).toNat = 2^k := by
    rintro ⟨k, hk⟩
    have hdvd : 3 ∣ 2^k := ⟨1, hk.symm⟩
    exact absurd (Nat.prime_three.dvd_of_dvd_pow hdvd) (by decide)
  obtain ⟨hiff, hbad⟩ := shows_stored_iff 3 (2^64 + 1) (by decide) (by decide)
  constructor
  · intro hall
    rcases hiff.mp hall with hk | hN
    · exact hpow hk
    · omega
  · exact hbad hpow

end Beyond

end RtsCache.QueueWrap
