import RtsCache.QueueInvariant
import RtsCache.RunRefinement
import RtsCache.UndoQuiet
import Mathlib.Data.List.Count
import Mathlib.Data.List.Nodup

/-!
# Runs of the queue

Every call of a run has its own environment, so each transaction may commit or
abort at any of its library calls and stores. The queue holds the values of the
successful enqueues that no successful dequeue has removed, in their order.
-/

set_option autoImplicit false

namespace RtsCache.QueueRuns
open RtsCache.UndoHeap RtsCache.UndoMachine RtsCache.UndoRules RtsCache.PoolLayout
open RtsCache.QueueMachine RtsCache.QueueInvariant RtsCache.RunRefinement RtsCache.UndoQuiet

section Calls
variable {env : QueueEnv} {s : QueueState} {h₀ : QueuePool} {q : PMEMoid} {c : UInt64} {F : ℕ}
  {L : List Int64} {ref : ℕ → PMEMoid} {E : Cause → QueueState → Prop}

def BodyAborts (s : QueueState) (_ : Cause) (s' : QueueState) : Prop :=
  Confined (I := PMEMoid) (F := QueueMember) AnyQueueKind s s'

def EnqueuedAt (q : PMEMoid) (pos : ℕ) (back : UInt64) (v : Int64) (h h' : QueuePool) : Prop :=
  ∃ (e : PMEMoid) (cells : (m : QueueMember) → m.ty), h e = none ∧ e.isNull = false ∧
    h' = enqueuedHeap h q e ⟨.queueEntry, 8, cells⟩ pos back v

theorem wp_enqueueBody_at {v : Int64} {pos : ℕ} {back : UInt64} {o : PMEMoid} (hl : s.log.isSome)
    (hback : s.heap.get q .back = some back) (ho : s.heap.get q (.entries pos) = some o) :
    wp env (enqueueBody q pos v)
      (fun _ s' => Confined (I := PMEMoid) (F := QueueMember) AnyQueueKind s s' ∧
        EnqueuedAt q pos (back + 1) v s.heap s'.heap) (BodyAborts s) s := by
  rw [enqueueBody, wp_bind]
  apply wp_txAddDirect hl hback (fun c s' h => h)
  intro s₁ h₁ e₁ c₁
  have hback₁ : s₁.heap.get q .back = some back := e₁ ▸ hback
  rw [wp_bind, wp_read hback₁, wp_bind]
  apply wp_write hback₁ c₁ (fun c s' h => h₁.trans h)
  intro s₂ h₂ e₂
  have h₁₂ := h₁.trans h₂
  rw [e₁] at e₂
  rw [wp_bind]
  apply wp_txAllocWith (K := AnyQueueKind) (h₁₂.inTx ▸ hl) trivial (fun c s' h _ => h₁₂.trans h)
  intro e s₃ h₃ hfree hnull _ e₃ c₃ _
  have h₁₃ := h₁₂.trans h₃
  rw [e₂] at e₃ hfree
  have he : s.heap e = none := Heap.put_eq_none.mp hfree
  have hval₃ : s₃.heap.get e .value = some (env.junk s₂.calls .value) := by
    rw [e₃]
    exact Heap.get_eq_some.mpr ⟨_, Function.update_self .., ⟨rfl, Nat.le_refl 8⟩, rfl⟩
  rw [wp_bind]
  apply wp_write hval₃ (c₃ _) (fun c s' h => h₁₃.trans h)
  intro s₄ h₄ e₄
  have h₁₄ := h₁₃.trans h₄
  have hqe : q ≠ e := Heap.ne_of_free he ho
  have hslot₄ : s₄.heap.get q (.entries pos) = some o := by
    rw [e₄, Heap.get_put_of_ne _ _ _ _ hqe, e₃, Heap.get_congr (Function.update_of_ne hqe _ _),
      Heap.get_put_other _ _ _ _ (by simp)]
    exact ho
  rw [wp_bind]
  apply wp_txAddDirect (h₁₄.inTx ▸ hl) hslot₄ (fun c s' h => h₁₄.trans h)
  intro s₅ h₅ e₅ c₅
  have h₁₅ := h₁₄.trans h₅
  apply wp_write (e₅ ▸ hslot₄) c₅ (fun c s' h => h₁₅.trans h)
  intro s₆ h₆ e₆
  refine ⟨h₁₅.trans h₆, e, env.junk s₂.calls, he, hnull, ?_⟩
  rw [e₆, e₅, e₄, e₃]
  rfl

theorem wp_enqueueBody {v : Int64} (hl : s.log.isSome) (hf : Fifo h₀ s.heap q c F L ref)
    (hfull : L.length < F + c.toNat) :
    wp env (enqueueBody q (L.length % c.toNat) v)
      (fun _ s' => Confined (I := PMEMoid) (F := QueueMember) AnyQueueKind s s' ∧
        ∃ ref', Fifo h₀ s'.heap q c F (L ++ [v]) ref') (BodyAborts s) s := by
  have hstart := hf.started
  obtain ⟨o, ho⟩ := hf.slots (L.length % c.toNat) (Nat.mod_lt _ (by omega))
  refine wp_mono (wp_enqueueBody_at hl hf.back ho) ?_ fun c s' h => h
  rintro _ s' ⟨hconf, e, cells, he, hnull, heap⟩
  have := fifo_enqueue v cells hf hfull he hnull
  exact ⟨hconf, Function.update ref L.length e, heap ▸ this⟩

theorem wp_dequeueBody (hl : s.log.isSome) (hf : Fifo h₀ s.heap q c F L ref)
    (hF : F < L.length) :
    wp env (dequeueBody q (F % c.toNat))
      (fun _ s' => Confined (I := PMEMoid) (F := QueueMember) AnyQueueKind s s' ∧
        Fifo h₀ s'.heap q c (F + 1) L ref) (BodyAborts s) s := by
  rw [dequeueBody, wp_bind]
  apply wp_txAddDirect hl hf.front (fun c s' h => h)
  intro s₁ h₁ e₁ c₁
  have hfront₁ : s₁.heap.get q .front = some (UInt64.ofNat F) := e₁ ▸ hf.front
  rw [wp_bind, wp_read hfront₁, wp_bind]
  apply wp_write hfront₁ c₁ (fun c s' h => h₁.trans h)
  intro s₂ h₂ e₂
  have h₁₂ := h₁.trans h₂
  rw [e₁] at e₂
  have hslot₂ : s₂.heap.get q (.entries (F % c.toNat)) = some (ref F) := by
    rw [e₂, Heap.get_put_other _ _ _ _ (by simp)]
    exact hf.held F (Nat.le_refl F) hF
  obtain ⟨hnull, hv⟩ := hf.entry F _ (Nat.le_refl F) (List.getElem?_eq_getElem hF)
  have hval₂ : s₂.heap.get (ref F) .value = some L[F] := by
    rw [e₂, Heap.get_put_other _ _ _ _ (by simp)]
    exact hv
  obtain ⟨obj, hobj, -⟩ := Heap.live_of_get hval₂
  rw [wp_bind, wp_read hslot₂]
  apply wp_txFree (K := AnyQueueKind) (h₁₂.inTx ▸ hl) hnull hobj trivial
    (fun c s' h _ => h₁₂.trans h)
  intro s₃ h₃ e₃ _
  refine ⟨h₁₂.trans h₃, ?_⟩
  rw [e₃, e₂]
  exact fifo_dequeue hf hF

/-- What the transaction of an enqueue asks of the environment. -/
structure EnqueueServed (env : QueueEnv) (s : QueueState) : Prop where
  serves : Serves env s 4 4
  offers : Offers env s 2

def DequeueServed (env : QueueEnv) (s : QueueState) : Prop := Serves env s 3 2

theorem calm_enqueueBody {pos : ℕ} {v : Int64} (hs : Serves env s 3 4) (ho : Offers env s 1)
    (hfreed : ∀ l, s.log = some l → l.freed (env.place (s.calls + 1)) = none) :
    calm env (enqueueBody q pos v) (fun _ s' => env.crashes s'.stores = false ∧
      (Tidy q s.heap → Tidy q s'.heap)) s := by
  rw [enqueueBody, calm_bind]
  apply calm_txAdd (hs.calls 0 (by decide))
  intro l obj hl
  rw [calm_bind]
  apply calm_load
  intro back
  rw [calm_bind]
  apply calm_store
  · exact hs.stores 0 (by decide)
  rw [calm_bind]
  apply calm_txAllocWith
  · exact hs.calls 1 (by decide)
  · exact ho.notNull
  · exact Heap.put_eq_none.mpr ho.free
  · intro l' hl'
    cases hl'
    exact hfreed l hl
  · decide
  intro l' _
  rw [calm_bind]
  apply calm_store
  · exact hs.stores 1 (by decide)
  rw [calm_bind]
  apply calm_txAdd
  · exact hs.calls 2 (by decide)
  intro l'' obj' _
  apply calm_store
  · exact hs.stores 2 (by decide)
  constructor
  · exact hs.stores 3 (by decide)
  · intro ht
    exact (((ht.put _ _ _).alloc _ rfl).put _ _ _).put _ _ _

theorem calm_dequeueBody {pos : ℕ} (hs : Serves env s 2 2) :
    calm env (dequeueBody q pos) (fun _ s' => env.crashes s'.stores = false ∧
      (Tidy q s.heap → Tidy q s'.heap)) s := by
  rw [dequeueBody, calm_bind]
  apply calm_txAdd (hs.calls 0 (by decide))
  intro l obj _
  rw [calm_bind]
  apply calm_load
  intro front
  rw [calm_bind]
  apply calm_store
  · exact hs.stores 0 (by decide)
  rw [calm_bind]
  apply calm_load
  intro entry
  apply calm_txFree
  · exact hs.calls 1 (by decide)
  · exact ⟨hs.stores 1 (by decide), fun ht => ht.put _ _ _⟩
  · intro l' obj' _
    exact ⟨hs.stores 1 (by decide), fun ht => (ht.put _ _ _).free _⟩

theorem wp_queueSize {Q : UInt64 → QueueState → Prop} (hf : Fifo h₀ s.heap q c F L ref)
    (hQ : Q (UInt64.ofNat L.length - UInt64.ofNat F) s) : wp env (queueSize q) Q E s := by
  rw [queueSize, wp_bind, wp_read hf.back, wp_bind, wp_read hf.front]
  exact hQ

theorem wp_queueEnqueue_enter {v : Int64} {Q : ℤ → QueueState → Prop}
    (hf : Fifo h₀ s.heap q c F L ref) (hfull : L.length = F + c.toNat → Q (-1) s)
    (hbody : L.length < F + c.toNat →
      wp env (transaction (enqueueBody q (UInt64.ofNat L.length % c).toNat v))
        (fun r s' => Q (if r.isSome then 0 else -1) s') E s) :
    wp env (queueEnqueue q v) Q E s := by
  have hstart := hf.started
  have hbound := hf.bounded
  have hsize := hf.size_toNat
  have hiff : UInt64.ofNat L.length - UInt64.ofNat F = c ↔ L.length = F + c.toNat := by
    rw [← UInt64.toNat_inj, hsize]
    omega
  rw [queueEnqueue, if_neg (by simp [hf.queue]), wp_bind]
  apply wp_queueSize hf
  rw [wp_bind, wp_read hf.capacity]
  by_cases hf' : L.length = F + c.toNat
  · rw [if_pos (hiff.mpr hf')]
    exact hfull hf'
  · have hlt : L.length < F + c.toNat := by omega
    have hc : c ≠ 0 := by
      rintro rfl
      simp at hlt
      omega
    rw [if_neg fun h => hf' (hiff.mp h), wp_bind, wp_read hf.back, if_neg hc, wp_bind]
    refine wp_mono (hbody hlt) ?_ fun _ _ h => h
    intro r s' h
    cases r with
    | none => exact h
    | some _ => exact h

theorem wp_queueEnqueue {v : Int64} {Q : ℤ → QueueState → Prop} (hl : s.log = none)
    (hf : Fifo h₀ s.heap q c F L ref) (hred : Reducible c L.length)
    (hfull : L.length = F + c.toNat → Q (-1) s)
    (habort : ∀ s', L.length < F + c.toNat → Aborted s s' → ¬ EnqueueServed env s → Q (-1) s')
    (hdone : ∀ s', L.length < F + c.toNat → Committed s s' →
      (∃ ref', Fifo h₀ s'.heap q c F (L ++ [v]) ref') → Q 0 s') :
    wp env (queueEnqueue q v) Q E s := by
  apply wp_queueEnqueue_enter hf hfull
  intro hlt
  rw [counter_mod hred]
  apply wp_transaction_served (K := AnyQueueKind) (S := EnqueueServed env s)
    (R := fun _ h => ∃ ref', Fifo h₀ h q c F (L ++ [v]) ref') hl
    (wp_enqueueBody (s := s.tick.opened) rfl hf hlt)
  · intro hs
    exact hs.serves.first
  · intro hs
    apply calm_mono (calm_enqueueBody hs.serves.enter hs.offers.enter _)
    · intro _ _ h
      exact h.1
    · intro l hl
      cases hl
      rfl
  · intro s' ha hno
    exact habort s' hlt ha hno
  · intro _ s' hc' hr
    exact hdone s' hlt hc' hr

theorem wp_queueDequeue_enter {Q : ℤ → QueueState → Prop} (hf : Fifo h₀ s.heap q c F L ref)
    (hempty : L.length = F → Q (-1) s)
    (hbody : F < L.length → wp env (transaction (dequeueBody q (UInt64.ofNat F % c).toNat))
      (fun r s' => Q (if r.isSome then 0 else -1) s') E s) :
    wp env (queueDequeue q) Q E s := by
  have hstart := hf.started
  have hbound := hf.bounded
  have hsize := hf.size_toNat
  have hiff : UInt64.ofNat L.length - UInt64.ofNat F = 0 ↔ L.length = F := by
    rw [← UInt64.toNat_inj, hsize, UInt64.toNat_zero]
    omega
  rw [queueDequeue, if_neg (by simp [hf.queue]), wp_bind]
  apply wp_queueSize hf
  by_cases he : L.length = F
  · rw [if_pos (hiff.mpr he)]
    exact hempty he
  · have hlt : F < L.length := by omega
    have hc : c ≠ 0 := by
      rintro rfl
      simp at hbound
      omega
    rw [if_neg fun h => he (hiff.mp h), wp_bind, wp_read hf.front, wp_bind, wp_read hf.capacity,
      if_neg hc, wp_bind]
    refine wp_mono (hbody hlt) ?_ fun _ _ h => h
    intro r s' h
    cases r with
    | none => exact h
    | some _ => exact h

theorem wp_queueDequeue {Q : ℤ → QueueState → Prop} (hl : s.log = none)
    (hf : Fifo h₀ s.heap q c F L ref) (hred : Reducible c F)
    (hempty : L.length = F → Q (-1) s)
    (habort : ∀ s', F < L.length → Aborted s s' → ¬ DequeueServed env s → Q (-1) s')
    (hdone : ∀ s', F < L.length → Committed s s' → Fifo h₀ s'.heap q c (F + 1) L ref → Q 0 s') :
    wp env (queueDequeue q) Q E s := by
  apply wp_queueDequeue_enter hf hempty
  intro hlt
  rw [counter_mod hred]
  apply wp_transaction_served (K := AnyQueueKind) (S := DequeueServed env s)
    (R := fun _ h => Fifo h₀ h q c (F + 1) L ref) hl
    (wp_dequeueBody (s := s.tick.opened) rfl hf hlt)
  · intro hs
    exact hs.first
  · intro hs
    apply calm_mono (calm_dequeueBody hs.enter)
    intro _ _ h
    exact h.1
  · intro s' ha hno
    exact habort s' hlt ha hno
  · intro _ s' hc' hr
    exact hdone s' hlt hc' hr

end Calls

inductive QueueOp where
  | enqueue (data : Int64)
  | dequeue

def queueStep (q : PMEMoid) : QueueOp → QueueProg ℤ
  | .enqueue data => queueEnqueue q data
  | .dequeue => queueDequeue q

def QueueCall (q : PMEMoid) (s : QueueState) (o : QueueOp) (r : ℤ) (s' : QueueState) : Prop :=
  ∃ env : QueueEnv, queueStep q o env s = .ok r s'

/-- The values whose enqueue returned 0, oldest first. -/
def enqueued (xs : List (QueueOp × ℤ)) : List Int64 :=
  xs.filterMap fun
    | (.enqueue data, r) => if r = 0 then some data else none
    | (.dequeue, _) => none

def dequeued (xs : List (QueueOp × ℤ)) : ℕ :=
  xs.countP fun
    | (.enqueue _, _) => false
    | (.dequeue, r) => r = 0

def stored (xs : List (QueueOp × ℤ)) : List Int64 := (enqueued xs).drop (dequeued xs)

/-- The handles in slots `front`, …, `back-1`, each modulo the capacity. -/
def windowRefs (h : QueuePool) (q : PMEMoid) (front back c : UInt64) : List (Option PMEMoid) :=
  (List.range (back - front).toNat).map fun i =>
    h.get q (.entries ((front + UInt64.ofNat i) % c).toNat)

def windowValues (h : QueuePool) (q : PMEMoid) (front back c : UInt64) : List (Option Int64) :=
  (windowRefs h q front back c).map fun o => o.bind fun o => h.get o .value

section Runs
variable {env : QueueEnv} {s₀ s₁ s : QueueState} {q : PMEMoid} {c : UInt64}
  {xs : List (QueueOp × ℤ)} {F : ℕ} {L : List Int64} {ref : ℕ → PMEMoid} {h₀ : QueuePool}

theorem queueSize_toNat (hc : 24 + 16 * c.toNat < 2^64) :
    (sizeofQueue + QueueMachine.sizeofToid * c).toNat = 24 + 16 * c.toNat := by
  simp only [sizeofQueue, QueueMachine.sizeofToid, UInt64.toNat_add, UInt64.toNat_mul,
    UInt64.reduceToNat]
  omega

theorem queueNew_fifo (hnew : queueNew c env s₀ = .ok (some q) s₁)
    (hc : 24 + 16 * c.toNat < 2^64) (ref : ℕ → PMEMoid) :
    s₁.log = none ∧ Fifo s₀.heap s₁.heap q c 0 [] ref := by
  have hsize := queueSize_toNat hc
  unfold queueNew allocAtomic at hnew
  cases hl : s₀.log with
  | some l => simp [hl] at hnew
  | none =>
    simp only [hl] at hnew
    split at hnew
    · cases hnew
    · rename_i hgood
      simp only [not_or, Bool.not_eq_true, Option.isSome_eq_false_iff, Option.isNone_iff_eq_none]
        at hgood
      obtain ⟨-, hn, ho, -⟩ := hgood
      cases hnew
      exact ⟨hl, fifo_new ho hn hsize⟩

theorem wp_enqueue_fifo {data : Int64} (hl : s.log = none)
    (hf : Fifo h₀ s.heap q c (dequeued xs) (enqueued xs) ref) :
    wp env (queueEnqueue q data) (fun r s' => s'.log = none ∧
      ((r = -1 ∧ Fifo h₀ s'.heap q c (dequeued xs) (enqueued xs) ref) ∨
        (r = 0 ∧ (enqueued xs).length < dequeued xs + c.toNat ∧
          EnqueuedAt q (UInt64.ofNat (enqueued xs).length % c).toNat
            (UInt64.ofNat (enqueued xs).length + 1) data s.heap s'.heap)))
      (fun _ _ => False) s := by
  apply wp_queueEnqueue_enter hf
  · intro _
    exact ⟨hl, Or.inl ⟨rfl, hf⟩⟩
  · intro hlt
    obtain ⟨o, ho⟩ := hf.slots (UInt64.ofNat (enqueued xs).length % c).toNat (by
      rw [UInt64.toNat_mod]
      exact Nat.mod_lt _ (by have := hf.started; omega))
    apply wp_transaction_atomic (K := AnyQueueKind)
      (R := fun _ h => EnqueuedAt q (UInt64.ofNat (enqueued xs).length % c).toNat
        (UInt64.ofNat (enqueued xs).length + 1) data s.heap h) hl
      (wp_enqueueBody_at (s := s.tick.opened) rfl hf.back ho)
    · intro s' ha
      exact ⟨ha.log, Or.inl ⟨rfl, ha.heap ▸ hf⟩⟩
    · intro _ s' hc hr
      exact ⟨hc.log, Or.inr ⟨rfl, hlt, hr⟩⟩

theorem wp_dequeue_fifo (hl : s.log = none)
    (hf : Fifo h₀ s.heap q c (dequeued xs) (enqueued xs) ref)
    (hred : dequeued xs < (enqueued xs).length → Reducible c (dequeued xs)) :
    wp env (queueDequeue q) (fun r s' => s'.log = none ∧
      ((r = -1 ∧ Fifo h₀ s'.heap q c (dequeued xs) (enqueued xs) ref) ∨
        (r = 0 ∧ Fifo h₀ s'.heap q c (dequeued xs + 1) (enqueued xs) ref)))
      (fun _ _ => False) s := by
  apply wp_queueDequeue_enter hf
  · intro _
    exact ⟨hl, Or.inl ⟨rfl, hf⟩⟩
  · intro hlt
    rw [counter_mod (hred hlt)]
    apply wp_transaction_atomic (K := AnyQueueKind)
      (R := fun _ h => Fifo h₀ h q c (dequeued xs + 1) (enqueued xs) ref) hl
      (wp_dequeueBody (s := s.tick.opened) rfl hf hlt)
    · intro s' ha
      exact ⟨ha.log, Or.inl ⟨rfl, ha.heap ▸ hf⟩⟩
    · intro _ s' hc hr
      exact ⟨hc.log, Or.inr ⟨rfl, hr⟩⟩

theorem fifo_call_of {o : QueueOp} {r : ℤ} {s' : QueueState} (hl : s.log = none)
    (hf : Fifo h₀ s.heap q c (dequeued xs) (enqueued xs) ref)
    (hen : ∀ data, o = .enqueue data → r = 0 → Reducible c (enqueued xs).length)
    (hde : dequeued xs < (enqueued xs).length → Reducible c (dequeued xs))
    (hcall : QueueCall q s o r s') :
    s'.log = none ∧
      ∃ ref', Fifo h₀ s'.heap q c (dequeued (xs ++ [(o, r)])) (enqueued (xs ++ [(o, r)])) ref' := by
  obtain ⟨env, hok⟩ := hcall
  cases o with
  | enqueue data =>
    have hsame : dequeued (xs ++ [(.enqueue data, r)]) = dequeued xs := by simp [dequeued]
    rw [hsame]
    obtain ⟨hl', ⟨rfl, hf'⟩ | ⟨rfl, hlt, e, cells, he, hnull, heap⟩⟩ :=
      wp_result (wp_enqueue_fifo hl hf) hok
    · have hkeep : enqueued (xs ++ [(.enqueue data, -1)]) = enqueued xs := by simp [enqueued]
      exact ⟨hl', ref, hkeep.symm ▸ hf'⟩
    · have hadd : enqueued (xs ++ [(.enqueue data, 0)]) = enqueued xs ++ [data] := by
        simp [enqueued]
      have hnew := fifo_enqueue data cells hf hlt he hnull
      rw [counter_mod (hen data rfl rfl)] at heap
      exact ⟨hl', _, hadd.symm ▸ heap ▸ hnew⟩
  | dequeue =>
    have hsame : enqueued (xs ++ [(.dequeue, r)]) = enqueued xs := by simp [enqueued]
    rw [hsame]
    obtain ⟨hl', ⟨rfl, hf'⟩ | ⟨rfl, hf'⟩⟩ := wp_result (wp_dequeue_fifo hl hf hde) hok
    · have hkeep : dequeued (xs ++ [(.dequeue, -1)]) = dequeued xs := by simp [dequeued]
      exact ⟨hl', ref, hkeep.symm ▸ hf'⟩
    · have hadd : dequeued (xs ++ [(.dequeue, 0)]) = dequeued xs + 1 := by simp [dequeued]
      exact ⟨hl', ref, hadd.symm ▸ hf'⟩

theorem fifo_call {o : QueueOp} {r : ℤ} {s' : QueueState} (hl : s.log = none)
    (hf : Fifo h₀ s.heap q c (dequeued xs) (enqueued xs) ref)
    (hred : Reducible c (enqueued xs).length) (hcall : QueueCall q s o r s') :
    s'.log = none ∧
      ∃ ref', Fifo h₀ s'.heap q c (dequeued (xs ++ [(o, r)])) (enqueued (xs ++ [(o, r)])) ref' :=
  fifo_call_of hl hf (fun _ _ _ => hred) (fun h => hred.mono h.le) hcall

theorem fifo_run (hl : s₁.log = none) (hf : Fifo h₀ s₁.heap q c 0 [] ref)
    (hrun : Run (QueueCall q) s₁ xs s) (hred : Reducible c (enqueued xs).length) :
    s.log = none ∧ ∃ ref', Fifo h₀ s.heap q c (dequeued xs) (enqueued xs) ref' := by
  induction hrun with
  | nil => exact ⟨hl, ref, hf⟩
  | @snoc xs s s' o r _ hlast ih =>
    have hle : (enqueued xs).length ≤ (enqueued (xs ++ [(o, r)])).length := by
      simp [enqueued]
    have hred' := hred.mono hle
    obtain ⟨hl', ref', hf'⟩ := ih hred'
    exact fifo_call hl' hf' hred' hlast

theorem windowRefs_eq_of (hf : Fifo h₀ s.heap q c F L ref)
    (hred : ∀ n, n < L.length → Reducible c n) :
    windowRefs s.heap q (UInt64.ofNat F) (UInt64.ofNat L.length) c =
      (List.range (L.length - F)).map fun i => some (ref (F + i)) := by
  rw [windowRefs, hf.size_toNat]
  apply List.map_congr_left
  intro i hi
  have hi' : F + i < L.length := by
    have := List.mem_range.mp hi
    omega
  rw [← UInt64.ofNat_add, counter_mod (hred _ hi')]
  exact hf.held (F + i) (by omega) hi'

theorem windowRefs_eq (hf : Fifo h₀ s.heap q c F L ref) (hred : Reducible c L.length) :
    windowRefs s.heap q (UInt64.ofNat F) (UInt64.ofNat L.length) c =
      (List.range (L.length - F)).map fun i => some (ref (F + i)) :=
  windowRefs_eq_of hf fun _ h => hred.mono h.le

theorem windowValues_eq_of (hf : Fifo h₀ s.heap q c F L ref)
    (hred : ∀ n, n < L.length → Reducible c n) :
    windowValues s.heap q (UInt64.ofNat F) (UInt64.ofNat L.length) c = (L.drop F).map some := by
  rw [windowValues, windowRefs_eq_of hf hred, List.map_map]
  apply List.ext_getElem
  · simp
  · intro i hi _
    have hi' : F + i < L.length := by
      simp only [List.length_map, List.length_range] at hi
      omega
    simpa using (hf.entry (F + i) _ (by omega) (List.getElem?_eq_getElem hi')).2

theorem windowValues_eq (hf : Fifo h₀ s.heap q c F L ref) (hred : Reducible c L.length) :
    windowValues s.heap q (UInt64.ofNat F) (UInt64.ofNat L.length) c = (L.drop F).map some :=
  windowValues_eq_of hf fun _ h => hred.mono h.le

theorem stored_length (xs : List (QueueOp × ℤ)) :
    (stored xs).length = (enqueued xs).length - dequeued xs :=
  List.length_drop ..

/-- Over every run the queue is a bounded first-in first-out list, and a call
fails only if there is no room or nothing to take, or if the environment does
not serve it. -/
theorem queue_fifo (hnew : queueNew c env s₀ = .ok (some q) s₁) (hc : 24 + 16 * c.toNat < 2^64)
    (hrun : Run (QueueCall q) s₁ xs s)
    (hred : (∃ k, c.toNat = 2^k) ∨ (enqueued xs).length < 2^64) :
    (∃ front back : UInt64, s.heap.get q .front = some front ∧ s.heap.get q .back = some back ∧
      s.heap.get q .capacity = some c ∧
      windowValues s.heap q front back c = (stored xs).map some) ∧
    (∀ env, ∃ n, queueSize q env s = .ok n s ∧ n.toNat = (stored xs).length) ∧
    (stored xs).length ≤ c.toNat ∧
    (∀ env data, ∃ r s', queueEnqueue q data env s = .ok r s' ∧
      (((stored xs).length = c.toNat ∧ r = -1 ∧ s' = s) ∨
        ((stored xs).length < c.toNat ∧
          ((r = -1 ∧ Aborted s s' ∧ ¬ EnqueueServed env s) ∨ (r = 0 ∧ Committed s s'))))) ∧
    ∀ env, ∃ r s', queueDequeue q env s = .ok r s' ∧
      (((stored xs).length = 0 ∧ r = -1 ∧ s' = s) ∨
        (0 < (stored xs).length ∧
          ((r = -1 ∧ Aborted s s' ∧ ¬ DequeueServed env s) ∨ (r = 0 ∧ Committed s s')))) := by
  obtain ⟨hl₁, hf₁⟩ := queueNew_fifo hnew hc fun _ => oidNull
  obtain ⟨hl, ref, hf⟩ := fifo_run hl₁ hf₁ hrun hred
  have hlen := stored_length xs
  have hstart := hf.started
  have hbound := hf.bounded
  refine ⟨⟨_, _, hf.front, hf.back, hf.capacity, windowValues_eq hf hred⟩, fun env => ?_, by omega,
    fun env data => ?_, fun env => ?_⟩
  · have hsize : wp env (queueSize q) (fun n s' => n.toNat = (stored xs).length ∧ s' = s)
        (fun _ _ => False) s := wp_queueSize hf ⟨hlen ▸ hf.size_toNat, rfl⟩
    obtain ⟨n, s', hok, hn, rfl⟩ := wp_returns hsize
    exact ⟨n, hok, hn⟩
  · apply wp_returns
    apply wp_queueEnqueue hl hf hred
    · intro hfull
      exact Or.inl ⟨by omega, rfl, rfl⟩
    · intro s' hlt ha hno
      exact Or.inr ⟨by omega, Or.inl ⟨rfl, ha, hno⟩⟩
    · intro s' hlt hc' _
      exact Or.inr ⟨by omega, Or.inr ⟨rfl, hc'⟩⟩
  · apply wp_returns
    apply wp_queueDequeue hl hf (Reducible.mono hred hf.started)
    · intro hempty
      exact Or.inl ⟨by omega, rfl, rfl⟩
    · intro s' hlt ha hno
      exact Or.inr ⟨by omega, Or.inl ⟨rfl, ha, hno⟩⟩
    · intro s' hlt hc' _
      exact Or.inr ⟨by omega, Or.inr ⟨rfl, hc'⟩⟩

def quietQueueEnv : QueueEnv where
  fails _ := false
  crashes _ := false
  place n := ⟨1, 4096 + 256 * UInt64.ofNat n⟩
  junk _ := Layout.zero
  fuel := 0

def emptyQueuePool : QueueState := ⟨fun _ => none, none, 0, 0, []⟩

def sampleQueue : PMEMoid := ⟨1, 4096⟩

def sampleStep (s : QueueState) (o : QueueOp) : Option (ℤ × QueueState) :=
  match queueStep sampleQueue o { quietQueueEnv with fails := fun n => n = 18 } s with
  | .ok r s' => some (r, s')
  | _ => none

theorem sampleStep_call (s : QueueState) (o : QueueOp) (r : ℤ) (s' : QueueState)
    (h : sampleStep s o = some (r, s')) : QueueCall sampleQueue s o r s' := by
  unfold sampleStep at h
  split at h
  · rename_i hok
    cases h
    exact ⟨_, hok⟩
  · cases h

def sampleCalls : List (QueueOp × ℤ) :=
  [(.enqueue 5, 0), (.enqueue 6, 0), (.enqueue 7, -1), (.dequeue, 0), (.enqueue 7, 0),
    (.dequeue, -1)]

theorem sampleCalls_run : ∃ s₁ s,
    queueNew 2 quietQueueEnv emptyQueuePool = .ok (some sampleQueue) s₁ ∧
      Run (QueueCall sampleQueue) s₁ sampleCalls s ∧
      s.ends = [.committed, .committed, .committed, .committed, .aborted ENOMEM] ∧
      s.heap.get sampleQueue .front = some (1 : UInt64) ∧
      s.heap.get sampleQueue .back = some (3 : UInt64) := by
  obtain ⟨s₁, hnew, h⟩ : ∃ s₁,
      queueNew 2 quietQueueEnv emptyQueuePool = .ok (some sampleQueue) s₁ ∧
      (replay sampleStep s₁ sampleCalls).map (fun s =>
        (s.ends, (s.heap.get sampleQueue .front : Option UInt64),
          (s.heap.get sampleQueue .back : Option UInt64))) =
        some ([.committed, .committed, .committed, .committed, .aborted ENOMEM], some 1, some 3) :=
    ⟨_, rfl, by decide +kernel⟩
  obtain ⟨s, hreplay, h⟩ := Option.map_eq_some_iff.mp h
  simp only [Prod.mk.injEq] at h
  exact ⟨s₁, s, hnew, replay_run sampleStep_call hreplay, h⟩

theorem queue_fifo_two : ∃ s₁ s,
    queueNew 2 quietQueueEnv emptyQueuePool = .ok (some sampleQueue) s₁ ∧
      Run (QueueCall sampleQueue) s₁ sampleCalls s ∧
      ∃ front back : UInt64, windowValues s.heap sampleQueue front back 2 = [some 6, some 7] := by
  obtain ⟨s₁, s, hnew, hrun, -, -⟩ := sampleCalls_run
  obtain ⟨⟨front, back, -, -, -, hw⟩, -⟩ := queue_fifo hnew (by decide) hrun (Or.inl ⟨1, rfl⟩)
  exact ⟨s₁, s, hnew, hrun, front, back, hw⟩

/-- The entries made since the queue was new and still live are the ones its
window refers to, each once; a free slot is never one of theirs. -/
theorem queue_owns_entries (hnew : queueNew c env s₀ = .ok (some q) s₁)
    (hc : 24 + 16 * c.toNat < 2^64) (hrun : Run (QueueCall q) s₁ xs s)
    (hred : (∃ k, c.toNat = 2^k) ∨ (enqueued xs).length < 2^64) :
    ∃ (front back : UInt64) (os : List PMEMoid),
      s.heap.get q .front = some front ∧ s.heap.get q .back = some back ∧
      windowRefs s.heap q front back c = os.map some ∧ os.Nodup ∧
      (∀ o, EntryLive s.heap o ∧ ¬ EntryLive s₀.heap o ↔ o ∈ os) ∧
      (∀ o, EntryLive s₀.heap o → EntryLive s.heap o) ∧
      (∀ i < os.length, os.length < c.toNat → (front + UInt64.ofNat i) % c ≠ back % c) ∧
      ∀ o env, ∃ r s', queueStep q o env s = .ok r s' := by
  obtain ⟨hl₁, hf₁⟩ := queueNew_fifo hnew hc fun _ => oidNull
  obtain ⟨hl, ref, hf⟩ := fifo_run hl₁ hf₁ hrun hred
  have hstart := hf.started
  refine ⟨_, _, (List.range ((enqueued xs).length - dequeued xs)).map fun i =>
    ref (dequeued xs + i), hf.front, hf.back, ?_, ?_, ?_, ?_, ?_, ?_⟩
  · rw [windowRefs_eq hf hred, List.map_map]
    rfl
  · apply List.Nodup.map_on _ List.nodup_range
    intro i hi j hj he
    rw [List.mem_range] at hi hj
    have := hf.distinct _ _ (by omega) (by omega) (by omega) (by omega) he
    omega
  · intro o
    rw [hf.owned, List.mem_map]
    constructor
    · rintro ⟨ho | ⟨n, hF, hn, rfl⟩, hno⟩
      · exact absurd ho hno
      · exact ⟨n - dequeued xs, List.mem_range.mpr (by omega), by rw [Nat.add_sub_cancel' hF]⟩
    · rintro ⟨i, hi, rfl⟩
      rw [List.mem_range] at hi
      exact ⟨Or.inr ⟨_, by omega, by omega, rfl⟩, hf.apart _ (by omega) (by omega)⟩
  · exact fun o ho => (hf.owned o).mpr (Or.inl ho)
  · intro i hi hlt he
    rw [List.length_map, List.length_range] at hi hlt
    rw [← UInt64.ofNat_add, ← UInt64.toNat_inj, counter_mod hred,
      counter_mod (Reducible.mono hred (by omega))] at he
    exact mod_ne_of_lt (by omega) (by omega) he
  · intro o env
    cases o with
    | enqueue data =>
      have h : wp env (queueEnqueue q data) (fun _ _ => True) (fun _ _ => False) s :=
        wp_queueEnqueue hl hf hred (fun _ => trivial) (fun _ _ _ _ => trivial)
          fun _ _ _ _ => trivial
      obtain ⟨r, s', hok, -⟩ := wp_returns h
      exact ⟨r, s', hok⟩
    | dequeue =>
      have h : wp env (queueDequeue q) (fun _ _ => True) (fun _ _ => False) s :=
        wp_queueDequeue hl hf (Reducible.mono hred hf.started) (fun _ => trivial)
          (fun _ _ _ _ => trivial) fun _ _ _ _ => trivial
      obtain ⟨r, s', hok, -⟩ := wp_returns h
      exact ⟨r, s', hok⟩

theorem queue_owns_entries_two : ∃ s₁ s,
    queueNew 2 quietQueueEnv emptyQueuePool = .ok (some sampleQueue) s₁ ∧
      Run (QueueCall sampleQueue) s₁ sampleCalls s ∧
      ∃ (front back : UInt64) (os : List PMEMoid), os.length = 2 ∧ os.Nodup ∧
        windowRefs s.heap sampleQueue front back 2 = os.map some ∧
        ∀ o, EntryLive s.heap o ∧ ¬ EntryLive emptyQueuePool.heap o ↔ o ∈ os := by
  obtain ⟨s₁, s, hnew, hrun, -, hfront, hback⟩ := sampleCalls_run
  obtain ⟨front, back, os, hfront', hback', hrefs, hnodup, hlive, -⟩ :=
    queue_owns_entries hnew (by decide) hrun (Or.inl ⟨1, rfl⟩)
  cases hfront.symm.trans hfront'
  cases hback.symm.trans hback'
  have hlen := congrArg List.length hrefs
  rw [windowRefs, List.length_map, List.length_map, List.length_range] at hlen
  exact ⟨s₁, s, hnew, hrun, 1, 3, os, hlen.symm, hnodup, hrefs, hlive⟩

end Runs

end RtsCache.QueueRuns
