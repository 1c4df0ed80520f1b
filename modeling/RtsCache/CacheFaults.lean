import RtsCache.UndoFaults
import RtsCache.CacheMachine

/-!
# Faults of the insertion into the cache

Nothing that puts a new entry into the cache aborts on its own account.
-/

set_option autoImplicit false

namespace RtsCache.CacheFaults
open RtsCache.UndoHeap RtsCache.UndoMachine RtsCache.UndoFaults RtsCache.PoolLayout
open RtsCache.HashmapMachine RtsCache.CacheMachine

theorem raises_dRo (o : PMEMoid) (m : Member) : Raises Fault (dRo o m) :=
  raises_load o m

theorem raises_dRw (o : PMEMoid) (m : Member) (v : m.ty) : Raises Fault (dRw o m v) :=
  raises_store o m v

theorem raises_txAddField (o : PMEMoid) (m : Member) : Raises Fault (txAddField o m) :=
  raises_txAdd o _

theorem raises_txNew (k : Kind) : Raises Fault (txNew k) := raises_txAllocWith _ _ _

theorem raises_toidValid (o : PMEMoid) (k : Kind) : Raises Fault (toidValid o k) :=
  raises_bind (raises_typeNum o) fun _ => raises_pure _

theorem faults_cacheCheck (cache : PMEMoid) : Raises Fault (cacheCheck cache) := by
  unfold cacheCheck
  split
  · exact raises_pure _
  · apply raises_bind (raises_dRo _ _)
    intro hashmap
    unfold hmTxCheck
    split
    · exact raises_pure _
    · exact raises_bind (raises_toidValid _ _)
        fun _ => raises_pure _

theorem faults_addFields (cache : PMEMoid) : Raises Fault (addFields cache) :=
  raises_bind (raises_txAddField _ _) fun _ =>
    raises_bind (raises_txAddField _ _) fun _ => raises_txAddField _ _

theorem faults_cacheAdd (cache entry : PMEMoid) : Raises Fault (cacheAdd cache entry) := by
  have hcopy : ∀ dst src, Raises Fault (txMemcpyEntry dst src) := fun dst src =>
    raises_bind (raises_txAdd _ _) fun _ => raises_copyCells _ _ _
  have hbody : Raises Fault (cacheAddBody cache entry) := by
    apply raises_bind (faults_addFields cache)
    intro _
    apply raises_bind (raises_txNew _)
    intro dummy
    apply raises_bind (raises_dRo _ _)
    intro head
    apply raises_bind (raises_dRo _ _)
    intro first
    apply raises_bind (hcopy dummy first)
    intro _
    apply raises_bind (raises_dRo _ _)
    intro head
    apply raises_bind (raises_dRw _ _ _)
    intro _
    apply raises_bind (raises_dRo _ _)
    intro head
    apply raises_bind (raises_dRw _ _ _)
    intro _
    exact raises_bind (raises_dRw _ _ _) fun _ => raises_dRw _ _ _
  apply raises_bind (faults_cacheCheck cache)
  intro b
  split
  · exact raises_pure _
  · apply raises_bind (raises_transaction hbody)
    intro r
    cases r <;> exact raises_pure _

theorem faults_findScan (key : UInt64) (n : ℕ) (var : PMEMoid) :
    Raises Fault (findScan key n var) := by
  induction n generalizing var with
  | zero => exact raises_stuck
  | succ n ih =>
    unfold findScan
    split
    · exact raises_pure _
    · apply raises_bind (raises_dRo _ _)
      intro k
      split
      · exact raises_pure _
      · exact raises_bind (raises_dRo _ _) fun next => ih next

theorem faults_hash (hashmap buckets : PMEMoid) (value : UInt64) :
    Raises Fault (HashmapMachine.hash hashmap buckets value) := by
  apply raises_bind (raises_dRo _ _)
  intro a
  apply raises_bind (raises_dRo _ _)
  intro b
  apply raises_bind (raises_dRo _ _)
  intro p
  apply raises_bind (raises_dRo _ _)
  intro len
  split
  · exact raises_stuck
  · exact raises_pure _

theorem faults_hmTxGet (hashmap : PMEMoid) (key : UInt64) : Raises Fault (hmTxGet hashmap key) := by
  apply raises_bind
  · apply raises_bind (raises_dRo _ _)
    intro buckets
    apply raises_bind (faults_hash _ _ _)
    intro h
    apply raises_bind (raises_dRo _ _)
    intro var
    exact raises_bind raises_fuel fun fl => faults_findScan key fl var
  · intro var
    split
    · exact raises_pure _
    · exact raises_dRo _ _

theorem faults_cacheSetLink (cache mapped : PMEMoid) :
    Raises Fault (cacheSetLink cache mapped) := by
  unfold cacheSetLink
  split
  · exact raises_pure _
  · apply raises_bind (raises_toidValid _ _)
    intro valid
    split
    · apply raises_bind (raises_dRo _ _)
      intro head
      exact raises_bind (raises_dRo _ _) fun first => raises_dRw _ _ _
    · exact raises_pure _

theorem faults_cacheSetInsert (cache : PMEMoid) (key : UInt64) (value : Int32) :
    Raises Fault (cacheSetInsert cache key value) := by
  apply raises_bind (raises_txNew _)
  intro e
  apply raises_bind (raises_dRw _ _ _)
  intro _
  apply raises_bind (raises_dRw _ _ _)
  intro _
  apply raises_bind (faults_cacheAdd _ _)
  intro _
  apply raises_bind (raises_dRo _ _)
  intro hashmap
  exact raises_bind (faults_hmTxGet _ _) fun mapped => faults_cacheSetLink _ _

end RtsCache.CacheFaults
