import RtsCache.HashmapRuns
import RtsCache.UndoFrame

/-!
# The hash map beside other objects

Every call of the hash map reaches only what it can follow from its handle, so
it does on a pool what it does on the part of the pool that holds the map.
-/

set_option autoImplicit false

namespace RtsCache.HashmapFrame
open RtsCache.UndoHeap RtsCache.UndoMachine RtsCache.UndoFrame RtsCache.PoolLayout
open RtsCache.HashmapMachine RtsCache.HashmapRuns

variable {α : Type}

abbrev Local (m : Pmem α) : Prop := Framed oidNull m

section Access

theorem local_dRo (o : PMEMoid) (m : Member) : Local (dRo o m) := framed_load (F := Member) o m

theorem local_dRw (o : PMEMoid) (m : Member) (v : m.ty) : Local (dRw o m v) :=
  framed_store (F := Member) o m v

theorem local_txAddField (o : PMEMoid) (m : Member) : Local (txAddField o m) := framed_txAdd o _

theorem local_txAddRange (o : PMEMoid) (size : ℕ) : Local (txAddRange o size) := framed_txAdd o _

theorem local_txNew (k : Kind) : Local (txNew k) := framed_txAlloc (F := Member) rfl k _

theorem local_txZalloc (k : Kind) (size : ℕ) : Local (txZalloc (F := Member) k size) :=
  framed_txZalloc (F := Member) rfl k size

end Access

theorem local_hash (hm bs : PMEMoid) (value : UInt64) : Local (hash hm bs value) := by
  apply framed_bind (local_dRo _ _)
  intro a
  apply framed_bind (local_dRo _ _)
  intro b
  apply framed_bind (local_dRo _ _)
  intro p
  apply framed_bind (local_dRo _ _)
  intro len
  exact framed_ite framed_stuck (framed_pure _)

section Create

theorem local_createDraw (hm : PMEMoid) (rand : ℕ → UInt32) (fl i : ℕ) :
    Local (createDraw hm rand fl i) := by
  induction fl generalizing i with
  | zero => exact framed_stuck
  | succ fl ih =>
    apply framed_bind (local_dRw _ _ _)
    intro _
    apply framed_bind (local_dRo _ _)
    intro a
    exact framed_ite (ih (i+1)) (framed_pure _)

theorem local_createBody (hm : PMEMoid) (seed : UInt32) (rand : ℕ → UInt32) :
    Local (createBody hm seed rand) := by
  apply framed_bind (local_txAddRange _ _)
  intro _
  apply framed_bind (local_dRw _ _ _)
  intro _
  apply framed_bind framed_fuel
  intro fl
  apply framed_bind (local_createDraw _ _ _ _)
  intro i
  apply framed_bind (local_dRw _ _ _)
  intro _
  apply framed_bind (local_dRw _ _ _)
  intro _
  apply framed_bind (local_txZalloc _ _)
  intro bs
  apply framed_bind (local_dRw _ _ _)
  intro _
  apply framed_bind (local_dRo _ _)
  intro bs
  exact local_dRw _ _ _

theorem local_hmTxCreate (map : PMEMoid) (seed : UInt32) (rand : ℕ → UInt32) :
    Local (hmTxCreate map seed rand) := by
  refine framed_bind (framed_transaction ?_) ?_
  · apply framed_bind (local_txAddField _ _)
    intro _
    apply framed_bind (local_txZalloc _ _)
    intro hm
    apply framed_bind (local_dRw _ _ _)
    intro _
    exact framed_exitOnAbort (framed_transaction (local_createBody _ _ _))
  · intro r
    cases r with
    | none =>
      apply framed_bind framed_exited
      intro gone
      exact framed_pure _
    | some u => exact framed_pure _

end Create

section Rebuild

theorem local_rebuildDrain (hm bs nw : PMEMoid) (i fl : ℕ) :
    Local (rebuildDrain hm bs nw i fl) := by
  induction fl with
  | zero => exact framed_stuck
  | succ fl ih =>
    apply framed_bind (local_dRo _ _)
    intro en
    apply framed_ite (framed_pure _)
    apply framed_bind (local_dRo _ _)
    intro key
    apply framed_bind (local_hash _ _ _)
    intro h
    apply framed_bind (local_dRo _ _)
    intro next
    apply framed_bind (local_dRw _ _ _)
    intro _
    apply framed_bind (local_txAddField _ _)
    intro _
    apply framed_bind (local_dRo _ _)
    intro front
    apply framed_bind (local_dRw _ _ _)
    intro _
    apply framed_bind (local_dRw _ _ _)
    intro _
    exact ih

theorem local_rebuildMove (hm bs nw : PMEMoid) (fl i : ℕ) : Local (rebuildMove hm bs nw fl i) := by
  induction fl generalizing i with
  | zero => exact framed_stuck
  | succ fl ih =>
    apply framed_bind (local_dRo _ _)
    intro n
    refine framed_ite ?_ (framed_pure _)
    apply framed_bind framed_fuel
    intro fl'
    apply framed_bind (local_rebuildDrain _ _ _ _ _)
    intro _
    exact ih (i+1)

theorem local_rebuildBody (hm bs : PMEMoid) (oldLen newLen : UInt64) :
    Local (rebuildBody hm bs oldLen newLen) := by
  apply framed_bind (local_txAddField _ _)
  intro _
  apply framed_bind (local_txZalloc _ _)
  intro nw
  apply framed_bind (local_dRw _ _ _)
  intro _
  apply framed_bind (local_txAddRange _ _)
  intro _
  apply framed_bind framed_fuel
  intro fl
  apply framed_bind (local_rebuildMove _ _ _ _ _)
  intro _
  apply framed_bind (local_dRw _ _ _)
  intro _
  exact framed_txFree _

theorem local_hmTxRebuild (hm : PMEMoid) (newLen : UInt64) : Local (hmTxRebuild hm newLen) := by
  apply framed_bind (local_dRo _ _)
  intro bs
  apply framed_bind (local_dRo _ _)
  intro n
  apply framed_bind (framed_transaction (local_rebuildBody _ _ _ _))
  intro _
  exact framed_pure _

end Rebuild

section Insert

theorem local_insertScan (key : UInt64) (fl : ℕ) (var : PMEMoid) (num : Int32) :
    Local (insertScan key fl var num) := by
  induction fl generalizing var num with
  | zero => exact framed_stuck
  | succ fl ih =>
    apply framed_ite (framed_pure _)
    apply framed_bind (local_dRo _ _)
    intro k
    apply framed_ite (framed_pure _)
    apply framed_bind (local_dRo _ _)
    intro next
    exact ih next (num+1)

theorem local_insertBody (hm bs : PMEMoid) (h : ℕ) (key : UInt64) (value : PMEMoid) :
    Local (insertBody hm bs h key value) := by
  apply framed_bind (local_dRo _ _)
  intro current
  apply framed_bind (local_txAddField _ _)
  intro _
  apply framed_bind (local_txAddField _ _)
  intro _
  apply framed_bind (local_txNew _)
  intro e
  apply framed_bind (local_dRw _ _ _)
  intro _
  apply framed_bind (local_dRw _ _ _)
  intro _
  apply framed_bind (local_dRo _ _)
  intro front
  apply framed_bind (local_dRw _ _ _)
  intro _
  apply framed_bind (local_dRw _ _ _)
  intro _
  apply framed_bind (local_dRo _ _)
  intro count
  exact local_dRw _ _ _

theorem local_insertGrow (hm bs : PMEMoid) (num : Int32) : Local (insertGrow hm bs num) := by
  apply framed_bind (local_dRo _ _)
  intro count
  apply framed_bind (local_dRo _ _)
  intro n
  exact framed_ite (local_hmTxRebuild _ _) (framed_pure _)

theorem local_hmTxInsert (hm : PMEMoid) (key : UInt64) (value : PMEMoid) :
    Local (hmTxInsert hm key value) := by
  apply framed_bind (local_dRo _ _)
  intro bs
  apply framed_bind (local_hash _ _ _)
  intro h
  apply framed_bind (local_dRo _ _)
  intro var
  apply framed_bind framed_fuel
  intro fl
  apply framed_bind (local_insertScan _ _ _ _)
  intro found
  cases found with
  | none => exact framed_pure _
  | some num =>
    apply framed_bind (framed_transaction (local_insertBody _ _ _ _ _))
    intro r
    cases r with
    | none => exact framed_pure _
    | some u =>
      apply framed_bind (local_insertGrow _ _ _)
      intro _
      exact framed_pure _

end Insert

section Remove

theorem local_removeScan (key : UInt64) (fl : ℕ) (prev var : PMEMoid) :
    Local (removeScan key fl prev var) := by
  induction fl generalizing prev var with
  | zero => exact framed_stuck
  | succ fl ih =>
    apply framed_ite (framed_pure _)
    apply framed_bind (local_dRo _ _)
    intro k
    apply framed_ite (framed_pure _)
    apply framed_bind (local_dRo _ _)
    intro next
    exact ih var next

theorem local_removeAdd (hm : PMEMoid) (h : ℕ) (prev : PMEMoid) : Local (removeAdd hm h prev) := by
  apply framed_ite
  · apply framed_bind (local_dRo _ _)
    intro current
    exact local_txAddField _ _
  · exact local_txAddField _ _

theorem local_removeBody (hm bs : PMEMoid) (h : ℕ) (prev var : PMEMoid) :
    Local (removeBody hm bs h prev var) := by
  apply framed_bind (local_removeAdd _ _ _)
  intro _
  apply framed_bind (local_txAddField _ _)
  intro _
  apply framed_bind (local_dRo _ _)
  intro next
  apply framed_bind (framed_ite (local_dRw _ _ _) (local_dRw _ _ _))
  intro _
  apply framed_bind (local_dRo _ _)
  intro count
  apply framed_bind (local_dRw _ _ _)
  intro _
  exact framed_txFree _

theorem local_removeShrink (hm bs : PMEMoid) : Local (removeShrink hm bs) := by
  apply framed_bind (local_dRo _ _)
  intro count
  apply framed_bind (local_dRo _ _)
  intro n
  exact framed_ite (local_hmTxRebuild _ _) (framed_pure _)

theorem local_hmTxRemove (hm : PMEMoid) (key : UInt64) : Local (hmTxRemove hm key) := by
  apply framed_bind (local_dRo _ _)
  intro bs
  apply framed_bind (local_hash _ _ _)
  intro h
  apply framed_bind (local_dRo _ _)
  intro front
  apply framed_bind framed_fuel
  intro fl
  apply framed_bind (local_removeScan _ _ _ _)
  intro found
  apply framed_ite (framed_pure _)
  apply framed_bind (local_dRo _ _)
  intro retoid
  apply framed_bind (framed_transaction (local_removeBody _ _ _ _ _))
  intro r
  cases r with
  | none => exact framed_pure _
  | some u =>
    apply framed_bind (local_removeShrink _ _)
    intro _
    exact framed_pure _

end Remove

section Queries

theorem local_findScan (key : UInt64) (fl : ℕ) (var : PMEMoid) : Local (findScan key fl var) := by
  induction fl generalizing var with
  | zero => exact framed_stuck
  | succ fl ih =>
    apply framed_ite (framed_pure _)
    apply framed_bind (local_dRo _ _)
    intro k
    apply framed_ite (framed_pure _)
    apply framed_bind (local_dRo _ _)
    intro next
    exact ih next

theorem local_findEntry (hm : PMEMoid) (key : UInt64) : Local (findEntry hm key) := by
  apply framed_bind (local_dRo _ _)
  intro bs
  apply framed_bind (local_hash _ _ _)
  intro h
  apply framed_bind (local_dRo _ _)
  intro var
  apply framed_bind framed_fuel
  intro fl
  exact local_findScan _ _ _

theorem local_hmTxGet (hm : PMEMoid) (key : UInt64) : Local (hmTxGet hm key) := by
  apply framed_bind (local_findEntry _ _)
  intro var
  exact framed_ite (framed_pure _) (local_dRo _ _)

theorem local_hmTxLookup (hm : PMEMoid) (key : UInt64) : Local (hmTxLookup hm key) := by
  apply framed_bind (local_findEntry _ _)
  intro var
  exact framed_ite (framed_pure _) (framed_pure _)

theorem local_hmTxCmd (hm : PMEMoid) (cmd : UInt32) (arg : UInt64) :
    Local (hmTxCmd hm cmd arg) := by
  apply framed_ite
  · apply framed_bind (local_hmTxRebuild _ _)
    intro _
    exact framed_pure _
  · exact framed_ite (framed_pure _) (framed_pure _)

end Queries

theorem local_hmStep (hm : PMEMoid) (o : Op) : Local (hmStep hm o) := by
  cases o with
  | insert key value => exact framed_bind (local_hmTxInsert _ _ _) fun _ => framed_pure _
  | remove key => exact framed_bind (local_hmTxRemove _ _) fun _ => framed_pure _
  | get key => exact framed_bind (local_hmTxGet _ _) fun _ => framed_pure _
  | lookup key => exact framed_bind (local_hmTxLookup _ _) fun _ => framed_pure _
  | count => exact framed_bind (local_dRo _ _) fun _ => framed_pure _
  | rebuild newLen => exact framed_bind (local_hmTxCmd _ _ _) fun _ => framed_pure _

end RtsCache.HashmapFrame
