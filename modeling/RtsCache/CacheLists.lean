import RtsCache.CacheAborts
import RtsCache.UndoWrites

/-!
# The list of a cache

Leaving an entry out of a well-formed list leaves its node out of the
sequence. `cache_add` and `cache_delete` both check the cache and then run one
transaction, so a call that is not rolled back is its body.
-/

set_option autoImplicit false

namespace RtsCache.CacheLists
open RtsCache.UndoHeap RtsCache.UndoMachine RtsCache.UndoRules RtsCache.UndoWrites
open RtsCache.PoolLayout RtsCache.HashmapMachine RtsCache.HashmapInvariant RtsCache.DoublyLinked
open RtsCache.CacheMachine RtsCache.CacheInvariant RtsCache.CacheCalls RtsCache.CacheOps

def without (es : List CEntry) (o : PMEMoid) : List CEntry := es.filter fun e => e.oid ≠ o

def LinkOf (os : List PMEMoid) (o : PMEMoid) (f : Member) : Prop :=
  (f = .next ∧ o ∈ os.dropLast) ∨ (f = .prev ∧ o ∈ os.tail)

variable {env : PoolEnv} {s s' : PoolState} {h : Pool} {cache head tail hm : PMEMoid}
  {cap : UInt64} {es pre post : List CEntry} {x : CEntry} {m : UInt64 → Option PMEMoid}

theorem mem_without {e : CEntry} {o : PMEMoid} : e ∈ without es o ↔ e ∈ es ∧ e.oid ≠ o := by
  simp [without]

theorem without_comm (es : List CEntry) (o p : PMEMoid) :
    without (without es o) p = without (without es p) o :=
  List.filter_comm _ _ es

theorem sentinels_ne (hn : (order head tail es).Nodup) (hx : x ∈ es) :
    head ≠ x.oid ∧ tail ≠ x.oid := by
  have hmem : x.oid ∈ es.map CEntry.oid := List.mem_map_of_mem hx
  have hrest := List.nodup_cons.mp hn
  constructor
  · rintro rfl
    exact hrest.1 (List.mem_append_left _ hmem)
  · rintro rfl
    exact (List.nodup_append.mp hrest.2).2.2 _ hmem _ (List.mem_singleton_self _) rfl

theorem order_without (hn : (order head tail es).Nodup) (hx : x ∈ es) :
    order head tail (without es x.oid) = (order head tail es).erase x.oid := by
  obtain ⟨hhead, htail⟩ := sentinels_ne hn hx
  rw [hn.erase_eq_filter, order, order, List.filter_cons_of_pos (by simpa using hhead),
    List.filter_append, List.filter_map]
  have hlast : [tail].filter (fun o => o != x.oid) = [tail] := by simp [htail]
  have hmid : without es x.oid = es.filter ((fun o => o != x.oid) ∘ CEntry.oid) := by
    apply List.filter_congr
    intro e _
    show decide (e.oid ≠ x.oid) = !decide (e.oid = x.oid)
    exact decide_not
  rw [hlast, hmid]

theorem without_split (hn : (order head tail (pre ++ x::post)).Nodup) :
    without (pre ++ x::post) x.oid = pre ++ post := by
  have hkeep : without (pre ++ post) x.oid = pre ++ post := by
    apply List.filter_eq_self.mpr
    intro e he
    simpa using entry_ne hn he
  rw [without, List.filter_append, List.filter_cons_of_neg (by simp), ← List.filter_append]
  exact hkeep

theorem wp_check {Q : Bool → PoolState → Prop} {E : Cause → PoolState → Prop}
    (hw : ListWf s.heap cache head tail hm cap es) (hQ : Q false s) :
    wp env (cacheCheck cache) Q E s := by
  obtain ⟨n, hn⟩ := hw.map
  exact wp_cacheCheck hw.fields hn hQ

/-- A call that checks the cache and then runs one transaction: if that is not
rolled back the call returns 0, and its heap is the one the body leaves. -/
theorem checked_committed {α : Type} {body : Pmem α} {k : Option α → Pmem ℤ} {r : ℤ}
    (hw : ListWf s.heap cache head tail hm cap es)
    (hk : ∀ o, k o = pure (if o.isSome then 0 else -1))
    (hrun : (cacheCheck cache >>= fun b => if b = true then pure (-1) else transaction body >>= k)
      env s = .ok r s') (hc : Commits s s') :
    r = 0 ∧ ∃ a s₁ s₂, s₁.heap = s.heap ∧ s₁.log.isSome ∧ body env s₁ = .ok a s₂ ∧
      s'.heap = s₂.heap := by
  obtain ⟨b, s₀, hcheck, hrest⟩ := bind_ok hrun
  have hsame : b = false ∧ s₀ = s :=
    wp_result (Q := fun b s₀ => b = false ∧ s₀ = s) (E := fun _ _ => True)
      (wp_check hw ⟨rfl, rfl⟩) hcheck
  obtain ⟨rfl, rfl⟩ := hsame
  rw [if_neg (by simp)] at hrest
  obtain ⟨o, s₃, htx, hret⟩ := bind_ok hrest
  rw [hk] at hret
  cases hret
  obtain ⟨a, s₁, s₂, rfl, e₁, l₁, hbody, e₂⟩ := transaction_committed htx hc
  exact ⟨rfl, a, s₁, s₂, e₁, l₁, hbody, e₂⟩

theorem addFields_ok (hrun : addFields cache env s = .ok () s') : s'.heap = s.heap := by
  obtain ⟨_, s₁, h₁, hrun⟩ := bind_ok hrun
  obtain ⟨_, s₂, h₂, h₃⟩ := bind_ok hrun
  rw [txAdd_ok h₃, txAdd_ok h₂, txAdd_ok h₁]

end RtsCache.CacheLists
