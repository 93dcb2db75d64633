import ZnsLsm.Pool.Cache
import ZnsLsm.Recency
import ZnsLsm.Transition

/-!
# Runs of the page cache

On the list of keys the three operations of `LRUCache` are those of a bounded set that
forgets its least recently touched key.  A run carries its touches along, newest first, so
that the order of the list can be compared with the whole history.
-/

namespace ZnsLsm.Pool

open ZnsLsm.Recency ZnsLsm.Transition

namespace LruCache

variable {lru : LruCache}

/-! ## The operations on the list of keys -/

/-- Erasing the node of a key erases the key. -/
theorem Linked.keys_erase (linked : lru.Linked) {node key : Nat}
    (mapped : lru.map key = some node) : (lru.erase node).keys = lru.keys.erase key := by
  have mem := (linked.map_iff key node).mp mapped
  have same : ∀ entry ∈ lru.cache, (entry.1 != node) = (entry.2 != key) := by
    rintro ⟨node', key'⟩ mem'
    rw [Bool.eq_iff_iff, bne_iff_ne, bne_iff_ne, not_iff_not]
    constructor
    · rintro rfl
      exact linked.key_unique mem' mem
    · rintro rfl
      exact linked.node_unique mem' mem
  rw [linked.keys_nodup.erase_eq_filter, keys, keys, List.filter_map, erase,
    List.filter_congr same]
  rfl

theorem Linked.keys_get (linked : lru.Linked) (key : Nat) :
    (lru.get key).2.keys = if key ∈ lru.keys then touch key lru.keys else lru.keys := by
  unfold LruCache.get
  cases mapped : lru.map key with
  | none => rw [if_neg ((linked.map_eq_none_iff key).mp mapped)]
  | some node =>
      have mem : key ∈ lru.keys := (linked.map_isSome_iff key).mp (by rw [mapped]; rfl)
      rw [if_pos mem, keys_pushFront, linked.deref_eq mapped, linked.keys_erase mapped]
      rfl

theorem Linked.keys_put (linked : lru.Linked) (key : Nat) :
    (lru.put key).keys = enter lru.cap key lru.keys := by
  unfold LruCache.put
  cases mapped : lru.map key with
  | none =>
      have absent := (linked.map_eq_none_iff key).mp mapped
      have length : lru.keys.length = lru.cache.length := List.length_map ..
      by_cases full : lru.cache.length = lru.cap
      · rw [enter_of_full absent (length.trans full), keys_pushFront, if_pos full, keys_popBack]
      · rw [enter_of_room absent (length ▸ full), keys_pushFront, if_neg full]
  | some node =>
      have mem : key ∈ lru.keys := (linked.map_isSome_iff key).mp (by rw [mapped]; rfl)
      rw [enter_of_mem mem, keys_pushFront, linked.keys_erase mapped]
      rfl

@[simp]
theorem Linked.keys_del (linked : lru.Linked) (key : Nat) :
    (lru.del key).keys = lru.keys.erase key := by
  unfold LruCache.del
  cases mapped : lru.map key with
  | none => rw [List.erase_of_not_mem ((linked.map_eq_none_iff key).mp mapped)]
  | some node => exact linked.keys_erase mapped

/-- `get` answers with the key, or with the all-ones value. -/
theorem Linked.get_eq (linked : lru.Linked) (key : Nat) :
    (lru.get key).1 = if key ∈ lru.keys then key else npos := by
  unfold LruCache.get
  cases mapped : lru.map key with
  | none => rw [if_neg ((linked.map_eq_none_iff key).mp mapped)]
  | some node =>
      have mem : key ∈ lru.keys := (linked.map_isSome_iff key).mp (by rw [mapped]; rfl)
      rw [if_pos mem]
      exact linked.deref_eq mapped

@[simp]
theorem cap_get (lru : LruCache) (key : Nat) : (lru.get key).2.cap = lru.cap := by
  unfold LruCache.get
  split
  · rfl
  · rfl

@[simp]
theorem cap_put (lru : LruCache) (key : Nat) : (lru.put key).cap = lru.cap := by
  unfold LruCache.put popBack
  split
  · split
    · split
      · rfl
      · rfl
    · rfl
  · rfl

@[simp]
theorem cap_del (lru : LruCache) (key : Nat) : (lru.del key).cap = lru.cap := by
  unfold LruCache.del
  split
  · rfl
  · rfl

end LruCache

/-! ## Runs with their touches -/

inductive CacheOp
  | get (key : Nat)
  | put (key : Nat)
  | del (key : Nat)
  deriving DecidableEq, Repr

def CacheOp.key : CacheOp → Nat
  | .get key => key
  | .put key => key
  | .del key => key

/-- The cache after an operation. -/
def LruCache.apply (lru : LruCache) : CacheOp → LruCache
  | .get key => (lru.get key).2
  | .put key => lru.put key
  | .del key => lru.del key

/-- The key that a put or a successful get touches. -/
def LruCache.touches (lru : LruCache) : CacheOp → List Nat
  | .get key => if (lru.get key).1 = npos then [] else [key]
  | .put key => [key]
  | .del _ => []

/-- A cache together with the keys touched so far, newest first. -/
structure CacheRun where
  lru : LruCache
  history : List Nat

def CacheRun.start (cap : Nat) : CacheRun :=
  ⟨LruCache.new cap, []⟩

def CacheRun.after (run : CacheRun) (op : CacheOp) : CacheRun :=
  ⟨run.lru.apply op, run.lru.touches op ++ run.history⟩

/-- Operations on keys other than the all-ones value, from an empty cache on. -/
def caching (cap : Nat) : System CacheRun CacheOp where
  Init run := run = .start cap
  Step run op run' := op.key ≠ npos ∧ run' = run.after op

/-- List and map are linked, and the list is in the order of the last touches. -/
structure Caches (cap : Nat) (run : CacheRun) : Prop where
  linked : run.lru.Linked
  cap_eq : run.lru.cap = cap
  bounded : run.lru.keys.length ≤ cap
  ordered : Ordered run.history run.lru.keys

section Runs

variable {cap : Nat} {run : CacheRun}

theorem caches_start (cap : Nat) : Caches cap (.start cap) where
  linked := LruCache.linked_new cap
  cap_eq := rfl
  bounded := Nat.zero_le cap
  ordered := Ordered.nil

/-- Step lemma, one case for each operation. -/
theorem Caches.after (pos : 0 < cap) (caches : Caches cap run) {op : CacheOp}
    (ordinary : op.key ≠ npos) : Caches cap (run.after op) := by
  have linked := caches.linked
  cases op with
  | get key =>
      have keys : (run.after (.get key)).lru.keys = _ := linked.keys_get key
      refine ⟨linked.get key, (LruCache.cap_get ..).trans caches.cap_eq, ?_, ?_⟩
      · rw [keys]
        split
        · rename_i mem
          rw [length_touch mem]
          exact caches.bounded
        · exact caches.bounded
      · have hit : (run.lru.get key).1 = npos ↔ key ∉ run.lru.keys :=
          LruCache.get_eq_npos_iff linked ordinary
        rw [keys, CacheRun.after, LruCache.touches]
        by_cases mem : key ∈ run.lru.keys
        · rw [if_pos mem, if_neg (mt hit.mp (not_not.mpr mem))]
          exact caches.ordered.touch key
        · rw [if_neg mem, if_pos (hit.mpr mem)]
          exact caches.ordered
  | put key =>
      have keys : (run.after (.put key)).lru.keys = _ := linked.keys_put key
      rw [caches.cap_eq] at keys
      refine ⟨linked.put key, (LruCache.cap_put ..).trans caches.cap_eq, ?_, ?_⟩
      · rw [keys]
        exact length_enter_le pos caches.bounded key
      · rw [keys]
        exact caches.ordered.enter cap key
  | del key =>
      have keys : (run.after (.del key)).lru.keys = _ := linked.keys_del key
      refine ⟨linked.del key, (LruCache.cap_del ..).trans caches.cap_eq, ?_, ?_⟩
      · rw [keys]
        exact Nat.le_trans List.length_erase_le caches.bounded
      · rw [keys]
        exact caches.ordered.sublist List.erase_sublist

/-- Run lemma. -/
theorem caches_of_reachable (pos : 0 < cap) (reachable : (caching cap).Reachable run) :
    Caches cap run := by
  apply System.invariant_of_reachable _ _ reachable
  · rintro _ rfl
    exact caches_start cap
  · rintro _ op _ caches ⟨ordinary, rfl⟩
    exact caches.after pos ordinary

/-- When a key leaves the cache. -/
theorem Caches.leaves_iff (caches : Caches cap run) (op : CacheOp) {key : Nat}
    (mem : key ∈ run.lru.keys) :
    key ∉ (run.lru.apply op).keys ↔
      op = .del key ∨
        ∃ new, op = .put new ∧ new ∉ run.lru.keys ∧ run.lru.keys.length = cap ∧
          ∀ other ∈ run.lru.keys, other ≠ key →
            run.history.idxOf other < run.history.idxOf key := by
  have linked := caches.linked
  cases op with
  | get asked =>
      rw [LruCache.apply, LruCache.mem_keys_get linked]
      simp only [reduceCtorEq, false_and, exists_false, or_false, iff_false, not_not]
      exact mem
  | put new =>
      have nodup := linked.keys_nodup
      rw [LruCache.apply, linked.keys_put, caches.cap_eq, notMem_enter_iff nodup mem,
        caches.ordered.oldest_iff mem]
      simp only [reduceCtorEq, false_or, CacheOp.put.injEq, exists_eq_left']
  | del asked =>
      rw [LruCache.apply, LruCache.mem_keys_del linked]
      simp only [mem, true_and, not_not, ne_eq, CacheOp.del.injEq, reduceCtorEq, false_and,
        exists_false, or_false]
      exact eq_comm

/-- What an LRU set of at most `cap` keys is. -/
structure IsLru (cap : Nat) (run : CacheRun) : Prop where
  nodup : run.lru.keys.Nodup
  bounded : run.lru.keys.length ≤ cap
  domain : ∀ key, (run.lru.map key).isSome ↔ key ∈ run.lru.keys
  nodes : (run.lru.cache.map Prod.fst).Nodup
  points : ∀ key node, run.lru.map key = some node ↔ (node, key) ∈ run.lru.cache
  ordered : Ordered run.history run.lru.keys
  get_eq : ∀ key ≠ npos, (run.lru.get key).1 = if key ∈ run.lru.keys then key else npos
  leaves : ∀ op : CacheOp, op.key ≠ npos → ∀ key ∈ run.lru.keys,
    (key ∉ (run.lru.apply op).keys ↔
      op = .del key ∨
        ∃ new, op = .put new ∧ new ∉ run.lru.keys ∧ run.lru.keys.length = cap ∧
          ∀ other ∈ run.lru.keys, other ≠ key →
            run.history.idxOf other < run.history.idxOf key)

/-- After every run of operations the cache is an LRU set. -/
theorem isLru_of_reachable (pos : 0 < cap) (reachable : (caching cap).Reachable run) :
    IsLru cap run := by
  have caches := caches_of_reachable pos reachable
  exact
    { nodup := caches.linked.keys_nodup
      bounded := caches.bounded
      domain := caches.linked.map_isSome_iff
      nodes := caches.linked.nodes_nodup
      points := caches.linked.map_iff
      ordered := caches.ordered
      get_eq := fun key _ => caches.linked.get_eq key
      leaves := fun op _ key mem => caches.leaves_iff op mem }

theorem reachable_after (reachable : (caching cap).Reachable run) {op : CacheOp}
    (ordinary : op.key ≠ npos) : (caching cap).Reachable (run.after op) :=
  .step reachable ⟨ordinary, rfl⟩

/-- Two keys in a cache of two, the older one touched again. -/
theorem isLru_after_get :
    IsLru 2 ((((CacheRun.start 2).after (.put 5)).after (.put 6)).after (.get 5)) :=
  isLru_of_reachable (by decide)
    (reachable_after (reachable_after (reachable_after (.init rfl) (by decide)) (by decide))
      (by decide))

end Runs

end ZnsLsm.Pool
