import Mathlib.Algebra.Group.Nat.Defs
import Mathlib.Data.List.Nodup
import Mathlib.Logic.Function.Basic

/-!
# The page cache

`LRUCache` keeps a list of keys, most recently used first, and a map from each key
to its list node.  A list node is modelled by a number that no other node of the
cache's lifetime has, so an iterator stays valid exactly as long as its node.
-/

namespace ZnsLsm.Pool

/-- The all-ones value that `LRUCache::get` returns for an absent key, and that
`MemoryManager::getValue` uses for "no batch". -/
def npos : Nat :=
  2 ^ 64 - 1

structure LruCache where
  cap : Nat
  cache : List (Nat × Nat)
  map : Nat → Option Nat
  nextNode : Nat

namespace LruCache

/-- The empty cache of capacity `cap`. -/
def new (cap : Nat) : LruCache where
  cap := cap
  cache := []
  map := fun _ => none
  nextNode := 0

/-- The keys of the list, most recently used first. -/
def keys (lru : LruCache) : List Nat :=
  lru.cache.map Prod.snd

/-- The key stored in a node; `npos` stands for a dangling iterator. -/
def deref (lru : LruCache) (node : Nat) : Nat :=
  ((lru.cache.find? (fun entry => entry.1 == node)).map Prod.snd).getD npos

/-- `cache.erase` of a list node. -/
def erase (lru : LruCache) (node : Nat) : LruCache :=
  { lru with cache := lru.cache.filter (fun entry => entry.1 != node) }

/-- `push_front`, with the map entry of `key` pointed at the new node. -/
def pushFront (lru : LruCache) (key value : Nat) : LruCache :=
  { lru with
    cache := (lru.nextNode, value) :: lru.cache
    map := Function.update lru.map key (some lru.nextNode)
    nextNode := lru.nextNode + 1 }

/-- `LRUCache::get`. -/
def get (lru : LruCache) (key : Nat) : Nat × LruCache :=
  match lru.map key with
  | none => (npos, lru)
  | some node => (lru.deref node, (lru.erase node).pushFront key (lru.deref node))

/-- The eviction of `LRUCache::put` from a full cache. -/
def popBack (lru : LruCache) : LruCache :=
  match lru.cache.getLast? with
  | none => lru
  | some last =>
      { lru with
        cache := lru.cache.dropLast
        map := Function.update lru.map last.2 none }

/-- `LRUCache::put`. -/
def put (lru : LruCache) (key : Nat) : LruCache :=
  match lru.map key with
  | none => (if lru.cache.length = lru.cap then lru.popBack else lru).pushFront key key
  | some node => (lru.erase node).pushFront key key

/-- `LRUCache::del`. -/
def del (lru : LruCache) (key : Nat) : LruCache :=
  match lru.map key with
  | none => lru
  | some node => { lru.erase node with map := Function.update lru.map key none }

/-- List and map agree: nodes are distinct and old, keys are distinct, and the map
sends exactly the listed keys to their own nodes. -/
structure Linked (lru : LruCache) : Prop where
  nodes_nodup : (lru.cache.map Prod.fst).Nodup
  keys_nodup : lru.keys.Nodup
  map_iff : ∀ key node, lru.map key = some node ↔ (node, key) ∈ lru.cache
  node_lt : ∀ entry ∈ lru.cache, entry.1 < lru.nextNode

theorem linked_new (cap : Nat) : (new cap).Linked where
  nodes_nodup := List.nodup_nil
  keys_nodup := List.nodup_nil
  map_iff := by simp [new]
  node_lt := by simp [new]

variable {lru : LruCache}

@[simp]
theorem Linked.map_isSome_iff (linked : lru.Linked) (key : Nat) :
    (lru.map key).isSome ↔ key ∈ lru.keys := by
  simp only [Option.isSome_iff_exists, linked.map_iff, keys, List.mem_map, Prod.exists,
    exists_eq_right]

@[simp]
theorem Linked.map_eq_none_iff (linked : lru.Linked) (key : Nat) :
    lru.map key = none ↔ key ∉ lru.keys := by
  rw [← linked.map_isSome_iff, Option.not_isSome_iff_eq_none]

/-- A node determines its key. -/
theorem Linked.key_unique (linked : lru.Linked) {node key key' : Nat}
    (mem : (node, key) ∈ lru.cache) (mem' : (node, key') ∈ lru.cache) : key = key' :=
  congrArg Prod.snd (List.inj_on_of_nodup_map linked.nodes_nodup mem mem' rfl)

/-- A key determines its node. -/
theorem Linked.node_unique (linked : lru.Linked) {node node' key : Nat}
    (mem : (node, key) ∈ lru.cache) (mem' : (node', key) ∈ lru.cache) : node = node' :=
  congrArg Prod.fst (List.inj_on_of_nodup_map linked.keys_nodup mem mem' rfl)

theorem Linked.deref_eq (linked : lru.Linked) {node key : Nat}
    (mapped : lru.map key = some node) : lru.deref node = key := by
  have mem := (linked.map_iff key node).mp mapped
  have found : (lru.cache.find? fun entry => entry.1 == node).isSome := by
    rw [List.find?_isSome]
    exact ⟨(node, key), mem, beq_self_eq_true node⟩
  obtain ⟨⟨node', key'⟩, foundEq⟩ := Option.isSome_iff_exists.mp found
  have nodeEq : node' = node := by simpa using List.find?_some foundEq
  subst nodeEq
  have keyEq := linked.key_unique (List.mem_of_find?_eq_some foundEq) mem
  simp [deref, foundEq, keyEq]

/-! ## The operations keep list and map linked -/

/-- Erasing the node of `key` and unmapping `key`. -/
theorem Linked.unlink (linked : lru.Linked) {node key : Nat}
    (mapped : lru.map key = some node) :
    Linked { lru.erase node with map := Function.update lru.map key none } := by
  have mem := (linked.map_iff key node).mp mapped
  have sub : (lru.cache.filter (fun entry => entry.1 != node)).Sublist lru.cache :=
    List.filter_sublist
  refine ⟨linked.nodes_nodup.sublist (sub.map _), linked.keys_nodup.sublist (sub.map _),
    ?_, fun entry entryMem => linked.node_lt entry (sub.mem entryMem)⟩
  intro key' node'
  simp only [erase, List.mem_filter, bne_iff_ne, ne_eq, Function.update_apply]
  by_cases same : key' = key
  · subst same
    simp only [if_true, reduceCtorEq, false_iff, not_and, not_not]
    intro mem'
    exact linked.node_unique mem' mem
  · rw [if_neg same, linked.map_iff]
    constructor
    · intro mem'
      exact ⟨mem', fun nodeEq => same (linked.key_unique (nodeEq ▸ mem') mem)⟩
    · exact And.left

theorem keys_unlink (linked : lru.Linked) {node key : Nat}
    (mapped : lru.map key = some node) (key' : Nat) :
    key' ∈ (lru.erase node).keys ↔ key' ∈ lru.keys ∧ key' ≠ key := by
  have unlinked := linked.unlink mapped
  rw [← linked.map_isSome_iff]
  have same := unlinked.map_isSome_iff key'
  simp only [keys] at same ⊢
  rw [← same, Function.update_apply]
  by_cases keyEq : key' = key <;> simp [keyEq]

/-- Pushing an unmapped key. -/
theorem Linked.pushFront (linked : lru.Linked) {key : Nat} (absent : lru.map key = none) :
    (lru.pushFront key key).Linked := by
  have notMem := (linked.map_eq_none_iff key).mp absent
  have fresh : ∀ key', (lru.nextNode, key') ∉ lru.cache := fun key' mem =>
    Nat.lt_irrefl _ (linked.node_lt _ mem)
  refine ⟨?_, List.nodup_cons.mpr ⟨notMem, linked.keys_nodup⟩, ?_, ?_⟩
  · refine List.nodup_cons.mpr ⟨?_, linked.nodes_nodup⟩
    simpa using fresh
  · intro key' node'
    simp only [LruCache.pushFront, Function.update_apply, List.mem_cons, Prod.mk.injEq]
    by_cases same : key' = key
    · subst same
      have noOld : (node', key') ∉ lru.cache := fun mem =>
        notMem (List.mem_map.mpr ⟨_, mem, rfl⟩)
      simp [noOld, eq_comm]
    · simp [same, linked.map_iff]
  · intro entry mem
    rcases List.mem_cons.mp mem with rfl | mem
    · exact Nat.lt_succ_self _
    · exact Nat.lt_succ_of_lt (linked.node_lt entry mem)

@[simp]
theorem keys_pushFront (lru : LruCache) (key value : Nat) :
    (lru.pushFront key value).keys = value :: lru.keys :=
  rfl

/-- Pushing a mapped key after its node was erased overwrites the map entry. -/
theorem pushFront_unlink (lru : LruCache) (node key value : Nat) :
    (lru.erase node).pushFront key value =
      LruCache.pushFront { lru.erase node with map := Function.update lru.map key none }
        key value := by
  simp [LruCache.pushFront, erase]

theorem Linked.popBack (linked : lru.Linked) : lru.popBack.Linked := by
  unfold LruCache.popBack
  cases lastEq : lru.cache.getLast? with
  | none => exact linked
  | some last =>
      obtain ⟨node, key⟩ := last
      have split : lru.cache = lru.cache.dropLast ++ [(node, key)] :=
        (List.dropLast_append_getLast? _ lastEq).symm
      have mem : (node, key) ∈ lru.cache := List.mem_of_getLast? lastEq
      have mapped := (linked.map_iff key node).mpr mem
      have dropped : lru.cache.filter (fun entry => entry.1 != node) =
          lru.cache.dropLast := by
        have nodes := linked.nodes_nodup
        rw [split, List.map_append, List.nodup_append] at nodes
        conv_lhs => rw [split]
        rw [List.filter_append, List.filter_eq_self.mpr]
        · simp
        · intro entry entryMem
          have := nodes.2.2 entry.1 (List.mem_map.mpr ⟨entry, entryMem, rfl⟩) node (by simp)
          simpa using this
      have unlinked := linked.unlink mapped
      simpa only [erase, dropped] using unlinked

@[simp]
theorem keys_popBack (lru : LruCache) : lru.popBack.keys = lru.keys.dropLast := by
  unfold LruCache.popBack
  cases lastEq : lru.cache.getLast? with
  | none =>
      have : lru.cache = [] := List.getLast?_eq_none_iff.mp lastEq
      simp [keys, this]
  | some last => simp [keys, List.map_dropLast]

/-! ## What the operations do to the set of keys -/

theorem Linked.get (linked : lru.Linked) (key : Nat) : (lru.get key).2.Linked := by
  unfold LruCache.get
  cases mapped : lru.map key with
  | none => exact linked
  | some node =>
      simp only [linked.deref_eq mapped, pushFront_unlink]
      exact (linked.unlink mapped).pushFront (by simp)

@[simp]
theorem mem_keys_get (linked : lru.Linked) (key key' : Nat) :
    key' ∈ (lru.get key).2.keys ↔ key' ∈ lru.keys := by
  unfold LruCache.get
  cases mapped : lru.map key with
  | none => rfl
  | some node =>
      have mem : key ∈ lru.keys := (linked.map_isSome_iff key).mp (by simp [mapped])
      simp only [linked.deref_eq mapped, keys_pushFront, List.mem_cons,
        keys_unlink linked mapped]
      by_cases same : key' = key <;> simp [same, mem]

/-- A hit returns the key itself and a miss the all-ones value. -/
@[simp]
theorem get_eq_npos_iff (linked : lru.Linked) {key : Nat} (small : key ≠ npos) :
    (lru.get key).1 = npos ↔ key ∉ lru.keys := by
  unfold LruCache.get
  cases mapped : lru.map key with
  | none => simp [← linked.map_eq_none_iff, mapped]
  | some node =>
      have mem : key ∈ lru.keys := (linked.map_isSome_iff key).mp (by simp [mapped])
      simp [linked.deref_eq mapped, small, mem]

theorem Linked.put (linked : lru.Linked) (key : Nat) : (lru.put key).Linked := by
  unfold LruCache.put
  cases mapped : lru.map key with
  | none =>
      simp only
      split
      · apply linked.popBack.pushFront
        rw [linked.popBack.map_eq_none_iff, keys_popBack]
        exact fun mem => (linked.map_eq_none_iff key).mp mapped ((List.dropLast_sublist _).mem mem)
      · exact linked.pushFront mapped
  | some node =>
      simp only [pushFront_unlink]
      exact (linked.unlink mapped).pushFront (by simp)

/-- `put` adds only the key that it is given. -/
theorem mem_keys_put (linked : lru.Linked) {key key' : Nat}
    (mem : key' ∈ (lru.put key).keys) : key' = key ∨ key' ∈ lru.keys := by
  unfold LruCache.put at mem
  cases mapped : lru.map key with
  | none =>
      simp only [mapped, keys_pushFront, List.mem_cons] at mem
      refine mem.imp_right fun mem => ?_
      split at mem
      · rw [keys_popBack] at mem
        exact (List.dropLast_sublist _).mem mem
      · exact mem
  | some node =>
      simp only [mapped, keys_pushFront, List.mem_cons, keys_unlink linked mapped] at mem
      exact mem.imp_right And.left

theorem Linked.del (linked : lru.Linked) (key : Nat) : (lru.del key).Linked := by
  unfold LruCache.del
  cases mapped : lru.map key with
  | none => exact linked
  | some node => exact linked.unlink mapped

theorem mem_keys_del (linked : lru.Linked) (key key' : Nat) :
    key' ∈ (lru.del key).keys ↔ key' ∈ lru.keys ∧ key' ≠ key := by
  unfold LruCache.del
  cases mapped : lru.map key with
  | none =>
      have notMem := (linked.map_eq_none_iff key).mp mapped
      constructor
      · exact fun mem => ⟨mem, fun same => notMem (same ▸ mem)⟩
      · exact And.left
  | some node => exact keys_unlink linked mapped key'

end LruCache

end ZnsLsm.Pool
