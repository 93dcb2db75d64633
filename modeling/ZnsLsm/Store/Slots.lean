import ZnsLsm.Pool.Fetching
import ZnsLsm.Store.Extents
import ZnsLsm.Store.Index

/-!
# Requests stay in the slots of their tables

The extents that a table asks for come out of its index, so they end where its data end.
If every table leaves a byte of its slot free, no read of the store leaves the slot of its
table.  The account of the memtable does not ensure this (it is off after every flush), so
it is a condition on the puts that flush and on the files that a compaction writes.
-/

namespace ZnsLsm.Store

open ZnsLsm.Outcome ZnsLsm.Transition
open ZnsLsm.Pool (Op sstableSize)

/-- A request that the store may make: a read stays inside its table, and the eviction of
zones is left to the manager. -/
def OfStore (op : Op) : Prop :=
  op.InTable ∧ op ≠ .evictZone

namespace Table

variable {table : Table} {level : Nat}

/-- The index belongs to the entries, and the data end before the slot does. -/
structure StowedBy (length : Str → Nat) (table : Table) : Prop where
  lengthPos : ∀ value, 0 < length value
  indexed : table.Indexed length table.keyValue
  within : initialSize + 12 * table.keyValue.length + extent length table.keyValue < sstableSize

def Stowed (table : Table) : Prop :=
  ∃ length, table.StowedBy length

theorem stowed_build {order timeStamp minKey maxKey : Nat} {length : Str → Nat}
    {entries : List (Nat × Str)} (nonempty : entries ≠ []) (lengthPos : ∀ value, 0 < length value)
    (le : ∀ value, length value ≤ value.size + 1) (room : tableSize entries < sstableSize) :
    (build level order timeStamp entries.length minKey maxKey length entries).Stowed := by
  rw [tableSize_eq] at room
  have within : initialSize + 12 * entries.length + extent length entries < sstableSize :=
    Nat.lt_of_le_of_lt (Nat.add_le_add_left (extent_mono le entries) _) room
  have inWord : sstableSize ≤ 2 ^ 32 := by decide
  have inTable := Nat.le_of_lt (Nat.lt_of_lt_of_le within inWord)
  exact ⟨length, lengthPos, indexed_build nonempty lengthPos inTable, within⟩

/-- The request of `traverse` ends with the data. -/
theorem Stowed.traverse (stowed : table.Stowed) (nonempty : table.keyValue ≠ []) :
    (Op.readTable table.metaInfo.level table.metaInfo.order (dataArea table.metaInfo.pairNum)
      table.metaInfo.dataLength).InTable := by
  obtain ⟨length, lengthPos, indexed, within⟩ := stowed
  obtain ⟨entry, mem⟩ := List.exists_mem_of_ne_nil _ nonempty
  have positive : 0 < extent length table.keyValue :=
    Nat.lt_of_lt_of_le (lengthPos entry.2) (extent_le_of_mem mem)
  have area := indexed.area
  rw [indexed.pairNum, indexed.dataLength]
  exact ⟨positive, by omega⟩

/-- A lookup of a key that is not stored asks for nothing. -/
theorem Sound.getValue_absent (sound : table.Sound level) (pool : Requests) {key : Nat}
    (absent : SortedMap.find key table.keyValue = none) : (table.getValue pool key).2 = pool := by
  rw [Table.getValue]
  split
  · rfl
  · split
    · rfl
    · rcases sound.search key with ⟨missed, -⟩ | ⟨j, -, present⟩
      · rw [if_pos missed]
      · rw [absent] at present
        cases present

/-- The requests of a lookup end with a value. -/
theorem Stowed.getValue (stowed : table.Stowed) (sound : table.Sound level) (pool : Requests)
    (key : Nat) : ∀ op ∈ (table.getValue pool key).2, op ∈ pool ∨ OfStore op := by
  intro op mem
  cases found : SortedMap.find key table.keyValue with
  | none =>
      rw [sound.getValue_absent pool found] at mem
      exact .inl mem
  | some value =>
      obtain ⟨length, lengthPos, indexed, within⟩ := stowed
      obtain ⟨i, inside, at_i⟩ := List.getElem_of_mem (SortedMap.mem_of_find found)
      have at_i : table.keyValue[i]? = some (key, value) :=
        (List.getElem?_eq_getElem inside).trans (congrArg some at_i)
      obtain ⟨start, at_start⟩ : ∃ start, table.offset[i]? = some (key, start) := by
        rw [indexed.offset, at_i]
        exact ⟨_, rfl⟩
      have inWord : sstableSize ≤ 2 ^ 32 := by decide
      have described := sound.describedBy indexed (by omega)
      rw [described.asked pool i key start value at_i at_start] at mem
      rcases List.mem_cons.mp mem with rfl | old
      · right
        have area := indexed.area
        have startEq := indexed.start_eq at_start
        have stop : extent length (table.keyValue.take (i + 1)) =
            extent length (table.keyValue.take i) + length value := extent_take_succ at_i
        have inTotal : extent length (table.keyValue.take (i + 1)) ≤
            extent length table.keyValue := extent_take_le (i + 1)
        refine ⟨?_, by simp⟩
        change start + length value < sstableSize
        omega
      · exact .inl old

end Table

namespace KVStore

variable {pops : List Table → List Table} {store store' : KVStore} {level : Nat}

/-! ## Files and memtables that leave room -/

/-- What a put flushes and what a compaction writes leaves a byte of its slot free. -/
def Guard.stowed : Guard where
  puts store key s :=
    sstableSize < (store.charged key s).memory → tableSize store.memTable.nodes < sstableSize
  merges call := ∀ file ∈ call.store.outFiles call.pops call.level, tableSize file < sstableSize

instance (store : KVStore) (key : Nat) (s : Str) : Decidable (Guard.stowed.puts store key s) :=
  inferInstanceAs (Decidable (_ → _))

instance (call : CompactionCall) : Decidable (Guard.stowed.merges call) :=
  inferInstanceAs (Decidable (∀ file ∈ _, _))

theorem stowed_flushTable (sound : store.Sound) {key : Nat} {s : Str} (order : Nat)
    (nonempty : (store.charged key s).nodes ≠ [])
    (room : tableSize store.memTable.nodes < sstableSize) :
    (flushTable (store.charged key s) order).Stowed := by
  have size : (store.charged key s).size = (store.charged key s).nodes.length :=
    sound.memTable.size
  rw [flushTable, size]
  exact Table.stowed_build nonempty (fun _ => Nat.succ_pos _)
    (fun _ => Nat.succ_le_succ (Nat.zero_le _)) room

theorem stowed_outTables (nonempty : [] ∉ store.outFiles pops level)
    (room : ∀ file ∈ store.outFiles pops level, tableSize file < sstableSize) {table : Table}
    (mem : table ∈ store.outTables pops level) : table.Stowed := by
  obtain ⟨number, file, -, -, isFile, rfl⟩ := mem_fileTables mem
  have filled : file ≠ [] := fun empty => nonempty (empty ▸ isFile)
  exact Table.stowed_build filled (fun _ => Nat.succ_pos _) (fun _ => Nat.le_refl _)
    (room file isFile)

/-! ## The invariant -/

/-- Every table leaves room, and every request is one that the store may make. -/
structure Confined (store : KVStore) : Prop where
  tables : ∀ level, ∀ table ∈ store.ssTable level, table.Stowed
  requests : ∀ op ∈ store.memoryPool, OfStore op

/-- Only the tables and the requests matter. -/
theorem Confined.of_eq (confined : store.Confined) (tables : store'.ssTable = store.ssTable)
    (pool : store'.memoryPool = store.memoryPool) : store'.Confined where
  tables := tables ▸ confined.tables
  requests := pool ▸ confined.requests

theorem Confined.scan {tables : List Table} {pool : Requests} (key : Nat)
    (stowed : ∀ table ∈ tables, table.Stowed ∧ ∃ level, table.Sound level)
    (before : ∀ op ∈ pool, OfStore op) : ∀ op ∈ (scan key tables pool).2, OfStore op := by
  induction tables generalizing pool with
  | nil => exact before
  | cons table tables ih =>
      obtain ⟨room, level, sound⟩ := stowed table List.mem_cons_self
      have first : ∀ op ∈ (table.getValue pool key).2, OfStore op := fun op mem =>
        (room.getValue sound pool key op mem).elim (before op) id
      rw [KVStore.scan]
      dsimp only
      split
      · exact first
      · exact ih (fun other mem => stowed other (List.mem_cons_of_mem _ mem)) first

theorem Confined.get (confined : store.Confined) (sound : store.Sound) (key : Nat) :
    (store.get key).2.Confined := by
  rw [KVStore.get]
  dsimp only
  split
  · exact confined
  · refine ⟨confined.tables, Confined.scan key ?_ confined.requests⟩
    intro table mem
    obtain ⟨level, held⟩ := mem_tables mem
    exact ⟨confined.tables level table held, level, sound.tables level table held⟩

theorem Confined.flushed (confined : store.Confined) {list : SkipList}
    (room : (flushTable list (store.levelNum 0 + 1)).Stowed)
    (flushed : store.Flushed list store') : store'.Confined where
  tables level table mem := by
    rcases flushed.mem_cases mem with old | ⟨-, rfl⟩
    · exact confined.tables level table old
    · exact room
  requests op mem := by
    rw [flushed.memoryPool] at mem
    rcases List.mem_cons.mp mem with rfl | old
    · exact ⟨trivial, by simp⟩
    · exact confined.requests op old

theorem Confined.compacted (confined : store.Confined) (sound : store.Sound) (valid : Pops pops)
    (room : ∀ file ∈ store.outFiles pops level, tableSize file < sstableSize)
    (compacted : store.Compacted pops level store') : store'.Confined where
  tables other table mem := by
    rcases compacted.mem_cases mem with old | ⟨-, new⟩
    · exact confined.tables other table old
    · exact stowed_outTables compacted.nonempty room new
  requests op mem := by
    rw [compacted.memoryPool, writeRequests_eq, clearRequests_eq, clearRequests_eq] at mem
    simp only [List.mem_append] at mem
    rcases mem with cleared | cleared | written | read | old
    · obtain ⟨t, -, rfl⟩ := List.mem_map.mp cleared
      exact ⟨trivial, by simp⟩
    · obtain ⟨t, -, rfl⟩ := List.mem_map.mp cleared
      exact ⟨trivial, by simp⟩
    · obtain ⟨num, -, rfl⟩ := List.mem_map.mp written
      exact ⟨trivial, by simp⟩
    · obtain ⟨table, merged, rfl⟩ := mem_readRequests.mp read
      obtain ⟨other, held⟩ : ∃ other, table ∈ store.ssTable other := by
        rcases (mem_merging valid).mp merged with above | here
        · exact ⟨_, mem_picked above⟩
        · exact ⟨_, mem_overlapped here⟩
      exact ⟨(confined.tables other table held).traverse (sound.tables other table held).nonempty,
        by simp⟩
    · exact confined.requests op old

theorem Confined.step {guard : Guard} (stowed : ∀ {store key s}, guard.puts store key s →
    Guard.stowed.puts store key s) (merges : ∀ {call}, guard.merges call → Guard.stowed.merges call)
    {stage stage' : Stage} {action : Action} (confined : store.Confined)
    (known : StageSound stage store) (allowed : guard.stage (stage, store) action)
    (step : StageStep (stage, store) action (stage', store')) : store'.Confined := by
  obtain ⟨sound, range⟩ := known
  cases step with
  | write small => exact confined.of_eq rfl rfl
  | flush large ok =>
      have flushed := (flush_ends _ _).of_ok ok
      have room := stowed_flushTable sound (store.levelNum 0 + 1) flushed.nonempty
        (stowed allowed large)
      exact (confined.flushed room flushed).of_eq rfl rfl
  | skip room => exact confined
  | descend full => exact confined
  | merge valid overfull ok =>
      obtain ⟨pos, le⟩ := range rfl
      exact confined.compacted sound valid (merges allowed)
        ((sound.ordered.compactLevel valid pos le).of_ok ok)
  | stop notOverfull =>
      refine ⟨confined.tables, ?_⟩
      intro op mem
      rcases List.mem_cons.mp mem with rfl | old
      · exact ⟨trivial, by simp⟩
      · exact confined.requests op old
  | insert => exact confined.of_eq rfl rfl
  | get => exact confined.get sound _

/-- If every flush and every file leaves room in its slot, the requests stay in their slots. -/
theorem confined_of_stageRuns {guard : Guard} (stowed : ∀ {store key s},
    guard.puts store key s → Guard.stowed.puts store key s)
    (merges : ∀ {call}, guard.merges call → Guard.stowed.merges call) {stage : Stage}
    (reached : StageRuns guard stage store) : store.Confined := by
  refine System.invariant_of_reachable_with (K := fun state => StageSound state.1 state.2)
    (P := fun state => state.2.Confined) (fun _ before => stageSound_of_stageRuns before) ?_ ?_
    reached
  · rintro _ rfl
    refine ⟨fun level table mem => ?_, fun op mem => ?_⟩
    · cases mem
    · cases mem
  · rintro ⟨stage, store⟩ action ⟨stage', store'⟩ known confined ⟨allowed, step⟩
    exact confined.step stowed merges known allowed step

end KVStore

end ZnsLsm.Store
