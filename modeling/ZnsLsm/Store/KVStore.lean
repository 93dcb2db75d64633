import ZnsLsm.Store.Table

/-!
# The store

`KVStore` collects writes in a memtable, flushes it into level 0, and merges levels
downwards when they hold too many tables.  A `priority_queue` hands out tables that
compare equal in no specified order; the operations take the order in which a queue
hands out its tables as the parameter `pops`.  The recursion of `compactionForLevel`
has no bound in the source and takes a fuel argument.
-/

namespace ZnsLsm.Store

open ZnsLsm.Pool (Op sstableSize)

/-- `UpperNum`. -/
def upperNum (i : Nat) : Nat := 3 ^ (i + 1)

/-- `Level0`. -/
def level0 : Nat := 3

/-- Why an operation does not return. -/
inductive Fault
  /-- `GetFirstNode()->right` of an empty memtable. -/
  | nullNode
  /-- `begin` or `rbegin` of no entries. -/
  | emptyTable
  /-- An iterator beyond the end of a set of tables. -/
  | pastEnd
  /-- The recursion or a loop ran longer than the fuel. -/
  | fuel
  deriving DecidableEq, Repr

structure KVStore where
  memTable : SkipList
  /-- The number of levels, which `Level` and `SSTable` have in common. -/
  depth : Nat
  /-- `Level`. -/
  levelNum : Nat → Nat
  /-- `SSTable`. -/
  ssTable : Nat → List Table
  memoryPool : Requests

/-! ## Merging -/

/-- The iterators over the merged tables and the smallest keys among their heads. An
iterator is the list of entries from its position on; one that was never assigned
is at the end. -/
structure Merge where
  iters : List (List (Nat × Str))
  minKey : List (Nat × Nat)

namespace Merge

/-- Skip the entries whose keys are in `minKey`. -/
def skip (minKey : List (Nat × Nat)) : List (Nat × Str) → List (Nat × Str)
  | [] => []
  | entry :: rest =>
      if (SortedMap.find entry.1 minKey).isSome then skip minKey rest else entry :: rest

/-- The loop that finds the first iterators, from the last table to the first. -/
def start : List (List (Nat × Str)) → Nat → Merge
  | [], _ => ⟨[], []⟩
  | entries :: tables, i =>
      let merge := start tables (i + 1)
      let iter := skip merge.minKey entries
      { iters := iter :: merge.iters
        minKey :=
          match iter with
          | [] => merge.minKey
          | entry :: _ => SortedMap.assign entry.1 i merge.minKey }

/-- `update`.  Every second round advances an iterator, so the entries that are left
bound the number of rounds. -/
def update : Nat → Nat → Merge → Except Fault Merge
  | 0, _, _ => throw .fuel
  | fuel + 1, index, merge =>
      match merge.iters.getD index [] with
      | [] => pure merge
      | (select, _) :: rest =>
          match SortedMap.find select merge.minKey with
          | none => pure { merge with minKey := SortedMap.assign select index merge.minKey }
          | some pos =>
              if pos < index then
                update fuel pos
                  { merge with minKey := SortedMap.assign select index merge.minKey }
              else
                update fuel index { merge with iters := merge.iters.set index rest }

/-- The entries that the iterators have not passed. -/
def left (merge : Merge) : Nat :=
  (merge.iters.map List.length).sum

end Merge

/-! ## Compaction -/

namespace KVStore

/-- The constructor. -/
def new : KVStore where
  memTable := .new
  depth := 1
  levelNum := fun _ => 0
  ssTable := fun _ => []
  memoryPool := []

/-- `KVStore::writeToFile`, which leaves no entries behind. -/
def writeToFile (store : KVStore) (level timeStamp numPair : Nat)
    (newTable : List (Nat × Str)) : Except Fault KVStore :=
  let order := store.levelNum level + 1
  match Table.ofEntries store.memoryPool level order timeStamp numPair newTable with
  | none => throw .emptyTable
  | some (table, pool) =>
      pure
        { store with
          levelNum := Function.update store.levelNum level order
          ssTable :=
            Function.update store.ssTable level
              (KeyedSet.emplace Table.rank table (store.ssTable level))
          memoryPool := pool }

/-- The output of a compaction: the store and the entries collected for the next
table, with the size that this table will have. -/
structure Output where
  store : KVStore
  size : Nat
  newTable : List (Nat × Str)

/-- Add one merged entry to the output. -/
def Output.add (level timestamp : Nat) (lastLevel : Bool) (out : Output)
    (entry : Nat × Str) : Except Fault Output :=
  if lastLevel && entry.2 = .del then
    pure out
  else
    let size := out.size + entrySize entry.2
    if sstableSize < size then do
      let store ← out.store.writeToFile level timestamp out.newTable.length out.newTable
      pure ⟨store, initialSize + entrySize entry.2, [entry]⟩
    else
      pure ⟨out.store, size, out.newTable ++ [entry]⟩

/-- Write the entries that are left at the end. -/
def Output.finish (level timestamp : Nat) (out : Output) : Except Fault KVStore :=
  match out.newTable with
  | [] => pure out.store
  | _ :: _ => out.store.writeToFile level timestamp out.newTable.length out.newTable

/-- The main loop of the merge.  Every round outputs an entry, so the entries that are
left bound the number of rounds. -/
def mergeLoop (level timestamp : Nat) (lastLevel : Bool) :
    Nat → Merge → Output → Except Fault Output
  | 0, _, _ => throw .fuel
  | fuel + 1, merge, out =>
      match merge.minKey with
      | [] => pure out
      | (tempKey, index) :: minKey =>
          match merge.iters.getD index [] with
          | [] => throw .pastEnd
          | (_, tempValue) :: rest => do
              let out ← out.add level timestamp lastLevel (tempKey, tempValue)
              let merge ← Merge.update (2 * merge.left + 1) index
                ⟨merge.iters.set index rest, minKey⟩
              mergeLoop level timestamp lastLevel fuel merge out

/-- The files of `level - 1` that `compactionForLevel(level)` picks: a number of the
first ones of the set. -/
def compactNum (store : KVStore) (level : Nat) : Nat :=
  if level = 1 then level0 + 1
  else (store.ssTable (level - 1)).length - upperNum (level - 1)

/-- The time stamp that the loop over the picked tables ends with. -/
def timestampOf (picked : List Table) : Nat :=
  picked.foldl (fun _ table => table.getTimestamp) 0

/-- The least and the greatest key of the picked tables. -/
def tempMin (picked : List Table) : Nat :=
  picked.foldl
    (fun least table => if table.getMinKey < least then table.getMinKey else least) int64Max

def tempMax (picked : List Table) : Nat :=
  picked.foldl
    (fun greatest table => if greatest < table.getMaxKey then table.getMaxKey else greatest) 0

/-- The tables of a level that meet the range of the picked tables. -/
def overlapping (picked tables : List Table) : List Table :=
  tables.filter fun table =>
    tempMin picked ≤ table.getMaxKey ∧ table.getMinKey ≤ tempMax picked

/-- Read the tables in the order in which the queue hands them out. -/
def traverseAll : List Table → Requests → List (List (Nat × Str)) × Requests
  | [], pool => ([], pool)
  | table :: tables, pool =>
      let (entries, pool) := table.traverse pool
      let (rest, pool) := traverseAll tables pool
      (entries :: rest, pool)

/-- Clear and erase the tables of a level that were merged. -/
def removeFiles (store : KVStore) (level : Nat) (files : List Table) : KVStore :=
  files.foldl
    (fun store file =>
      { store with
        memoryPool := file.clear store.memoryPool
        ssTable :=
          Function.update store.ssTable level
            (KeyedSet.erase Table.rank file (store.ssTable level)) })
    store

/-- The tables of `level - 1` that are merged into a level. -/
def picked (store : KVStore) (level : Nat) : List Table :=
  (store.ssTable (level - 1)).take (store.compactNum level)

/-- The tables of a level that they are merged with. -/
def overlapped (store : KVStore) (level : Nat) : List Table :=
  overlapping (store.picked level) (store.ssTable level)

/-- Make room for a level. -/
def openLevel (store : KVStore) (level : Nat) : KVStore :=
  if store.depth ≤ level then
    { store with
      depth := store.depth + 1
      levelNum := Function.update store.levelNum store.depth 0
      ssTable := Function.update store.ssTable store.depth [] }
  else
    store

/-- `compactionForLevel(level)` from the growth of the levels up to the removal of the
merged files. -/
def compactLevel (pops : List Table → List Table) (level : Nat) (store : KVStore) :
    Except Fault KVStore :=
  let store := store.openLevel level
  let lastLevel : Bool := level = store.depth - 1
  if (store.ssTable (level - 1)).length < store.compactNum level then
    throw .pastEnd
  else
    let picked := store.picked level
    let overlapped := store.overlapped level
    let timestamp := timestampOf picked
    let (tables, pool) := traverseAll (pops (picked ++ overlapped)) store.memoryPool
    do
      let out ← mergeLoop level timestamp lastLevel ((tables.map List.length).sum + 1)
        (Merge.start tables 0) ⟨{ store with memoryPool := pool }, initialSize, []⟩
      let store ← out.finish level timestamp
      pure ((store.removeFiles (level - 1) picked).removeFiles level overlapped)

/-- `KVStore::compactionForLevel`. -/
def compactionForLevel (pops : List Table → List Table) :
    Nat → Nat → KVStore → Except Fault KVStore
  | 0, _, _ => throw .fuel
  | fuel + 1, level, store =>
      if level ≠ 1 ∧ (store.ssTable (level - 1)).length ≤ upperNum (level - 1) then
        pure { store with memoryPool := .tryReset :: store.memoryPool }
      else do
        let store ← store.compactLevel pops level
        compactionForLevel pops fuel (level + 1) store

/-! ## The public operations -/

/-- How `memory` changes when an entry takes the place of the value `val`. -/
def charge (memory : Nat) (val s : Str) : Nat :=
  if val ≠ .empty then (((memory : Int) + s.size - val.size) % 2 ^ 64).toNat
  else (memory + entrySize s) % 2 ^ 64

/-- The flush in `put`: a table of the memtable enters level 0. -/
def flush (store : KVStore) (memTable : SkipList) : Except Fault KVStore :=
  let order := store.levelNum 0 + 1
  match Table.ofMemTable store.memoryPool memTable order with
  | none => throw .nullNode
  | some (table, memTable, pool) =>
      pure
        { store with
          memTable := memTable
          levelNum := Function.update store.levelNum 0 order
          ssTable :=
            Function.update store.ssTable 0
              (KeyedSet.emplace Table.rank table (store.ssTable 0))
          memoryPool := pool }

/-- The compaction in `put`, when level 0 holds too many tables. -/
def compact (pops : List Table → List Table) (fuel : Nat) (store : KVStore) :
    Except Fault KVStore :=
  if level0 < store.levelNum 0 then do
    let store ← compactionForLevel pops fuel 1 store
    pure { store with levelNum := Function.update store.levelNum 0 0 }
  else
    pure store

/-- `KVStore::put`. -/
def put (pops : List Table → List Table) (fuel : Nat) (store : KVStore) (key : Nat)
    (s : Str) : Except Fault KVStore :=
  let val := store.memTable.get key
  let memTable := { store.memTable with memory := charge store.memTable.memory val s }
  if sstableSize < memTable.memory then do
    let store ← store.flush memTable
    let memTable := { store.memTable with memory := charge store.memTable.memory val s }
    let store ← compact pops fuel { store with memTable := memTable }
    pure { store with memTable := store.memTable.put key s }
  else
    pure { store with memTable := memTable.put key s }

/-- The loop of `get` over tables. -/
def scan (key : Nat) : List Table → Requests → Str × Requests
  | [], pool => (.empty, pool)
  | table :: tables, pool =>
      let (ans, pool) := table.getValue pool key
      if ans ≠ .empty then (ans, pool) else scan key tables pool

/-- The tables in the order in which `get` asks them. -/
def tables (store : KVStore) : List Table :=
  (List.range store.depth).flatMap fun level => (store.ssTable level).reverse

/-- `KVStore::get`. -/
def get (store : KVStore) (key : Nat) : Str × KVStore :=
  let ans := store.memTable.get key
  if ans ≠ .empty then
    (if ans = .del then .empty else ans, store)
  else
    let (ans, pool) := scan key store.tables store.memoryPool
    (if ans = .del then .empty else ans, { store with memoryPool := pool })

/-- `KVStore::del`. -/
def del (pops : List Table → List Table) (fuel : Nat) (store : KVStore) (key : Nat) :
    Except Fault (Bool × KVStore) := do
  let (ans, store) := store.get key
  if ans ≠ .empty then
    let store ← store.put pops fuel key .del
    pure (true, store)
  else
    pure (false, store)

end KVStore

end ZnsLsm.Store
