import ZnsLsm.KeyedSet
import ZnsLsm.Pool.Operations
import ZnsLsm.Store.SkipList
import Mathlib.Data.Prod.Lex

/-!
# Tables

`Table` holds the entries of one file of the tree together with its range of keys,
its Bloom filter and its index.  A table asks the memory manager to write, read and
delete its file; the requests do not influence it, so the model records them: a
`Requests` lists them, newest first.
-/

namespace ZnsLsm.Store

open ZnsLsm.Pool (Op)

/-- What was asked of the memory manager, newest first. -/
abbrev Requests := List Op

/-! ## The hash function -/

/-- `rotl64`. -/
def rotl64 (x : UInt64) (r : UInt64) : UInt64 :=
  (x <<< r) ||| (x >>> (64 - r))

/-- `fmix64`. -/
def fmix64 (k : UInt64) : UInt64 :=
  let k := k ^^^ (k >>> 33)
  let k := k * 0xff51afd7ed558ccd
  let k := k ^^^ (k >>> 33)
  let k := k * 0xc4ceb9fe1a85ec53
  k ^^^ (k >>> 33)

/-- `MurmurHash3_x64_128` with seed 1 on the eight bytes of a key, as four words of 32
bits. -/
def murmurHash (key : Nat) : List Nat :=
  let k1 : UInt64 := .ofNat key
  let k1 := rotl64 (k1 * 0x87c37b91114253d5) 31 * 0x4cf5ad432745937f
  let h1 := (1 ^^^ k1) ^^^ 8
  let h2 : UInt64 := 1 ^^^ 8
  let h1 := h1 + h2
  let h2 := h2 + h1
  let h1 := fmix64 h1
  let h2 := fmix64 h2
  let h1 := h1 + h2
  let h2 := h2 + h1
  [h1.toNat % 2 ^ 32, h1.toNat / 2 ^ 32, h2.toNat % 2 ^ 32, h2.toNat / 2 ^ 32]

/-! ## The data of a table -/

structure Meta where
  timeStamp : Nat
  level : Nat
  order : Nat
  dataLength : Nat
  pairNum : Nat

structure Table where
  metaInfo : Meta
  minKey : Nat
  maxKey : Nat
  /-- The bits that are set. -/
  bloomFilter : Nat → Bool
  offset : List (Nat × Nat)
  keyValue : List (Nat × Str)

namespace Table

def getTimestamp (table : Table) : Nat := table.metaInfo.timeStamp

def getMinKey (table : Table) : Nat := table.minKey

def getMaxKey (table : Table) : Nat := table.maxKey

/-- What `operator<` compares: the time stamps, then the least keys. -/
def rank (table : Table) : Nat ×ₗ Nat :=
  toLex (table.getTimestamp, table.getMinKey)

/-- The name under which the memory manager knows the table. -/
def id (table : Table) : Nat × Nat :=
  (table.metaInfo.level, table.metaInfo.order)

/-- `bloomFilter.set`, for every word of the hash of a key. -/
def setBits (bits : Nat → Bool) (key : Nat) : Nat → Bool :=
  (murmurHash key).foldl
    (fun bits word => Function.update bits (word % (8 * filterSize)) true) bits

/-- The filter of a list of entries. -/
def bloom (entries : List (Nat × Str)) : Nat → Bool :=
  entries.foldl (fun bits entry => setBits bits entry.1) fun _ => false

/-- The start of the data area. -/
def dataArea (pairNum : Nat) : Nat :=
  (initialSize + pairNum * 12) % 2 ^ 32

/-- The index of the entries and the length of their data. `length` is what
`curlength` advances by for one entry. -/
def buildIndex (area : Nat) (length : Str → Nat) :
    Nat → List (Nat × Str) → List (Nat × Nat) × Nat
  | curlength, [] => ([], curlength)
  | curlength, (key, value) :: rest =>
      let (offset, dataLength) :=
        buildIndex area length ((curlength + length value) % 2 ^ 32) rest
      ((key, (area + curlength) % 2 ^ 32) :: offset, dataLength)

/-- What the two constructors have in common. -/
def build (level order timeStamp pairNum minKey maxKey : Nat) (length : Str → Nat)
    (entries : List (Nat × Str)) : Table :=
  let index := buildIndex (dataArea pairNum) length 0 entries
  { metaInfo :=
      { timeStamp := timeStamp % 2 ^ 32
        level := level
        order := order % 2 ^ 32
        dataLength := index.2
        pairNum := pairNum % 2 ^ 32 }
    minKey := minKey
    maxKey := maxKey
    bloomFilter := bloom entries
    offset := index.1
    keyValue := entries }

/-- The constructor from the memtable; `none` is `GetFirstNode()->right` without a
head.  The values are moved out of the nodes before their sizes are taken. -/
def ofMemTable (pool : Requests) (memTable : SkipList) (order : Nat) :
    Option (Table × SkipList × Requests) := do
  let nodes ← memTable.getFirstNode
  let (timeStamp, memTable) := memTable.getTimeStamp
  let table :=
    build 0 order timeStamp memTable.size memTable.minKey memTable.maxKey
      (fun _ => Str.empty.size + 1) nodes
  pure (table, memTable.clear, .writeTable 0 order :: pool)

/-- The constructor from merged entries; `none` is `begin` or `rbegin` of no entries. -/
def ofEntries (pool : Requests) (level order timeStamp numPair : Nat)
    (newTable : List (Nat × Str)) : Option (Table × Requests) := do
  let first ← newTable.head?
  let last ← newTable.getLast?
  let table :=
    build level order timeStamp numPair first.1 last.1 (fun value => value.size + 1) newTable
  pure (table, .writeTable level order :: pool)

/-! ## Lookups -/

/-- The loop of `search`. -/
def searchLoop (offset : List (Nat × Nat)) (target : Nat) : Nat → Int → Int → Int
  | 0, _, _ => -1
  | fuel + 1, low, high =>
      if low ≤ high then
        let mid := (high - low) / 2 + low
        let num := (offset.getD mid.toNat (0, 0)).1
        if num = target then mid
        else if target < num then searchLoop offset target fuel low (mid - 1)
        else searchLoop offset target fuel (mid + 1) high
      else
        -1

/-- `Table::search`.  The interval shrinks in every round, so the size of the index
bounds the number of rounds. -/
def search (table : Table) (target : Nat) : Int :=
  searchLoop table.offset target (table.offset.length + 1) 0 (table.offset.length - 1)

/-- `Table::getValue`. -/
def getValue (table : Table) (pool : Requests) (key : Nat) : Str × Requests :=
  if key < table.minKey ∨ table.maxKey < key then (.empty, pool)
  else if (murmurHash key).any fun word => !table.bloomFilter (word % (8 * filterSize)) then
    (.empty, pool)
  else if table.search key = -1 then (.empty, pool)
  else
    let index1 := (table.search key).toNat
    let index2 := index1 + 1
    let start := (table.offset.getD index1 (0, 0)).2
    let stop :=
      if index2 ≠ table.offset.length then (table.offset.getD index2 (0, 0)).2
      else (dataArea table.metaInfo.pairNum + table.metaInfo.dataLength) % 2 ^ 32
    let len := (((stop : Int) - start) % 2 ^ 32).toNat
    ((table.keyValue.getD index1 (0, .empty)).2,
      .getValue table.metaInfo.level table.metaInfo.order start len :: pool)

/-- `Table::traverse`. -/
def traverse (table : Table) (pool : Requests) : List (Nat × Str) × Requests :=
  (table.keyValue,
    .readTable table.metaInfo.level table.metaInfo.order
      (dataArea table.metaInfo.pairNum) table.metaInfo.dataLength :: pool)

/-- `Table::clear`. -/
def clear (table : Table) (pool : Requests) : Requests :=
  .deleteTable table.metaInfo.level table.metaInfo.order :: pool

end Table

end ZnsLsm.Store
