import Mathlib.Data.Finset.Basic
import Mathlib.Data.List.Sort
import ZnsLsm.Pool.Cache
import ZnsLsm.Pool.Device
import ZnsLsm.Pool.ZoneQueue

/-!
# The memory manager

`MemoryManager` places tables into slots of zones, keeps track of which slots hold
live tables, and reclaims zones by relocating their live tables.  Its requests to
the simulator and to the thread pool do not influence it, so the model records
them: `calls` lists what the manager issued, newest first.

The iteration order of an `unordered_set` is unspecified; the operations that
iterate over one take the order as the parameter `iter`.  The eviction loop of
`writeTable` has no bound in the source and takes a fuel argument.
-/

namespace ZnsLsm.Pool

/-- A table is named by its level and its number within the level. -/
abbrev TableId := Nat × Nat

structure ZoneMeta where
  start : Nat
  writePtr : Nat
  endPtr : Nat
  validTableNum : Nat
  deletedTable : List Nat
  deriving DecidableEq, Repr

/-- Advance `write_ptr` and `valid_table_num` by a number of tables. -/
def ZoneMeta.grow (zoneMeta : ZoneMeta) (tables : Nat) : ZoneMeta :=
  { zoneMeta with
    writePtr := zoneMeta.writePtr + sstableSize * tables
    validTableNum := (zoneMeta.validTableNum + tables) % 2 ^ 16 }

/-- `valid_table_num--; deleted_table.emplace_back(s)`. -/
def ZoneMeta.drop (zoneMeta : ZoneMeta) (s : Nat) : ZoneMeta :=
  { zoneMeta with
    validTableNum :=
      if zoneMeta.validTableNum = 0 then 2 ^ 16 - 1 else zoneMeta.validTableNum - 1
    deletedTable := zoneMeta.deletedTable ++ [s] }

/-- The messages of `zone_err`. -/
inductive ZoneErr
  | noTable
  | zonesAllFull
  | notInFullQueue
  | readValidWrong
  deriving DecidableEq, Repr

/-- What the manager asks of the simulator and the thread pool. -/
inductive Call
  /-- `femu_read(len, offset)`. -/
  | read (len offset : Nat)
  /-- `femu_write` of one table on the calling thread. -/
  | write (offset : Nat)
  /-- `pool.enqueue(worker, femu_write, …)`; the ticket names its future. -/
  | enqueue (worker ticket offset : Nat)
  /-- `wait` on a future. -/
  | wait (ticket : Nat)
  /-- `femu_reset(len, offset)`. -/
  | reset (len offset : Nat)
  | zoneErr (err : ZoneErr)
  deriving DecidableEq, Repr

/-- Why an operation does not return. -/
inductive Stop
  /-- `exit(1)` because the live data exceed the capacity. -/
  | exit
  /-- The assertion of `deleteTable`. -/
  | assertion
  /-- `front` of an empty queue of the free pool. -/
  | emptyPool
  /-- `*full_zone.begin()` with no full zone. -/
  | noFullZone
  /-- A level beyond the page tables. -/
  | noLevel
  /-- The eviction loop ran longer than the fuel. -/
  | fuel
  deriving DecidableEq, Repr

structure MemoryManager where
  /-- `mappingTable`; both vectors of maps have `levels` entries. -/
  mappingTable : TableId → Option Nat
  remappingTable : Nat → Option TableId
  completeTable : TableId → Option Nat
  levels : Nat
  pageCache : LruCache
  zoneMetas : Nat → ZoneMeta
  openZone : List Nat
  whichZone : Nat
  emptyZone : QueueCache
  fullZone : Finset Nat
  toReset : Finset Nat
  resetTimes : Nat
  readNum : Nat
  nextTicket : Nat
  calls : List Call

/-- An operation that does not return, and the state in which it stopped. -/
structure Halt where
  stop : Stop
  state : MemoryManager

namespace MemoryManager

/-- Append a call to the record. -/
def call (m : MemoryManager) (c : Call) : MemoryManager :=
  { m with calls := c :: m.calls }

/-- `zone_err`. -/
def zoneErr (m : MemoryManager) (err : ZoneErr) : MemoryManager :=
  m.call (.zoneErr err)

def setMeta (m : MemoryManager) (zone : Nat) (zoneMeta : ZoneMeta) : MemoryManager :=
  { m with zoneMetas := Function.update m.zoneMetas zone zoneMeta }

/-- `wait` for the write of a table, if its future is still kept, and drop it. -/
def waitTable (m : MemoryManager) (t : TableId) : MemoryManager :=
  match m.completeTable t with
  | none => m
  | some ticket =>
      { m.call (.wait ticket) with
        completeTable := Function.update m.completeTable t none }

/-- `mappingTable[level][num]`, which inserts location 0 for an unknown table. -/
def locate (m : MemoryManager) (t : TableId) : Nat × MemoryManager :=
  match m.mappingTable t with
  | some s => (s, m)
  | none => (0, { m with mappingTable := Function.update m.mappingTable t (some 0) })

/-- `remappingTable[s]`, which inserts table `(0, 0)` for an unknown location. -/
def occupant (m : MemoryManager) (s : Nat) : TableId × MemoryManager :=
  match m.remappingTable s with
  | some t => (t, m)
  | none =>
      ((0, 0), { m with remappingTable := Function.update m.remappingTable s (some (0, 0)) })

/-! ## Construction -/

/-- Open `count` zones from the pool. -/
def openZones : Nat → QueueCache → Option (List Nat × QueueCache)
  | 0, pool => some ([], pool)
  | count + 1, pool => do
      let (zone, pool) ← pool.get
      let (zones, pool) ← openZones count pool
      pure (zone :: zones, pool)

/-- The constructor; `none` is `get` on an empty pool. -/
def new (device : Device) : Option MemoryManager := do
  let pool :=
    QueueCache.new device.queueNum (Flash.getZnsMeta device.toSsdConfig).zonesPerDie
      device.zoneNum
  let (zones, pool) ← openZones openZoneNum pool
  pure
    { mappingTable := fun _ => none
      remappingTable := fun _ => none
      completeTable := fun _ => none
      levels := 1
      pageCache := LruCache.new 64000
      zoneMetas := fun i =>
        { start := i * device.zoneCap
          writePtr := i * device.zoneCap
          endPtr := (i + 1) * device.zoneCap - 1
          validTableNum := 0
          deletedTable := [] }
      openZone := zones
      whichZone := 0
      emptyZone := pool
      fullZone := ∅
      toReset := ∅
      resetTimes := 0
      readNum := 0
      nextTicket := 0
      calls := [] }

/-! ## Reading -/

/-- The first loop of `getValue` over `count` pages: skip cached pages. -/
def skipCached : Nat → Nat → LruCache → Nat × Nat × LruCache
  | 0, page, lru => (0, page, lru)
  | count + 1, page, lru =>
      let (hit, lru) := lru.get page
      if hit = npos then (count + 1, page, lru) else skipCached count (page + 1) lru

/-- The second loop of `getValue`: cache the missing pages and collect the
intervals to read. -/
def fetchMissing : Nat → Nat → Nat → Nat → List (Nat × Nat) → LruCache →
    List (Nat × Nat) × LruCache
  | 0, _, batchLeft, batchRight, interval, lru =>
      (if batchLeft = npos then interval else interval ++ [(batchLeft, batchRight)], lru)
  | count + 1, page, batchLeft, batchRight, interval, lru =>
      let (hit, lru) := lru.get page
      if hit = npos then
        fetchMissing count (page + 1) (if batchLeft = npos then page else batchLeft) page
          interval (lru.put page)
      else if batchLeft ≠ npos then
        fetchMissing count (page + 1) npos batchRight
          (interval ++ [(batchLeft, batchRight)]) lru
      else
        fetchMissing count (page + 1) batchLeft batchRight interval lru

/-- Read one interval of pages. -/
def readInterval (m : MemoryManager) (it : Nat × Nat) : MemoryManager :=
  m.call (.read ((it.2 - it.1 + 1) * pageSize) (it.1 * pageSize))

/-- `MemoryManager::getValue`. -/
def getValue (m : MemoryManager) (level num offset length : Nat) :
    Except Halt MemoryManager :=
  if m.levels ≤ level then
    throw ⟨.noLevel, m⟩
  else
    let m := m.waitTable (level, num)
    let (s, m) := m.locate (level, num)
    let left := (s + offset) / pageSize
    let right := (s + offset + length) / pageSize
    let (count, page, lru) := skipCached (right + 1 - left) left m.pageCache
    let (interval, lru) := fetchMissing count page npos npos [] lru
    let m := interval.foldl readInterval { m with pageCache := lru }
    pure { m with readNum := (m.readNum + interval.length) % 2 ^ 32 }

/-- `MemoryManager::readTable`. -/
def readTable (m : MemoryManager) (level num offset length : Nat) :
    Except Halt MemoryManager :=
  if m.levels ≤ level then
    throw ⟨.noLevel, m⟩
  else
    let m := m.waitTable (level, num)
    let (s, m) := m.locate (level, num)
    let left := (s + offset) / pageSize * pageSize
    let right :=
      if (s + offset + length) % sstableSize = 0 then s + offset + length
      else ((s + offset + length) / pageSize + 1) * pageSize
    pure (m.call (.read (right - left) left))

/-! ## Deleting -/

/-- Drop the pages of `[page, page + count)` from the cache. -/
def purge : Nat → Nat → LruCache → LruCache
  | 0, _, lru => lru
  | count + 1, page, lru => purge count (page + 1) (lru.del page)

/-- `MemoryManager::deleteTable`. -/
def deleteTable (device : Device) (m : MemoryManager) (level num : Nat) :
    Except Halt MemoryManager :=
  if m.levels ≤ level then
    throw ⟨.noLevel, m⟩
  else if (m.completeTable (level, num)).isSome then
    throw ⟨.assertion, m⟩
  else
    match m.mappingTable (level, num) with
    | none => pure m
    | some s =>
        let m :=
          { m with
            mappingTable := Function.update m.mappingTable (level, num) none
            remappingTable := Function.update m.remappingTable s none }
        let order := s / device.zoneCap
        let zoneMeta := m.zoneMetas order
        let m := if zoneMeta.writePtr ≤ s then m.zoneErr .noTable else m
        let m := m.setMeta order (zoneMeta.drop s)
        let left := s / pageSize
        let right := (s + sstableSize) / pageSize
        let m := { m with pageCache := purge (right + 1 - left) left m.pageCache }
        pure
          (if zoneMeta.endPtr ≤ zoneMeta.writePtr then
            { m with toReset := insert order m.toReset }
          else m)

/-! ## Resetting zones -/

/-- The locations from `table` to `endPtr` in steps of `size`, at most `fuel` of them. -/
def slotsFrom (size endPtr : Nat) : Nat → Nat → List Nat
  | 0, _ => []
  | fuel + 1, table =>
      if table < endPtr then table :: slotsFrom size endPtr fuel (table + size) else []

/-- The slots that the scanning loop of `resetZone` visits. -/
def slots (zoneMeta : ZoneMeta) : List Nat :=
  slotsFrom sstableSize zoneMeta.endPtr (zoneMeta.endPtr - zoneMeta.start) zoneMeta.start

/-- The scanning loop of `resetZone`: walk the slots against the sorted deleted
slots, wait for and read the tables of the others, and collect them. -/
def scanSlots : List Nat → List Nat → List Nat → MemoryManager → List Nat × MemoryManager
  | [], _, rewrite, m => (rewrite, m)
  | table :: rest, deleted, rewrite, m =>
      if deleted.head? = some table then
        scanSlots rest deleted.tail rewrite m
      else
        let (it, m) := m.occupant table
        let m := (m.waitTable it).call (.read sstableSize table)
        scanSlots rest deleted (rewrite ++ [table]) m

/-- Move the table in slot `source` to slot `table`. -/
def moveTable (m : MemoryManager) (source table : Nat) : MemoryManager :=
  let (it, m) := m.occupant source
  let m :=
    { m with
      remappingTable :=
        Function.update (Function.update m.remappingTable source none) table (some it)
      mappingTable := Function.update m.mappingTable it (some table) }
  m.call (.write table)

/-- The inner loop of the relocation: fill slots from `table` up to `endPtr`.  The
first component is the advanced index `i`. -/
def fillZone (endPtr : Nat) : List Nat → Nat → Nat → MemoryManager → Nat × MemoryManager
  | [], _, i, m => (i, m)
  | source :: rest, table, i, m =>
      if table < endPtr then
        fillZone endPtr rest (table + sstableSize) (i + 1) (m.moveTable source table)
      else
        (i, m)

/-- The outer loop of the relocation.  Every round takes a zone from the pool and
only the last one may return it, so the pool bounds the number of rounds. -/
def relocate (rewrite : List Nat) : Nat → Nat → Nat → MemoryManager →
    Except Halt MemoryManager
  | 0, _, _, m => throw ⟨.fuel, m⟩
  | fuel + 1, i, prev, m =>
      if rewrite.length ≤ i then
        pure m
      else if m.emptyZone.empty then
        throw ⟨.exit, m⟩
      else
        match m.emptyZone.get with
        | none => throw ⟨.emptyPool, m⟩
        | some (toZone, pool) =>
            let m := { m with emptyZone := pool }
            let toMeta := m.zoneMetas toZone
            let (i, m) := fillZone toMeta.endPtr (rewrite.drop i) toMeta.writePtr i m
            let toMeta := toMeta.grow (i - prev)
            let m := m.setMeta toZone toMeta
            if toMeta.endPtr ≤ toMeta.writePtr then
              relocate rewrite fuel i i { m with fullZone := insert toZone m.fullZone }
            else
              relocate rewrite fuel i prev { m with emptyZone := m.emptyZone.put toZone }

/-- The first half of emptying a zone: sort its deleted slots, read its live tables,
and check their number. -/
def scanZone (m : MemoryManager) (zone : Nat) : List Nat × MemoryManager :=
  let zoneMeta := m.zoneMetas zone
  let sorted := zoneMeta.deletedTable.insertionSort (· ≤ ·)
  let m := m.setMeta zone { zoneMeta with deletedTable := sorted }
  let scan := scanSlots (slots zoneMeta) sorted [] m
  (scan.1,
    if scan.1.length ≠ zoneMeta.validTableNum then scan.2.zoneErr .readValidWrong else scan.2)

/-- The part of `resetZone` that empties a zone of its live tables. -/
def rewriteZone (m : MemoryManager) (zone : Nat) : Except Halt MemoryManager :=
  let scan := m.scanZone zone
  relocate scan.1 (scan.2.emptyZone.size + 2) 0 0 scan.2

/-- The part of `resetZone` that erases an emptied zone. -/
def eraseZone (device : Device) (m : MemoryManager) (zone : Nat) : MemoryManager :=
  let zoneMeta := m.zoneMetas zone
  let m := m.call (.reset device.zoneCap zoneMeta.start)
  let m := m.setMeta zone
    { zoneMeta with writePtr := zoneMeta.start, validTableNum := 0, deletedTable := [] }
  { m with
    emptyZone := m.emptyZone.put zone
    fullZone := m.fullZone.erase zone
    resetTimes := m.resetTimes + 1 }

/-- `MemoryManager::resetZone`.  The rate is the quotient of `validTableNum` and the
slots of a zone. -/
def resetZone (device : Device) (m : MemoryManager) (zone : Nat) (force : Bool) :
    Except Halt MemoryManager :=
  let zoneMeta := m.zoneMetas zone
  if zoneMeta.writePtr < zoneMeta.endPtr then
    pure m
  else
    let m := if zone ∈ m.fullZone then m else m.zoneErr .notInFullQueue
    let maximumTable := device.zoneCap / sstableSize
    if zoneMeta.validTableNum = maximumTable then
      if force then throw ⟨.exit, m⟩ else pure m
    else if zoneMeta.validTableNum * 5 < maximumTable ∨ force then do
      let m ← if zoneMeta.validTableNum ≠ 0 then m.rewriteZone zone else pure m
      pure (m.eraseZone device zone)
    else
      pure m

/-- The loop of `tryReset`, in the order in which the set is iterated. -/
def resetZones (device : Device) : List Nat → MemoryManager → Except Halt MemoryManager
  | [], m => pure m
  | zone :: zones, m => do
      let m ← m.resetZone device zone false
      resetZones device zones m

/-- `MemoryManager::tryReset`. -/
def tryReset (device : Device) (iter : Finset Nat → List Nat) (m : MemoryManager) :
    Except Halt MemoryManager := do
  let m ← resetZones device (iter m.toReset) m
  pure { m with toReset := ∅ }

/-- The choice of `evictZone`: the first zone of least rate among those below
`minRate`, which counts valid tables. -/
def leastRate (zoneMetas : Nat → ZoneMeta) : List Nat → Nat → Nat → Nat
  | [], _, toReset => toReset
  | zone :: zones, minRate, toReset =>
      let rate := (zoneMetas zone).validTableNum
      if rate < minRate then leastRate zoneMetas zones rate zone
      else leastRate zoneMetas zones minRate toReset

/-- `MemoryManager::evictZone`. -/
def evictZone (device : Device) (iter : Finset Nat → List Nat) (m : MemoryManager) :
    Except Halt MemoryManager :=
  if m.toReset ≠ ∅ then
    m.tryReset device iter
  else
    match iter m.fullZone with
    | [] => throw ⟨.noFullZone, m⟩
    | first :: rest =>
        m.resetZone device
          (leastRate m.zoneMetas (first :: rest) (device.zoneCap / sstableSize) first) true

/-- The eviction loop of `writeTable`: while less than 5% of the zones are free. -/
def evictLoop (device : Device) (iter : Finset Nat → List Nat) :
    Nat → MemoryManager → Except Halt MemoryManager
  | 0, m => throw ⟨.fuel, m⟩
  | fuel + 1, m =>
      if m.emptyZone.size * 20 < device.zoneNum then do
        let m ← m.evictZone device iter
        evictLoop device iter fuel m
      else
        pure m

/-! ## Writing -/

/-- Replace an open zone that has become full by one from the pool. -/
def rollZone (m : MemoryManager) (zone : Nat) : Except Halt MemoryManager :=
  if (m.zoneMetas zone).endPtr ≤ (m.zoneMetas zone).writePtr then
    let m := { m with fullZone := insert zone m.fullZone }
    let m := if m.emptyZone.empty then m.zoneErr .zonesAllFull else m
    match m.emptyZone.get with
    | none => throw ⟨.emptyPool, m⟩
    | some (next, pool) =>
        pure { m with emptyZone := pool, openZone := m.openZone.set m.whichZone next }
  else
    pure m

/-- Enter a table into the page tables and hand its write to a worker. -/
def enterTable (m : MemoryManager) (level num s : Nat) : Except Halt MemoryManager :=
  let m := { m with levels := if m.levels < level + 1 then m.levels + 1 else m.levels }
  if m.levels ≤ level then
    throw ⟨.noLevel, m⟩
  else
    let m :=
      { m with
        mappingTable := Function.update m.mappingTable (level, num) (some s)
        remappingTable := Function.update m.remappingTable s (some (level, num))
        completeTable := Function.update m.completeTable (level, num) (some m.nextTicket)
        nextTicket := m.nextTicket + 1 }
    pure (m.call (.enqueue (m.whichZone + 1) (m.nextTicket - 1) s))

/-- The part of `writeTable` after the eviction loop. -/
def appendTable (m : MemoryManager) (level num : Nat) : Except Halt MemoryManager := do
  let zone := m.openZone.getD m.whichZone 0
  let s := (m.zoneMetas zone).writePtr
  let m := m.setMeta zone ((m.zoneMetas zone).grow 1)
  let m ← m.rollZone zone
  let m := { m with whichZone := (m.whichZone + 1) % openZoneNum }
  m.enterTable level num s

/-- `MemoryManager::writeTable`. -/
def writeTable (device : Device) (iter : Finset Nat → List Nat) (fuel : Nat)
    (m : MemoryManager) (level num : Nat) : Except Halt MemoryManager := do
  let m ← evictLoop device iter fuel m
  m.appendTable level num

end MemoryManager

end ZnsLsm.Pool
