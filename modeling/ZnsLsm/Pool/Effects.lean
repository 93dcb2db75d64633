import ZnsLsm.Outcome
import ZnsLsm.Pool.Manager

/-!
# What the steps of the memory manager change

Each helper of the manager changes a few fields and adds some calls.  The lemmas here
say which, as record updates, so that later proofs never unfold the helpers.
-/

namespace ZnsLsm.Pool

open ZnsLsm.Outcome

namespace MemoryManager

variable (m : MemoryManager)

/-! ## Single steps -/

@[simp]
theorem setMeta_self (zone : Nat) : m.setMeta zone (m.zoneMetas zone) = m := by
  rw [setMeta, Function.update_eq_self]

@[simp]
theorem setMeta_setMeta (zone : Nat) (first second : ZoneMeta) :
    (m.setMeta zone first).setMeta zone second = m.setMeta zone second := by
  simp [setMeta]

@[simp]
theorem setMeta_zoneMetas_self (zone : Nat) (zoneMeta : ZoneMeta) :
    (m.setMeta zone zoneMeta).zoneMetas zone = zoneMeta :=
  Function.update_self ..

@[simp]
theorem setMeta_zoneMetas_of_ne {zone other : Nat} (ne : other ≠ zone) (zoneMeta : ZoneMeta) :
    (m.setMeta zone zoneMeta).zoneMetas other = m.zoneMetas other :=
  Function.update_of_ne ne ..

/-- The calls that wait for the write of a table. -/
def waits (t : TableId) : List Call :=
  (m.completeTable t).toList.map Call.wait

theorem waitTable_eq (t : TableId) :
    m.waitTable t =
      { m with
        completeTable := Function.update m.completeTable t none
        calls := m.waits t ++ m.calls } := by
  cases kept : m.completeTable t with
  | none =>
      have same : Function.update m.completeTable t none = m.completeTable := by
        rw [← kept, Function.update_eq_self]
      simp [waitTable, waits, kept, same]
  | some ticket => simp [waitTable, waits, kept, call]

/-- The location that `mappingTable[level][num]` names. -/
def location (t : TableId) : Nat :=
  (m.mappingTable t).getD 0

theorem locate_eq (t : TableId) :
    m.locate t =
      (m.location t,
        { m with mappingTable := Function.update m.mappingTable t (some (m.location t)) }) := by
  cases known : m.mappingTable t with
  | none => simp [locate, location, known]
  | some s =>
      have same : Function.update m.mappingTable t (some s) = m.mappingTable := by
        rw [← known, Function.update_eq_self]
      simp [locate, location, known, same]

/-- The table that `remappingTable[s]` names. -/
def tableAt (s : Nat) : TableId :=
  (m.remappingTable s).getD (0, 0)

theorem occupant_eq (s : Nat) :
    m.occupant s =
      (m.tableAt s,
        { m with
          remappingTable := Function.update m.remappingTable s (some (m.tableAt s)) }) := by
  cases known : m.remappingTable s with
  | none => simp [occupant, tableAt, known]
  | some t =>
      have same : Function.update m.remappingTable s (some t) = m.remappingTable := by
        rw [← known, Function.update_eq_self]
      simp [occupant, tableAt, known, same]

theorem moveTable_eq (source table : Nat) :
    m.moveTable source table =
      { m with
        remappingTable :=
          Function.update (Function.update m.remappingTable source none) table
            (some (m.tableAt source))
        mappingTable := Function.update m.mappingTable (m.tableAt source) (some table)
        calls := .write table :: m.calls } := by
  rw [moveTable, occupant_eq]
  simp [call]

/-! ## Reading -/

/-- The request for one interval of pages. -/
def readCall (it : Nat × Nat) : Call :=
  .read ((it.2 - it.1 + 1) * pageSize) (it.1 * pageSize)

@[simp]
theorem foldl_readInterval (interval : List (Nat × Nat)) :
    interval.foldl readInterval m =
      { m with calls := (interval.map readCall).reverse ++ m.calls } := by
  induction interval generalizing m with
  | nil => rfl
  | cons it interval ih =>
      rw [List.foldl_cons, ih]
      simp [readInterval, call, readCall]

/-- What `getValue` does to the cache, and the intervals that it reads. -/
def lookup (s offset length : Nat) (lru : LruCache) : List (Nat × Nat) × LruCache :=
  let left := (s + offset) / pageSize
  let right := (s + offset + length) / pageSize
  let (count, page, lru) := skipCached (right + 1 - left) left lru
  fetchMissing count page npos npos [] lru

theorem getValue_eq {level : Nat} (known : level < m.levels) (num offset length : Nat) :
    m.getValue level num offset length =
      .ok
        { m with
          completeTable := Function.update m.completeTable (level, num) none
          mappingTable :=
            Function.update m.mappingTable (level, num) (some (m.location (level, num)))
          pageCache := (lookup (m.location (level, num)) offset length m.pageCache).2
          readNum :=
            (m.readNum +
              (lookup (m.location (level, num)) offset length m.pageCache).1.length) % 2 ^ 32
          calls :=
            ((lookup (m.location (level, num)) offset length m.pageCache).1.map
              readCall).reverse ++ (m.waits (level, num) ++ m.calls) } := by
  simp only [getValue, Nat.not_le.mpr known, if_false, waitTable_eq, locate_eq,
    foldl_readInterval]
  rfl

/-- The interval that `readTable` reads. -/
def tableCall (s offset length : Nat) : Call :=
  let left := (s + offset) / pageSize * pageSize
  let right :=
    if (s + offset + length) % sstableSize = 0 then s + offset + length
    else ((s + offset + length) / pageSize + 1) * pageSize
  .read (right - left) left

theorem readTable_eq {level : Nat} (known : level < m.levels) (num offset length : Nat) :
    m.readTable level num offset length =
      .ok
        { m with
          completeTable := Function.update m.completeTable (level, num) none
          mappingTable :=
            Function.update m.mappingTable (level, num) (some (m.location (level, num)))
          calls :=
            tableCall (m.location (level, num)) offset length ::
              (m.waits (level, num) ++ m.calls) } := by
  simp only [readTable, Nat.not_le.mpr known, if_false, waitTable_eq, locate_eq]
  rfl

/-! ## Deleting -/

/-- The state after the table `t` in slot `s` is deleted. -/
def dropTable (device : Device) (t : TableId) (s : Nat) : MemoryManager :=
  let order := s / device.zoneCap
  let zoneMeta := m.zoneMetas order
  { m with
    mappingTable := Function.update m.mappingTable t none
    remappingTable := Function.update m.remappingTable s none
    zoneMetas := Function.update m.zoneMetas order (zoneMeta.drop s)
    pageCache :=
      purge ((s + sstableSize) / pageSize + 1 - s / pageSize) (s / pageSize) m.pageCache
    toReset :=
      if zoneMeta.endPtr ≤ zoneMeta.writePtr then insert order m.toReset else m.toReset
    calls := if zoneMeta.writePtr ≤ s then .zoneErr .noTable :: m.calls else m.calls }

theorem deleteTable_eq (device : Device) {level : Nat} (known : level < m.levels) (num : Nat) :
    m.deleteTable device level num =
      if (m.completeTable (level, num)).isSome then
        .error ⟨.assertion, m⟩
      else
        .ok ((m.mappingTable (level, num)).elim m (m.dropTable device (level, num))) := by
  simp only [deleteTable, Nat.not_le.mpr known, if_false]
  split
  · rfl
  · cases m.mappingTable (level, num) with
    | none => rfl
    | some s =>
        simp only [Option.elim, dropTable]
        split <;> split <;> rfl

/-! ## Writing -/

/-- With a zone in the pool, `rollZone` returns and changes the zone fields only. -/
theorem rollZone_eq (wf : m.emptyZone.Wf) (nonempty : m.emptyZone.empty = false) (zone : Nat) :
    ∃ full opened pool,
      m.rollZone zone =
          .ok { m with fullZone := full, openZone := opened, emptyZone := pool } ∧
        m.fullZone ⊆ full := by
  obtain ⟨⟨next, pool⟩, got⟩ := Option.isSome_iff_exists.mp (wf.get_isSome nonempty)
  simp only [rollZone, nonempty, Bool.false_eq_true, if_false, got]
  split
  · exact ⟨_, _, _, rfl, Finset.subset_insert zone m.fullZone⟩
  · exact ⟨_, _, _, rfl, Finset.Subset.refl m.fullZone⟩

/-- The number of page tables once a table of a level was written. -/
def levelsWith (level : Nat) : Nat :=
  if m.levels < level + 1 then m.levels + 1 else m.levels

/-- The state after a table is entered and its write handed to a worker. -/
def entered (level num s : Nat) : MemoryManager :=
  { m with
    levels := m.levelsWith level
    mappingTable := Function.update m.mappingTable (level, num) (some s)
    remappingTable := Function.update m.remappingTable s (some (level, num))
    completeTable := Function.update m.completeTable (level, num) (some m.nextTicket)
    nextTicket := m.nextTicket + 1
    calls := .enqueue (m.whichZone + 1) m.nextTicket s :: m.calls }

theorem enterTable_eq (level num s : Nat) :
    m.enterTable level num s =
      if m.levelsWith level ≤ level then
        .error ⟨.noLevel, { m with levels := m.levelsWith level }⟩
      else
        .ok (m.entered level num s) :=
  rfl

/-- The state after `appendTable` has taken the next slot of its zone and has turned to the
next zone. -/
def turned (full : Finset Nat) (opened : List Nat) (pool : QueueCache) : MemoryManager :=
  let zone := m.openZone.getD m.whichZone 0
  { m.setMeta zone ((m.zoneMetas zone).grow 1) with
    fullZone := full
    openZone := opened
    emptyZone := pool
    whichZone := (m.whichZone + 1) % openZoneNum }

/-- With a zone in the pool, `appendTable` enters the table at the write pointer of its
zone, unless the level is too high. -/
theorem appendTable_ends {post : MemoryManager → Prop} {stop : Halt → Prop}
    (wf : m.emptyZone.Wf) (nonempty : m.emptyZone.empty = false) {level num : Nat}
    (entered : ∀ full opened pool, level < m.levelsWith level →
      post ((m.turned full opened pool).entered level num
        (m.zoneMetas (m.openZone.getD m.whichZone 0)).writePtr))
    (refused : ∀ full opened pool,
      stop ⟨.noLevel, { m.turned full opened pool with levels := m.levelsWith level }⟩) :
    Ends post stop (m.appendTable level num) := by
  rw [appendTable]
  dsimp only
  obtain ⟨full, opened, pool, rollEq, -⟩ :=
    (m.setMeta (m.openZone.getD m.whichZone 0)
      ((m.zoneMetas (m.openZone.getD m.whichZone 0)).grow 1)).rollZone_eq wf nonempty
      (m.openZone.getD m.whichZone 0)
  rw [rollEq]
  change Ends _ _ (enterTable _ level num _)
  rw [enterTable_eq]
  split
  · exact refused full opened pool
  · rename_i known
    exact entered full opened pool (Nat.lt_of_not_le known)

/-! ## Scanning a zone -/

/-- One visit of the scanning loop of `resetZone` to a slot that is not deleted. -/
def visit (table : Nat) : MemoryManager :=
  { m with
    remappingTable := Function.update m.remappingTable table (some (m.tableAt table))
    completeTable := Function.update m.completeTable (m.tableAt table) none
    calls := .read sstableSize table :: (m.waits (m.tableAt table) ++ m.calls) }

/-- What every visit preserves holds after the scan, for the slots that it collects. -/
theorem scanSlots_rule {P : List Nat → MemoryManager → Prop} {tables : List Nat}
    (step : ∀ {rewrite : List Nat} {m : MemoryManager} {table : Nat}, table ∈ tables →
      P rewrite m → P (rewrite ++ [table]) (m.visit table))
    (deleted rewrite : List Nat) {m : MemoryManager} (holds : P rewrite m) :
    P (scanSlots tables deleted rewrite m).1 (scanSlots tables deleted rewrite m).2 := by
  induction tables generalizing deleted rewrite m with
  | nil => exact holds
  | cons table tables ih =>
      have next : ∀ {rewrite' m' table'}, table' ∈ tables → P rewrite' m' →
          P (rewrite' ++ [table']) (m'.visit table') :=
        fun mem => step (List.mem_cons_of_mem table mem)
      simp only [scanSlots]
      split
      · exact ih next deleted.tail rewrite holds
      · simp only [occupant_eq, waitTable_eq]
        exact ih next deleted (rewrite ++ [table]) (step List.mem_cons_self holds)

/-- The scan of a zone, and its report of a wrong count. -/
theorem scanZone_eq (zone : Nat) :
    ∃ scan,
      scan = scanSlots (slots (m.zoneMetas zone))
          ((m.zoneMetas zone).deletedTable.insertionSort (· ≤ ·)) []
          (m.setMeta zone
            { m.zoneMetas zone with
              deletedTable := (m.zoneMetas zone).deletedTable.insertionSort (· ≤ ·) }) ∧
        m.scanZone zone =
          (scan.1,
            if scan.1.length ≠ (m.zoneMetas zone).validTableNum then
              scan.2.zoneErr .readValidWrong
            else
              scan.2) :=
  ⟨_, rfl, rfl⟩

/-- The scan of a zone ends in a state that every visit leads to, up to the report of
a wrong count. -/
theorem scanZone_rule {P : List Nat → MemoryManager → Prop} {zone : Nat}
    (start : P [] (m.setMeta zone
      { m.zoneMetas zone with
        deletedTable := (m.zoneMetas zone).deletedTable.insertionSort (· ≤ ·) }))
    (step : ∀ {rewrite : List Nat} {m' : MemoryManager} {table : Nat},
      table ∈ slots (m.zoneMetas zone) → P rewrite m' → P (rewrite ++ [table]) (m'.visit table)) :
    ∃ m', P (m.scanZone zone).1 m' ∧
      ((m.scanZone zone).2 = m' ∨ (m.scanZone zone).2 = m'.zoneErr .readValidWrong) := by
  obtain ⟨scan, scanDef, scanned⟩ := m.scanZone_eq zone
  have holds := scanSlots_rule step
    ((m.zoneMetas zone).deletedTable.insertionSort (· ≤ ·)) [] start
  rw [← scanDef] at holds
  rw [scanned]
  refine ⟨scan.2, holds, ?_⟩
  by_cases wrong : scan.1.length ≠ (m.zoneMetas zone).validTableNum
  · exact .inr (if_pos wrong)
  · exact .inl (if_neg wrong)

/-- With the deleted slots in order, the scan visits the other slots and collects them. -/
theorem scanSlots_sorted {P : List Nat → MemoryManager → Prop} {tables deleted : List Nat}
    (ascending : tables.Pairwise (· < ·)) (sorted : deleted.Pairwise (· < ·))
    (sub : ∀ s ∈ deleted, s ∈ tables)
    (step : ∀ {rewrite : List Nat} {m : MemoryManager} {table : Nat}, table ∈ tables →
      table ∉ deleted → P rewrite m → P (rewrite ++ [table]) (m.visit table))
    {rewrite : List Nat} {m : MemoryManager} (holds : P rewrite m) :
    (scanSlots tables deleted rewrite m).1 = rewrite ++ tables.filter (· ∉ deleted) ∧
      P (scanSlots tables deleted rewrite m).1 (scanSlots tables deleted rewrite m).2 := by
  induction tables generalizing deleted rewrite m with
  | nil => exact ⟨(List.append_nil rewrite).symm, holds⟩
  | cons table tables ih =>
      obtain ⟨above, ascending⟩ := List.pairwise_cons.mp ascending
      simp only [scanSlots]
      split
      · rename_i head
        obtain ⟨deleted, rfl⟩ : ∃ rest, deleted = table :: rest := by
          cases deleted with
          | nil => cases head
          | cons first rest => cases head; exact ⟨rest, rfl⟩
        obtain ⟨after, sorted⟩ := List.pairwise_cons.mp sorted
        have sub' : ∀ s ∈ deleted, s ∈ tables := fun s mem => by
          rcases List.mem_cons.mp (sub s (List.mem_cons_of_mem table mem)) with rfl | mem'
          · exact absurd (after s mem) (Nat.lt_irrefl s)
          · exact mem'
        have same : (table :: tables).filter (· ∉ table :: deleted) =
            tables.filter (· ∉ deleted) := by
          rw [List.filter_cons_of_neg (by simp)]
          refine List.filter_congr fun s mem => ?_
          have ne : s ≠ table := (above s mem).ne'
          simp [ne]
        rw [same, List.tail_cons]
        refine ih ascending sorted sub' (fun {rewrite' m' table'} mem notDeleted => ?_) holds
        refine step (List.mem_cons_of_mem table mem) fun mem' => ?_
        rcases List.mem_cons.mp mem' with rfl | mem'
        · exact absurd (above _ mem) (Nat.lt_irrefl _)
        · exact notDeleted mem'
      · rename_i head
        have notDeleted : table ∉ deleted := fun mem => by
          cases deleted with
          | nil => cases mem
          | cons first rest =>
              have firstMem := sub first List.mem_cons_self
              rcases List.mem_cons.mp mem with rfl | mem
              · exact head rfl
              · have lt := (List.pairwise_cons.mp sorted).1 table mem
                rcases List.mem_cons.mp firstMem with rfl | firstMem
                · exact Nat.lt_irrefl _ lt
                · exact Nat.lt_asymm lt (above first firstMem)
        have sub' : ∀ s ∈ deleted, s ∈ tables := fun s mem => by
          rcases List.mem_cons.mp (sub s mem) with rfl | mem'
          · exact absurd mem notDeleted
          · exact mem'
        simp only [occupant_eq, waitTable_eq]
        obtain ⟨list, result⟩ := ih ascending sorted sub'
          (fun {rewrite' m' table'} mem => step (List.mem_cons_of_mem table mem))
          (step List.mem_cons_self notDeleted holds)
        refine ⟨list.trans ?_, result⟩
        rw [List.filter_cons_of_pos (by simpa using notDeleted), List.append_assoc]
        rfl

end MemoryManager

end ZnsLsm.Pool
