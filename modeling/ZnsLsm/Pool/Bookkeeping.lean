import Mathlib.Data.Set.Card
import ZnsLsm.PartialInverse
import ZnsLsm.Pool.Roles

/-!
# The bookkeeping of locations

`mappingTable` and `remappingTable` are inverse to each other, live tables are in
written slots, and every zone counts its live tables and lists its dead slots.  While
a zone is being emptied, its record is stale, and the slots still to move are its live
slots.
-/

namespace ZnsLsm.Pool

open ZnsLsm.Outcome ZnsLsm.PartialInverse ZnsLsm.Transition

/-! ## The slots of a zone -/

theorem MemoryManager.slotsFrom_eq {size endPtr room : Nat} (large : 2 ≤ size) (fuel : Nat)
    {table : Nat} (space : endPtr + 1 = table + size * room) (enough : room ≤ fuel) :
    slotsFrom size endPtr fuel table = (List.range room).map (table + size * ·) := by
  induction fuel generalizing table room with
  | zero =>
      obtain rfl : room = 0 := Nat.le_zero.mp enough
      rfl
  | succ fuel ih =>
      cases room with
      | zero =>
          rw [slotsFrom, if_neg (by omega)]
          rfl
      | succ room =>
          rw [Nat.mul_succ] at space
          have next := ih (show endPtr + 1 = table + size + size * room by omega)
            (Nat.le_of_succ_le_succ enough)
          rw [slotsFrom, if_pos (by omega), next, List.range_succ_eq_map, List.map_cons,
            List.map_map, Nat.mul_zero, Nat.add_zero]
          refine congrArg _ (List.map_congr_left fun k _ => ?_)
          simp only [Function.comp_apply, Nat.mul_succ]
          omega

namespace ZoneMeta

variable {device : Device} {zone : Nat} {zoneMeta : ZoneMeta}

theorem Placed.slots_eq (placed : zoneMeta.Placed device zone) :
    MemoryManager.slots zoneMeta = (List.range device.tables).map (device.slot zone) := by
  have large : 2 ≤ sstableSize := by decide
  have capEq := device.zoneCap_eq
  have cap : zoneMeta.endPtr + 1 = zoneMeta.start + sstableSize * device.tables := by
    have capPos := device.zoneCap_pos
    rw [placed.end_eq, placed.start_eq, Nat.succ_mul, Nat.mul_comm sstableSize, ← capEq]
    omega
  have enough : device.tables ≤ zoneMeta.endPtr - zoneMeta.start := by
    have tablesPos := device.tables_pos
    have many : 2 * device.tables ≤ sstableSize * device.tables :=
      Nat.mul_le_mul_right _ large
    omega
  rw [MemoryManager.slots, MemoryManager.slotsFrom_eq large _ cap enough]
  refine List.map_congr_left fun k _ => ?_
  rw [Device.slot, placed.start_eq]

theorem Placed.writePtr_eq (placed : zoneMeta.Placed device zone) :
    zoneMeta.writePtr = device.slot zone zoneMeta.used := by
  rw [placed.write_eq, placed.start_eq, Device.slot]

end ZoneMeta

namespace MemoryManager

/-- The location is a slot that was written since the last reset of the zone. -/
def Written (device : Device) (m : MemoryManager) (zone s : Nat) : Prop :=
  ∃ k < (m.zoneMetas zone).used, s = device.slot zone k

/-- The written slots of a zone in order. -/
def writtenSlots (device : Device) (m : MemoryManager) (zone : Nat) : List Nat :=
  (List.range (m.zoneMetas zone).used).map (device.slot zone)

@[simp]
theorem mem_writtenSlots {device : Device} {m : MemoryManager} {zone s : Nat} :
    s ∈ m.writtenSlots device zone ↔ m.Written device zone s := by
  simp only [writtenSlots, Written, List.mem_map, List.mem_range, eq_comm]

/-! ## The invariant -/

/-- The invariant; `leaving` is a zone being emptied and `rest` are its slots still to
move. -/
structure Books (device : Device) (leaving : Option Nat) (rest : List Nat)
    (m : MemoryManager) : Prop where
  inverse : Inverse m.mappingTable m.remappingTable
  written : ∀ {t s}, m.mappingTable t = some s →
    ∃ zone < device.zoneNum, m.Written device zone s
  counted : ∀ {zone}, leaving ≠ some zone →
    (m.zoneMetas zone).validTableNum + (m.zoneMetas zone).deletedTable.length =
      (m.zoneMetas zone).used
  distinct : ∀ {zone}, leaving ≠ some zone → (m.zoneMetas zone).deletedTable.Nodup
  deleted : ∀ {zone s}, leaving ≠ some zone →
    (s ∈ (m.zoneMetas zone).deletedTable ↔
      m.Written device zone s ∧ m.remappingTable s = none)
  rest_nodup : rest.Nodup
  mem_rest : ∀ {zone s}, leaving = some zone →
    (s ∈ rest ↔ m.Written device zone s ∧ m.remappingTable s ≠ none)
  clean : ∀ err, .zoneErr err ∉ m.calls

section Books

variable {device : Device} {hand leaving : Option Nat} {rest : List Nat} {m : MemoryManager}

theorem Roles.used_le (roles : m.Roles device hand) (zone : Nat) :
    (m.zoneMetas zone).used ≤ device.tables :=
  (roles.placed zone).used_le

/-- A slot is a written slot of one zone only. -/
theorem Roles.written_unique (roles : m.Roles device hand) {zone zone' s : Nat}
    (written : m.Written device zone s) (written' : m.Written device zone' s) :
    zone = zone' := by
  obtain ⟨k, lt, rfl⟩ := written
  obtain ⟨k', lt', same⟩ := written'
  exact (device.slot_injective (Nat.lt_of_lt_of_le lt (roles.used_le zone))
    (Nat.lt_of_lt_of_le lt' (roles.used_le zone')) same).1

/-- The write pointer of a zone with room is not a written slot. -/
theorem Roles.writePtr_not_written (roles : m.Roles device hand) {zone : Nat}
    (room : (m.zoneMetas zone).used < device.tables) (zone' : Nat) :
    ¬m.Written device zone' (m.zoneMetas zone).writePtr := by
  rintro ⟨k, lt, same⟩
  rw [(roles.placed zone).writePtr_eq] at same
  obtain ⟨rfl, rfl⟩ := device.slot_injective room
    (Nat.lt_of_lt_of_le lt (roles.used_le zone')) same
  exact Nat.lt_irrefl _ lt

theorem Books.live_written (books : m.Books device leaving rest) {s : Nat}
    (live : m.remappingTable s ≠ none) : ∃ zone < device.zoneNum, m.Written device zone s := by
  obtain ⟨t, at_s⟩ := Option.ne_none_iff_exists'.mp live
  exact books.written ((books.inverse t s).mpr at_s)

/-- Nothing is stored at the write pointer of a zone with room. -/
theorem Books.free_at_writePtr (books : m.Books device leaving rest)
    (roles : m.Roles device hand) {zone : Nat}
    (room : (m.zoneMetas zone).used < device.tables) :
    m.remappingTable (m.zoneMetas zone).writePtr = none := by
  by_contra live
  obtain ⟨zone', -, written⟩ := books.live_written live
  exact roles.writePtr_not_written room zone' written

/-! ## Placing a table -/

/-- The written slots after a zone grows by a table. -/
theorem Roles.written_grow (roles : m.Roles device hand) {m' : MemoryManager} {toZone : Nat}
    (metas : m'.zoneMetas =
      Function.update m.zoneMetas toZone ((m.zoneMetas toZone).grow 1)) (zone s : Nat) :
    m'.Written device zone s ↔
      m.Written device zone s ∨ zone = toZone ∧ s = (m.zoneMetas toZone).writePtr := by
  by_cases same : zone = toZone
  · subst same
    simp only [Written, metas, Function.update_self, (roles.placed zone).used_grow,
      (roles.placed zone).writePtr_eq, Nat.lt_succ_iff_lt_or_eq, true_and]
    constructor
    · rintro ⟨k, lt | rfl, rfl⟩
      · exact .inl ⟨k, lt, rfl⟩
      · exact .inr rfl
    · rintro (⟨k, lt, rfl⟩ | rfl)
      · exact ⟨k, .inl lt, rfl⟩
      · exact ⟨_, .inr rfl, rfl⟩
  · simp [Written, metas, same]

/-- The books depend on the tables, the zone records and the reported errors only. -/
theorem Books.congr (books : m.Books device leaving rest) {m' : MemoryManager}
    (mapping : m'.mappingTable = m.mappingTable)
    (remapping : m'.remappingTable = m.remappingTable) (metas : m'.zoneMetas = m.zoneMetas)
    (clean : ∀ err, .zoneErr err ∉ m'.calls) : m'.Books device leaving rest where
  inverse := mapping ▸ remapping ▸ books.inverse
  written located := by
    simp only [Written, metas]
    rw [mapping] at located
    exact books.written located
  counted := by
    rw [metas]
    exact books.counted
  distinct := by
    rw [metas]
    exact books.distinct
  deleted := by
    simp only [Written, metas, remapping]
    exact books.deleted
  rest_nodup := books.rest_nodup
  mem_rest := by
    simp only [Written, metas, remapping]
    exact books.mem_rest
  clean := clean

theorem deletedTable_grow {toZone : Nat} {m' : MemoryManager}
    (metas : m'.zoneMetas =
      Function.update m.zoneMetas toZone ((m.zoneMetas toZone).grow 1)) (zone : Nat) :
    (m'.zoneMetas zone).deletedTable = (m.zoneMetas zone).deletedTable := by
  rw [metas]
  by_cases same : zone = toZone
  · subst same
    rw [Function.update_self]
    rfl
  · rw [Function.update_of_ne same]

/-- The slot that a zone gives away holds a valid table. -/
theorem Books.counted_grow {toZone zone : Nat} {m' : MemoryManager}
    (books : m.Books device leaving rest) (roles : m.Roles device hand)
    (room : (m.zoneMetas toZone).used < device.tables)
    (metas : m'.zoneMetas =
      Function.update m.zoneMetas toZone ((m.zoneMetas toZone).grow 1))
    (notLeaving : leaving ≠ some zone) :
    (m'.zoneMetas zone).validTableNum + (m.zoneMetas zone).deletedTable.length =
      (m'.zoneMetas zone).used := by
  have counted := books.counted notLeaving
  have tablesLt := device.tables_lt
  rw [metas]
  by_cases same : zone = toZone
  · subst same
    rw [Function.update_self, (roles.placed zone).used_grow]
    change (_ + 1) % 2 ^ 16 + _ = _
    rw [Nat.mod_eq_of_lt (by omega)]
    omega
  · rw [Function.update_of_ne same]
    exact counted

/-- A table that is stored nowhere goes to the write pointer of a zone with room. -/
theorem Books.put {toZone : Nat} {t : TableId} {m' : MemoryManager}
    (books : m.Books device leaving rest) (roles : m.Roles device hand)
    (lt : toZone < device.zoneNum) (other : leaving ≠ some toZone)
    (room : (m.zoneMetas toZone).used < device.tables) (unmapped : m.mappingTable t = none)
    (mapping : m'.mappingTable =
      Function.update m.mappingTable t (some (m.zoneMetas toZone).writePtr))
    (remapping : m'.remappingTable =
      Function.update m.remappingTable (m.zoneMetas toZone).writePtr (some t))
    (metas : m'.zoneMetas =
      Function.update m.zoneMetas toZone ((m.zoneMetas toZone).grow 1))
    (clean : ∀ err, .zoneErr err ∉ m'.calls) : m'.Books device leaving rest := by
  have free := books.free_at_writePtr roles room
  have unwritten := roles.writePtr_not_written room
  have written := roles.written_grow metas
  have elsewhere : ∀ {s zone}, m.Written device zone s →
      m'.remappingTable s = m.remappingTable s := by
    intro s zone written'
    have ne : s ≠ (m.zoneMetas toZone).writePtr := fun eq => unwritten zone (eq ▸ written')
    rw [remapping, Function.update_of_ne ne]
  have deletedEq := deletedTable_grow metas
  exact
    { inverse := by
        rw [mapping, remapping]
        exact books.inverse.enter unmapped free
      written := fun {t' s} located => by
        rw [mapping] at located
        by_cases same : t' = t
        · subst same
          rw [Function.update_self] at located
          cases located
          exact ⟨toZone, lt, (written toZone _).mpr (.inr ⟨rfl, rfl⟩)⟩
        · rw [Function.update_of_ne same] at located
          obtain ⟨zone, zoneLt, written'⟩ := books.written located
          exact ⟨zone, zoneLt, (written zone s).mpr (.inl written')⟩
      counted := fun {zone} notLeaving => by
        rw [deletedEq]
        exact books.counted_grow roles room metas notLeaving
      distinct := fun {zone} notLeaving => deletedEq zone ▸ books.distinct notLeaving
      deleted := fun {zone s} notLeaving => by
        rw [deletedEq, books.deleted notLeaving, written]
        constructor
        · rintro ⟨written', dead⟩
          exact ⟨.inl written', (elsewhere written').trans dead⟩
        · rintro ⟨written' | ⟨-, rfl⟩, dead⟩
          · exact ⟨written', (elsewhere written').symm.trans dead⟩
          · simp [remapping] at dead
      rest_nodup := books.rest_nodup
      mem_rest := fun {zone s} isLeaving => by
        have notZone : zone ≠ toZone := fun eq => other (eq ▸ isLeaving)
        rw [books.mem_rest isLeaving, written]
        simp only [notZone, false_and, or_false]
        exact and_congr_right fun written' => by rw [elsewhere written']
      clean := clean }

/-! ## Emptying a zone -/

/-- A table of the zone being emptied loses its slot. -/
theorem Books.depart {zone source : Nat} {t : TableId} {m' : MemoryManager}
    (books : m.Books device (some zone) (source :: rest)) (roles : m.Roles device hand)
    (at_source : m.remappingTable source = some t)
    (mapping : m'.mappingTable = Function.update m.mappingTable t none)
    (remapping : m'.remappingTable = Function.update m.remappingTable source none)
    (metas : m'.zoneMetas = m.zoneMetas) (calls : m'.calls = m.calls) :
    m'.Books device (some zone) rest := by
  obtain ⟨notRest, restNodup⟩ := List.nodup_cons.mp books.rest_nodup
  have sourceWritten := ((books.mem_rest rfl).mp List.mem_cons_self).1
  have written : ∀ zone' s, m'.Written device zone' s ↔ m.Written device zone' s := by
    simp only [Written, metas, implies_true]
  exact
    { inverse := by
        rw [mapping, remapping]
        exact books.inverse.remove ((books.inverse t source).mpr at_source)
      written := fun {t' s} located => by
        rw [mapping] at located
        by_cases same : t' = t
        · subst same
          simp at located
        · rw [Function.update_of_ne same] at located
          obtain ⟨zone', lt, written'⟩ := books.written located
          exact ⟨zone', lt, (written zone' s).mpr written'⟩
      counted := by
        rw [metas]
        exact books.counted
      distinct := by
        rw [metas]
        exact books.distinct
      deleted := fun {zone' s} notLeaving => by
        rw [metas, books.deleted notLeaving, written]
        refine and_congr_right fun written' => ?_
        have notSource : s ≠ source := fun eq =>
          notLeaving (congrArg some (roles.written_unique sourceWritten (eq ▸ written')))
        rw [remapping, Function.update_of_ne notSource]
      rest_nodup := restNodup
      mem_rest := fun {zone' s} isLeaving => by
        cases isLeaving
        have old : s ∈ source :: rest ↔ _ := books.mem_rest rfl
        rw [List.mem_cons] at old
        rw [written, remapping]
        by_cases same : s = source
        · subst same
          exact iff_of_false notRest fun ⟨_, live⟩ => live (Function.update_self ..)
        · simp only [same, false_or] at old
          rw [Function.update_of_ne same]
          exact old
      clean := calls ▸ books.clean }

/-- A table moves from the zone being emptied to the write pointer of the zone in hand. -/
theorem Books.place {zone toZone source : Nat}
    (books : m.Books device (some zone) (source :: rest))
    (roles : m.Roles device (some toZone)) (other : zone ≠ toZone)
    (room : (m.zoneMetas toZone).used < device.tables) :
    (m.place toZone source).Books device (some zone) rest ∧
      ∀ t, (m.place toZone source).Live t ↔ m.Live t := by
  obtain ⟨t, at_source⟩ :=
    Option.ne_none_iff_exists'.mp ((books.mem_rest rfl).mp List.mem_cons_self).2
  have tableAt : m.tableAt source = t := by rw [MemoryManager.tableAt, at_source]; rfl
  have mapping : (m.place toZone source).mappingTable =
      Function.update m.mappingTable t (some (m.zoneMetas toZone).writePtr) := by
    rw [MemoryManager.place, moveTable_eq, tableAt]
    rfl
  constructor
  · have departed : ({ m with
        mappingTable := Function.update m.mappingTable t none
        remappingTable := Function.update m.remappingTable source none } :
        MemoryManager).Books device (some zone) rest :=
      books.depart roles at_source rfl rfl rfl rfl
    refine departed.put (roles.congr rfl rfl rfl rfl rfl roles.quiet) (roles.inHand rfl).1
      (fun eq => other (Option.some.inj eq)) room (Function.update_self ..) ?_ ?_
      (place_zoneMetas ..) fun err => ?_
    · rw [Function.update_idem]
      exact mapping
    · rw [MemoryManager.place, moveTable_eq, tableAt]
      rfl
    · rw [MemoryManager.place, moveTable_eq]
      simpa [MemoryManager.setMeta] using books.clean err
  · intro t'
    simp only [Live, mapping]
    by_cases same : t' = t
    · subst same
      simp [(books.inverse t' source).mpr at_source]
    · rw [Function.update_of_ne same]

/-- The scanning loop visits the written slots of a full zone. -/
theorem Roles.slots_eq (roles : m.Roles device none) {zone : Nat} (full : zone ∈ m.fullZone) :
    slots (m.zoneMetas zone) = m.writtenSlots device zone := by
  have used := (roles.placed zone).end_le_iff.mp ((roles.full_iff zone (by simp)).mp full)
  rw [(roles.placed zone).slots_eq, writtenSlots, used]

theorem writtenSlots_ascending (zone : Nat) :
    (m.writtenSlots device zone).Pairwise (· < ·) := by
  rw [writtenSlots, List.pairwise_map]
  refine List.pairwise_lt_range.imp fun lt => ?_
  exact Nat.add_lt_add_left (Nat.mul_lt_mul_of_pos_left lt sstableSize_pos) _

theorem writtenSlots_nodup (zone : Nat) :
    (m.writtenSlots device zone).Nodup :=
  (writtenSlots_ascending zone).imp Nat.ne_of_lt

/-- The written slots of a zone that are not deleted are as many as the zone counts. -/
theorem Books.live_count (books : m.Books device none []) (zone : Nat) :
    ((m.writtenSlots device zone).filter (· ∉ (m.zoneMetas zone).deletedTable)).length =
      (m.zoneMetas zone).validTableNum := by
  have counted : _ = (m.zoneMetas zone).used := books.counted (by simp)
  have nodup : (m.writtenSlots device zone).Nodup := writtenSlots_nodup zone
  have perm : (m.zoneMetas zone).deletedTable.Perm
      ((m.writtenSlots device zone).filter (· ∈ (m.zoneMetas zone).deletedTable)) := by
    refine (List.perm_ext_iff_of_nodup (books.distinct (by simp)) (nodup.filter _)).mpr
      fun s => ?_
    rw [List.mem_filter, mem_writtenSlots, decide_eq_true_iff]
    refine ⟨fun isDeleted => ⟨?_, isDeleted⟩, fun both => both.2⟩
    exact ((books.deleted (by simp)).mp isDeleted).1
  have split := List.length_eq_length_filter_add (l := m.writtenSlots device zone)
    (· ∈ (m.zoneMetas zone).deletedTable)
  have total : (m.writtenSlots device zone).length = (m.zoneMetas zone).used := by
    rw [writtenSlots, List.length_map, List.length_range]
  rw [← perm.length_eq, total] at split
  simp only [decide_not]
  omega

/-- A full zone may be emptied: its live slots are those that are not deleted, as many
as it counts. -/
theorem Books.leave (books : m.Books device none []) (roles : m.Roles device none) {zone : Nat}
    (full : zone ∈ m.fullZone) :
    m.Books device (some zone)
        ((slots (m.zoneMetas zone)).filter (· ∉ (m.zoneMetas zone).deletedTable)) ∧
      ((slots (m.zoneMetas zone)).filter (· ∉ (m.zoneMetas zone).deletedTable)).length =
        (m.zoneMetas zone).validTableNum := by
  rw [roles.slots_eq full]
  refine ⟨?_, books.live_count zone⟩
  exact
    { inverse := books.inverse
      written := books.written
      counted := fun _ => books.counted (by simp)
      distinct := fun _ => books.distinct (by simp)
      deleted := fun _ => books.deleted (by simp)
      rest_nodup := (writtenSlots_nodup zone).filter _
      mem_rest := fun {zone' s} isLeaving => by
        cases isLeaving
        rw [List.mem_filter, mem_writtenSlots, decide_eq_true_iff, books.deleted (by simp)]
        exact and_congr_right fun written => by simp [written]
      clean := books.clean }

/-- Sorting the deleted slots of a zone. -/
theorem Books.relist (books : m.Books device none []) (zone : Nat) {deleted : List Nat}
    (perm : deleted.Perm (m.zoneMetas zone).deletedTable) :
    (m.setMeta zone { m.zoneMetas zone with deletedTable := deleted }).Books device none [] := by
  have fields : ∀ other,
      ((m.setMeta zone { m.zoneMetas zone with deletedTable := deleted }).zoneMetas other).used =
          (m.zoneMetas other).used ∧
        ((m.setMeta zone { m.zoneMetas zone with deletedTable := deleted }).zoneMetas
            other).validTableNum = (m.zoneMetas other).validTableNum ∧
        ((m.setMeta zone { m.zoneMetas zone with deletedTable := deleted }).zoneMetas
            other).deletedTable.Perm (m.zoneMetas other).deletedTable := by
    intro other
    by_cases same : other = zone
    · subst same
      rw [setMeta_zoneMetas_self]
      exact ⟨rfl, rfl, perm⟩
    · rw [setMeta_zoneMetas_of_ne m same]
      exact ⟨rfl, rfl, List.Perm.refl _⟩
  have written : ∀ other s,
      (m.setMeta zone { m.zoneMetas zone with deletedTable := deleted }).Written device other s ↔
        m.Written device other s := by
    intro other s
    rw [Written, (fields other).1]
    rfl
  exact
    { inverse := books.inverse
      written := fun located => by
        obtain ⟨other, lt, written'⟩ := books.written located
        exact ⟨other, lt, (written other _).mpr written'⟩
      counted := fun {other} notLeaving => by
        rw [(fields other).1, (fields other).2.1, (fields other).2.2.length_eq]
        exact books.counted notLeaving
      distinct := fun {other} notLeaving =>
        (fields other).2.2.nodup_iff.mpr (books.distinct notLeaving)
      deleted := fun {other s} notLeaving => by
        rw [(fields other).2.2.mem_iff, written]
        exact books.deleted notLeaving
      rest_nodup := books.rest_nodup
      mem_rest := fun isLeaving => by cases isLeaving
      clean := books.clean }

/-- A visit to a slot that holds a table changes nothing in the books. -/
theorem Books.visit {zone table : Nat} (books : m.Books device (some zone) rest)
    (mem : table ∈ rest) : (m.visit table).Books device (some zone) rest := by
  obtain ⟨t, at_table⟩ := Option.ne_none_iff_exists'.mp ((books.mem_rest rfl).mp mem).2
  refine books.congr rfl ?_ rfl fun err => ?_
  · have same : some (m.tableAt table) = m.remappingTable table := by
      rw [MemoryManager.tableAt, at_table]
      rfl
    simp only [MemoryManager.visit]
    rw [same, Function.update_eq_self]
  · simpa [MemoryManager.visit, waits] using books.clean err

/-- The scan finds the live slots of the zone, as many as the zone counts. -/
theorem Books.scanZone (books : m.Books device none []) (roles : m.Roles device none)
    {zone : Nat} (full : zone ∈ m.fullZone) :
    (m.scanZone zone).2.Books device (some zone) (m.scanZone zone).1 ∧
      ∀ t, (m.scanZone zone).2.Live t ↔ m.Live t := by
  obtain ⟨scan, scanDef, scanned⟩ := m.scanZone_eq zone
  obtain ⟨sorted, sortedDef⟩ : ∃ sorted,
    sorted = (m.zoneMetas zone).deletedTable.insertionSort (· ≤ ·) := ⟨_, rfl⟩
  rw [← sortedDef] at scanDef
  have perm : sorted.Perm (m.zoneMetas zone).deletedTable :=
    sortedDef ▸ List.perm_insertionSort ..
  have relisted := books.relist zone perm
  have roles' := roles.setMeta zone _ ((roles.placed zone).relist sorted) rfl
  obtain ⟨leaving, length⟩ := relisted.leave roles' full
  rw [setMeta_zoneMetas_self] at leaving length
  have ascending : (slots (m.zoneMetas zone)).Pairwise (· < ·) :=
    roles.slots_eq full ▸ writtenSlots_ascending zone
  have strict : sorted.Pairwise (· < ·) := by
    have nodup := perm.nodup_iff.mpr (books.distinct (by simp))
    have le : sorted.Pairwise (· ≤ ·) := sortedDef ▸ List.pairwise_insertionSort (· ≤ ·) _
    exact le.imp₂ (fun _ _ le ne => Nat.lt_of_le_of_ne le ne) nodup
  have sub : ∀ s ∈ sorted, s ∈ slots (m.zoneMetas zone) := fun s mem => by
    rw [roles.slots_eq full, mem_writtenSlots]
    exact ((books.deleted (by simp)).mp (perm.mem_iff.mp mem)).1
  obtain ⟨list, scanBooks, live⟩ := scanSlots_sorted
    (P := fun _ m' => m'.Books device (some zone)
      ((slots (m.zoneMetas zone)).filter (· ∉ sorted)) ∧ ∀ t, m'.Live t ↔ m.Live t)
    ascending strict sub
    (fun {_ m' table} mem notDeleted ⟨books', live'⟩ =>
      ⟨books'.visit (List.mem_filter.mpr ⟨mem, by simpa using notDeleted⟩), live'⟩)
    ⟨leaving, fun _ => Iff.rfl⟩
  rw [← scanDef] at list scanBooks live
  rw [List.nil_append] at list
  have right : ¬scan.1.length ≠ (m.zoneMetas zone).validTableNum := by
    rw [list]
    exact not_not.mpr length
  rw [scanned, if_neg right, list]
  exact ⟨scanBooks, live⟩

/-- The tables that are live in one state are live in the other. -/
def SameLive (m m' : MemoryManager) : Prop :=
  ∀ t, m'.Live t ↔ m.Live t

/-- Relocation keeps the books of the zones that stay. -/
theorem relocating_books (origin : MemoryManager) (zone : Nat) (zoneMeta : ZoneMeta)
    (toReset : Finset Nat) :
    Relocating device fun hand rest m =>
      m.Emptying device zone zoneMeta toReset hand ∧ m.Books device (some zone) rest ∧
        origin.SameLive m where
  wf holds := holds.1.roles.wf
  placed holds := holds.1.roles.placed
  take := fun ⟨emptying, books, same⟩ got =>
    ⟨emptying.take got, books.congr rfl rfl rfl books.clean, same⟩
  place := by
    intro source rest toZone m ⟨emptying, books, same⟩ room
    obtain ⟨books', same'⟩ := books.place emptying.roles emptying.other
      ((emptying.roles.placed toZone).lt_end_iff.mp room)
    exact ⟨emptying.place room source, books', fun t => (same' t).trans (same t)⟩
  fill := fun ⟨emptying, books, same⟩ written =>
    ⟨emptying.fill written, books.congr rfl rfl rfl books.clean, same⟩
  back := fun ⟨emptying, books, same⟩ room =>
    ⟨emptying.back room, books.congr rfl rfl rfl books.clean, same⟩

theorem Books.rewriteZone (books : m.Books device none []) (roles : m.Roles device none)
    {zone : Nat} (full : zone ∈ m.fullZone) :
    Ends
      (fun m' => m'.Roles device none ∧ zone ∈ m'.fullZone ∧
        m'.Books device (some zone) [] ∧ m.SameLive m')
      (fun halt => halt.stop = .exit ∧ ∀ err, .zoneErr err ∉ halt.state.calls)
      (m.rewriteZone zone) := by
  have scanned := roles.scanZone zone
  refine ((relocating_books m zone _ m.toReset).rewriteZone
    ⟨⟨scanned.1, scanned.2.1 ▸ full, rfl, scanned.2.2⟩, books.scanZone roles full⟩).imp ?_ ?_
  · exact fun _ ⟨emptying, books', same⟩ => ⟨emptying.roles, emptying.full, books', same⟩
  · exact fun _ ⟨stop, _, holds⟩ => ⟨stop, holds.2.1.clean⟩

/-- Erasing an emptied zone. -/
theorem Books.eraseZone {zone : Nat} (books : m.Books device (some zone) []) :
    (m.eraseZone device zone).Books device none [] := by
  let erased : ZoneMeta :=
    { m.zoneMetas zone with
      writePtr := (m.zoneMetas zone).start
      validTableNum := 0
      deletedTable := [] }
  have unused : erased.used = 0 := by simp [erased, ZoneMeta.used]
  have metas : (m.eraseZone device zone).zoneMetas =
      Function.update m.zoneMetas zone erased := rfl
  have atZone : (m.eraseZone device zone).zoneMetas zone = erased := by
    rw [metas, Function.update_self]
  have elsewhere : ∀ {other}, other ≠ zone →
      (m.eraseZone device zone).zoneMetas other = m.zoneMetas other := fun ne => by
    rw [metas, Function.update_of_ne ne]
  have written : ∀ {other s}, other ≠ zone →
      ((m.eraseZone device zone).Written device other s ↔ m.Written device other s) := by
    intro other s ne
    rw [Written, elsewhere ne]
    rfl
  exact
    { inverse := books.inverse
      written := fun {t s} located => by
        obtain ⟨other, lt, written'⟩ := books.written located
        have ne : other ≠ zone := fun eq => by
          subst eq
          have live : m.remappingTable s ≠ none := by
            rw [(books.inverse t s).mp located]
            simp
          exact List.not_mem_nil ((books.mem_rest rfl).mpr ⟨written', live⟩)
        exact ⟨other, lt, (written ne).mpr written'⟩
      counted := fun {other} _ => by
        by_cases same : other = zone
        · subst same
          rw [atZone, unused]
          rfl
        · rw [elsewhere same]
          exact books.counted fun eq => same (Option.some.inj eq).symm
      distinct := fun {other} _ => by
        by_cases same : other = zone
        · subst same
          rw [atZone]
          exact List.nodup_nil
        · rw [elsewhere same]
          exact books.distinct fun eq => same (Option.some.inj eq).symm
      deleted := fun {other s} _ => by
        by_cases same : other = zone
        · subst same
          rw [Written, atZone, unused]
          refine iff_of_false List.not_mem_nil ?_
          rintro ⟨⟨_, lt, _⟩, _⟩
          exact Nat.not_lt_zero _ lt
        · rw [elsewhere same, written same]
          exact books.deleted fun eq => same (Option.some.inj eq).symm
      rest_nodup := List.nodup_nil
      mem_rest := fun isLeaving => by cases isLeaving
      clean := fun err => by
        simpa [MemoryManager.eraseZone, MemoryManager.setMeta, call] using books.clean err }

theorem Books.resetZone (books : m.Books device none []) (roles : m.Roles device none)
    (zone : Nat) (force : Bool) :
    Ends (fun m' => m'.Books device none [] ∧ m.SameLive m')
      (fun halt => halt.stop = .exit ∧ ∀ err, .zoneErr err ∉ halt.state.calls)
      (m.resetZone device zone force) := by
  simp only [MemoryManager.resetZone]
  split
  · exact ⟨books, fun _ => Iff.rfl⟩
  · rename_i notWritten
    have full : zone ∈ m.fullZone := (roles.full_iff zone (by simp)).mpr (Nat.not_lt.mp notWritten)
    simp only [if_pos full]
    split
    · split
      · exact ⟨rfl, books.clean⟩
      · exact ⟨books, fun _ => Iff.rfl⟩
    · split
      · split
        · refine (books.rewriteZone roles full).bind fun m' _ rewritten => ?_
          obtain ⟨_, _, books', same⟩ := rewritten
          exact ⟨books'.eraseZone, same⟩
        · rename_i noValid
          obtain ⟨leaving, length⟩ := books.leave roles full
          rw [not_not.mp noValid] at length
          rw [List.eq_nil_of_length_eq_zero length] at leaving
          exact ⟨leaving.eraseZone, fun _ => Iff.rfl⟩
      · exact ⟨books, fun _ => Iff.rfl⟩

theorem evictable_books (origin : MemoryManager) :
    Evictable device (fun _ => True)
      (fun m => m.Roles device none ∧ m.Books device none [] ∧ origin.SameLive m)
      (fun halt => ∀ err, .zoneErr err ∉ halt.state.calls) where
  reset := by
    intro m zone force ⟨roles, books, same⟩ _
    refine ((roles.resetZone zone force).and (books.resetZone roles zone force)).imp ?_ ?_
    · exact fun m' ⟨roles', books', same'⟩ =>
        ⟨roles'.1, books', fun t => (same' t).trans (same t)⟩
    · exact fun _ ⟨_, _, clean⟩ => clean
  clear := fun ⟨roles, books, same⟩ =>
    ⟨roles.congr rfl rfl rfl rfl rfl roles.quiet, books.congr rfl rfl rfl books.clean, same⟩
  idle holds _ := holds.2.1.clean

/-! ## Writing and deleting -/

/-- A deletion writes nothing. -/
@[simp]
theorem dropTable_used (m : MemoryManager) (device : Device) (t : TableId) (s zone : Nat) :
    ((m.dropTable device t s).zoneMetas zone).used = (m.zoneMetas zone).used := by
  simp only [MemoryManager.dropTable]
  by_cases same : zone = s / device.zoneCap
  · subst same
    rw [Function.update_self]
    rfl
  · rw [Function.update_of_ne same]

@[simp]
theorem written_dropTable {t : TableId} {s zone slot : Nat} :
    (m.dropTable device t s).Written device zone slot ↔ m.Written device zone slot := by
  rw [Written, dropTable_used]
  rfl

/-- The deleted slots and a live one are distinct written slots, so the zone counts it. -/
theorem Books.length_deletedTable_lt (books : m.Books device none []) {zone s : Nat}
    (isWritten : m.Written device zone s) (notDeleted : s ∉ (m.zoneMetas zone).deletedTable) :
    (m.zoneMetas zone).deletedTable.length < (m.zoneMetas zone).used := by
  have sub : s :: (m.zoneMetas zone).deletedTable ⊆ m.writtenSlots device zone := by
    intro s' mem
    rw [mem_writtenSlots]
    rcases List.mem_cons.mp mem with rfl | mem
    · exact isWritten
    · exact ((books.deleted (by simp)).mp mem).1
  have nodup := List.nodup_cons.mpr ⟨notDeleted, books.distinct (by simp)⟩
  have le := (nodup.subperm sub).length_le
  rw [List.length_cons, writtenSlots, List.length_map, List.length_range] at le
  exact le

theorem dropTable_zoneMetas (m : MemoryManager) (t : TableId) (zone : Nat) {k : Nat}
    (lt : k < device.tables) :
    (m.dropTable device t (device.slot zone k)).zoneMetas =
      Function.update m.zoneMetas zone ((m.zoneMetas zone).drop (device.slot zone k)) := by
  rw [MemoryManager.dropTable, device.slot_div_zoneCap lt]

/-- A slot that is cleared is one of the dead slots of its zone. -/
theorem Books.deleted_update (books : m.Books device none []) (roles : m.Roles device none)
    {zone slot : Nat} (isWritten : m.Written device zone slot) (other s : Nat) :
    s ∈ (Function.update m.zoneMetas zone ((m.zoneMetas zone).drop slot) other).deletedTable ↔
      m.Written device other s ∧ Function.update m.remappingTable slot none s = none := by
  have old : s ∈ (m.zoneMetas other).deletedTable ↔ _ := books.deleted (by simp)
  by_cases isSlot : s = slot
  · subst isSlot
    rw [Function.update_self]
    by_cases same : other = zone
    · subst same
      simp [ZoneMeta.drop, isWritten]
    · rw [Function.update_of_ne same, old]
      have apart : ¬m.Written device other s := fun there =>
        same (roles.written_unique there isWritten)
      simp [apart]
  · rw [Function.update_of_ne isSlot, ← old]
    by_cases same : other = zone
    · subst same
      simp [ZoneMeta.drop, isSlot]
    · rw [Function.update_of_ne same]

/-- A deleted table leaves a dead slot. -/
theorem Books.dropTable (books : m.Books device none []) (roles : m.Roles device none)
    {t : TableId} {s : Nat} (located : m.mappingTable t = some s) :
    (m.dropTable device t s).Books device none [] := by
  obtain ⟨zone, zoneLt, k, lt, rfl⟩ := books.written located
  have inside : k < device.tables := Nat.lt_of_lt_of_le lt (roles.used_le zone)
  have order : device.slot zone k / device.zoneCap = zone := device.slot_div_zoneCap inside
  have at_slot := (books.inverse t _).mp located
  have isWritten : m.Written device zone (device.slot zone k) := ⟨k, lt, rfl⟩
  have notDeleted : device.slot zone k ∉ (m.zoneMetas zone).deletedTable := fun mem => by
    rw [((books.deleted (by simp)).mp mem).2] at at_slot
    cases at_slot
  have counts := books.length_deletedTable_lt isWritten notDeleted
  have metas := m.dropTable_zoneMetas t zone inside
  have remapping : (m.dropTable device t (device.slot zone k)).remappingTable =
      Function.update m.remappingTable (device.slot zone k) none := rfl
  exact
    { inverse := books.inverse.remove located
      written := fun {t' s} located' => by
        have mapping : (m.dropTable device t (device.slot zone k)).mappingTable =
            Function.update m.mappingTable t none := rfl
        rw [mapping] at located'
        by_cases same : t' = t
        · subst same
          simp at located'
        · rw [Function.update_of_ne same] at located'
          obtain ⟨other, otherLt, written'⟩ := books.written located'
          exact ⟨other, otherLt, written_dropTable.mpr written'⟩
      counted := fun {other} _ => by
        have counted : _ = (m.zoneMetas other).used := books.counted (by simp)
        rw [dropTable_used, metas]
        by_cases same : other = zone
        · subst same
          rw [Function.update_self]
          simp only [ZoneMeta.drop, List.length_append, List.length_singleton]
          split <;> omega
        · rw [Function.update_of_ne same]
          exact counted
      distinct := fun {other} _ => by
        rw [metas]
        by_cases same : other = zone
        · subst same
          rw [Function.update_self]
          exact List.nodup_append.mpr ⟨books.distinct (by simp), List.nodup_singleton _,
            fun a mem b mem' eq => notDeleted (List.mem_singleton.mp mem' ▸ eq ▸ mem)⟩
        · rw [Function.update_of_ne same]
          exact books.distinct (by simp)
      deleted := fun {other s} _ => by
        rw [written_dropTable, remapping, metas]
        exact books.deleted_update roles isWritten other s
      rest_nodup := List.nodup_nil
      mem_rest := fun isLeaving => by cases isLeaving
      clean := fun err => by
        have below : ¬(m.zoneMetas zone).writePtr ≤ device.slot zone k := by
          rw [(roles.placed zone).writePtr_eq, Nat.not_le]
          exact Nat.add_lt_add_left (Nat.mul_lt_mul_of_pos_left lt sstableSize_pos) _
        simp only [MemoryManager.dropTable, order, if_neg below]
        exact books.clean err }

/-- The eviction loop moves tables but loses none. -/
theorem Books.evictLoop (books : m.Books device none []) (roles : m.Roles device none)
    (iter : Finset Nat → List Nat) (fuel : Nat) :
    Ends
      (fun m' => (m'.Roles device none ∧ m'.Books device none [] ∧ m.SameLive m') ∧
        m'.emptyZone.empty = false)
      (fun halt => ∀ err, .zoneErr err ∉ halt.state.calls)
      (MemoryManager.evictLoop device iter fuel m) := by
  refine ((evictable_books m).evictLoop ⟨roles, books, fun _ => Iff.rfl⟩
    fun _ _ => trivial).imp ?_ fun _ => id
  intro m' ⟨holds, enough⟩
  have zonesPos := device.zoneNum_pos
  exact ⟨holds, decide_eq_false (by omega)⟩

theorem Books.appendTable (books : m.Books device none []) (roles : m.Roles device none)
    (nonempty : m.emptyZone.empty = false) {level num : Nat} (notLive : ¬m.Live (level, num)) :
    Ends (fun m' => m'.Books device none [])
      (fun halt => ∀ err, .zoneErr err ∉ halt.state.calls) (m.appendTable level num) := by
  have unmapped : m.mappingTable (level, num) = none := by simpa [Live] using notLive
  have mem := roles.getD_mem
  obtain ⟨lt, -, room⟩ := roles.open mem
  apply m.appendTable_ends roles.wf nonempty
  · intro full opened pool _
    exact books.put roles lt (by simp) room unmapped rfl rfl rfl fun err => by
      simpa [MemoryManager.entered, MemoryManager.turned, MemoryManager.setMeta] using
        books.clean err
  · exact fun _ _ _ => books.clean

theorem Books.writeTable (books : m.Books device none []) (roles : m.Roles device none)
    (iter : Finset Nat → List Nat) (fuel : Nat) {level num : Nat}
    (notLive : ¬m.Live (level, num)) :
    Ends (fun m' => m'.Books device none [])
      (fun halt => ∀ err, .zoneErr err ∉ halt.state.calls)
      (m.writeTable device iter fuel level num) :=
  (books.evictLoop roles iter fuel).bind fun _ _ ⟨⟨roles', books', same⟩, nonempty⟩ =>
    books'.appendTable roles' nonempty fun live => notLive ((same _).mp live)

/-- The page tables name a stored table already. -/
theorem Live.update_location {t : TableId} (live : m.Live t) :
    Function.update m.mappingTable t (some (m.location t)) = m.mappingTable := by
  obtain ⟨s, located⟩ := Option.isSome_iff_exists.mp live
  rw [location, located, Option.getD_some, ← located, Function.update_eq_self]

/-- Reading a live table changes nothing in the books. -/
theorem Books.reads (books : m.Books device none []) {level num : Nat}
    (live : m.Live (level, num)) (offset length : Nat) :
    Ends (fun m' => m'.Books device none [])
        (fun halt => ∀ err, .zoneErr err ∉ halt.state.calls)
        (m.getValue level num offset length) ∧
      Ends (fun m' => m'.Books device none [])
        (fun halt => ∀ err, .zoneErr err ∉ halt.state.calls)
        (m.readTable level num offset length) := by
  by_cases known : level < m.levels
  · have same := live.update_location
    rw [getValue_eq m known, readTable_eq m known, same]
    refine ⟨books.congr rfl rfl rfl fun err => ?_, books.congr rfl rfl rfl fun err => ?_⟩
    · simpa [waits, readCall] using books.clean err
    · simpa [waits, tableCall] using books.clean err
  · simp only [MemoryManager.getValue, MemoryManager.readTable, Nat.not_lt.mp known, if_true]
    exact ⟨books.clean, books.clean⟩

theorem Books.deleteTable (books : m.Books device none []) (roles : m.Roles device none)
    (level num : Nat) :
    Ends (fun m' => m'.Books device none [])
      (fun halt => ∀ err, .zoneErr err ∉ halt.state.calls) (m.deleteTable device level num) := by
  by_cases known : level < m.levels
  · rw [deleteTable_eq m device known]
    split
    · exact books.clean
    · cases located : m.mappingTable (level, num) with
      | none => exact books
      | some s => exact books.dropTable roles located
  · simp only [MemoryManager.deleteTable, Nat.not_lt.mp known, if_true]
    exact books.clean

/-- Every allowed operation keeps the books. -/
theorem Books.exec (books : m.Books device none []) (roles : m.Roles device none) {op : Op}
    (allowed : m.Allowed op) (iter : Finset Nat → List Nat) (fuel : Nat) :
    Ends (fun m' => m'.Books device none [])
      (fun halt => ∀ err, .zoneErr err ∉ halt.state.calls) (m.exec device iter fuel op) := by
  cases op with
  | writeTable level num => exact books.writeTable roles iter fuel allowed.1
  | getValue level num offset length => exact (books.reads allowed offset length).1
  | readTable level num offset length => exact (books.reads allowed offset length).2
  | deleteTable level num => exact books.deleteTable roles level num
  | tryReset =>
      exact ((evictable_books m).tryReset ⟨roles, books, fun _ => Iff.rfl⟩
        fun _ _ => trivial).imp (fun _ holds => holds.2.1) fun _ => id
  | evictZone =>
      exact ((evictable_books m).evictZone ⟨roles, books, fun _ => Iff.rfl⟩
        fun _ _ => trivial).imp (fun _ holds => holds.2.1) fun _ => id

/-! ## Reachable states -/

theorem books_new (built : new device = some m) : m.Books device none [] := by
  simp only [new, Option.bind_eq_bind, Option.bind_eq_some_iff] at built
  obtain ⟨⟨zones, pool⟩, -, done⟩ := built
  cases done
  exact
    { inverse := fun _ _ => by simp
      written := fun located => by cases located
      counted := fun _ => by simp [ZoneMeta.used]
      distinct := fun _ => List.nodup_nil
      deleted := fun _ => by simp [Written, ZoneMeta.used]
      rest_nodup := List.nodup_nil
      mem_rest := fun isLeaving => by cases isLeaving
      clean := fun _ => List.not_mem_nil }

theorem books_of_reachable (reachable : (storeSystem device).Reachable m) :
    m.Roles device none ∧ m.Books device none [] := by
  refine ⟨(roles_of_reachable (System.reachable_of_guarded reachable)).1, ?_⟩
  exact System.invariant_of_reachable_with
    (K := fun m => m.Roles device none)
    (fun _ reached => (roles_of_reachable (System.reachable_of_guarded reached)).1)
    (fun _ built => books_new built)
    (fun _ _ _ roles books ⟨allowed, iter, fuel, _, ok⟩ =>
      (books.exec roles allowed iter fuel).of_ok ok)
    reachable

/-! ## What the books amount to -/

theorem Roles.written_iff (roles : m.Roles device hand) (zone s : Nat) :
    m.Written device zone s ↔
      sstableSize ∣ s ∧ (m.zoneMetas zone).start ≤ s ∧ s < (m.zoneMetas zone).writePtr := by
  have placed := roles.placed zone
  rw [placed.write_eq, placed.start_eq]
  constructor
  · rintro ⟨k, lt, rfl⟩
    refine ⟨?_, Nat.le_add_right .., ?_⟩
    · rw [device.slot_eq]
      exact Nat.dvd_mul_right ..
    · exact Nat.add_lt_add_left (Nat.mul_lt_mul_of_pos_left lt sstableSize_pos) _
  · rintro ⟨⟨q, rfl⟩, ge, lt⟩
    have start : zone * device.zoneCap = sstableSize * (zone * device.tables) := by
      have := device.slot_eq zone 0
      rwa [Device.slot, Nat.mul_zero, Nat.add_zero, Nat.add_zero] at this
    rw [start] at ge lt
    rw [← Nat.mul_add] at lt
    have geq := Nat.le_of_mul_le_mul_left ge sstableSize_pos
    have ltq := Nat.lt_of_mul_lt_mul_left lt
    refine ⟨q - zone * device.tables, by omega, ?_⟩
    rw [device.slot_eq, Nat.add_sub_cancel' geq]

/-- The zone that a written slot belongs to, by its bounds. -/
theorem Roles.written_zone (roles : m.Roles device hand) {zone zone' s : Nat}
    (written : m.Written device zone' s) :
    zone' = zone ↔ (m.zoneMetas zone).start ≤ s ∧ s ≤ (m.zoneMetas zone).endPtr := by
  obtain ⟨k, lt, rfl⟩ := written
  have inside : k < device.tables := Nat.lt_of_lt_of_le lt (roles.used_le zone')
  have capPos := device.zoneCap_pos
  have order : device.slot zone' k / device.zoneCap = zone' :=
    device.slot_div_zoneCap inside
  rw [(roles.placed zone).start_eq, (roles.placed zone).end_eq]
  have next : 0 < (zone + 1) * device.zoneCap := Nat.mul_pos (Nat.succ_pos _) capPos
  constructor
  · rintro rfl
    have lt := Nat.lt_mul_of_div_lt (order.trans_lt (Nat.lt_succ_self zone')) capPos
    exact ⟨Nat.le_add_right .., Nat.le_sub_one_of_lt lt⟩
  · rintro ⟨ge, le⟩
    rw [← order]
    exact Nat.div_eq_of_lt_le ge (by omega)

/-- A zone counts the live tables between its bounds. -/
theorem Books.ncard_live (books : m.Books device none []) (roles : m.Roles device none)
    (zone : Nat) :
    Set.ncard {t | ∃ s, m.mappingTable t = some s ∧ (m.zoneMetas zone).start ≤ s ∧
      s ≤ (m.zoneMetas zone).endPtr} = (m.zoneMetas zone).validTableNum := by
  let liveSlots := (m.writtenSlots device zone).filter (· ∉ (m.zoneMetas zone).deletedTable)
  have nodup : liveSlots.Nodup := (writtenSlots_nodup zone).filter _
  have mem_live : ∀ s, s ∈ liveSlots ↔
      m.Written device zone s ∧ ∃ t, m.remappingTable s = some t := by
    intro s
    rw [List.mem_filter, mem_writtenSlots, decide_eq_true_iff, books.deleted (by simp)]
    refine and_congr_right fun written => ?_
    rw [← Option.ne_none_iff_exists']
    simp [written]
  have image : {t | ∃ s, m.mappingTable t = some s ∧ (m.zoneMetas zone).start ≤ s ∧
      s ≤ (m.zoneMetas zone).endPtr} = m.tableAt '' (liveSlots.toFinset : Set Nat) := by
    ext t
    simp only [Set.mem_ofPred_eq, Set.mem_image, Finset.mem_coe, List.mem_toFinset, mem_live]
    constructor
    · rintro ⟨s, located, bounds⟩
      obtain ⟨zone', -, written⟩ := books.written located
      obtain rfl := (roles.written_zone written).mpr bounds
      have at_s := (books.inverse t s).mp located
      exact ⟨s, ⟨written, t, at_s⟩, by rw [MemoryManager.tableAt, at_s]; rfl⟩
    · rintro ⟨s, ⟨written, t', at_s⟩, rfl⟩
      have name : m.tableAt s = t' := by rw [MemoryManager.tableAt, at_s]; rfl
      exact ⟨s, (books.inverse _ s).mpr (name ▸ at_s), (roles.written_zone written).mp rfl⟩
  have injective : Set.InjOn m.tableAt (liveSlots.toFinset : Set Nat) := by
    intro s mem s' mem' same
    rw [Finset.mem_coe, List.mem_toFinset, mem_live] at mem mem'
    obtain ⟨-, t, at_s⟩ := mem
    obtain ⟨-, t', at_s'⟩ := mem'
    rw [MemoryManager.tableAt, MemoryManager.tableAt, at_s, at_s'] at same
    obtain rfl : t = t' := same
    rw [← books.inverse] at at_s at_s'
    exact Option.some.inj (at_s.symm.trans at_s')
  rw [image, injective.ncard_image, Set.ncard_coe_finset,
    List.toFinset_card_of_nodup nodup]
  exact books.live_count zone

end Books

/-- What the books amount to in a state between two operations. -/
structure LocationBooks (device : Device) (m : MemoryManager) : Prop where
  inverse : ∀ t s, m.mappingTable t = some s ↔ m.remappingTable s = some t
  /-- A live location is a slot below the write pointer of a zone. -/
  located : ∀ t s, m.mappingTable t = some s →
    sstableSize ∣ s ∧ ∃ zone < device.zoneNum,
      (m.zoneMetas zone).start ≤ s ∧ s < (m.zoneMetas zone).writePtr
  own_slot : ∀ t t' s s', m.mappingTable t = some s → m.mappingTable t' = some s' →
    s / sstableSize = s' / sstableSize → t = t'
  valid : ∀ zone < device.zoneNum,
    (m.zoneMetas zone).validTableNum =
      Set.ncard {t | ∃ s, m.mappingTable t = some s ∧ (m.zoneMetas zone).start ≤ s ∧
        s ≤ (m.zoneMetas zone).endPtr}
  deleted_nodup : ∀ zone < device.zoneNum, (m.zoneMetas zone).deletedTable.Nodup
  /-- The deleted slots of a zone are its written slots that hold no live table. -/
  deleted : ∀ zone < device.zoneNum, ∀ s,
    (s ∈ (m.zoneMetas zone).deletedTable ↔
      (sstableSize ∣ s ∧ (m.zoneMetas zone).start ≤ s ∧ s < (m.zoneMetas zone).writePtr) ∧
        ∀ t, m.mappingTable t ≠ some s)
  /-- The checks of the next operation do not fire, whether or not it returns. -/
  never : ∀ iter fuel op, m.Allowed op →
    Ends
      (fun m' => .zoneErr .noTable ∉ m'.calls ∧ .zoneErr .readValidWrong ∉ m'.calls)
      (fun halt => .zoneErr .noTable ∉ halt.state.calls ∧
        .zoneErr .readValidWrong ∉ halt.state.calls)
      (m.exec device iter fuel op)

/-- Whatever the store asks for, a table is found at the slot it was written to last, and each
zone counts its live tables and knows its dead ones. -/
theorem locationBooks_of_reachable {device : Device} {m : MemoryManager}
    (reachable : (storeSystem device).Reachable m) : m.LocationBooks device := by
  obtain ⟨roles, books⟩ := books_of_reachable reachable
  exact
    { inverse := books.inverse
      located := fun t s located => by
        obtain ⟨zone, lt, written⟩ := books.written located
        obtain ⟨aligned, bounds⟩ := (roles.written_iff zone s).mp written
        exact ⟨aligned, zone, lt, bounds⟩
      own_slot := fun t t' s s' located located' same => by
        obtain ⟨zone, -, written⟩ := books.written located
        obtain ⟨zone', -, written'⟩ := books.written located'
        obtain ⟨aligned, -⟩ := (roles.written_iff zone s).mp written
        obtain ⟨aligned', -⟩ := (roles.written_iff zone' s').mp written'
        obtain rfl : s = s' := Nat.div_left_inj aligned aligned' |>.mp same
        exact books.inverse.injective located located'
      valid := fun zone _ => (books.ncard_live roles zone).symm
      deleted_nodup := fun zone _ => books.distinct (by simp)
      deleted := fun zone _ s => by
        rw [books.deleted (by simp), roles.written_iff]
        exact and_congr_right fun _ => books.inverse.eq_none_iff
      never := fun iter fuel op allowed => (books.exec roles allowed iter fuel).imp
        (fun _ books' => ⟨books'.clean _, books'.clean _⟩) fun _ clean => ⟨clean _, clean _⟩ }

/-- The small device after two tables were written and one was deleted. -/
theorem locationBooks_after_delete :
    ∃ m, storeRun device8G 1
        [.writeTable 0 0, .writeTable 1 7, .getValue 1 7 5 9, .readTable 0 0 0 0,
          .deleteTable 0 0] = some m ∧
      m.LocationBooks device8G := by
  obtain ⟨m, run⟩ := Option.isSome_iff_exists.mp
    (show (storeRun device8G 1
      [.writeTable 0 0, .writeTable 1 7, .getValue 1 7 5 9, .readTable 0 0 0 0,
        .deleteTable 0 0]).isSome by decide +kernel)
  exact ⟨m, run, locationBooks_of_reachable (reachable_of_storeRun run)⟩

end MemoryManager

end ZnsLsm.Pool
