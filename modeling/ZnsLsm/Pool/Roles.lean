import ZnsLsm.Pool.Operations
import ZnsLsm.Pool.Relocation

/-!
# The role of every zone

Every zone is in the free pool, in one open slot or in the set of full zones, and in
one of them only.  During a relocation one more zone may be in the hand of the manager.
-/

namespace ZnsLsm.Pool

open ZnsLsm.Flash ZnsLsm.Outcome ZnsLsm.Transition

namespace MemoryManager

/-- The errors about the roles of zones were not reported. -/
def Quiet (m : MemoryManager) : Prop :=
  .zoneErr .notInFullQueue ∉ m.calls ∧ .zoneErr .zonesAllFull ∉ m.calls

/-- How often a zone occurs in the pool, the open slots, the full zones and the hand. -/
def occurrences (m : MemoryManager) (hand : Option Nat) (zone : Nat) : Nat :=
  m.emptyZone.contents.count zone + m.openZone.count zone +
    (if zone ∈ m.fullZone then 1 else 0) + (if hand = some zone then 1 else 0)

/-- The invariant: the zone in `hand` was taken from the pool and not yet placed. -/
structure Roles (device : Device) (hand : Option Nat) (m : MemoryManager) : Prop where
  placed : ∀ zone, (m.zoneMetas zone).Placed device zone
  wf : m.emptyZone.Wf
  queues : m.emptyZone.queues.length = device.queueNum
  div : m.emptyZone.div = (getZnsMeta device.toSsdConfig).zonesPerDie
  once : ∀ zone, m.occurrences hand zone = if zone < device.zoneNum then 1 else 0
  full_iff : ∀ zone, hand ≠ some zone →
    (zone ∈ m.fullZone ↔ (m.zoneMetas zone).endPtr ≤ (m.zoneMetas zone).writePtr)
  open_length : m.openZone.length = openZoneNum
  which_lt : m.whichZone < openZoneNum
  quiet : m.Quiet

section Roles

variable {device : Device} {hand : Option Nat} {m : MemoryManager}

/-! ## Consequences -/

theorem Roles.occurs_le (roles : m.Roles device hand) (zone : Nat) :
    m.occurrences hand zone ≤ 1 := by
  rw [roles.once]
  split <;> omega

theorem Roles.lt_of_occurs (roles : m.Roles device hand) {zone : Nat}
    (occurs : 0 < m.occurrences hand zone) : zone < device.zoneNum := by
  rw [roles.once] at occurs
  by_contra ge
  rw [if_neg ge] at occurs
  exact Nat.lt_irrefl 0 occurs

/-- The zone in hand is a zone of the device and not full. -/
theorem Roles.inHand (roles : m.Roles device hand) {zone : Nat} (inHand : hand = some zone) :
    zone < device.zoneNum ∧ zone ∉ m.fullZone := by
  have le := roles.occurs_le zone
  have occurs : 0 < m.occurrences hand zone := by
    simp only [occurrences, inHand, if_true]
    omega
  refine ⟨roles.lt_of_occurs occurs, fun full => ?_⟩
  simp only [occurrences, inHand, full, if_true] at le
  omega

/-- An open zone is a zone of the device with room for a table. -/
theorem Roles.open (roles : m.Roles device none) {zone : Nat} (mem : zone ∈ m.openZone) :
    zone < device.zoneNum ∧ zone ∉ m.fullZone ∧
      (m.zoneMetas zone).used < device.tables := by
  have le := roles.occurs_le zone
  have count := List.count_pos_iff.mpr mem
  have notFull : zone ∉ m.fullZone := fun full => by
    simp only [occurrences, full, if_true] at le
    omega
  refine ⟨roles.lt_of_occurs (by simp only [occurrences]; omega), notFull, ?_⟩
  rw [← (roles.placed zone).lt_end_iff, ← Nat.not_le, ← roles.full_iff zone (by simp)]
  exact notFull

theorem Roles.index_lt (roles : m.Roles device hand) {zone : Nat} (lt : zone < device.zoneNum) :
    QueueCache.index m.emptyZone.div zone < m.emptyZone.queues.length := by
  rw [roles.queues, roles.div]
  exact QueueCache.index_lt device.queueNum_even device.zoneNum_eq_queueNum_mul lt

/-! ## Steps that keep every zone in its place -/

/-- Roles depend on the zone fields and on the reported errors only. -/
theorem Roles.congr (roles : m.Roles device hand) {m' : MemoryManager}
    (metas : m'.zoneMetas = m.zoneMetas) (pool : m'.emptyZone = m.emptyZone)
    (opened : m'.openZone = m.openZone) (which : m'.whichZone = m.whichZone)
    (full : m'.fullZone = m.fullZone) (quiet : m'.Quiet) : m'.Roles device hand where
  placed := metas ▸ roles.placed
  wf := pool ▸ roles.wf
  queues := pool ▸ roles.queues
  div := pool ▸ roles.div
  once zone := by
    rw [← roles.once zone]
    simp only [occurrences, pool, opened, full]
  full_iff := by
    rw [metas, full]
    exact roles.full_iff
  open_length := opened ▸ roles.open_length
  which_lt := which ▸ roles.which_lt
  quiet := quiet

/-- Calls that are not errors about roles keep the record quiet. -/
theorem Quiet.append (quiet : m.Quiet) {new : List Call}
    (harmless : ∀ call ∈ new,
      call ≠ .zoneErr .notInFullQueue ∧ call ≠ .zoneErr .zonesAllFull) :
    .zoneErr .notInFullQueue ∉ new ++ m.calls ∧ .zoneErr .zonesAllFull ∉ new ++ m.calls := by
  simp only [List.mem_append, not_or]
  exact ⟨⟨fun mem => (harmless _ mem).1 rfl, quiet.1⟩,
    ⟨fun mem => (harmless _ mem).2 rfl, quiet.2⟩⟩

theorem Quiet.zoneErr (quiet : m.Quiet) {err : ZoneErr}
    (other : err ≠ .notInFullQueue ∧ err ≠ .zonesAllFull) : (m.zoneErr err).Quiet :=
  ⟨by simpa [MemoryManager.zoneErr, call, Ne.symm other.1] using quiet.1,
    by simpa [MemoryManager.zoneErr, call, Ne.symm other.2] using quiet.2⟩

theorem waits_harmless (m : MemoryManager) (t : TableId) : ∀ call ∈ m.waits t,
    call ≠ .zoneErr .notInFullQueue ∧ call ≠ .zoneErr .zonesAllFull := by
  intro call mem
  obtain ⟨ticket, _, rfl⟩ := List.mem_map.mp mem
  simp

theorem Roles.visit (roles : m.Roles device hand) (table : Nat) :
    (m.visit table).Roles device hand := by
  refine roles.congr rfl rfl rfl rfl rfl ?_
  have quiet := roles.quiet.append (waits_harmless m (m.tableAt table))
  exact ⟨by simpa [MemoryManager.visit] using quiet.1,
    by simpa [MemoryManager.visit] using quiet.2⟩

theorem Roles.setMeta (roles : m.Roles device hand) (zone : Nat) (zoneMeta : ZoneMeta)
    (placed : zoneMeta.Placed device zone)
    (write : zoneMeta.writePtr = (m.zoneMetas zone).writePtr) :
    (m.setMeta zone zoneMeta).Roles device hand where
  placed other := by
    by_cases same : other = zone
    · subst same
      simpa using placed
    · simpa [MemoryManager.setMeta, Function.update_of_ne same] using roles.placed other
  wf := roles.wf
  queues := roles.queues
  div := roles.div
  once := roles.once
  full_iff other notHand := by
    change other ∈ m.fullZone ↔ _
    rw [roles.full_iff other notHand]
    by_cases same : other = zone
    · subst same
      simp only [setMeta_zoneMetas_self, write, placed.end_eq, (roles.placed other).end_eq]
    · simp [MemoryManager.setMeta, Function.update_of_ne same]
  open_length := roles.open_length
  which_lt := roles.which_lt
  quiet := roles.quiet

/-! ## Relocation and reset -/

/-- A zone taken from the pool is in hand. -/
theorem Roles.take (roles : m.Roles device none) {zone : Nat} {pool : QueueCache}
    (got : m.emptyZone.get = some (zone, pool)) :
    ({ m with emptyZone := pool } : MemoryManager).Roles device (some zone) where
  placed := roles.placed
  wf := roles.wf.get got
  queues := by
    obtain ⟨_, _, _, _, rfl⟩ := QueueCache.get_eq_some got
    simpa using roles.queues
  div := by
    obtain ⟨_, _, _, _, rfl⟩ := QueueCache.get_eq_some got
    exact roles.div
  once other := by
    have once := roles.once other
    have count := QueueCache.count_get got other
    simp only [occurrences, Option.some.injEq, reduceCtorEq, if_false] at once ⊢
    rw [← once, count]
    by_cases same : other = zone
    · subst same
      simp only [if_true]
      omega
    · simp only [same, Ne.symm same, if_false]
      omega
  full_iff other _ := roles.full_iff other (by simp)
  open_length := roles.open_length
  which_lt := roles.which_lt
  quiet := roles.quiet

theorem Roles.place (roles : m.Roles device hand) {zone : Nat} (inHand : hand = some zone)
    (room : (m.zoneMetas zone).writePtr < (m.zoneMetas zone).endPtr) (source : Nat) :
    (m.place zone source).Roles device hand := by
  have placed := roles.placed zone
  rw [MemoryManager.place, moveTable_eq]
  exact
    { placed := fun other => by
        by_cases same : other = zone
        · subst same
          simpa using placed.grow (placed.lt_end_iff.mp room)
        · simpa [MemoryManager.setMeta, Function.update_of_ne same] using roles.placed other
      wf := roles.wf
      queues := roles.queues
      div := roles.div
      once := roles.once
      full_iff := fun other notHand => by
        have ne : other ≠ zone := fun same => notHand (same ▸ inHand)
        simpa [MemoryManager.setMeta, Function.update_of_ne ne] using
          roles.full_iff other notHand
      open_length := roles.open_length
      which_lt := roles.which_lt
      quiet := by simpa [Quiet, MemoryManager.setMeta] using roles.quiet }

/-- A zone in hand that has become full is counted as full. -/
theorem Roles.fill {zone : Nat} (roles : m.Roles device (some zone))
    (full : (m.zoneMetas zone).endPtr ≤ (m.zoneMetas zone).writePtr) :
    ({ m with fullZone := insert zone m.fullZone } : MemoryManager).Roles device none where
  placed := roles.placed
  wf := roles.wf
  queues := roles.queues
  div := roles.div
  once other := by
    rw [← roles.once other]
    simp only [occurrences, Option.some.injEq, reduceCtorEq, if_false, Finset.mem_insert]
    by_cases same : other = zone
    · subst same
      simp [(roles.inHand rfl).2]
    · simp [same, Ne.symm same]
  full_iff other _ := by
    rw [Finset.mem_insert]
    by_cases same : other = zone
    · subst same
      exact iff_of_true (.inl rfl) full
    · simp only [same, false_or]
      exact roles.full_iff other (by simpa using Ne.symm same)
  open_length := roles.open_length
  which_lt := roles.which_lt
  quiet := roles.quiet

/-- A zone in hand that still has room returns to the pool. -/
theorem Roles.back {zone : Nat} (roles : m.Roles device (some zone))
    (room : (m.zoneMetas zone).writePtr < (m.zoneMetas zone).endPtr) :
    ({ m with emptyZone := m.emptyZone.put zone } : MemoryManager).Roles device none where
  placed := roles.placed
  wf := roles.wf.put (roles.index_lt (roles.inHand rfl).1)
  queues := by simpa [QueueCache.put] using roles.queues
  div := roles.div
  once other := by
    have count := QueueCache.count_put (roles.index_lt (roles.inHand rfl).1) other
    rw [← roles.once other]
    simp only [occurrences, Option.some.injEq, reduceCtorEq, if_false, count]
    by_cases same : other = zone
    · subst same
      simp only [if_true]
      omega
    · simp only [same, Ne.symm same, if_false]
      omega
  full_iff other _ := by
    by_cases same : other = zone
    · subst same
      exact iff_of_false (roles.inHand rfl).2 (Nat.not_le.mpr room)
    · exact roles.full_iff other (by simpa using Ne.symm same)
  open_length := roles.open_length
  which_lt := roles.which_lt
  quiet := roles.quiet

/-- The roles while a full zone is emptied: its record and `toReset` stay as they are. -/
structure Emptying (device : Device) (zone : Nat) (zoneMeta : ZoneMeta) (toReset : Finset Nat)
    (hand : Option Nat) (m : MemoryManager) : Prop where
  roles : m.Roles device hand
  full : zone ∈ m.fullZone
  record : m.zoneMetas zone = zoneMeta
  reset : m.toReset = toReset

section Emptying

variable {zone toZone : Nat} {zoneMeta : ZoneMeta} {toReset : Finset Nat}

/-- The zone being emptied is not the zone in hand. -/
theorem Emptying.other (emptying : m.Emptying device zone zoneMeta toReset (some toZone)) :
    zone ≠ toZone := fun eq =>
  (emptying.roles.inHand rfl).2 (eq ▸ emptying.full)

theorem Emptying.take (emptying : m.Emptying device zone zoneMeta toReset none)
    {pool : QueueCache} (got : m.emptyZone.get = some (toZone, pool)) :
    ({ m with emptyZone := pool } : MemoryManager).Emptying device zone zoneMeta toReset
      (some toZone) :=
  ⟨emptying.roles.take got, emptying.full, emptying.record, emptying.reset⟩

theorem Emptying.place (emptying : m.Emptying device zone zoneMeta toReset (some toZone))
    (room : (m.zoneMetas toZone).writePtr < (m.zoneMetas toZone).endPtr) (source : Nat) :
    (m.place toZone source).Emptying device zone zoneMeta toReset (some toZone) where
  roles := emptying.roles.place rfl room source
  full := by
    rw [MemoryManager.place, moveTable_eq]
    exact emptying.full
  record := by
    simp [emptying.other, emptying.record]
  reset := by
    rw [MemoryManager.place, moveTable_eq]
    exact emptying.reset

theorem Emptying.fill (emptying : m.Emptying device zone zoneMeta toReset (some toZone))
    (written : (m.zoneMetas toZone).endPtr ≤ (m.zoneMetas toZone).writePtr) :
    ({ m with fullZone := insert toZone m.fullZone } : MemoryManager).Emptying device zone
      zoneMeta toReset none :=
  ⟨emptying.roles.fill written, Finset.mem_insert_of_mem emptying.full, emptying.record,
    emptying.reset⟩

theorem Emptying.back (emptying : m.Emptying device zone zoneMeta toReset (some toZone))
    (room : (m.zoneMetas toZone).writePtr < (m.zoneMetas toZone).endPtr) :
    ({ m with emptyZone := m.emptyZone.put toZone } : MemoryManager).Emptying device zone
      zoneMeta toReset none :=
  ⟨emptying.roles.back room, emptying.full, emptying.record, emptying.reset⟩

end Emptying

/-- Relocation keeps the roles. -/
theorem relocating_roles (zone : Nat) (zoneMeta : ZoneMeta) (toReset : Finset Nat) :
    Relocating device fun hand _ m => m.Emptying device zone zoneMeta toReset hand where
  wf emptying := emptying.roles.wf
  placed emptying := emptying.roles.placed
  take emptying got := emptying.take got
  place emptying room := emptying.place room _
  fill emptying written := emptying.fill written
  back emptying room := emptying.back room

/-- Scanning a zone does not move it. -/
theorem Roles.scanZone (roles : m.Roles device none) (zone : Nat) :
    (m.scanZone zone).2.Roles device none ∧
      (m.scanZone zone).2.fullZone = m.fullZone ∧
      (m.scanZone zone).2.toReset = m.toReset := by
  have sorted := roles.setMeta zone _ ((roles.placed zone).relist
    ((m.zoneMetas zone).deletedTable.insertionSort (· ≤ ·))) rfl
  obtain ⟨m', ⟨roles', full, reset⟩, same | same⟩ := m.scanZone_rule
    (P := fun _ m' => m'.Roles device none ∧ m'.fullZone = m.fullZone ∧
      m'.toReset = m.toReset)
    ⟨sorted, rfl, rfl⟩ (fun _ holds => ⟨holds.1.visit _, holds.2⟩)
  · rw [same]
    exact ⟨roles', full, reset⟩
  · rw [same]
    exact ⟨roles'.congr rfl rfl rfl rfl rfl (roles'.quiet.zoneErr (by simp)), full, reset⟩

theorem Roles.rewriteZone (roles : m.Roles device none) {zone : Nat} (full : zone ∈ m.fullZone) :
    Ends (fun m' => m'.Roles device none ∧ zone ∈ m'.fullZone ∧ m'.toReset = m.toReset)
      (fun halt => halt.stop = .exit ∧ halt.state.Quiet) (m.rewriteZone zone) := by
  have scanned := roles.scanZone zone
  refine ((relocating_roles zone _ m.toReset).rewriteZone
    ⟨scanned.1, scanned.2.1 ▸ full, rfl, scanned.2.2⟩).imp ?_ ?_
  · exact fun _ emptying => ⟨emptying.roles, emptying.full, emptying.reset⟩
  · exact fun _ ⟨stop, _, emptying⟩ => ⟨stop, emptying.roles.quiet⟩

/-- An erased full zone joins the pool. -/
theorem Roles.eraseZone (roles : m.Roles device none) {zone : Nat} (full : zone ∈ m.fullZone) :
    (m.eraseZone device zone).Roles device none := by
  have lt : zone < device.zoneNum :=
    roles.lt_of_occurs (by simp only [occurrences, full, if_true]; omega)
  have placed := roles.placed zone
  let erased : ZoneMeta :=
    { m.zoneMetas zone with
      writePtr := (m.zoneMetas zone).start
      validTableNum := 0
      deletedTable := [] }
  have unused : erased.used = 0 := by simp [erased, ZoneMeta.used]
  have erasedPlaced : erased.Placed device zone :=
    { start_eq := placed.start_eq
      end_eq := placed.end_eq
      write_eq := by rw [unused]; rfl
      used_le := by rw [unused]; exact Nat.zero_le _
      valid_lt := Nat.two_pow_pos 16 }
  have metas : (m.eraseZone device zone).zoneMetas =
      Function.update m.zoneMetas zone erased := rfl
  exact
    { placed := fun other => by
        rw [metas]
        by_cases same : other = zone
        · subst same
          simpa using erasedPlaced
        · simpa [Function.update_of_ne same] using roles.placed other
      wf := roles.wf.put (roles.index_lt lt)
      queues := by
        simpa [MemoryManager.eraseZone, MemoryManager.setMeta, call, QueueCache.put] using
          roles.queues
      div := roles.div
      once := fun other => by
        have count := QueueCache.count_put (roles.index_lt lt) other
        rw [← roles.once other]
        simp only [occurrences, MemoryManager.eraseZone, MemoryManager.setMeta, call, count,
          Finset.mem_erase]
        by_cases same : other = zone
        · subst same
          simp [full]
          omega
        · simp [same]
      full_iff := fun other _ => by
        rw [metas]
        simp only [MemoryManager.eraseZone, Finset.mem_erase]
        by_cases same : other = zone
        · subst same
          have tablesPos := device.tables_pos
          rw [Function.update_self, erasedPlaced.end_le_iff, unused]
          exact iff_of_false (fun mem => mem.1 rfl) tablesPos.ne
        · simpa [same, MemoryManager.setMeta, call] using roles.full_iff other (by simp)
      open_length := roles.open_length
      which_lt := roles.which_lt
      quiet := by simpa [Quiet, MemoryManager.eraseZone, MemoryManager.setMeta, call] using
        roles.quiet }

/-- A reset keeps the roles and stops only when the device is full. -/
theorem Roles.resetZone (roles : m.Roles device none) (zone : Nat) (force : Bool) :
    Ends (fun m' => m'.Roles device none ∧ m'.toReset = m.toReset)
      (fun halt => halt.stop = .exit ∧ halt.state.Quiet) (m.resetZone device zone force) := by
  simp only [MemoryManager.resetZone]
  split
  · exact ⟨roles, rfl⟩
  · rename_i notWritten
    have full : zone ∈ m.fullZone := (roles.full_iff zone (by simp)).mpr (Nat.not_lt.mp notWritten)
    simp only [if_pos full]
    split
    · split
      · exact ⟨rfl, roles.quiet⟩
      · exact ⟨roles, rfl⟩
    · split
      · split
        · refine (roles.rewriteZone full).bind fun m' _ ⟨roles', full', reset⟩ => ?_
          exact ⟨roles'.eraseZone full', reset⟩
        · exact ⟨roles.eraseZone full, rfl⟩
      · exact ⟨roles, rfl⟩

theorem evictable_roles : Evictable device (fun _ => True) (·.Roles device none)
    (fun halt => halt.stop ≠ .emptyPool ∧ halt.state.Quiet) where
  reset roles _ := (roles.resetZone _ _).imp (fun _ holds => holds.1)
    fun _ ⟨stop, quiet⟩ => ⟨by simp [stop], quiet⟩
  clear roles := roles.congr rfl rfl rfl rfl rfl roles.quiet
  idle roles stop := ⟨by rcases stop with rfl | rfl <;> simp, roles.quiet⟩

/-- An eviction leaves no zone to reset. -/
theorem Roles.evictZone_toReset (roles : m.Roles device none) (iter : Finset Nat → List Nat) :
    Ends (fun m' => m'.toReset = ∅) (fun _ => True) (m.evictZone device iter) := by
  simp only [MemoryManager.evictZone]
  split
  · simp only [MemoryManager.tryReset]
    cases resetZones device (iter m.toReset) m with
    | error _ => exact trivial
    | ok _ => rfl
  · rename_i empty
    split
    · exact trivial
    · exact (roles.resetZone _ true).imp
        (fun _ holds => holds.2.trans (not_not.mp empty)) fun _ _ => trivial

/-- The eviction loop keeps the roles and leaves only full zones to reset. -/
theorem Roles.evictLoop (roles : m.Roles device none) (sub : m.toReset ⊆ m.fullZone)
    (iter : Finset Nat → List Nat) (fuel : Nat) :
    Ends
      (fun m' => (m'.Roles device none ∧ m'.toReset ⊆ m'.fullZone) ∧
        device.zoneNum ≤ m'.emptyZone.size * 20)
      (fun halt => halt.stop ≠ .emptyPool ∧ halt.state.Quiet)
      (MemoryManager.evictLoop device iter fuel m) := by
  induction fuel generalizing m with
  | zero => exact evictable_roles.idle roles (.inr rfl)
  | succ fuel ih =>
      simp only [MemoryManager.evictLoop]
      split
      · refine ((evictable_roles.evictZone roles fun _ _ => trivial).and
          (roles.evictZone_toReset iter)).imp (fun _ => id) (fun _ holds => holds.1)
          |>.bind fun m' _ evicted => ih evicted.1 ?_
        rw [evicted.2]
        exact Finset.empty_subset _
      · rename_i enough
        exact ⟨⟨roles, sub⟩, Nat.le_of_not_lt enough⟩

/-! ## Writing and deleting -/

theorem Roles.getD_mem (roles : m.Roles device hand) :
    m.openZone.getD m.whichZone 0 ∈ m.openZone := by
  rw [List.getD_eq_getElem _ _ (roles.open_length ▸ roles.which_lt)]
  exact List.getElem_mem _

theorem Roles.placed_grow (roles : m.Roles device none) {zone : Nat}
    (room : (m.zoneMetas zone).used < device.tables) (other : Nat) :
    ((m.setMeta zone ((m.zoneMetas zone).grow 1)).zoneMetas other).Placed device other := by
  by_cases same : other = zone
  · subst same
    simpa using (roles.placed other).grow room
  · simpa [same] using roles.placed other

/-- A zone that is not full with one table more stays open. -/
theorem Roles.grow (roles : m.Roles device none) {zone : Nat} (notFull : zone ∉ m.fullZone)
    (room : (m.zoneMetas zone).used < device.tables)
    (less : ¬((m.zoneMetas zone).grow 1).endPtr ≤ ((m.zoneMetas zone).grow 1).writePtr) :
    (m.setMeta zone ((m.zoneMetas zone).grow 1)).Roles device none :=
  { placed := roles.placed_grow room
    wf := roles.wf
    queues := roles.queues
    div := roles.div
    once := roles.once
    full_iff := fun other _ => by
      by_cases same : other = zone
      · subst same
        exact iff_of_false notFull (by simpa using less)
      · simpa [MemoryManager.setMeta, Function.update_of_ne same] using
          roles.full_iff other (by simp)
    open_length := roles.open_length
    which_lt := roles.which_lt
    quiet := roles.quiet }

/-- A zone that becomes full leaves its open slot to a zone of the pool. -/
theorem Roles.rollZone (roles : m.Roles device none) (nonempty : m.emptyZone.empty = false) :
    Ends (·.Roles device none) (fun _ => False)
      ((m.setMeta (m.openZone.getD m.whichZone 0)
        ((m.zoneMetas (m.openZone.getD m.whichZone 0)).grow 1)).rollZone
          (m.openZone.getD m.whichZone 0)) := by
  have mem := roles.getD_mem
  have whichLt : m.whichZone < m.openZone.length := roles.open_length ▸ roles.which_lt
  have getEq := List.getD_eq_getElem m.openZone 0 whichLt
  generalize m.openZone.getD m.whichZone 0 = zone at mem getEq ⊢
  obtain ⟨-, notFull, room⟩ := roles.open mem
  simp only [MemoryManager.rollZone, setMeta_zoneMetas_self]
  by_cases full : ((m.zoneMetas zone).grow 1).endPtr ≤ ((m.zoneMetas zone).grow 1).writePtr
  · rw [if_pos full]
    obtain ⟨⟨next, pool⟩, got⟩ := Option.isSome_iff_exists.mp (roles.wf.get_isSome nonempty)
    have taken := roles.take got
    have nonempty' : (m.setMeta zone ((m.zoneMetas zone).grow 1)).emptyZone.empty = false :=
      nonempty
    have got' : (m.setMeta zone ((m.zoneMetas zone).grow 1)).emptyZone.get =
      some (next, pool) := got
    simp only [nonempty', Bool.false_eq_true, if_false, got']
    exact
      { placed := roles.placed_grow room
        wf := taken.wf
        queues := taken.queues
        div := taken.div
        once := fun other => by
          have once := taken.once other
          have counted : 0 < m.openZone.count m.openZone[m.whichZone] :=
            List.count_pos_iff.mpr (List.getElem_mem _)
          simp only [occurrences, Option.some.injEq, reduceCtorEq, if_false,
            MemoryManager.setMeta, List.count_set whichLt, Finset.mem_insert,
            beq_iff_eq, ← getEq] at once counted ⊢
          rw [← once]
          by_cases same : other = zone
          · subst same
            simp only [true_or, if_true, notFull, if_false]
            omega
          · simp only [same, Ne.symm same, false_or, if_false]
            omega
        full_iff := fun other _ => by
          rw [Finset.mem_insert]
          by_cases same : other = zone
          · subst same
            exact iff_of_true (.inl rfl) (by simpa using full)
          · simpa [same, MemoryManager.setMeta, Function.update_of_ne same] using
              roles.full_iff other (by simp)
        open_length := by simpa [MemoryManager.setMeta] using roles.open_length
        which_lt := roles.which_lt
        quiet := roles.quiet }
  · rw [if_neg full]
    exact roles.grow notFull room full

theorem Roles.entered (roles : m.Roles device none) (level num s : Nat) :
    (m.entered level num s).Roles device none :=
  roles.congr rfl rfl rfl rfl rfl (by simpa [Quiet, MemoryManager.entered] using roles.quiet)

/-- After the evictions, a table goes to the write pointer of the open zone. -/
theorem Roles.appendTable (roles : m.Roles device none) (sub : m.toReset ⊆ m.fullZone)
    (nonempty : m.emptyZone.empty = false) (level num : Nat) :
    Ends
      (fun m' => (m'.Roles device none ∧ m'.toReset ⊆ m'.fullZone) ∧
        m'.mappingTable (level, num) =
          some (m.zoneMetas (m.openZone.getD m.whichZone 0)).writePtr)
      (fun halt => halt.stop = .noLevel ∧ halt.state.Quiet) (m.appendTable level num) := by
  have rolled := roles.rollZone nonempty
  simp only [MemoryManager.appendTable]
  generalize m.openZone.getD m.whichZone 0 = zone at rolled ⊢
  obtain ⟨full, opened, pool, rollEq, grows⟩ :=
    (m.setMeta zone ((m.zoneMetas zone).grow 1)).rollZone_eq roles.wf nonempty zone
  rw [rollEq] at rolled ⊢
  have turned : Roles device none
      { m.setMeta zone ((m.zoneMetas zone).grow 1) with
        fullZone := full
        openZone := opened
        emptyZone := pool
        whichZone := (m.whichZone + 1) % openZoneNum } :=
    { rolled with which_lt := Nat.mod_lt _ (by decide) }
  change Ends _ _ (MemoryManager.enterTable _ level num _)
  rw [enterTable_eq]
  split
  · exact ⟨rfl, turned.quiet⟩
  · exact ⟨⟨turned.entered level num _, sub.trans grows⟩, Function.update_self ..⟩

theorem Roles.writeTable (roles : m.Roles device none) (sub : m.toReset ⊆ m.fullZone)
    (iter : Finset Nat → List Nat) (fuel level num : Nat) :
    Ends (fun m' => m'.Roles device none ∧ m'.toReset ⊆ m'.fullZone)
      (fun halt => halt.stop ≠ .emptyPool ∧ halt.state.Quiet)
      (m.writeTable device iter fuel level num) := by
  refine (roles.evictLoop sub iter fuel).bind fun m₁ _ evicted => ?_
  obtain ⟨⟨roles₁, sub₁⟩, enough⟩ := evicted
  have nonempty : m₁.emptyZone.empty = false := by
    have zonesPos := device.zoneNum_pos
    simp only [QueueCache.empty]
    exact decide_eq_false (by omega)
  exact (roles₁.appendTable sub₁ nonempty level num).imp (fun _ holds => holds.1)
    fun _ halted => ⟨by simp [halted.1], halted.2⟩

theorem Roles.dropTable (roles : m.Roles device none) (t : TableId) (s : Nat) :
    (m.dropTable device t s).Roles device none := by
  have counted := roles.setMeta (s / device.zoneCap) _
    ((roles.placed (s / device.zoneCap)).drop s) rfl
  refine counted.congr rfl rfl rfl rfl rfl ?_
  simp only [Quiet, MemoryManager.dropTable]
  split
  · simpa [Quiet] using roles.quiet
  · exact roles.quiet

theorem Roles.deleteTable (roles : m.Roles device none) (sub : m.toReset ⊆ m.fullZone)
    (level num : Nat) :
    Ends (fun m' => m'.Roles device none ∧ m'.toReset ⊆ m'.fullZone)
      (fun halt => halt.stop ≠ .emptyPool ∧ halt.state.Quiet)
      (m.deleteTable device level num) := by
  by_cases known : level < m.levels
  · rw [deleteTable_eq m device known]
    split
    · exact ⟨by simp, roles.quiet⟩
    · cases m.mappingTable (level, num) with
      | none => exact ⟨roles, sub⟩
      | some s =>
          refine ⟨roles.dropTable (level, num) s, ?_⟩
          simp only [Option.elim, MemoryManager.dropTable]
          split
          · rename_i written
            exact Finset.insert_subset ((roles.full_iff _ (by simp)).mpr written) sub
          · exact sub
  · simp only [MemoryManager.deleteTable, Nat.not_lt.mp known, if_true]
    exact ⟨by simp, roles.quiet⟩

/-- Reading leaves every zone in its place. -/
theorem Roles.reads (roles : m.Roles device none) (level num offset length : Nat) :
    Ends (fun m' => m'.Roles device none ∧ m'.toReset = m.toReset ∧ m'.fullZone = m.fullZone)
        (fun halt => halt.stop ≠ .emptyPool ∧ halt.state.Quiet)
        (m.getValue level num offset length) ∧
      Ends (fun m' => m'.Roles device none ∧ m'.toReset = m.toReset ∧ m'.fullZone = m.fullZone)
        (fun halt => halt.stop ≠ .emptyPool ∧ halt.state.Quiet)
        (m.readTable level num offset length) := by
  by_cases known : level < m.levels
  · have waited := roles.quiet.append (waits_harmless m (level, num))
    rw [getValue_eq m known, readTable_eq m known]
    refine ⟨⟨roles.congr rfl rfl rfl rfl rfl ?_, rfl, rfl⟩,
      ⟨roles.congr rfl rfl rfl rfl rfl ?_, rfl, rfl⟩⟩
    · simpa [Quiet, readCall] using waited
    · simpa [Quiet, tableCall] using waited
  · simp only [MemoryManager.getValue, MemoryManager.readTable, Nat.not_lt.mp known, if_true]
    exact ⟨⟨by simp, roles.quiet⟩, ⟨by simp, roles.quiet⟩⟩

/-- Every operation keeps the roles, and where one stops no role was found wrong. -/
theorem Roles.exec (roles : m.Roles device none) (sub : m.toReset ⊆ m.fullZone)
    (iter : Finset Nat → List Nat) (fuel : Nat) (op : Op) :
    Ends (fun m' => m'.Roles device none ∧ m'.toReset ⊆ m'.fullZone)
      (fun halt => halt.stop ≠ .emptyPool ∧ halt.state.Quiet) (m.exec device iter fuel op) := by
  have reading : ∀ m' : MemoryManager, (m'.Roles device none ∧ m'.toReset = m.toReset ∧
      m'.fullZone = m.fullZone) → m'.Roles device none ∧ m'.toReset ⊆ m'.fullZone :=
    fun m' ⟨roles', reset, full⟩ => ⟨roles', by rw [reset, full]; exact sub⟩
  cases op with
  | writeTable level num => exact roles.writeTable sub iter fuel level num
  | getValue level num offset length =>
      exact (roles.reads level num offset length).1.imp reading fun _ => id
  | readTable level num offset length =>
      exact (roles.reads level num offset length).2.imp reading fun _ => id
  | deleteTable level num => exact roles.deleteTable sub level num
  | tryReset =>
      have loop : Ends (·.Roles device none) _ (resetZones device (iter m.toReset) m) :=
        evictable_roles.resetZones roles fun _ _ => trivial
      exact loop.bind fun m' _ roles' =>
        ⟨roles'.congr rfl rfl rfl rfl rfl roles'.quiet, Finset.empty_subset _⟩
  | evictZone =>
      refine ((evictable_roles.evictZone roles fun _ _ => trivial).and
        (roles.evictZone_toReset iter)).imp ?_ fun _ holds => holds.1
      intro m' ⟨roles', empty⟩
      rw [empty]
      exact ⟨roles', Finset.empty_subset _⟩

end Roles

/-! ## Reachable states -/

/-- Opening zones moves them from the pool to the open slots. -/
theorem openZones_spec {count : Nat} {pool pool' : QueueCache} {zones : List Nat}
    (wf : pool.Wf) (opened : openZones count pool = some (zones, pool')) :
    pool'.Wf ∧ pool'.queues.length = pool.queues.length ∧ pool'.div = pool.div ∧
      zones.length = count ∧
      ∀ zone, pool'.contents.count zone + zones.count zone = pool.contents.count zone := by
  induction count generalizing pool zones with
  | zero =>
      cases opened
      exact ⟨wf, rfl, rfl, rfl, fun _ => rfl⟩
  | succ count ih =>
      simp only [openZones, Option.bind_eq_bind, Option.bind_eq_some_iff] at opened
      obtain ⟨⟨zone, next⟩, got, ⟨rest, last⟩, restOpened, done⟩ := opened
      cases done
      obtain ⟨wf', length, div, number, counts⟩ := ih (wf.get got) restOpened
      have frame : next.queues.length = pool.queues.length ∧ next.div = pool.div := by
        obtain ⟨_, _, _, _, rfl⟩ := QueueCache.get_eq_some got
        simp
      refine ⟨wf', length.trans frame.1, div.trans frame.2, by simp [number], fun other => ?_⟩
      have taken := QueueCache.count_get got other
      have counts := counts other
      dsimp only at counts ⊢
      rw [List.count_cons]
      by_cases same : other = zone
      · subst same
        simp only [if_true, beq_self_eq_true] at taken ⊢
        omega
      · have differ : (zone == other) = false := by simpa using Ne.symm same
        simp only [same, differ, if_false, Bool.false_eq_true] at taken ⊢
        omega

theorem roles_new {device : Device} {m : MemoryManager} (built : new device = some m) :
    m.Roles device none ∧ m.toReset ⊆ m.fullZone := by
  simp only [new, Option.bind_eq_bind, Option.bind_eq_some_iff] at built
  obtain ⟨⟨zones, pool⟩, opened, done⟩ := built
  cases done
  have inside : ∀ zone < device.zoneNum,
      QueueCache.index (getZnsMeta device.toSsdConfig).zonesPerDie zone < device.queueNum :=
    fun zone lt => QueueCache.index_lt device.queueNum_even device.zoneNum_eq_queueNum_mul lt
  obtain ⟨wf, length, div, number, counts⟩ :=
    openZones_spec (QueueCache.wf_new inside device.queueNum_pos) opened
  have unused : ∀ zone, ({
      start := zone * device.zoneCap
      writePtr := zone * device.zoneCap
      endPtr := (zone + 1) * device.zoneCap - 1
      validTableNum := 0
      deletedTable := [] } : ZoneMeta).Placed device zone := fun zone =>
    { start_eq := rfl
      end_eq := rfl
      write_eq := by simp [ZoneMeta.used]
      used_le := by simp [ZoneMeta.used]
      valid_lt := Nat.two_pow_pos 16 }
  refine ⟨?_, Finset.empty_subset _⟩
  exact
    { placed := unused
      wf := wf
      queues := length.trans (QueueCache.length_new inside)
      div := div
      once := fun zone => by
        have counted := counts zone
        rw [QueueCache.count_new inside] at counted
        simpa [occurrences] using counted
      full_iff := fun zone _ => by
        have tablesPos := device.tables_pos
        rw [(unused zone).end_le_iff]
        simp only [ZoneMeta.used, Nat.sub_self, Nat.zero_div]
        exact iff_of_false (Finset.notMem_empty zone) tablesPos.ne
      open_length := number
      which_lt := by simp [openZoneNum]
      quiet := by simp [Quiet] }

theorem roles_of_reachable {device : Device} {m : MemoryManager}
    (reachable : (system device).Reachable m) :
    m.Roles device none ∧ m.toReset ⊆ m.fullZone :=
  System.invariant_of_reachable
    (P := fun m => m.Roles device none ∧ m.toReset ⊆ m.fullZone)
    (fun _ built => roles_new built)
    (fun _ op _ ⟨roles, sub⟩ ⟨iter, fuel, _, ok⟩ => (roles.exec sub iter fuel op).of_ok ok)
    reachable

/-- What the roles of the zones amount to in a state between two operations. -/
structure ZoneRoles (device : Device) (m : MemoryManager) : Prop where
  exactly_once : ∀ zone < device.zoneNum,
    m.emptyZone.contents.count zone + m.openZone.count zone +
      (if zone ∈ m.fullZone then 1 else 0) = 1
  full_iff : ∀ zone < device.zoneNum,
    (zone ∈ m.fullZone ↔ (m.zoneMetas zone).endPtr ≤ (m.zoneMetas zone).writePtr)
  toReset_sub : m.toReset ⊆ m.fullZone
  /-- A written table lies inside the zone that was open when the evictions were done. -/
  writes_inside : ∀ iter fuel level num m',
    m.writeTable device iter fuel level num = .ok m' →
      ∃ m₁ zone s,
        MemoryManager.evictLoop device iter fuel m = .ok m₁ ∧
        m₁.openZone[m₁.whichZone]? = some zone ∧ zone < device.zoneNum ∧
        s = (m₁.zoneMetas zone).writePtr ∧ m'.mappingTable (level, num) = some s ∧
        zone * device.zoneCap ≤ s ∧ s + sstableSize ≤ (zone + 1) * device.zoneCap
  /-- No operation takes a zone from an empty pool or finds a full zone missing. -/
  never : ∀ iter fuel op,
    Ends (fun m' => .zoneErr .notInFullQueue ∉ m'.calls)
      (fun halt => halt.stop ≠ .emptyPool ∧ .zoneErr .notInFullQueue ∉ halt.state.calls)
      (m.exec device iter fuel op)

theorem Roles.writes_inside {device : Device} {m : MemoryManager} (roles : m.Roles device none)
    (sub : m.toReset ⊆ m.fullZone) {iter : Finset Nat → List Nat} {fuel level num : Nat}
    {m' : MemoryManager} (ok : m.writeTable device iter fuel level num = .ok m') :
    ∃ m₁ zone s,
      MemoryManager.evictLoop device iter fuel m = .ok m₁ ∧
      m₁.openZone[m₁.whichZone]? = some zone ∧ zone < device.zoneNum ∧
      s = (m₁.zoneMetas zone).writePtr ∧ m'.mappingTable (level, num) = some s ∧
      zone * device.zoneCap ≤ s ∧ s + sstableSize ≤ (zone + 1) * device.zoneCap := by
  simp only [MemoryManager.writeTable] at ok
  cases loop : MemoryManager.evictLoop device iter fuel m with
  | error halt => rw [loop] at ok; cases ok
  | ok m₁ =>
      rw [loop] at ok
      obtain ⟨⟨roles₁, sub₁⟩, enough⟩ := (roles.evictLoop sub iter fuel).of_ok loop
      have nonempty : m₁.emptyZone.empty = false := by
        have zonesPos := device.zoneNum_pos
        exact decide_eq_false (by omega)
      have located := ((roles₁.appendTable sub₁ nonempty level num).of_ok ok).2
      have whichLt : m₁.whichZone < m₁.openZone.length := roles₁.open_length ▸ roles₁.which_lt
      obtain ⟨lt, -, room⟩ := roles₁.open roles₁.getD_mem
      refine ⟨m₁, m₁.openZone.getD m₁.whichZone 0, _, rfl, ?_, lt, rfl, located, ?_, ?_⟩
      · rw [List.getD_eq_getElem _ _ whichLt, List.getElem?_eq_getElem whichLt]
      · have placed := roles₁.placed (m₁.openZone.getD m₁.whichZone 0)
        rw [placed.write_eq, placed.start_eq]
        exact Nat.le_add_right ..
      · have space := (roles₁.placed (m₁.openZone.getD m₁.whichZone 0)).room
        have fits := Nat.le_mul_of_pos_right sstableSize (Nat.sub_pos_of_lt room)
        have bounds := (roles₁.placed (m₁.openZone.getD m₁.whichZone 0)).end_eq
        have capPos : 0 < (m₁.openZone.getD m₁.whichZone 0 + 1) * device.zoneCap :=
          Nat.mul_pos (Nat.succ_pos _) device.zoneCap_pos
        omega

/-- After any operations a zone is free, open or full, and never two of these; tables are only
written inside the open ones. -/
theorem zoneRoles_of_reachable {device : Device} {m : MemoryManager}
    (reachable : (system device).Reachable m) : m.ZoneRoles device := by
  obtain ⟨roles, sub⟩ := roles_of_reachable reachable
  exact
    { exactly_once := fun zone lt => by
        simpa [occurrences, lt] using roles.once zone
      full_iff := fun zone _ => roles.full_iff zone (by simp)
      toReset_sub := sub
      writes_inside := fun _ _ _ _ _ ok => roles.writes_inside sub ok
      never := fun iter fuel op => (roles.exec sub iter fuel op).imp
        (fun _ holds => holds.1.quiet.1) fun _ ⟨stop, quiet⟩ => ⟨stop, quiet.1⟩ }

/-- The small device after one table was written and deleted. -/
theorem zoneRoles_after_delete :
    ∃ m, storeRun device8G 1 [.writeTable 0 0, .readTable 0 0 0 0, .deleteTable 0 0] = some m ∧
      m.ZoneRoles device8G := by
  obtain ⟨m, run⟩ := Option.isSome_iff_exists.mp
    (show (storeRun device8G 1
      [.writeTable 0 0, .readTable 0 0 0 0, .deleteTable 0 0]).isSome by decide +kernel)
  exact ⟨m, run, zoneRoles_of_reachable (System.reachable_of_guarded (reachable_of_storeRun run))⟩

end MemoryManager

end ZnsLsm.Pool
