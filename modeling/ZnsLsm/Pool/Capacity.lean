import ZnsLsm.Pool.Eviction
import ZnsLsm.Pool.Ledger

/-!
# The pool never runs out

A reset of a zone frees more slots than it fills, and a write takes at most one zone out of
a pool that the evictions have refilled.  So the zones of the pool always have room for the
live tables of a zone that is not all live, and only a zone that is all live can make the
manager exit.  While fewer tables are stored than the full zones could hold, there is no
such zone.
-/

namespace ZnsLsm.Pool

open ZnsLsm.Outcome ZnsLsm.Transition

/-- The slots of a zone that are not written. -/
def ZoneMeta.free (device : Device) (zoneMeta : ZoneMeta) : Nat :=
  device.tables - zoneMeta.used

namespace QueueCache

variable {pool pool' : QueueCache} {zone : Nat}

theorem perm_get (got : pool.get = some (zone, pool')) :
    pool.contents.Perm (zone :: pool'.contents) := by
  rw [List.perm_iff_count]
  intro other
  rw [count_get got other, List.count_cons]
  by_cases same : other = zone
  · rw [if_pos same, if_pos (beq_iff_eq.mpr same.symm)]
  · rw [if_neg same, if_neg fun eq => same (beq_iff_eq.mp eq).symm]

theorem perm_put (lt : index pool.div zone < pool.queues.length) :
    (pool.put zone).contents.Perm (zone :: pool.contents) := by
  rw [List.perm_iff_count]
  intro other
  rw [count_put lt other, List.count_cons]
  by_cases same : other = zone
  · rw [if_pos same, if_pos (beq_iff_eq.mpr same.symm)]
  · rw [if_neg same, if_neg fun eq => same (beq_iff_eq.mp eq).symm]

end QueueCache

namespace MemoryManager

section Capacity

variable {device : Device} {m m' : MemoryManager} {zone toZone : Nat} {zoneMeta : ZoneMeta}
  {toReset : Finset Nat}

/-! ## The room of the pool -/

/-- The slots of the zones in the pool that are not written. -/
def poolRoom (device : Device) (m : MemoryManager) : Nat :=
  (m.emptyZone.contents.map fun zone => (m.zoneMetas zone).free device).sum

/-- The slots of the zone in hand that are not written. -/
def handRoom (device : Device) (m : MemoryManager) : Option Nat → Nat
  | none => 0
  | some zone => (m.zoneMetas zone).free device

theorem Roles.notMem_pool {hand : Option Nat} (roles : m.Roles device hand) (zone : Nat)
    (elsewhere : 0 < m.openZone.count zone + (if zone ∈ m.fullZone then 1 else 0) +
      (if hand = some zone then 1 else 0)) : zone ∉ m.emptyZone.contents := by
  intro mem
  have pooled := List.count_pos_iff.mpr mem
  have once := roles.occurs_le zone
  rw [occurrences] at once
  omega

/-- A zone of the pool has a free slot. -/
theorem Roles.free_pos (roles : m.Roles device none) (mem : zone ∈ m.emptyZone.contents) :
    0 < (m.zoneMetas zone).free device := by
  have notFull : zone ∉ m.fullZone := fun full =>
    roles.notMem_pool _ (by rw [if_pos full]; omega) mem
  have room : (m.zoneMetas zone).used < device.tables := by
    rw [← (roles.placed zone).lt_end_iff, ← Nat.not_le, ← roles.full_iff zone (by simp)]
    exact notFull
  exact Nat.sub_pos_of_lt room

theorem Roles.size_le_poolRoom (roles : m.Roles device none) :
    m.emptyZone.size ≤ m.poolRoom device := by
  have each : ∀ room ∈ m.emptyZone.contents.map fun zone => (m.zoneMetas zone).free device,
      1 ≤ room := by
    intro room mem
    obtain ⟨zone, pooled, rfl⟩ := List.mem_map.mp mem
    exact roles.free_pos pooled
  have least := List.length_le_sum_of_one_le _ each
  rw [List.length_map, ← roles.wf.size_eq] at least
  exact least

/-- The room depends on the write pointers of the zones in the pool. -/
theorem poolRoom_congr (pool : m'.emptyZone = m.emptyZone)
    (used : ∀ zone ∈ m.emptyZone.contents, (m'.zoneMetas zone).used = (m.zoneMetas zone).used) :
    m'.poolRoom device = m.poolRoom device := by
  rw [poolRoom, poolRoom, pool]
  refine congrArg List.sum (List.map_congr_left fun zone mem => ?_)
  rw [ZoneMeta.free, ZoneMeta.free, used zone mem]

theorem poolRoom_take {pool : QueueCache} (got : m.emptyZone.get = some (toZone, pool)) :
    m.poolRoom device =
      (m.zoneMetas toZone).free device +
        ({ m with emptyZone := pool } : MemoryManager).poolRoom device := by
  have perm := (QueueCache.perm_get got).map fun zone => (m.zoneMetas zone).free device
  exact perm.sum_nat

theorem poolRoom_put (inside : QueueCache.index m.emptyZone.div zone < m.emptyZone.queues.length) :
    ({ m with emptyZone := m.emptyZone.put zone } : MemoryManager).poolRoom device =
      (m.zoneMetas zone).free device + m.poolRoom device := by
  have perm := (QueueCache.perm_put inside).map fun zone => (m.zoneMetas zone).free device
  exact perm.sum_nat

/-! ## A relocation uses up as much room as it moves tables -/

/-- Beside `spare` slots, the pool and the hand have room for the tables that are to be moved. -/
def Roomy (device : Device) (spare : Nat) (hand : Option Nat) (rest : List Nat)
    (m : MemoryManager) : Prop :=
  spare + rest.length ≤ m.poolRoom device + m.handRoom device hand

theorem Emptying.roomy_place {spare source : Nat} {rest : List Nat}
    (emptying : m.Emptying device zone zoneMeta toReset (some toZone))
    (roomy : m.Roomy device spare (some toZone) (source :: rest))
    (room : (m.zoneMetas toZone).writePtr < (m.zoneMetas toZone).endPtr) :
    (m.place toZone source).Roomy device spare (some toZone) rest := by
  have placed := emptying.roles.placed toZone
  have usedLt := placed.lt_end_iff.mp room
  have notPooled := emptying.roles.notMem_pool toZone (by rw [if_pos rfl]; omega)
  have pool : (m.place toZone source).poolRoom device = m.poolRoom device := by
    apply poolRoom_congr (place_emptyZone ..)
    intro other mem
    rw [place_zoneMetas, Function.update_of_ne]
    rintro rfl
    exact notPooled mem
  simp only [Roomy, handRoom, ZoneMeta.free, List.length_cons] at roomy
  simp only [Roomy, handRoom, ZoneMeta.free, pool, place_zoneMetas, Function.update_self,
    placed.used_grow]
  omega

theorem relocating_roomy (spare zone : Nat) (zoneMeta : ZoneMeta) (toReset : Finset Nat) :
    Relocating device fun hand rest m =>
      m.Emptying device zone zoneMeta toReset hand ∧ m.Roomy device spare hand rest where
  wf holds := holds.1.roles.wf
  placed holds := holds.1.roles.placed
  take := by
    rintro rest toZone pool m ⟨emptying, roomy⟩ got
    refine ⟨emptying.take got, ?_⟩
    rw [Roomy, poolRoom_take got] at roomy
    simp only [Roomy, handRoom] at roomy ⊢
    omega
  place := fun ⟨emptying, roomy⟩ room => ⟨emptying.place room _, emptying.roomy_place roomy room⟩
  fill := by
    rintro rest toZone m ⟨emptying, roomy⟩ written
    refine ⟨emptying.fill written, ?_⟩
    have used := (emptying.roles.placed toZone).end_le_iff.mp written
    simp only [Roomy, handRoom, ZoneMeta.free, used, Nat.sub_self] at roomy ⊢
    exact roomy
  back := by
    rintro toZone m ⟨emptying, roomy⟩ room
    refine ⟨emptying.back room, ?_⟩
    have inside := emptying.roles.index_lt (emptying.roles.inHand rfl).1
    rw [Roomy, poolRoom_put inside]
    simp only [Roomy, handRoom] at roomy ⊢
    omega

/-! ## A reset gains room -/

/-- Room for the live tables of every zone that has a dead slot. -/
def Spacious (device : Device) (m : MemoryManager) : Prop :=
  device.tables ≤ m.poolRoom device + 1

@[simp]
theorem Roles.poolRoom_erase (roles : m.Roles device none) (full : zone ∈ m.fullZone) :
    (m.eraseZone device zone).poolRoom device = device.tables + m.poolRoom device := by
  have zoneLt : zone < device.zoneNum :=
    roles.lt_of_occurs (by simp only [occurrences, if_pos full]; omega)
  have notPooled := roles.notMem_pool zone (by rw [if_pos full]; omega)
  have erased : ((m.eraseZone device zone).zoneMetas zone).free device = device.tables := by
    rw [MemoryManager.eraseZone, ZoneMeta.free]
    simp only [setMeta_zoneMetas_self, ZoneMeta.used, Nat.sub_self, Nat.zero_div, Nat.sub_zero]
  have perm := (QueueCache.perm_put (roles.index_lt zoneLt)).map
    fun other => ((m.eraseZone device zone).zoneMetas other).free device
  have others : m.emptyZone.contents.map
      (fun other => ((m.eraseZone device zone).zoneMetas other).free device) =
      m.emptyZone.contents.map fun other => (m.zoneMetas other).free device := by
    refine List.map_congr_left fun other mem => ?_
    rw [eraseZone_zoneMetas_of_ne]
    rintro rfl
    exact notPooled mem
  rw [List.map_cons, erased, others] at perm
  exact perm.sum_nat

@[simp]
theorem Roles.poolRoom_scan (roles : m.Roles device none) (full : zone ∈ m.fullZone) :
    (m.scanZone zone).2.poolRoom device = m.poolRoom device := by
  have notPooled := roles.notMem_pool zone (by rw [if_pos full]; omega)
  obtain ⟨m', ⟨pool, metas⟩, same | same⟩ := @scanZone_rule m
    (fun _ m' => m'.emptyZone = m.emptyZone ∧
      ∀ other ≠ zone, m'.zoneMetas other = m.zoneMetas other) zone
    ⟨rfl, fun _ ne => setMeta_zoneMetas_of_ne m ne _⟩ (fun _ holds => holds)
  all_goals
    rw [same]
    apply poolRoom_congr pool
    intro other mem
    rw [metas other]
    rintro rfl
    exact notPooled mem

/-- The scan finds as many tables as the zone counts. -/
theorem Books.length_scan (books : m.Books device none []) (roles : m.Roles device none)
    (full : zone ∈ m.fullZone) :
    (m.scanZone zone).1.length = (m.zoneMetas zone).validTableNum := by
  by_contra wrong
  apply (books.scanZone roles full).1.clean .readValidWrong
  obtain ⟨scan, -, scanned⟩ := m.scanZone_eq zone
  rw [scanned] at wrong ⊢
  rw [if_pos wrong]
  exact List.mem_cons_self

theorem Books.rewriteZone_room (books : m.Books device none []) (roles : m.Roles device none)
    (full : zone ∈ m.fullZone)
    (fits : (m.zoneMetas zone).validTableNum ≤ m.poolRoom device) :
    Ends (fun m' => (m'.Roles device none ∧ zone ∈ m'.fullZone) ∧
        m.poolRoom device ≤ m'.poolRoom device + (m.zoneMetas zone).validTableNum)
      (fun _ => False) (m.rewriteZone zone) := by
  have scanned := roles.scanZone zone
  have roomy : (m.scanZone zone).2.Roomy device
      (m.poolRoom device - (m.zoneMetas zone).validTableNum) none (m.scanZone zone).1 := by
    rw [Roomy, roles.poolRoom_scan full, books.length_scan roles full]
    simp only [handRoom]
    omega
  refine ((relocating_roomy _ zone _ m.toReset).rewriteZone_or_full
    ⟨⟨scanned.1, scanned.2.1 ▸ full, rfl, scanned.2.2⟩, roomy⟩).imp ?_ ?_
  · rintro m' ⟨emptying, roomy'⟩
    refine ⟨⟨emptying.roles, emptying.full⟩, ?_⟩
    simp only [Roomy, handRoom, List.length_nil] at roomy'
    omega
  · -- The pool is empty, but it has room for the tables that are left.
    rintro halt ⟨-, empty, rest, left, emptying, roomy'⟩
    have nothing : halt.state.emptyZone.contents = [] := by
      apply List.eq_nil_of_length_eq_zero
      rw [← emptying.roles.wf.size_eq]
      simpa [QueueCache.empty] using empty
    have length := List.length_pos_iff.mpr left
    simp only [Roomy, poolRoom, nothing, handRoom, List.map_nil, List.sum_nil] at roomy'
    omega

/-- While there is room, a reset only fails by the forced exit, and it leaves as much room. -/
theorem Books.resetZone_room (books : m.Books device none []) (roles : m.Roles device none)
    (spacious : m.Spacious device) (zone : Nat) (force : Bool) :
    Ends (fun m' => m.poolRoom device ≤ m'.poolRoom device)
      (fun _ => ResetCall.ForcedExit device ⟨m, zone, force⟩)
      (m.resetZone device zone force) := by
  simp only [MemoryManager.resetZone]
  split
  · exact Nat.le_refl _
  · rename_i written
    have full : zone ∈ m.fullZone := (roles.full_iff zone (by simp)).mpr (Nat.not_lt.mp written)
    have counted := books.counted_full roles full
    simp only [if_pos full]
    split
    · rename_i rate
      split
      · rename_i forced
        exact ⟨forced, written, rate⟩
      · exact Nat.le_refl _
    · rename_i rate
      rw [maximumTable_eq] at rate
      split
      · split
        · have fits : (m.zoneMetas zone).validTableNum ≤ m.poolRoom device := by
            rw [Spacious] at spacious
            omega
          refine ((books.rewriteZone_room roles full fits).imp (fun _ => id)
            fun _ never => never.elim).bind ?_
          rintro m₁ - ⟨⟨roles₁, full₁⟩, room⟩
          change m.poolRoom device ≤ (m₁.eraseZone device zone).poolRoom device
          rw [roles₁.poolRoom_erase full₁]
          omega
        · change m.poolRoom device ≤ (m.eraseZone device zone).poolRoom device
          rw [roles.poolRoom_erase full]
          exact Nat.le_add_left _ _
      · exact Nat.le_refl _

/-- What the evictions of an operation that began in `origin` keep. -/
def Roomed (device : Device) (origin m : MemoryManager) : Prop :=
  (m.Roles device none ∧ m.Books device none [] ∧ origin.SameLive m) ∧ m.Spacious device

theorem Roomed.resetZone {origin : MemoryManager} (roomed : origin.Roomed device m) (zone : Nat)
    (force : Bool) :
    Ends (origin.Roomed device) (fun _ => ResetCall.ForcedExit device ⟨m, zone, force⟩)
      (m.resetZone device zone force) := by
  obtain ⟨holds, spacious⟩ := roomed
  refine (((evictable_books origin).reset holds trivial).and
    (holds.2.1.resetZone_room holds.1 spacious zone force)).imp ?_ fun _ both => both.2
  rintro m' ⟨holds', room⟩
  exact ⟨holds', spacious.trans (Nat.succ_le_succ room)⟩

/-- Resets that are not forced never fail. -/
theorem Roomed.resetZones {origin : MemoryManager} (roomed : origin.Roomed device m)
    (zones : List Nat) :
    Ends (origin.Roomed device) (fun _ => False) (MemoryManager.resetZones device zones m) := by
  induction zones generalizing m with
  | nil => exact roomed
  | cons zone zones ih =>
      refine ((roomed.resetZone zone false).imp (fun _ => id) ?_).bind fun m₁ _ roomed₁ =>
        ih roomed₁
      rintro halt ⟨force, -⟩
      cases force

theorem Roomed.clear {origin : MemoryManager} (roomed : origin.Roomed device m) :
    origin.Roomed device { m with toReset := ∅ } :=
  ⟨(evictable_books origin).clear roomed.1, roomed.2⟩

theorem evictable_roomed (origin : MemoryManager) :
    Evictable device (fun _ => True) (origin.Roomed device) (fun _ => True) where
  reset roomed _ := (roomed.resetZone _ _).imp (fun _ => id) fun _ _ => trivial
  clear roomed := roomed.clear
  idle _ _ := trivial

/-- Nothing but the forced exit makes the manager exit. -/
theorem evictable_unforced (origin : MemoryManager) :
    Evictable device (fun call => ¬call.ForcedExit device) (origin.Roomed device)
      (fun halt => halt.stop ≠ .exit) where
  reset roomed notForced := (roomed.resetZone _ _).imp (fun _ => id)
    fun _ forced => absurd forced notForced
  clear roomed := roomed.clear
  idle _ stops := by rcases stops with stops | stops <;> simp [stops]

/-! ## The number of tables that can be stored -/

/-- Every zone is in the pool, open or full. -/
theorem Roles.card_eq (roles : m.Roles device none) :
    m.emptyZone.size + openZoneNum + m.fullZone.card = device.zoneNum := by
  have perm : (m.emptyZone.contents ++ m.openZone ++ m.fullZone.toList).Perm
      (List.range device.zoneNum) := by
    apply List.perm_iff_count.mpr
    intro zone
    have once := roles.once zone
    simp only [occurrences, reduceCtorEq, if_false] at once
    rw [List.count_append, List.count_append, List.count_range, ← once,
      m.fullZone.nodup_toList.count]
    simp only [Finset.mem_toList, Nat.add_zero]
  have length := perm.length_eq
  rw [List.length_append, List.length_append, List.length_range, roles.open_length,
    ← roles.wf.size_eq, Finset.length_toList] at length
  exact length

/-- The slots of the zones that are full when less than 5% of the zones are free. -/
def capacity (device : Device) : Nat :=
  (device.zoneNum - openZoneNum - (device.zoneNum - 1) / 20) * device.tables

/-- If all slots of the full zones are live, there are as many tables. -/
theorem Books.encard_full_le (books : m.Books device none [])
    (live : ∀ zone ∈ m.fullZone, ∀ k < device.tables,
      ∃ t, m.mappingTable t = some (device.slot zone k)) :
    ((m.fullZone.card * device.tables : Nat) : ENat) ≤ {t | m.Live t}.encard := by
  let slots := m.fullZone ×ˢ Finset.range device.tables
  have located : ∀ slot ∈ slots,
      m.mappingTable (m.tableAt (device.slot slot.1 slot.2)) =
        some (device.slot slot.1 slot.2) := by
    intro slot mem
    obtain ⟨full, lt⟩ := Finset.mem_product.mp mem
    obtain ⟨t, located⟩ := live slot.1 full slot.2 (Finset.mem_range.mp lt)
    rw [MemoryManager.tableAt, (books.inverse t _).mp located]
    exact located
  have injective : Set.InjOn (fun slot => m.tableAt (device.slot slot.1 slot.2))
      (slots : Set (Nat × Nat)) := by
    intro first mem second mem' same
    have place := located first mem
    dsimp only at same
    rw [same, located second mem'] at place
    obtain ⟨zones, indices⟩ := device.slot_injective
      (Finset.mem_range.mp (Finset.mem_product.mp mem').2)
      (Finset.mem_range.mp (Finset.mem_product.mp mem).2) (Option.some.inj place)
    exact Prod.ext zones.symm indices.symm
  have card : slots.card = m.fullZone.card * device.tables := by
    rw [Finset.card_product, Finset.card_range]
  rw [← card, ← Set.encard_coe_eq_coe_finsetCard, ← injective.encard_image]
  apply Set.encard_le_encard
  rintro _ ⟨slot, mem, rfl⟩
  exact Option.isSome_iff_exists.mpr ⟨_, located slot mem⟩

/-- Zones are forced only while less than 5% of the zones are free. -/
theorem evictLoopCalls_few {iter : Finset Nat → List Nat} {fuel : Nat} :
    ∀ call ∈ evictLoopCalls device iter fuel m, call.force = true →
      call.state.emptyZone.size * 20 < device.zoneNum := by
  induction fuel generalizing m with
  | zero =>
      intro call mem
      cases mem
  | succ fuel ih =>
      intro call mem force
      simp only [evictLoopCalls] at mem
      split at mem
      · rename_i few
        rcases List.mem_append.mp mem with mem | mem
        · simp only [evictZoneCalls] at mem
          split at mem
          · rw [resetZonesCalls_force call mem] at force
            cases force
          · split at mem
            · cases mem
            · obtain rfl := List.mem_singleton.mp mem
              exact few
        · cases round : m.evictZone device iter with
          | error halt =>
              rw [round] at mem
              cases mem
          | ok m₁ =>
              rw [round] at mem
              exact ih call mem force
      · cases mem

/-- With few tables, no zone that is all live is forced. -/
theorem Books.notForced (books : m.Books device none []) (roles : m.Roles device none)
    (few : {t | m.Live t}.encard < capacity device) {iter : Finset Nat → List Nat}
    (enumerates : Enumerates iter) (fuel : Nat) :
    ∀ call ∈ evictLoopCalls device iter fuel m, ¬call.ForcedExit device := by
  intro call mem forced
  have called : call ∈ m.resetCalls device iter fuel (.writeTable 0 0) := mem
  obtain ⟨roles', books', same⟩ :=
    (evictable_books m).resetCalls ⟨roles, books, fun _ => Iff.rfl⟩ call called
  have stored := books'.encard_full_le (books.forcedExit roles enumerates fuel call mem forced)
  have live : {t | call.state.Live t} = {t | m.Live t} := Set.ext same
  rw [live] at stored
  have small := lt_of_le_of_lt stored few
  rw [Nat.cast_lt, capacity] at small
  have zones := Nat.lt_of_mul_lt_mul_right small
  have card := roles'.card_eq
  have rare := evictLoopCalls_few call mem forced.1
  omega

/-! ## Every operation keeps the room -/

/-- As many zones as a zone has slots are less than 5% of the device. -/
def Wide (device : Device) : Prop :=
  device.tables * 20 ≤ device.zoneNum

instance (device : Device) : Decidable (Wide device) :=
  inferInstanceAs (Decidable (_ ≤ _))

theorem Wide.many (wide : Wide device) :
    openZoneNum * 20 + device.zoneNum < device.zoneNum * 20 := by
  have tablesPos := device.tables_pos
  rw [Wide] at wide
  rw [openZoneNum]
  omega

theorem Wide.tables_le (wide : Wide device) (enough : device.zoneNum ≤ m.emptyZone.size * 20) :
    device.tables ≤ m.emptyZone.size :=
  Nat.le_of_mul_le_mul_right (wide.trans enough) (by decide)

theorem rollZone_size (m : MemoryManager) (zone : Nat) :
    Ends (fun m' => m.emptyZone.size ≤ m'.emptyZone.size + 1) (fun _ => True)
      (m.rollZone zone) := by
  rw [MemoryManager.rollZone]
  split
  · have pool : (if m.emptyZone.empty then
          ({ m with fullZone := insert zone m.fullZone } : MemoryManager).zoneErr .zonesAllFull
        else { m with fullZone := insert zone m.fullZone }).emptyZone = m.emptyZone := by
      split <;> rfl
    dsimp only
    rw [pool]
    split
    · exact trivial
    · rename_i next pool' got
      obtain ⟨_, _, _, _, rfl⟩ := QueueCache.get_eq_some got
      change m.emptyZone.size ≤ m.emptyZone.size - 1 + 1
      omega
  · exact Nat.le_succ _

/-- A write takes at most one zone out of the pool. -/
theorem appendTable_size (m : MemoryManager) (level num : Nat) :
    Ends (fun m' => m.emptyZone.size ≤ m'.emptyZone.size + 1) (fun _ => True)
      (m.appendTable level num) := by
  rw [MemoryManager.appendTable]
  refine (rollZone_size _ _).bind fun m₁ _ size => ?_
  rw [enterTable_eq]
  split
  · exact trivial
  · exact size

theorem Roles.spacious_append (roles : m.Roles device none) (sub : m.toReset ⊆ m.fullZone)
    (large : device.tables ≤ m.emptyZone.size) (level num : Nat) :
    Ends (fun m' => m'.Spacious device) (fun _ => True) (m.appendTable level num) := by
  have tablesPos := device.tables_pos
  have nonempty : m.emptyZone.empty = false := decide_eq_false (by omega)
  refine ((roles.appendTable sub nonempty level num).and (m.appendTable_size level num)).imp ?_
    fun _ _ => trivial
  rintro m' ⟨⟨⟨roles', -⟩, -⟩, size⟩
  have room := roles'.size_le_poolRoom
  rw [Spacious]
  omega

theorem Roomed.start (books : m.Books device none []) (roles : m.Roles device none)
    (spacious : m.Spacious device) : m.Roomed device m :=
  ⟨⟨roles, books, fun _ => Iff.rfl⟩, spacious⟩

theorem Books.spacious_exec (books : m.Books device none []) (roles : m.Roles device none)
    (sub : m.toReset ⊆ m.fullZone) (spacious : m.Spacious device) (wide : Wide device)
    (iter : Finset Nat → List Nat) (fuel : Nat) (op : Op) :
    Ends (fun m' => m'.Spacious device) (fun _ => True) (m.exec device iter fuel op) := by
  have start := Roomed.start books roles spacious
  have frame : ∀ m' : MemoryManager, m'.emptyZone = m.emptyZone →
      (∀ zone, (m'.zoneMetas zone).used = (m.zoneMetas zone).used) → m'.Spacious device := by
    intro m' pool used
    rw [Spacious, poolRoom_congr pool fun zone _ => used zone]
    exact spacious
  cases op with
  | writeTable level num =>
      refine ((roles.evictLoop sub iter fuel).imp (fun _ => id) fun _ _ => trivial).bind ?_
      rintro m₁ - ⟨⟨roles₁, sub₁⟩, enough⟩
      exact roles₁.spacious_append sub₁ (wide.tables_le enough) level num
  | getValue level num offset length =>
      by_cases known : level < m.levels
      · rw [exec_getValue, getValue_eq m known]
        exact frame _ rfl fun _ => rfl
      · simp only [MemoryManager.exec, MemoryManager.getValue, Nat.not_lt.mp known, if_true]
        exact trivial
  | readTable level num offset length =>
      by_cases known : level < m.levels
      · rw [exec_readTable, readTable_eq m known]
        exact frame _ rfl fun _ => rfl
      · simp only [MemoryManager.exec, MemoryManager.readTable, Nat.not_lt.mp known, if_true]
        exact trivial
  | deleteTable level num =>
      by_cases known : level < m.levels
      · rw [exec_deleteTable, deleteTable_eq m device known]
        split
        · exact trivial
        · cases m.mappingTable (level, num) with
          | none => exact spacious
          | some s =>
              refine frame _ rfl fun zone => ?_
              change (Function.update m.zoneMetas _ _ zone).used = _
              by_cases same : zone = s / device.zoneCap
              · rw [same, Function.update_self]
                rfl
              · rw [Function.update_of_ne same]
      · simp only [MemoryManager.exec, MemoryManager.deleteTable, Nat.not_lt.mp known, if_true]
        exact trivial
  | tryReset =>
      exact ((evictable_roomed m).tryReset start fun _ _ => trivial).imp
        (fun _ roomed => roomed.2) fun _ => id
  | evictZone =>
      exact ((evictable_roomed m).evictZone start fun _ _ => trivial).imp
        (fun _ roomed => roomed.2) fun _ => id

theorem spacious_new (wide : Wide device) (built : new device = some m) :
    m.Spacious device := by
  have roles := (roles_new built).1
  have none : m.fullZone = ∅ := by
    simp only [new, Option.bind_eq_bind, Option.bind_eq_some_iff] at built
    obtain ⟨⟨zones, pool⟩, -, done⟩ := built
    cases done
    rfl
  have card := roles.card_eq
  have room := roles.size_le_poolRoom
  have tablesPos := device.tables_pos
  rw [none, Finset.card_empty, openZoneNum] at card
  rw [Wide] at wide
  rw [Spacious]
  omega

theorem spacious_of_reachable (wide : Wide device)
    (reachable : (storeSystem device).Reachable m) : m.Spacious device :=
  System.invariant_of_reachable_with
    (K := fun m => (m.Roles device none ∧ m.Books device none []) ∧ m.toReset ⊆ m.fullZone)
    (fun _ reached => ⟨books_of_reachable reached,
      (roles_of_reachable (System.reachable_of_guarded reached)).2⟩)
    (fun _ built => spacious_new wide built)
    (fun _ op _ ⟨⟨roles, books⟩, sub⟩ spacious ⟨_, iter, fuel, _, ok⟩ =>
      (books.spacious_exec roles sub spacious wide iter fuel op).of_ok ok)
    reachable

/-! ## Every request completes -/

/-- While fewer tables are stored than the device has capacity for, the eviction loop ends
with 5% of the zones free. -/
theorem Books.evictLoop_completes (books : m.Books device none []) (roles : m.Roles device none)
    (spacious : m.Spacious device) (wide : Wide device)
    (few : {t | m.Live t}.encard < capacity device) {iter : Finset Nat → List Nat}
    (enumerates : Enumerates iter) {fuel : Nat} (enough : m.pendingWork device < fuel) :
    Ends (fun m' => device.zoneNum ≤ m'.emptyZone.size * 20) (fun _ => False)
      (MemoryManager.evictLoop device iter fuel m) := by
  have guards := books.notForced roles few enumerates fuel
  have loop := (evictable_unforced m).evictLoop
    ⟨⟨roles, books, fun _ => Iff.rfl⟩, spacious⟩ guards
  refine ((books.evictLoop_ends roles enumerates wide.many enough).and loop).imp
    (fun _ holds => holds.1) ?_
  rintro halt ⟨exits, never⟩
  exact never exits

/-- The request returns in every order of iteration, after at most as many rounds of the
eviction loop as there is work for. -/
def Returns (device : Device) (m : MemoryManager) (op : Op) : Prop :=
  ∀ iter, Enumerates iter → ∀ fuel, m.pendingWork device < fuel →
    ∃ m', m.exec device iter fuel op = .ok m'

theorem appendTable_returns {level : Nat} (wf : m.emptyZone.Wf)
    (nonempty : m.emptyZone.empty = false) (next : level ≤ m.levels) (num : Nat) :
    Ends (fun _ => True) (fun _ => False) (m.appendTable level num) := by
  rw [appendTable]
  dsimp only
  obtain ⟨full, opened, pool, rollEq, -⟩ :=
    (m.setMeta (m.openZone.getD m.whichZone 0)
      ((m.zoneMetas (m.openZone.getD m.whichZone 0)).grow 1)).rollZone_eq wf nonempty
      (m.openZone.getD m.whichZone 0)
  rw [rollEq]
  change Ends _ _ (enterTable _ level num _)
  have known : ¬m.levelsWith level ≤ level := by
    rw [levelsWith]
    split <;> omega
  rw [enterTable_eq]
  exact (if_neg known).symm ▸ trivial

variable {log : List Op}

/-- The manager has room for the table that the request writes. -/
def HasRoom (device : Device) (log : List Op) : Op → Prop
  | .writeTable _ _ => (Ledger.liveIn log).encard < capacity device
  | .evictZone => False
  | _ => True

theorem Recorded.returns (recorded : m.Recorded log) (clean : Ledger.Clean log)
    (reachable : (storeSystem device).Reachable m) (wide : Wide device) {op : Op}
    (inOrder : Ledger.InOrder log op) (room : HasRoom device log op) : m.Returns device op := by
  obtain ⟨roles, books⟩ := books_of_reachable reachable
  have spacious := spacious_of_reachable wide reachable
  cases op with
  | writeTable level num =>
      have live : {t | m.Live t} = Ledger.liveIn log := Set.ext recorded.live
      have few : {t | m.Live t}.encard < capacity device := live ▸ room
      intro iter enumerates fuel enough
      have loop := books.evictLoop_completes roles spacious wide few enumerates enough
      have kept := (loop.and (books.evictLoop_waited roles iter fuel)).imp (fun _ both => both.2)
        fun _ both => both.1
      have writes : Ends (fun _ => True) (fun _ => False)
          (m.writeTable device iter fuel level num) := by
        refine kept.bind ?_
        rintro m₁ - ⟨⟨⟨roles₁, -⟩, waited⟩, nonempty⟩
        have next : level ≤ m₁.levels := by
          rw [waited.levels, recorded.levels]
          exact inOrder.2
        exact appendTable_returns roles₁.wf nonempty next num
      obtain ⟨m', done, -⟩ := writes.returns
      exact ⟨m', done⟩
  | getValue level num offset length =>
      have known : level < m.levels := recorded.levels ▸ clean.lt_levelsIn inOrder
      exact fun _ _ _ _ => ⟨_, getValue_eq m known num offset length⟩
  | readTable level num offset length =>
      have known : level < m.levels := recorded.levels ▸ clean.lt_levelsIn inOrder
      exact fun _ _ _ _ => ⟨_, readTable_eq m known num offset length⟩
  | deleteTable level num =>
      have known : level < m.levels := recorded.levels ▸ clean.lt_levelsIn inOrder.1
      have waited : ¬(m.completeTable (level, num)).isSome := by
        rw [recorded.pending _ inOrder.2]
        simp
      have done := deleteTable_eq m device known num
      rw [if_neg waited] at done
      exact fun _ _ _ _ => ⟨_, done⟩
  | tryReset =>
      intro iter _ _ _
      have resets := (Roomed.start books roles spacious).resetZones (iter m.toReset)
      have tries : Ends (fun _ => True) (fun _ => False) (m.tryReset device iter) :=
        resets.bind fun _ _ _ => trivial
      obtain ⟨m', done, -⟩ := tries.returns
      exact ⟨m', done⟩
  | evictZone => exact room.elim

/-- A manager that has served requests in order serves the next one, if a table that it writes
finds fewer tables stored than the device has capacity for. -/
theorem returns_of_served (wide : Wide device) (served : Served device log m) {op : Op}
    (clean : Ledger.Clean (op :: log)) (room : HasRoom device log op) : m.Returns device op := by
  obtain ⟨reachable, recorded⟩ := served.recorded clean.2
  exact recorded.returns clean.2 reachable wide clean.1 room

/-- The alternative device can take a third table. -/
theorem returns_after_two : ∃ m, Served device8G [.writeTable 0 1, .writeTable 0 0] m ∧
    m.Returns device8G (.writeTable 1 7) := by
  obtain ⟨m, result⟩ := Option.isSome_iff_exists.mp
    (show (MemoryManager.serve device8G [.writeTable 0 1, .writeTable 0 0]).isSome by
      decide +kernel)
  have served := served_of_serve result
  have clean : Ledger.Clean [.writeTable 1 7, .writeTable 0 1, .writeTable 0 0] := by
    simp [Ledger.Clean, Ledger.InOrder, Ledger.liveIn, Ledger.levelsIn]
  have room : HasRoom device8G [.writeTable 0 1, .writeTable 0 0] (.writeTable 1 7) := by
    have small : (2 : ENat) < (capacity device8G : ENat) := by
      have bound : 2 < capacity device8G := by decide +kernel
      exact_mod_cast bound
    refine lt_of_le_of_lt ?_ small
    change (insert (0, 1) (insert (0, 0) (∅ : Set TableId))).encard ≤ 2
    rw [insert_empty_eq]
    exact (Set.encard_pair (by decide)).le
  exact ⟨m, served, returns_of_served (by decide +kernel) served clean room⟩

end Capacity

end MemoryManager

end ZnsLsm.Pool
