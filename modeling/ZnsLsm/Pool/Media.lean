import ZnsLsm.Flash.Filling
import ZnsLsm.Pool.Device

/-!
# Tables on the flash

The manager writes whole tables and resets whole zones.  `Stores` says how many tables
every zone of the flash holds; a table that goes to the next slot of a zone with room,
and a reset of a zone that is full, are requests in place.
-/

namespace ZnsLsm.Pool

open ZnsLsm.Flash

/-! ## Requests in place -/

/-- The write starts at the write pointer of its zone, ends inside the zone, and the
zone is not full. -/
structure WriteInPlace (n : FemuCtrl) (req : NvmeRequest) (idx : Nat) : Prop where
  zone : znsGetZoneByLba n req.slba = some idx
  writePtr : req.slba = (n.zoneArray idx).writePtr
  start : (n.zoneArray idx).d.startLba ≤ req.slba
  inside : req.slba + req.nlb ≤
    (n.zoneArray idx).d.startLba + (n.zoneArray idx).d.zoneCap / n.ssd.sp.secsz
  notFull : (n.zoneArray idx).d.state ≠ .full

/-- The reset finds its zone full. -/
structure ResetInPlace (n : FemuCtrl) (req : NvmeRequest) (idx : Nat) : Prop where
  zone : znsGetZoneByLba n req.slba = some idx
  full : (n.zoneArray idx).d.state = .full

namespace Device

variable (device : Device)

/-! ## Pages of a table -/

/-- Flash pages that a table fills. -/
def tablePages : Nat :=
  sstableSize / (device.secsPerPg * device.secsz)

theorem sstableSize_eq_secs :
    sstableSize = device.secsz * (device.secsPerPg * device.tablePages) := by
  rw [← Nat.mul_assoc, Nat.mul_comm device.secsz]
  exact (Nat.mul_div_cancel' device.flashPage_dvd).symm

theorem tablePages_pos : 0 < device.tablePages := by
  have pos := sstableSize_pos
  rw [device.sstableSize_eq_secs] at pos
  exact Nat.pos_of_mul_pos_left (Nat.pos_of_mul_pos_left pos)

/-- A zone has as many pages as its tables. -/
theorem pages_eq_tables : device.pages = device.tables * device.tablePages := by
  have bytes := device.zoneSize_eq_pages
  rw [device.zoneSize_eq_tables, device.sstableSize_eq_secs, Nat.mul_left_comm,
    Nat.mul_left_comm device.tables] at bytes
  exact (Nat.eq_of_mul_eq_mul_left device.secsPerPg_pos
    (Nat.eq_of_mul_eq_mul_left device.secsz_pos bytes)).symm

theorem zones_eq : device.zones = device.zoneNum :=
  rfl

/-- Zone and sector numbers fit their types. -/
theorem small : device.Small := by
  have zones : device.numFcgs * (device.blksPerPl / device.stripe) * device.lunsPerCh =
      device.zoneNum := device.zoneNum_eq.symm
  constructor
  · rw [zones_eq, ← zones]
    exact device.zoneNum_lt
  · have capacity := device.capacity_lt
    rw [zones, device.zoneSize_eq_pages] at capacity
    calc
      device.pageSec device.zones 0 = device.zoneNum * (device.secsPerPg * device.pages) := by
        rw [Geometry.pageSec, Nat.add_zero, zones_eq, Nat.mul_left_comm]
      _ ≤ device.secsz * (device.zoneNum * (device.secsPerPg * device.pages)) :=
        Nat.le_mul_of_pos_left _ device.secsz_pos
      _ = device.zoneNum * (device.secsz * (device.secsPerPg * device.pages)) :=
        Nat.mul_left_comm ..
      _ < 2 ^ 63 := capacity

/-- The first sector of a slot. -/
@[simp]
theorem slot_div_secsz (zone k : Nat) :
    device.slot zone k / device.secsz = device.pageSec zone (k * device.tablePages) := by
  rw [slot_eq, sstableSize_eq_secs, Nat.mul_assoc, Nat.mul_div_cancel_left _ device.secsz_pos,
    Geometry.pageSec, pages_eq_tables, Nat.mul_assoc, ← Nat.mul_assoc zone, ← Nat.add_mul,
    Nat.mul_comm device.tablePages]

end Device

/-! ## Zones that hold tables -/

/-- Every zone of the flash holds `count` tables. -/
def Stores (device : Device) (count : Nat → Nat) (n : FemuCtrl) : Prop :=
  Holds device.toGeometry (fun zone => count zone * device.tablePages) n

variable {device : Device} {count : Nat → Nat} {n n' : FemuCtrl} {zone k : Nat}

/-- The pages of a zone that holds another number of tables. -/
theorem pages_update (device : Device) (count : Nat → Nat) (zone tables : Nat) :
    (fun other => Function.update count zone tables other * device.tablePages) =
      Function.update (fun other => count other * device.tablePages) zone
        (tables * device.tablePages) := by
  funext other
  by_cases same : other = zone
  · subst same
    rw [Function.update_self, Function.update_self]
  · rw [Function.update_of_ne same, Function.update_of_ne same]

theorem stores_femuInit :
    Stores device (fun _ => 0) (femuInit device.toSsdConfig device.devsz) := by
  have holds := holds_femuInit device.toGeometry
  simpa only [Stores, Nat.zero_mul] using holds

/-- The sectors of a request for one slot. -/
theorem Stores.sectors (stores : Stores device count n) (now zone k : Nat) :
    (dispatchRequest now n sstableSize (device.slot zone k)).slba =
        device.pageSec zone (k * device.tablePages) ∧
      (dispatchRequest now n sstableSize (device.slot zone k)).nlb =
        device.secsPerPg * device.tablePages := by
  have secsz : n.ssd.sp.secsz = device.secsz := by
    rw [stores.sp]
    rfl
  have next : device.slot zone k + sstableSize = device.slot zone (k + 1) := by
    rw [Device.slot, Device.slot, Nat.mul_succ, Nat.add_assoc]
  constructor
  · change device.slot zone k / n.ssd.sp.secsz = _
    rw [secsz, device.slot_div_secsz]
  · change (device.slot zone k + sstableSize) / n.ssd.sp.secsz -
      device.slot zone k / n.ssd.sp.secsz = _
    rw [next, secsz, device.slot_div_secsz, device.slot_div_secsz, Nat.succ_mul,
      device.pageSec_add, Nat.add_sub_cancel_left]

theorem Stores.byLba (stores : Stores device count n) (zoneLt : zone < device.zoneNum)
    (lt : k < device.tables) :
    znsGetZoneByLba n (device.pageSec zone (k * device.tablePages)) = some zone := by
  apply Holds.byLba stores device.small zoneLt (device.pageSec_le (Nat.zero_le _))
  rw [device.pages_eq_tables]
  apply Nat.mul_lt_mul_of_pos_left _ device.secsPerPg_pos
  exact Nat.add_lt_add_left (Nat.mul_lt_mul_of_pos_right lt device.tablePages_pos) _

/-- A table for the next slot of a zone with room is in place. -/
theorem Stores.writeInPlace (stores : Stores device count n) (zoneLt : zone < device.zoneNum)
    (next : k = count zone) (lt : k < device.tables) (now : Nat) :
    WriteInPlace n (dispatchRequest now n sstableSize (device.slot zone k)) zone := by
  obtain ⟨slba, nlb⟩ := stores.sectors now zone k
  have filled := stores.zones zone zoneLt
  rw [← next] at filled
  constructor
  · rw [slba]
    exact stores.byLba zoneLt lt
  · rw [slba, filled, device.filled_writePtr]
  · rw [slba, filled, device.filled_startLba]
    exact device.pageSec_le (Nat.zero_le _)
  · rw [slba, nlb, filled, stores.sp, device.filled_startLba, device.filled_zoneCap]
    change _ ≤ _ + device.zoneSize / device.secsz
    rw [device.zoneSize_div_secsz, ← device.pageSec_add, ← device.pageSec_add, Nat.zero_add,
      device.pages_eq_tables, ← Nat.succ_mul]
    exact device.pageSec_le (Nat.mul_le_mul_right _ lt)
  · rw [filled]
    intro full
    have all := (device.filled_full_iff zone _).mp full
    rw [device.pages_eq_tables] at all
    exact lt.ne (Nat.eq_of_mul_eq_mul_right device.tablePages_pos all)

/-- A full zone may be reset. -/
theorem Stores.resetInPlace (stores : Stores device count n) (zoneLt : zone < device.zoneNum)
    (full : count zone = device.tables) (now len : Nat) :
    ResetInPlace n (dispatchRequest now n len (device.slot zone 0)) zone := by
  constructor
  · change znsGetZoneByLba n (dispatchRequest now n sstableSize (device.slot zone 0)).slba = _
    rw [(stores.sectors now zone 0).1]
    exact stores.byLba zoneLt device.tables_pos
  · rw [stores.zones zone zoneLt, full]
    exact (device.filled_full_iff zone _).mpr device.pages_eq_tables.symm

/-! ## What requests change -/

theorem Stores.read (stores : Stores device count n) {now len offset : Nat}
    (read : femuRead now n len offset = some n') : Stores device count n' := by
  obtain ⟨⟨n'', latency⟩, done, rfl⟩ := Option.map_eq_some_iff.mp read
  obtain ⟨params, zones⟩ := znsRead_zones done
  exact Holds.same stores params zones

/-- A table that is written in place. -/
theorem Stores.write (stores : Stores device count n) (zoneLt : zone < device.zoneNum)
    (next : k = count zone) (lt : k < device.tables) {now : Nat}
    (written : femuWrite now n sstableSize (device.slot zone k) = some n') :
    Stores device (Function.update count zone (k + 1)) n' := by
  obtain ⟨⟨n'', latency⟩, done, rfl⟩ := Option.map_eq_some_iff.mp written
  obtain ⟨slba, nlb⟩ := stores.sectors now zone k
  have le : count zone * device.tablePages + device.tablePages ≤ device.pages := by
    rw [device.pages_eq_tables, ← Nat.succ_mul, ← next]
    exact Nat.mul_le_mul_right _ lt
  rw [next] at slba
  have holds := Holds.write stores device.small zoneLt (next ▸ slba) nlb device.tablePages_pos le
    done
  rw [Stores, pages_update, Nat.succ_mul, next]
  exact holds

/-- A zone that is reset in place. -/
theorem Stores.reset (stores : Stores device count n) (zoneLt : zone < device.zoneNum)
    (full : count zone = device.tables) {now : Clock} {len : Nat}
    (wasReset : femuReset now n len (device.slot zone 0) = some n') :
    Stores device (Function.update count zone 0) n' := by
  have inPlace := stores.resetInPlace zoneLt full now.time len
  have holds := Holds.reset stores zoneLt inPlace.zone wasReset
  rw [full, if_pos device.pages_eq_tables.symm] at holds
  rw [Stores, pages_update, Nat.zero_mul]
  exact holds

end ZnsLsm.Pool
