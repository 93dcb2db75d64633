import Mathlib.Tactic.NormNum
import ZnsLsm.Flash.Layout

/-!
# Devices that hold tables

The constants of `utils.h` and the devices on which the memory manager runs: the
zones tile the flash and every zone holds a whole number of table slots.  Both
configurations of `ftl_config.h` are such devices.
-/

namespace ZnsLsm.Pool

open ZnsLsm.Flash

/-- `DEFAULT_SSTABLE_SIZE`. -/
def sstableSize : Nat :=
  64 * (1024 * 1024)

/-- `DEFAULT_PAGE_SIZE`. -/
def pageSize : Nat :=
  16 * 1024

/-- `MAXIMUM_NUM_OF_OPEN_ZONE`. -/
def openZoneNum : Nat :=
  16

theorem sstableSize_pos : 0 < sstableSize := by
  norm_num [sstableSize]

theorem pageSize_pos : 0 < pageSize := by
  norm_num [pageSize]

/-- Pages of a table slot. -/
def pagesPerSlot : Nat :=
  4096

theorem sstableSize_eq_pages : sstableSize = pagesPerSlot * pageSize := by
  norm_num [sstableSize, pagesPerSlot, pageSize]

/-- A device whose zones hold `tables` table slots each. -/
structure Device extends Geometry where
  tables : Nat
  tables_pos : 0 < tables
  tables_lt : tables < 2 ^ 16
  zoneSize_eq_tables : zoneSize = tables * sstableSize
  queues_even : 2 ∣ numFcgs * lunsPerCh
  openZones_le : openZoneNum ≤ numFcgs * (blksPerPl / stripe) * lunsPerCh
  flashPage_dvd : secsPerPg * secsz ∣ sstableSize
  zoneNum_lt : numFcgs * (blksPerPl / stripe) * lunsPerCh < 2 ^ 32
  capacity_lt : numFcgs * (blksPerPl / stripe) * lunsPerCh * zoneSize < 2 ^ 63

/-- The shipped device: 1024 zones of eight slots. -/
def device512G : Device where
  toGeometry := geometry512G
  tables := 8
  tables_pos := by decide
  tables_lt := by decide
  zoneSize_eq_tables := by norm_num [geometry512G, config512G, sstableSize]
  queues_even := by norm_num [geometry512G, config512G]
  openZones_le := by norm_num [geometry512G, config512G, openZoneNum]
  flashPage_dvd := by norm_num [geometry512G, config512G, sstableSize]
  zoneNum_lt := by norm_num [geometry512G, config512G]
  capacity_lt := by norm_num [geometry512G, config512G]

/-- The alternative device: 128 zones of one slot. -/
def device8G : Device where
  toGeometry := geometry8G
  tables := 1
  tables_pos := Nat.one_pos
  tables_lt := by decide
  zoneSize_eq_tables := by norm_num [geometry8G, config8G, sstableSize]
  queues_even := by norm_num [geometry8G, config8G]
  openZones_le := by norm_num [geometry8G, config8G, openZoneNum]
  flashPage_dvd := by norm_num [geometry8G, config8G, sstableSize]
  zoneNum_lt := by norm_num [geometry8G, config8G]
  capacity_lt := by norm_num [geometry8G, config8G]

namespace Device

variable (device : Device)

/-- `zone_cap`. -/
def zoneCap : Nat :=
  (getZnsMeta device.toSsdConfig).zoneSize

/-- `zone_num`. -/
def zoneNum : Nat :=
  (getZnsMeta device.toSsdConfig).capacity / (getZnsMeta device.toSsdConfig).zoneSize

/-- The number of queues of the free pool. -/
def queueNum : Nat :=
  device.zoneNum / (getZnsMeta device.toSsdConfig).zonesPerDie

theorem zoneCap_eq : device.zoneCap = device.tables * sstableSize :=
  device.zoneSize_eq_tables

theorem zoneCap_pos : 0 < device.zoneCap :=
  device.zoneSize_pos

theorem zoneNum_eq :
    device.zoneNum = device.numFcgs * device.zonesPerDie * device.lunsPerCh := by
  have volume_eq := device.numZones_eq_volume
  simp only [Geometry.zoneRadices, MixedRadix.volume_cons, MixedRadix.volume_nil] at volume_eq
  change numZones device.toSsdConfig device.devsz = _
  rw [volume_eq]
  ring

theorem openZoneNum_le : openZoneNum ≤ device.zoneNum := by
  rw [zoneNum_eq]
  exact device.openZones_le

theorem zoneNum_pos : 0 < device.zoneNum :=
  Nat.lt_of_lt_of_le (by decide) device.openZoneNum_le

theorem queueNum_eq : device.queueNum = device.numFcgs * device.lunsPerCh := by
  rw [queueNum, zoneNum_eq, device.getZnsMeta_zonesPerDie, Nat.mul_right_comm,
    Nat.mul_div_cancel _ device.zonesPerDie_pos]

theorem queueNum_even : 2 ∣ device.queueNum := by
  rw [queueNum_eq]
  exact device.queues_even

theorem zoneNum_eq_queueNum_mul :
    device.zoneNum = device.queueNum * (getZnsMeta device.toSsdConfig).zonesPerDie := by
  rw [queueNum_eq, zoneNum_eq, device.getZnsMeta_zonesPerDie]
  ring

theorem queueNum_pos : 0 < device.queueNum := by
  rcases Nat.eq_zero_or_pos device.queueNum with zero | pos
  · have := device.zoneNum_pos
    rw [zoneNum_eq_queueNum_mul, zero, Nat.zero_mul] at this
    exact absurd this (Nat.lt_irrefl 0)
  · exact pos

/-! ## Slots -/

/-- The location of a slot of a zone. -/
def slot (zone k : Nat) : Nat :=
  zone * device.zoneCap + sstableSize * k

theorem slot_eq (zone k : Nat) :
    device.slot zone k = sstableSize * (zone * device.tables + k) := by
  rw [slot, zoneCap_eq, Nat.mul_add, ← Nat.mul_assoc, Nat.mul_comm (_ * _) sstableSize]

@[simp]
theorem slot_div_zoneCap {zone k : Nat} (lt : k < device.tables) :
    device.slot zone k / device.zoneCap = zone := by
  rw [slot_eq, zoneCap_eq, Nat.mul_comm device.tables,
    Nat.mul_div_mul_left _ _ sstableSize_pos, Nat.mul_comm zone,
    Nat.mul_add_div device.tables_pos, Nat.div_eq_of_lt lt, Nat.add_zero]

theorem slot_injective {zone zone' k k' : Nat} (lt : k < device.tables)
    (lt' : k' < device.tables) (same : device.slot zone k = device.slot zone' k') :
    zone = zone' ∧ k = k' := by
  have zones : zone = zone' := by
    calc
      zone = device.slot zone k / device.zoneCap := (device.slot_div_zoneCap lt).symm
      _ = zone' := by rw [same, device.slot_div_zoneCap lt']
  subst zones
  exact ⟨rfl, Nat.eq_of_mul_eq_mul_left sstableSize_pos (Nat.add_left_cancel same)⟩

@[simp]
theorem slot_div_pageSize (zone k : Nat) :
    device.slot zone k / pageSize = pagesPerSlot * (zone * device.tables + k) := by
  rw [slot_eq, sstableSize_eq_pages, Nat.mul_right_comm, Nat.mul_div_cancel _ pageSize_pos]

/-- All pages of the device have small numbers. -/
theorem pages_lt : pagesPerSlot * (device.zoneNum * device.tables) < 2 ^ 63 := by
  have capacity := device.capacity_lt
  rw [device.zoneSize_eq_tables, sstableSize_eq_pages] at capacity
  refine Nat.lt_of_le_of_lt ?_ capacity
  have zones : device.numFcgs * (device.blksPerPl / device.stripe) * device.lunsPerCh =
      device.zoneNum := device.zoneNum_eq.symm
  rw [zones]
  calc
    pagesPerSlot * (device.zoneNum * device.tables) ≤
        pagesPerSlot * (device.zoneNum * device.tables) * pageSize :=
      Nat.le_mul_of_pos_right _ pageSize_pos
    _ = device.zoneNum * (device.tables * (pagesPerSlot * pageSize)) := by ring

/-- The zone that a page lies in. -/
def zoneOfPage (page : Nat) : Nat :=
  page / pagesPerSlot / device.tables

end Device

/-- The page lies in the slot at `s`. -/
def InSlot (s page : Nat) : Prop :=
  s / pageSize ≤ page ∧ page < s / pageSize + pagesPerSlot

namespace Device

variable {device : Device} {zone zone' k k' page : Nat}

theorem div_of_inSlot (inside : InSlot (device.slot zone k) page) :
    page / pagesPerSlot = zone * device.tables + k := by
  obtain ⟨ge, lt⟩ := inside
  rw [device.slot_div_pageSize] at ge lt
  rw [← Nat.mul_succ] at lt
  rw [Nat.mul_comm] at ge lt
  exact Nat.div_eq_of_lt_le ge lt

theorem zoneOfPage_of_inSlot (lt : k < device.tables)
    (inside : InSlot (device.slot zone k) page) : device.zoneOfPage page = zone := by
  rw [zoneOfPage, div_of_inSlot inside, Nat.mul_comm zone,
    Nat.mul_add_div device.tables_pos, Nat.div_eq_of_lt lt, Nat.add_zero]

/-- A page lies in one slot only. -/
theorem slot_eq_of_inSlot (inside : InSlot (device.slot zone k) page)
    (inside' : InSlot (device.slot zone' k') page) :
    device.slot zone k = device.slot zone' k' := by
  rw [slot_eq, slot_eq, ← div_of_inSlot inside, ← div_of_inSlot inside']

end Device

end ZnsLsm.Pool
