import ZnsLsm.Flash.Layout
import ZnsLsm.Pool.ZoneQueue

/-!
# Queues and dies

`queue_cache` is built with one queue for every die and with the number of zones of a
die, but it puts the zones of two dies into two queues in turn.  That matches the dies
only where two channel groups take turns in the same way, or where a die holds one zone.
-/

namespace ZnsLsm.Pool

open ZnsLsm.Flash

/-- The queue of a zone: the pool is built with `div = meta[2]`. -/
def queueOf (geometry : Geometry) (id : Nat) : Nat :=
  QueueCache.index (getZnsMeta geometry.toSsdConfig).zonesPerDie id

/-- `zns_init` places both zones on the same LUN and channel group. -/
def SameDie (geometry : Geometry) (id id' : Nat) : Prop :=
  (geometry.zone id).wpp.lun = (geometry.zone id').wpp.lun ∧
    (geometry.zone id).wpp.fcgId = (geometry.zone id').wpp.fcgId

/-- The queues are the dies, and every zone has a queue. -/
structure QueuesMatchDies (geometry : Geometry) : Prop where
  same_iff : ∀ id < numZones geometry.toSsdConfig geometry.devsz,
    ∀ id' < numZones geometry.toSsdConfig geometry.devsz,
      queueOf geometry id = queueOf geometry id' ↔ SameDie geometry id id'
  inside : ∀ id < numZones geometry.toSsdConfig geometry.devsz,
    queueOf geometry id <
      numZones geometry.toSsdConfig geometry.devsz /
        (getZnsMeta geometry.toSsdConfig).zonesPerDie

section Striping

variable {geometry : Geometry}

theorem queueOf_eq (geometry : Geometry) (id : Nat) :
    queueOf geometry id = id / 2 / geometry.zonesPerDie * 2 + id % 2 := by
  rw [queueOf, geometry.getZnsMeta_zonesPerDie, QueueCache.index]

theorem sameDie_iff (id id' : Nat) :
    SameDie geometry id id' ↔
      id / geometry.numFcgs / geometry.zonesPerDie =
          id' / geometry.numFcgs / geometry.zonesPerDie ∧
        id % geometry.numFcgs = id' % geometry.numFcgs := by
  simp only [SameDie, Geometry.zone_lun, Geometry.zone_fcgId]

/-- The pair of a quotient and a parity determines a queue. -/
theorem queueOf_eq_iff (id id' : Nat) :
    queueOf geometry id = queueOf geometry id' ↔
      id / 2 / geometry.zonesPerDie = id' / 2 / geometry.zonesPerDie ∧ id % 2 = id' % 2 := by
  rw [queueOf_eq, queueOf_eq]
  omega

theorem numZones_eq (geometry : Geometry) :
    numZones geometry.toSsdConfig geometry.devsz =
      geometry.numFcgs * geometry.zonesPerDie * geometry.lunsPerCh := by
  rw [geometry.numZones_eq_volume]
  simp only [Geometry.zoneRadices, MixedRadix.volume_cons, MixedRadix.volume_nil]
  ring

/-- One queue for every die. -/
theorem queues_eq (geometry : Geometry) :
    numZones geometry.toSsdConfig geometry.devsz /
        (getZnsMeta geometry.toSsdConfig).zonesPerDie =
      geometry.numFcgs * geometry.lunsPerCh := by
  rw [numZones_eq, geometry.getZnsMeta_zonesPerDie, Nat.mul_right_comm,
    Nat.mul_div_cancel _ geometry.zonesPerDie_pos]

/-- With two channel groups, zones alternate between the dies as between the queues. -/
theorem queuesMatchDies_of_two_groups (two : geometry.numFcgs = 2) : QueuesMatchDies geometry where
  same_iff id _ id' _ := by
    rw [queueOf_eq_iff, sameDie_iff, two]
  inside id lt := by
    rw [queues_eq, queueOf_eq, two]
    rw [numZones_eq, two] at lt
    have half : id / 2 / geometry.zonesPerDie < geometry.lunsPerCh := by
      rw [Nat.div_div_eq_div_mul]
      exact Nat.div_lt_of_lt_mul lt
    omega

/-- Dies of one zone are queues of one zone. -/
theorem queuesMatchDies_of_one_zone (one : geometry.zonesPerDie = 1) :
    QueuesMatchDies geometry where
  same_iff id _ id' _ := by
    rw [queueOf_eq_iff, sameDie_iff, one]
    simp only [Nat.div_one]
    constructor
    · intro same
      have eq : id = id' := by omega
      exact ⟨eq ▸ rfl, eq ▸ rfl⟩
    · rintro ⟨quotient, remainder⟩
      have eq : id = id' := by
        rw [← Nat.div_add_mod id geometry.numFcgs, ← Nat.div_add_mod id' geometry.numFcgs, quotient,
          remainder]
      exact ⟨eq ▸ rfl, eq ▸ rfl⟩
  inside id lt := by
    rw [queues_eq, queueOf_eq, one, Nat.div_one]
    rw [numZones_eq, one, Nat.mul_one] at lt
    omega

/-- Two neighbours of a die land in two queues if there is one group, and zones of two
dies land in one queue if there are more than two. -/
theorem not_queuesMatchDies (luns : 0 < geometry.lunsPerCh) (several : 1 < geometry.zonesPerDie)
    (notTwo : geometry.numFcgs ≠ 2) : ¬QueuesMatchDies geometry := by
  intro matching
  have groups := geometry.numFcgs_pos
  have zones : geometry.numFcgs * geometry.zonesPerDie ≤
      numZones geometry.toSsdConfig geometry.devsz := by
    rw [numZones_eq]
    exact Nat.le_mul_of_pos_right _ luns
  have many : geometry.numFcgs * 2 ≤ geometry.numFcgs * geometry.zonesPerDie :=
    Nat.mul_le_mul_left _ several
  rcases Nat.lt_or_gt_of_ne notTwo with one | more
  · have single : geometry.numFcgs = 1 := by omega
    have neighbours : SameDie geometry 0 1 := by
      rw [sameDie_iff, single, Nat.div_one, Nat.div_one, Nat.zero_div, Nat.div_eq_of_lt several]
      exact ⟨rfl, rfl⟩
    have same := (matching.same_iff 0 (by omega) 1 (by omega)).mpr neighbours
    rw [queueOf_eq_iff] at same
    exact absurd same.2 (by decide)
  · have same : queueOf geometry 0 = queueOf geometry 2 := by
      rw [queueOf_eq_iff, Nat.div_self (by decide), Nat.zero_div, Nat.div_eq_of_lt several]
      exact ⟨rfl, rfl⟩
    have die := (matching.same_iff 0 (by omega) 2 (by omega)).mp same
    rw [sameDie_iff, Nat.zero_mod, Nat.mod_eq_of_lt more] at die
    exact absurd die.2 (by decide)

/-- The geometries whose dies the queues match. -/
theorem queuesMatchDies_iff (geometry : Geometry) :
    QueuesMatchDies geometry ↔
      geometry.lunsPerCh = 0 ∨ geometry.zonesPerDie = 1 ∨ geometry.numFcgs = 2 := by
  constructor
  · intro matching
    by_contra none
    simp only [not_or] at none
    obtain ⟨luns, several, notTwo⟩ := none
    have diePos := geometry.zonesPerDie_pos
    exact not_queuesMatchDies (Nat.pos_of_ne_zero luns) (by omega) notTwo matching
  · rintro (noLuns | one | two)
    · have noZones : numZones geometry.toSsdConfig geometry.devsz = 0 := by
        rw [numZones_eq, noLuns, Nat.mul_zero]
      exact
        { same_iff := fun id lt => by rw [noZones] at lt; exact absurd lt (Nat.not_lt_zero id)
          inside := fun id lt => by rw [noZones] at lt; exact absurd lt (Nat.not_lt_zero id) }
    · exact queuesMatchDies_of_one_zone one
    · exact queuesMatchDies_of_two_groups two

/-- On the shipped device zones 0 and 1 share a die but not a queue. -/
theorem not_queuesMatchDies_512G :
    ¬∀ geometry : Geometry, QueuesMatchDies geometry := by
  intro always
  have neighbours : SameDie geometry512G 0 1 := by
    rw [sameDie_iff]
    decide +kernel
  have same := ((always geometry512G).same_iff 0 (by decide +kernel) 1 (by decide +kernel)).mpr
    neighbours
  exact absurd same (by decide +kernel)

end Striping

end ZnsLsm.Pool
