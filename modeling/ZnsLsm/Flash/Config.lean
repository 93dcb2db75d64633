import Mathlib.Algebra.Order.Group.Nat
import Mathlib.Tactic.Ring

/-!
# Build-time constants of the simulated SSD

The macros of `ftl_config.h`, the derived numbers that `get_zns_meta` hands to
the host, and the geometries the layout results are about: one plane per LUN,
channel groups of equal size, and zones that stripe a whole number of blocks of
every channel of their group.

Sizes are natural numbers: the results concern geometries whose products fit the
machine integers, so no operation wraps.
-/

namespace ZnsLsm.Flash

/-- The macros of `ftl_config.h`. -/
structure SsdConfig where
  secsz : Nat
  secsPerPg : Nat
  pgsPerBlk : Nat
  blksPerPl : Nat
  plsPerLun : Nat
  lunsPerCh : Nat
  nchs : Nat
  zoneSize : Nat
  numFcgs : Nat
  deriving DecidableEq, Repr

/-- The shipped configuration, 512 GB. -/
def config512G : SsdConfig where
  secsz := 512
  secsPerPg := 32
  pgsPerBlk := 1024
  blksPerPl := 512
  plsPerLun := 1
  lunsPerCh := 8
  nchs := 8
  zoneSize := 1024 * 1024 * 512
  numFcgs := 1

/-- The alternative configuration kept in a comment of `ftl_config.h`, 8 GB. -/
def config8G : SsdConfig where
  secsz := 512
  secsPerPg := 1024
  pgsPerBlk := 16
  blksPerPl := 16
  plsPerLun := 1
  lunsPerCh := 8
  nchs := 8
  zoneSize := 1024 * 1024 * 64
  numFcgs := 1

/-- Bytes of a flash block. -/
def SsdConfig.blockSize (config : SsdConfig) : Nat :=
  config.secsz * config.secsPerPg * config.pgsPerBlk

/-- What `get_zns_meta` stores in `meta[0]` to `meta[3]`. -/
structure ZnsMeta where
  zoneSize : Nat
  numFcgs : Nat
  zonesPerDie : Nat
  capacity : Nat

/-- `get_zns_meta`. -/
def getZnsMeta (config : SsdConfig) : ZnsMeta where
  zoneSize := config.zoneSize
  numFcgs := config.numFcgs
  zonesPerDie :=
    config.blksPerPl /
      (config.zoneSize / config.blockSize / (config.nchs / config.numFcgs))
  capacity := config.blockSize * config.blksPerPl * config.lunsPerCh * config.nchs

/-- A configuration whose zones tile the flash: `stripe` is the number of blocks
that a zone takes from every channel of its group, `end` in the source. -/
structure Geometry extends SsdConfig where
  stripe : Nat
  secsz_pos : 0 < secsz
  secsPerPg_pos : 0 < secsPerPg
  pgsPerBlk_pos : 0 < pgsPerBlk
  blksPerPl_pos : 0 < blksPerPl
  nchs_pos : 0 < nchs
  onePlane : plsPerLun = 1
  numFcgs_dvd : numFcgs ∣ nchs
  stripe_pos : 0 < stripe
  stripe_dvd : stripe ∣ blksPerPl
  zoneSize_eq :
    zoneSize = stripe * (secsz * secsPerPg * pgsPerBlk) * (nchs / numFcgs)

/-- The shipped configuration tiles the flash with four blocks per channel. -/
def geometry512G : Geometry where
  toSsdConfig := config512G
  stripe := 4
  secsz_pos := by decide
  secsPerPg_pos := by decide
  pgsPerBlk_pos := by decide
  blksPerPl_pos := by decide
  nchs_pos := by decide
  onePlane := rfl
  numFcgs_dvd := by decide
  stripe_pos := by decide
  stripe_dvd := by decide
  zoneSize_eq := by decide

/-- The alternative configuration has one block per channel in a zone. -/
def geometry8G : Geometry where
  toSsdConfig := config8G
  stripe := 1
  secsz_pos := by decide
  secsPerPg_pos := by decide
  pgsPerBlk_pos := by decide
  blksPerPl_pos := by decide
  nchs_pos := by decide
  onePlane := rfl
  numFcgs_dvd := by decide
  stripe_pos := Nat.one_pos
  stripe_dvd := by decide
  zoneSize_eq := by decide

namespace Geometry

variable (geometry : Geometry)

/-- Channels of one channel group. -/
def chips : Nat :=
  geometry.nchs / geometry.numFcgs

/-- Zones that fit one die of a channel group. -/
def zonesPerDie : Nat :=
  geometry.blksPerPl / geometry.stripe

theorem numFcgs_pos : 0 < geometry.numFcgs :=
  Nat.pos_of_dvd_of_pos geometry.numFcgs_dvd geometry.nchs_pos

@[simp]
theorem chips_mul_numFcgs : geometry.chips * geometry.numFcgs = geometry.nchs :=
  Nat.div_mul_cancel geometry.numFcgs_dvd

theorem chips_pos : 0 < geometry.chips :=
  Nat.div_pos (Nat.le_of_dvd geometry.nchs_pos geometry.numFcgs_dvd) geometry.numFcgs_pos

@[simp]
theorem stripe_mul_zonesPerDie :
    geometry.stripe * geometry.zonesPerDie = geometry.blksPerPl :=
  Nat.mul_div_cancel' geometry.stripe_dvd

theorem zonesPerDie_pos : 0 < geometry.zonesPerDie :=
  Nat.div_pos (Nat.le_of_dvd geometry.blksPerPl_pos geometry.stripe_dvd) geometry.stripe_pos

theorem blockSize_pos : 0 < geometry.blockSize :=
  Nat.mul_pos (Nat.mul_pos geometry.secsz_pos geometry.secsPerPg_pos) geometry.pgsPerBlk_pos

theorem zoneSize_eq_stripes :
    geometry.zoneSize = geometry.stripe * geometry.blockSize * geometry.chips :=
  geometry.zoneSize_eq

theorem zoneSize_pos : 0 < geometry.zoneSize := by
  rw [zoneSize_eq_stripes]
  exact Nat.mul_pos (Nat.mul_pos geometry.stripe_pos geometry.blockSize_pos)
    geometry.chips_pos

/-- The division chain of the source recovers the blocks per channel. -/
@[simp]
theorem zoneSize_div_blockSize_div_chips :
    geometry.zoneSize / geometry.blockSize / geometry.chips = geometry.stripe := by
  rw [zoneSize_eq_stripes, Nat.div_div_eq_div_mul, Nat.mul_assoc,
    Nat.mul_div_cancel _ (Nat.mul_pos geometry.blockSize_pos geometry.chips_pos)]

/-- Zones side by side on one LUN number, over all channel groups. -/
theorem lunBytes_div_zoneSize :
    geometry.blksPerPl * geometry.blockSize * geometry.nchs / geometry.zoneSize =
      geometry.zonesPerDie * geometry.numFcgs := by
  have lunBytes :
      geometry.blksPerPl * geometry.blockSize * geometry.nchs =
        geometry.zonesPerDie * geometry.numFcgs * geometry.zoneSize := by
    rw [zoneSize_eq_stripes, ← stripe_mul_zonesPerDie, ← chips_mul_numFcgs]
    ring
  rw [lunBytes, Nat.mul_div_cancel _ geometry.zoneSize_pos]

/-- The first block of the `slot`-th zone of a die. -/
@[simp]
theorem stripe_mul_mod_blksPerPl (slot : Nat) :
    geometry.stripe * slot % geometry.blksPerPl =
      geometry.stripe * (slot % geometry.zonesPerDie) := by
  rw [← stripe_mul_zonesPerDie, Nat.mul_mod_mul_left]

@[simp]
theorem getZnsMeta_zonesPerDie :
    (getZnsMeta geometry.toSsdConfig).zonesPerDie = geometry.zonesPerDie := by
  change geometry.blksPerPl /
    (geometry.zoneSize / geometry.blockSize / geometry.chips) = _
  rw [zoneSize_div_blockSize_div_chips]
  rfl

end Geometry

end ZnsLsm.Flash
