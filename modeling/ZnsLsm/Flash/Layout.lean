import Mathlib.Data.Set.Function
import ZnsLsm.Flash.Zone
import ZnsLsm.MixedRadix

/-!
# Physical layout of zones

A zone number has the digits (channel group, slot on the die, LUN) and a page
number of a zone has the digits (channel of the group, block of the stripe, page
of the block).  `locate_page` interleaves them: the channel is the pair (channel
of the group, channel group), the block is the pair (block of the stripe, slot on
the die).  So the map from zone and page numbers to addresses is a bijection onto
the whole flash.
-/

namespace ZnsLsm.Flash

open ZnsLsm.MixedRadix

namespace Geometry

variable (geometry : Geometry)

/-- The parameters that `ssd_init` computes. -/
def spp : SsdParams :=
  ssdInitParams geometry.toSsdConfig

/-- Zone `id` as `zns_init` leaves it. -/
def zone (id : Nat) : NvmeZone :=
  znsInitZone geometry.spp geometry.zoneSize geometry.numFcgs id

/-- The size of the device that the host opens: the whole flash. -/
def devsz : Nat :=
  (getZnsMeta geometry.toSsdConfig).capacity

/-- The address of page `lpn` of zone `id`. -/
def page (id lpn : Nat) : Ppa :=
  locatePage geometry.numFcgs geometry.spp (geometry.zone id) lpn

/-- The addresses that exist on the flash. -/
def flash : Set Ppa :=
  { ppa | ppa.ch < geometry.nchs ∧ ppa.lun < geometry.lunsPerCh ∧
    ppa.blk < geometry.blksPerPl ∧ ppa.pg < geometry.pgsPerBlk ∧ ppa.pl = 0 }

/-- Zone and page numbers within bounds. -/
def pageNumbers : Set (Nat × Nat) :=
  { zp | zp.1 < numZones geometry.toSsdConfig geometry.devsz ∧
    zp.2 < pagesPerZone geometry.spp geometry.zoneSize }

/-- The wheels of a zone number: channel group, slot on the die, LUN. -/
def zoneRadices : List Nat :=
  [geometry.numFcgs, geometry.zonesPerDie, geometry.lunsPerCh]

/-- The wheels of a page number: channel of the group, block of the stripe, page. -/
def pageRadices : List Nat :=
  [geometry.chips, geometry.stripe, geometry.pgsPerBlk]

/-- The wheels of a channel number: channel of the group, channel group. -/
def chRadices : List Nat :=
  [geometry.chips, geometry.numFcgs]

/-- The wheels of a block number: block of the stripe, slot on the die. -/
def blkRadices : List Nat :=
  [geometry.stripe, geometry.zonesPerDie]

@[simp]
theorem volume_chRadices : volume geometry.chRadices = geometry.nchs := by
  simp [chRadices, chips_mul_numFcgs]

@[simp]
theorem volume_blkRadices : volume geometry.blkRadices = geometry.blksPerPl := by
  simp [blkRadices, stripe_mul_zonesPerDie]

/-- The number of zones is the volume of the zone wheels. -/
theorem numZones_eq_volume :
    numZones geometry.toSsdConfig geometry.devsz = volume geometry.zoneRadices := by
  have capacity :
      geometry.devsz = volume geometry.zoneRadices * geometry.zoneSize := by
    simp only [devsz, getZnsMeta, zoneRadices, volume_cons, volume_nil,
      zoneSize_eq_stripes]
    rw [← stripe_mul_zonesPerDie, ← chips_mul_numFcgs]
    ring
  rw [numZones, capacity, Nat.mul_div_cancel _ geometry.zoneSize_pos]

/-- The number of pages of a zone is the volume of the page wheels. -/
theorem pagesPerZone_eq_volume :
    pagesPerZone geometry.spp geometry.zoneSize = volume geometry.pageRadices := by
  have bytes :
      geometry.zoneSize =
        volume geometry.pageRadices * (geometry.secsPerPg * geometry.secsz) := by
    simp only [pageRadices, volume_cons, volume_nil, zoneSize_eq_stripes,
      SsdConfig.blockSize]
    ring
  have pagePos : 0 < geometry.secsPerPg * geometry.secsz :=
    Nat.mul_pos geometry.secsPerPg_pos geometry.secsz_pos
  change geometry.zoneSize / (geometry.secsPerPg * geometry.secsz) = _
  rw [bytes, Nat.mul_div_cancel _ pagePos]

/-! ## The address in terms of the digits -/

@[simp]
theorem spp_nchs_div : geometry.spp.nchs / geometry.numFcgs = geometry.chips :=
  rfl

@[simp]
theorem zone_zoneId (id : Nat) : (geometry.zone id).zoneId = id :=
  rfl

@[simp]
theorem zone_zoneCap (id : Nat) : (geometry.zone id).d.zoneCap = geometry.zoneSize :=
  rfl

@[simp]
theorem zone_fcgId (id : Nat) : (geometry.zone id).wpp.fcgId = id % geometry.numFcgs :=
  rfl

@[simp]
theorem zone_ch (id : Nat) :
    (geometry.zone id).wpp.ch = geometry.chips * (id % geometry.numFcgs) :=
  rfl

@[simp]
theorem zone_lun (id : Nat) :
    (geometry.zone id).wpp.lun = id / geometry.numFcgs / geometry.zonesPerDie := by
  change id / (geometry.blksPerPl * geometry.blockSize * geometry.nchs / geometry.zoneSize) = _
  rw [lunBytes_div_zoneSize, Nat.mul_comm, ← Nat.div_div_eq_div_mul]

@[simp]
theorem zone_blk (id : Nat) :
    (geometry.zone id).wpp.blk =
      geometry.stripe * (id / geometry.numFcgs % geometry.zonesPerDie) := by
  change geometry.zoneSize / geometry.blockSize / geometry.chips *
    (id / geometry.numFcgs) % geometry.blksPerPl = _
  rw [zoneSize_div_blockSize_div_chips, stripe_mul_mod_blksPerPl]

/-- Both block size formulas of the source give the blocks of a stripe. -/
theorem stripe_of_blockSize {blockSize : Nat} (same : blockSize = geometry.blockSize) :
    geometry.zoneSize / blockSize / geometry.chips = geometry.stripe := by
  rw [same, zoneSize_div_blockSize_div_chips]

/-- The address of a page, digit by digit. -/
theorem page_eq_digits (id lpn : Nat) :
    geometry.page id lpn =
      { ch := value geometry.chRadices [lpn % geometry.chips, id % geometry.numFcgs]
        lun := id / geometry.numFcgs / geometry.zonesPerDie
        blk := value geometry.blkRadices
          [lpn / geometry.chips % geometry.stripe,
            id / geometry.numFcgs % geometry.zonesPerDie]
        pg := lpn / geometry.chips / geometry.stripe
        pl := 0 } := by
  have blockSize_eq : geometry.spp.secsPerBlk * geometry.spp.secsz = geometry.blockSize := by
    simp only [spp, ssdInitParams, SsdConfig.blockSize]
    ring
  simp only [page, locatePage, spp_nchs_div, zone_zoneCap, zone_zoneId, zone_fcgId,
    zone_lun, stripe_of_blockSize geometry blockSize_eq]
  rw [show geometry.spp.blksPerPl = geometry.blksPerPl from rfl, stripe_mul_mod_blksPerPl]
  simp only [chRadices, blkRadices, value, Nat.mul_zero, Nat.add_zero, Ppa.mk.injEq,
    true_and]
  rw [Nat.mul_comm]

/-! ## Bounds of the digits -/

theorem chDigits_fits (id lpn : Nat) :
    Fits geometry.chRadices [lpn % geometry.chips, id % geometry.numFcgs] :=
  List.Forall₂.cons (Nat.mod_lt _ geometry.chips_pos)
    (List.Forall₂.cons (Nat.mod_lt _ geometry.numFcgs_pos) List.Forall₂.nil)

theorem blkDigits_fits (id lpn : Nat) :
    Fits geometry.blkRadices
      [lpn / geometry.chips % geometry.stripe,
        id / geometry.numFcgs % geometry.zonesPerDie] :=
  List.Forall₂.cons (Nat.mod_lt _ geometry.stripe_pos)
    (List.Forall₂.cons (Nat.mod_lt _ geometry.zonesPerDie_pos) List.Forall₂.nil)

/-- The most significant digit of a page number within bounds. -/
theorem pg_lt {lpn : Nat} (lt : lpn < volume geometry.pageRadices) :
    lpn / geometry.chips / geometry.stripe < geometry.pgsPerBlk := by
  rw [Nat.div_div_eq_div_mul]
  apply Nat.div_lt_of_lt_mul
  simpa [pageRadices, Nat.mul_assoc] using lt

/-- The most significant digit of a zone number within bounds. -/
theorem lun_lt {id : Nat} (lt : id < volume geometry.zoneRadices) :
    id / geometry.numFcgs / geometry.zonesPerDie < geometry.lunsPerCh := by
  rw [Nat.div_div_eq_div_mul]
  apply Nat.div_lt_of_lt_mul
  simpa [zoneRadices, Nat.mul_assoc] using lt

theorem page_mem_flash {id lpn : Nat} (idLt : id < volume geometry.zoneRadices)
    (lpnLt : lpn < volume geometry.pageRadices) : geometry.page id lpn ∈ geometry.flash := by
  rw [page_eq_digits]
  refine ⟨?_, geometry.lun_lt idLt, ?_, geometry.pg_lt lpnLt, rfl⟩
  · rw [← volume_chRadices]
    exact value_lt_volume (geometry.chDigits_fits id lpn)
  · rw [← volume_blkRadices]
    exact value_lt_volume (geometry.blkDigits_fits id lpn)

/-! ## The layout is a bijection -/

/-- Two pages in one block belong to one zone, and agree on all page digits but
the page of the block. -/
theorem zone_eq_of_block_eq {id id' lpn lpn' : Nat}
    (idLt : id < volume geometry.zoneRadices) (idLt' : id' < volume geometry.zoneRadices)
    (ch : (geometry.page id lpn).ch = (geometry.page id' lpn').ch)
    (lun : (geometry.page id lpn).lun = (geometry.page id' lpn').lun)
    (blk : (geometry.page id lpn).blk = (geometry.page id' lpn').blk) :
    id = id' ∧ lpn % geometry.chips = lpn' % geometry.chips ∧
      lpn / geometry.chips % geometry.stripe = lpn' / geometry.chips % geometry.stripe := by
  simp only [page_eq_digits] at ch lun blk
  have chDigits := value_injective (geometry.chDigits_fits id lpn)
    (geometry.chDigits_fits id' lpn') ch
  have blkDigits := value_injective (geometry.blkDigits_fits id lpn)
    (geometry.blkDigits_fits id' lpn') blk
  simp only [List.cons.injEq, and_true] at chDigits blkDigits
  refine ⟨?_, chDigits.1, blkDigits.1⟩
  apply digits_injective idLt idLt'
  simp only [zoneRadices, digits, chDigits.2, blkDigits.2, lun]

theorem page_injOn : Set.InjOn (fun zp : Nat × Nat => geometry.page zp.1 zp.2)
    geometry.pageNumbers := by
  rintro ⟨id, lpn⟩ ⟨idLt, lpnLt⟩ ⟨id', lpn'⟩ ⟨idLt', lpnLt'⟩ same
  rw [numZones_eq_volume] at idLt idLt'
  rw [pagesPerZone_eq_volume] at lpnLt lpnLt'
  obtain ⟨idEq, chip, block⟩ := geometry.zone_eq_of_block_eq idLt idLt'
    (congrArg Ppa.ch same) (congrArg Ppa.lun same) (congrArg Ppa.blk same)
  have pg := congrArg Ppa.pg same
  simp only [page_eq_digits] at pg
  have lpnEq : lpn = lpn' := by
    apply digits_injective lpnLt lpnLt'
    simp only [pageRadices, digits, chip, block, pg]
  exact Prod.ext idEq lpnEq

/-- Every address of the flash is the address of a page of a zone. -/
theorem page_surjOn : Set.SurjOn (fun zp : Nat × Nat => geometry.page zp.1 zp.2)
    geometry.pageNumbers geometry.flash := by
  rintro ⟨blk, pg, pl, lun, ch⟩ ⟨chLt, lunLt, blkLt, pgLt, plZero⟩
  simp only at chLt lunLt blkLt pgLt plZero
  subst plZero
  have groupLt : ch / geometry.chips < geometry.numFcgs := by
    apply Nat.div_lt_of_lt_mul
    rwa [chips_mul_numFcgs]
  have slotLt : blk / geometry.stripe < geometry.zonesPerDie := by
    apply Nat.div_lt_of_lt_mul
    rwa [stripe_mul_zonesPerDie]
  have zoneFits : Fits geometry.zoneRadices
      [ch / geometry.chips, blk / geometry.stripe, lun] :=
    List.Forall₂.cons groupLt (List.Forall₂.cons slotLt
      (List.Forall₂.cons lunLt List.Forall₂.nil))
  have pageFits : Fits geometry.pageRadices
      [ch % geometry.chips, blk % geometry.stripe, pg] :=
    List.Forall₂.cons (Nat.mod_lt _ geometry.chips_pos)
      (List.Forall₂.cons (Nat.mod_lt _ geometry.stripe_pos)
        (List.Forall₂.cons pgLt List.Forall₂.nil))
  have zoneLt := value_lt_volume zoneFits
  have pageLt := value_lt_volume pageFits
  refine ⟨⟨value geometry.zoneRadices [ch / geometry.chips, blk / geometry.stripe, lun],
    value geometry.pageRadices [ch % geometry.chips, blk % geometry.stripe, pg]⟩,
    ⟨?_, ?_⟩, ?_⟩
  · rwa [numZones_eq_volume]
  · rwa [pagesPerZone_eq_volume]
  · have zoneDigits := digits_value zoneFits
    have pageDigits := digits_value pageFits
    generalize value geometry.zoneRadices _ = id at zoneDigits zoneLt ⊢
    generalize value geometry.pageRadices _ = lpn at pageDigits pageLt ⊢
    simp only [zoneRadices, digits, List.cons.injEq, and_true] at zoneDigits
    simp only [pageRadices, digits, List.cons.injEq, and_true] at pageDigits
    have lunEq : id / geometry.numFcgs / geometry.zonesPerDie = lun :=
      (Nat.mod_eq_of_lt (geometry.lun_lt zoneLt)).symm.trans zoneDigits.2.2
    have pgEq : lpn / geometry.chips / geometry.stripe = pg :=
      (Nat.mod_eq_of_lt (geometry.pg_lt pageLt)).symm.trans pageDigits.2.2
    simp only [page_eq_digits, zoneDigits.1, zoneDigits.2.1, pageDigits.1, pageDigits.2.1,
      lunEq, pgEq, chRadices, blkRadices, value, Nat.mul_zero, Nat.add_zero,
      Nat.mod_add_div]

/-- Zone and page numbers name every page of the flash exactly once, and no two
zones share a block. -/
theorem page_bijOn_and_blocks_disjoint :
    Set.BijOn (fun zp : Nat × Nat => geometry.page zp.1 zp.2)
        geometry.pageNumbers geometry.flash ∧
      ∀ zp ∈ geometry.pageNumbers, ∀ zp' ∈ geometry.pageNumbers, zp.1 ≠ zp'.1 →
        ¬((geometry.page zp.1 zp.2).ch = (geometry.page zp'.1 zp'.2).ch ∧
          (geometry.page zp.1 zp.2).lun = (geometry.page zp'.1 zp'.2).lun ∧
          (geometry.page zp.1 zp.2).blk = (geometry.page zp'.1 zp'.2).blk) := by
  refine ⟨⟨?_, geometry.page_injOn, geometry.page_surjOn⟩, ?_⟩
  · rintro ⟨id, lpn⟩ ⟨idLt, lpnLt⟩
    rw [numZones_eq_volume] at idLt
    rw [pagesPerZone_eq_volume] at lpnLt
    exact geometry.page_mem_flash idLt lpnLt
  · rintro ⟨id, lpn⟩ ⟨idLt, _⟩ ⟨id', lpn'⟩ ⟨idLt', _⟩ distinct ⟨ch, lun, blk⟩
    rw [numZones_eq_volume] at idLt idLt'
    exact distinct (geometry.zone_eq_of_block_eq idLt idLt' ch lun blk).1

end Geometry

end ZnsLsm.Flash
