import Mathlib.Data.List.Nodup
import Mathlib.Data.List.ProdSigma
import ZnsLsm.Flash.Commands
import ZnsLsm.Flash.Placement

/-!
# What a reset erases

`zns_reset` rewrites the write pointer and then erases with it: on every channel of the group
it goes from the first block of the zone to the next multiple of `end`.  These are the blocks
of the zone's pages, each of them once.
-/

namespace ZnsLsm.Flash

open ZnsLsm.Transition

/-- The block of a page, as an address. -/
def Ppa.block (ppa : Ppa) : Ppa :=
  { ppa with pg := 0, pl := 0 }

/-! ## The loops -/

/-- The inner loop goes over one stripe. -/
theorem erasedOnChannel_stripe {zone : NvmeZone} {stripe : Nat} (aligned : stripe ∣ zone.wpp.blk)
    (ch left more done : Nat) (split : done + left = stripe) (pos : 0 < stripe) :
    erasedOnChannel zone stripe ch (left + more) (zone.wpp.blk + done) =
      (List.range' (zone.wpp.blk + done) left).map fun blk =>
        { blk := blk, pg := 0, pl := 0, lun := zone.wpp.lun, ch := ch } := by
  have wraps : (zone.wpp.blk + done) % stripe = done % stripe := by
    obtain ⟨slot, blk⟩ := aligned
    rw [blk, Nat.mul_add_mod]
  induction left generalizing done with
  | zero =>
      cases more with
      | zero => rfl
      | succ more =>
          have stops : ¬(zone.wpp.blk + done = zone.wpp.blk ∨
              (zone.wpp.blk + done) % stripe ≠ 0) := by
            rw [wraps, ← split, Nat.add_zero, Nat.mod_self]
            omega
          rw [Nat.zero_add, erasedOnChannel, if_neg stops]
          rfl
  | succ left ih =>
      have goesOn : zone.wpp.blk + done = zone.wpp.blk ∨ (zone.wpp.blk + done) % stripe ≠ 0 := by
        rw [wraps, Nat.mod_eq_of_lt (by omega)]
        omega
      have rest := ih (done + 1) (by omega) (by
        obtain ⟨slot, blk⟩ := aligned
        rw [blk, Nat.mul_add_mod])
      rw [Nat.succ_add, erasedOnChannel, if_pos goesOn, List.range'_succ, List.map_cons]
      exact congrArg (List.cons _) rest

/-- The inner loop ends by its own test. -/
theorem eraseBlocks_more {zone : NvmeZone} {stripe : Nat} (aligned : stripe ∣ zone.wpp.blk)
    (pos : 0 < stripe) (clock : Ppa → Nat) (ch more : Nat) (ssd : Ssd) :
    eraseBlocks clock zone stripe ch (stripe + more) zone.wpp.blk ssd =
      eraseBlocks clock zone stripe ch stripe zone.wpp.blk ssd := by
  have rounds := fun extra =>
    erasedOnChannel_stripe aligned ch stripe extra 0 (Nat.zero_add stripe) pos
  simp only [Nat.add_zero] at rounds
  rw [eraseBlocks_commands, eraseBlocks_commands, rounds more, ← rounds 0, Nat.add_zero]

theorem erasedBlocks_eq {zone : NvmeZone} {stripe : Nat} (aligned : stripe ∣ zone.wpp.blk)
    (pos : 0 < stripe) (count ch : Nat) :
    erasedBlocks zone stripe count ch =
      (List.range' ch count ×ˢ List.range' zone.wpp.blk stripe).map fun place =>
        { blk := place.2, pg := 0, pl := 0, lun := zone.wpp.lun, ch := place.1 } := by
  induction count generalizing ch with
  | zero => rfl
  | succ count ih =>
      have first := erasedOnChannel_stripe aligned ch stripe 0 0 (Nat.zero_add stripe) pos
      rw [Nat.add_zero, Nat.add_zero] at first
      rw [erasedBlocks, first, ih, List.range'_succ, List.product_cons, List.map_append,
        List.map_map]
      rfl

/-- LUNs that no command addresses keep their clocks. -/
theorem foldl_eraseCommand_lun (clock : Ppa → Nat) (blocks : List Ppa) (ssd : Ssd)
    {ch lun : Nat}
    (elsewhere : ∀ block ∈ blocks, ¬(block.ch = ch ∧ block.lun = lun)) :
    (blocks.foldl (fun ssd block => eraseCommand (clock block) ssd block) ssd).lun ch lun =
      ssd.lun ch lun := by
  induction blocks generalizing ssd with
  | nil => rfl
  | cons block blocks ih =>
      obtain ⟨first, rest⟩ := List.forall_mem_cons.mp elsewhere
      rw [List.foldl_cons, ih _ rest]
      exact (Ssd.setLun_lun_of_ne _ _ first).trans (Ssd.setLun_lun_of_ne _ _ first)

/-! ## The request -/

/-- The blocks that `zns_reset` erases in a full zone. -/
def resetBlocks (n : FemuCtrl) (idx : Nat) : List Ppa :=
  let sp := n.ssd.sp
  let zone := n.zoneArray idx
  let blockSize := sp.pgsPerBlk * sp.secsPerPg * sp.secsz
  let zone := znsResetWpp n.numFcg blockSize sp { zone with writePtr := zone.d.startLba }
  let stripe := zone.d.zoneCap / blockSize / (sp.nchs / n.numFcg)
  erasedBlocks zone stripe (sp.nchs / n.numFcg * (zone.wpp.fcgId + 1) - zone.wpp.ch) zone.wpp.ch

namespace Geometry

variable (geometry : Geometry)

/-- The blocks of a zone, channel by channel. -/
def zoneBlocks (id : Nat) : List Ppa :=
  erasedBlocks (geometry.zone id) geometry.stripe geometry.chips (geometry.zone id).wpp.ch

theorem stripe_dvd_blk (id : Nat) : geometry.stripe ∣ (geometry.zone id).wpp.blk := by
  rw [zone_blk]
  exact Nat.dvd_mul_right ..

theorem zoneBlocks_eq (id : Nat) :
    geometry.zoneBlocks id =
      (List.range' (geometry.zone id).wpp.ch geometry.chips ×ˢ
        List.range' (geometry.zone id).wpp.blk geometry.stripe).map fun place =>
          { blk := place.2, pg := 0, pl := 0, lun := (geometry.zone id).wpp.lun,
            ch := place.1 } :=
  erasedBlocks_eq (geometry.stripe_dvd_blk id) geometry.stripe_pos ..

/-- No block is erased twice. -/
theorem nodup_zoneBlocks (id : Nat) : (geometry.zoneBlocks id).Nodup := by
  rw [zoneBlocks_eq]
  apply List.Nodup.map
  · rintro ⟨ch, blk⟩ ⟨ch', blk'⟩ same
    exact Prod.ext (congrArg Ppa.ch same) (congrArg Ppa.blk same)
  · exact (List.nodup_range' _).product (List.nodup_range' _)

/-- The block of a page, digit by digit. -/
@[simp]
theorem block_page (id lpn : Nat) :
    (geometry.page id lpn).block =
      { blk := (geometry.zone id).wpp.blk + lpn / geometry.chips % geometry.stripe
        pg := 0
        pl := 0
        lun := (geometry.zone id).wpp.lun
        ch := (geometry.zone id).wpp.ch + lpn % geometry.chips } := by
  rw [page_eq_digits, zone_blk, zone_lun, zone_ch, Nat.add_comm (_ * _), Nat.add_comm (_ * _)]
  rfl

/-- The erased blocks are those of the zone's pages. -/
@[simp]
theorem mem_zoneBlocks (id : Nat) (block : Ppa) :
    block ∈ geometry.zoneBlocks id ↔
      ∃ lpn < geometry.pages, block = (geometry.page id lpn).block := by
  simp only [zoneBlocks_eq, List.mem_map, Prod.exists, List.mem_product, List.mem_range'_1,
    block_page]
  constructor
  · rintro ⟨ch, blk, ⟨⟨chGe, chLt⟩, blkGe, blkLt⟩, rfl⟩
    obtain ⟨chip, rfl⟩ := Nat.exists_eq_add_of_le chGe
    obtain ⟨row, rfl⟩ := Nat.exists_eq_add_of_le blkGe
    have chipLt : chip < geometry.chips := by omega
    have rowLt : row < geometry.stripe := by omega
    refine ⟨chip + geometry.chips * row, ?_, ?_⟩
    · calc
        chip + geometry.chips * row < geometry.chips * (row + 1) := by
          rw [Nat.mul_succ]
          omega
        _ ≤ geometry.chips * geometry.stripe := Nat.mul_le_mul_left _ rowLt
        _ = MixedRadix.volume geometry.wheels := by simp [wheels]
        _ ≤ geometry.pages := by
          rw [pages, pagesPerZone_eq_wheels]
          exact Nat.le_mul_of_pos_right _ geometry.pgsPerBlk_pos
    · rw [Nat.add_mul_mod_self_left, Nat.mod_eq_of_lt chipLt,
        Nat.add_mul_div_left _ _ geometry.chips_pos, Nat.div_eq_of_lt chipLt, Nat.zero_add,
        Nat.mod_eq_of_lt rowLt]
  · rintro ⟨lpn, -, rfl⟩
    exact ⟨_, _, ⟨⟨Nat.le_add_right .., Nat.add_lt_add_left (Nat.mod_lt _ geometry.chips_pos) _⟩,
      Nat.le_add_right .., Nat.add_lt_add_left (Nat.mod_lt _ geometry.stripe_pos) _⟩, rfl⟩

end Geometry

/-- A reset of a full zone, command by command. -/
theorem znsReset_of_full (clock : Ppa → Nat) {n : FemuCtrl} {req : NvmeRequest} {idx : Nat}
    (byLba : znsGetZoneByLba n req.slba = some idx) (full : (n.zoneArray idx).d.state = .full)
    (delay : n.ssd.sp.enableGcDelay = true) :
    znsReset clock n req =
      some { n with
        zoneArray := Function.update n.zoneArray idx
          (znsResetWpp n.numFcg (n.ssd.sp.pgsPerBlk * n.ssd.sp.secsPerPg * n.ssd.sp.secsz) n.ssd.sp
            { n.zoneArray idx with writePtr := (n.zoneArray idx).d.startLba })
        ssd := (resetBlocks n idx).foldl (fun ssd block => eraseCommand (clock block) ssd block)
          n.ssd } := by
  simp only [znsReset, byLba]
  rw [if_neg (not_not.mpr full), eraseChannels_commands, foldl_eraseBlock clock _ delay]
  rfl

/-- What a reset makes of a full zone: the zone is as `zns_init` left it, each block that holds
a page of the zone got one `NAND_ERASE`, and nothing else changed. -/
structure Emptied (geometry : Geometry) (clock : Ppa → Nat) (n n' : FemuCtrl) (id : Nat) :
    Prop where
  zoneArray : n'.zoneArray = Function.update n.zoneArray id (geometry.zone id)
  commands : n'.ssd = (resetBlocks n id).foldl
    (fun ssd block => eraseCommand (clock block) ssd block) n.ssd
  once : (resetBlocks n id).Nodup
  blocks : ∀ block, block ∈ resetBlocks n id ↔ ∃ lpn < geometry.pages,
    block = (locatePage n.numFcg n.ssd.sp (n.zoneArray id) lpn).block
  ends : ∀ ch more ssd,
    eraseBlocks clock (n'.zoneArray id) geometry.stripe ch (geometry.stripe + more)
        (n'.zoneArray id).wpp.blk ssd =
      eraseBlocks clock (n'.zoneArray id) geometry.stripe ch geometry.stripe
        (n'.zoneArray id).wpp.blk ssd
  clocks : ∀ ch lun,
    (∀ lpn < geometry.pages, ¬((locatePage n.numFcg n.ssd.sp (n.zoneArray id) lpn).ch = ch ∧
      (locatePage n.numFcg n.ssd.sp (n.zoneArray id) lpn).lun = lun)) →
    n'.ssd.lun ch lun = n.ssd.lun ch lun
  params : SameParams n n'
  errors : n'.errors = n.errors

section Resets

variable {geometry : Geometry} {n : FemuCtrl} {id : Nat}

theorem Placed.resetBlocks_eq (placed : Placed geometry n) (idLt : id < geometry.zones) :
    resetBlocks n id = geometry.zoneBlocks id := by
  have stripe : geometry.zoneSize /
      (n.ssd.sp.pgsPerBlk * n.ssd.sp.secsPerPg * n.ssd.sp.secsz) / geometry.chips =
        geometry.stripe := by
    apply geometry.stripe_of_blockSize
    rw [placed.sp]
    change geometry.pgsPerBlk * geometry.secsPerPg * geometry.secsz =
      geometry.secsz * geometry.secsPerPg * geometry.pgsPerBlk
    ring
  have chips : n.ssd.sp.nchs / n.numFcg = geometry.chips := by
    rw [placed.sp, placed.numFcg]
    rfl
  have count : geometry.chips * (id % geometry.numFcgs + 1) -
      geometry.chips * (id % geometry.numFcgs) = geometry.chips := by
    rw [Nat.mul_succ, Nat.add_sub_cancel_left]
  simp only [resetBlocks, placed.znsResetWpp_eq idLt, chips, Geometry.zone_zoneCap, stripe,
    Geometry.zone_fcgId, Geometry.zone_ch, count, Geometry.zoneBlocks]

theorem Placed.emptied (placed : Placed geometry n) (idLt : id < geometry.zones) {req : NvmeRequest}
    (byLba : znsGetZoneByLba n req.slba = some id) (full : (n.zoneArray id).d.state = .full)
    (clock : Ppa → Nat) :
    ∃ n', znsReset clock n req = some n' ∧ Emptied geometry clock n n' id := by
  have delay : n.ssd.sp.enableGcDelay = true := by
    rw [placed.sp]
    rfl
  have wasReset := znsReset_of_full clock byLba full delay
  rw [placed.znsResetWpp_eq idLt] at wasReset
  obtain ⟨n'', same, params, -⟩ := znsReset_eq clock byLba
  rw [wasReset] at same
  cases same
  have blocks : ∀ block, block ∈ resetBlocks n id ↔ ∃ lpn < geometry.pages,
      block = (locatePage n.numFcg n.ssd.sp (n.zoneArray id) lpn).block := by
    intro block
    rw [placed.resetBlocks_eq idLt, geometry.mem_zoneBlocks, placed.numFcg, placed.sp]
    simp only [placed.locatePage_eq idLt]
  refine ⟨_, wasReset, rfl, rfl, ?_, blocks, ?_, ?_, params, rfl⟩
  · rw [placed.resetBlocks_eq idLt]
    exact geometry.nodup_zoneBlocks id
  · intro ch more ssd
    simp only [Function.update_self]
    exact eraseBlocks_more (geometry.stripe_dvd_blk id) geometry.stripe_pos clock ch more ssd
  · intro ch lun elsewhere
    apply foldl_eraseCommand_lun
    intro block mem same
    obtain ⟨lpn, lpnLt, rfl⟩ := (blocks block).mp mem
    exact elsewhere lpn lpnLt same

/-- After any requests, a reset on any sector of a full zone undoes the fill of this zone and
touches nothing else; a zone that is not full stays as it is. -/
theorem znsReset_empties (geometry : Geometry) (fits : geometry.Representable)
    (reachable : (ftl geometry).Reachable n) (idLt : id < geometry.zones) {req : NvmeRequest}
    (start_le : (n.zoneArray id).d.startLba ≤ req.slba)
    (lt : req.slba < (n.zoneArray id).d.startLba + (n.zoneArray id).d.zoneCap / n.ssd.sp.secsz)
    (clock : Ppa → Nat) :
    ((n.zoneArray id).d.state = .full →
        ∃ n', znsReset clock n req = some n' ∧ Emptied geometry clock n n' id) ∧
      ((n.zoneArray id).d.state ≠ .full → znsReset clock n req = some n) := by
  have placed := placed_of_reachable reachable
  have byLba := placed.byLba_of_zone fits idLt start_le lt
  constructor
  · intro full
    exact placed.emptied idLt byLba full clock
  · intro notFull
    simp only [znsReset, byLba]
    exact if_pos notFull

/-- The first zone of the small device, written at once and then reset, at a time for each of
its blocks. -/
theorem znsReset_empties_written :
    ∃ n n', (n.zoneArray 0).d.state = .full ∧
      znsReset (fun block => 2 + block.ch) n ⟨5, 1, 2⟩ = some n' ∧
      Emptied geometry8G (fun block => 2 + block.ch) n n' 0 := by
  have pages : geometry8G.pages = 128 := by decide +kernel
  have zonesPos : 0 < geometry8G.zones := by decide +kernel
  have zone : znsGetZoneByLba (femuInit geometry8G.toSsdConfig geometry8G.devsz)
      (⟨0, 131072, 1⟩ : NvmeRequest).slba = some 0 := by
    decide +kernel
  obtain ⟨n, latency, written, -⟩ := znsWrite_eq 1 zone
  have small : geometry8G.Small := Geometry.small_of_ttSecs (by decide +kernel)
  have sectors : (⟨0, 131072, 1⟩ : NvmeRequest).nlb = geometry8G.secsPerPg * 128 := rfl
  have holds := (holds_femuInit geometry8G).write small zonesPos rfl sectors (by decide)
    (Nat.le_of_eq pages.symm) written
  have filled := holds.zones 0 zonesPos
  rw [Function.update_self, Nat.zero_add, ← pages] at filled
  have full : (n.zoneArray 0).d.state = .full := by
    rw [filled]
    exact (geometry8G.filled_full_iff 0 geometry8G.pages).mpr rfl
  have step : (ftl geometry8G).Step (femuInit geometry8G.toSsdConfig geometry8G.devsz)
      (.write ⟨0, 131072, 1⟩) n := ⟨.still 1, congrArg (Option.map Prod.fst) written⟩
  have startLba : (n.zoneArray 0).d.startLba = 0 := by
    rw [filled]
    exact geometry8G.filled_startLba 0 geometry8G.pages
  have start_le : (n.zoneArray 0).d.startLba ≤ (⟨5, 1, 2⟩ : NvmeRequest).slba := by
    rw [startLba]
    exact Nat.zero_le 5
  have inside : 5 < (n.zoneArray 0).d.startLba + (n.zoneArray 0).d.zoneCap / n.ssd.sp.secsz := by
    rw [startLba, filled, holds.sp]
    decide +kernel
  obtain ⟨n', wasReset, emptied⟩ :=
    (znsReset_empties geometry8G ⟨by decide +kernel, by decide +kernel⟩
      (.step (.init rfl) step) zonesPos start_le inside _).1 full
  exact ⟨n, n', full, wasReset, emptied⟩

end Resets

end ZnsLsm.Flash
