import ZnsLsm.Flash.Layout

/-!
# The write pointer walks the page numbers

`zns_advance_write_pointer` is an odometer: the channel wheel of the zone's group
carries into the block wheel of the zone's stripe, and that one into the page
counter.  After `n` steps the wheels show the digits of `n`, so the page under
the write pointer is the page that `locate_page` computes for `n`, and the zone
fills up on the step that consumes its last page.
-/

namespace ZnsLsm.Flash

open ZnsLsm.MixedRadix

namespace Geometry

variable (geometry : Geometry)

/-- The two wheels that wrap: channel of the group, block of the stripe. -/
def wheels : List Nat :=
  [geometry.chips, geometry.stripe]

/-- Zone `id` with the wheels at `ds`, the page counter at `pg` and its state. -/
def zoneAt (id : Nat) (ds : List Nat) (pg : Nat) (state : NvmeZoneState) : NvmeZone :=
  { geometry.zone id with
    d := { (geometry.zone id).d with state := state }
    wpp :=
      { (geometry.zone id).wpp with
        ch := (geometry.zone id).wpp.ch + ds.getD 0 0
        blk := (geometry.zone id).wpp.blk + ds.getD 1 0
        pg := pg } }

/-- One step of the write pointer. -/
def advance (zone : NvmeZone) : NvmeZone :=
  znsAdvanceWritePointer geometry.numFcgs geometry.spp zone

/-- The write pointer and state of zone `id` once `n` pages were consumed. -/
def zoneAfter (id n : Nat) : NvmeZone :=
  geometry.zoneAt id (digits geometry.wheels n) (n / volume geometry.wheels)
    (if n = pagesPerZone geometry.spp geometry.zoneSize then .full else .empty)

theorem wheels_pos : ∀ radix ∈ geometry.wheels, 0 < radix := by
  simp [wheels, chips_pos, geometry.stripe_pos]

theorem volume_wheels_pos : 0 < volume geometry.wheels := by
  simp [wheels, chips_pos, geometry.stripe_pos]

/-- The pages of a zone fill its wheels once for every page of a block. -/
theorem pagesPerZone_eq_wheels :
    pagesPerZone geometry.spp geometry.zoneSize =
      volume geometry.wheels * geometry.pgsPerBlk := by
  rw [pagesPerZone_eq_volume]
  simp only [pageRadices, wheels, volume_cons, volume_nil]
  ring

theorem pagesPerZone_pos : 0 < pagesPerZone geometry.spp geometry.zoneSize := by
  rw [pagesPerZone_eq_wheels]
  exact Nat.mul_pos geometry.volume_wheels_pos geometry.pgsPerBlk_pos

/-- The wrap-around test on an absolute number looks only at the wheel. -/
private theorem wraps_iff (base : Nat) {radix digit : Nat} (digitLt : digit < radix) :
    (radix * base + digit + 1) % radix = 0 ↔ digit + 1 = radix := by
  rw [Nat.add_assoc, Nat.mul_add_mod]
  constructor
  · intro wraps
    by_contra notLast
    rw [Nat.mod_eq_of_lt (by omega)] at wraps
    omega
  · rintro rfl
    exact Nat.mod_self _

/-- One step of the write pointer ticks the wheels; a carry out of them moves the
page counter, and its last value marks the zone full. -/
theorem advance_zoneAt (id pg : Nat) (state : NvmeZoneState) {ds : List Nat}
    (fits : Fits geometry.wheels ds) :
    geometry.advance (geometry.zoneAt id ds pg state) =
      geometry.zoneAt id (tick geometry.wheels ds).1
        (if (tick geometry.wheels ds).2 then pg + 1 else pg)
        (if (tick geometry.wheels ds).2 ∧ pg + 1 = geometry.pgsPerBlk then .full
          else state) := by
  obtain ⟨chip, rest, chipLt, restFits, rfl⟩ := List.forall₂_cons_left_iff.mp fits
  obtain ⟨block, _, blockLt, nilFits, rfl⟩ := List.forall₂_cons_left_iff.mp restFits
  obtain rfl := List.forall₂_nil_left_iff.mp nilFits
  have blockSize_eq :
      geometry.pgsPerBlk * geometry.spp.secsPerPg * geometry.spp.secsz =
        geometry.blockSize := by
    simp only [spp, ssdInitParams, SsdConfig.blockSize]
    ring
  have chWraps := wraps_iff (id % geometry.numFcgs) chipLt
  have blkWraps :=
    wraps_iff (id / geometry.numFcgs % geometry.zonesPerDie) blockLt
  have pgsPerBlk_eq : geometry.spp.pgsPerBlk = geometry.pgsPerBlk := rfl
  have blksPerPl_eq : geometry.spp.blksPerPl = geometry.blksPerPl := rfl
  simp only [advance, znsAdvanceWritePointer, zoneAt, spp_nchs_div, zone_ch, zone_blk,
    zone_fcgId, zone_zoneCap, zone_zoneId, List.getD_cons_zero, List.getD_cons_succ,
    stripe_of_blockSize geometry blockSize_eq, chWraps, blkWraps, pgsPerBlk_eq,
    blksPerPl_eq, stripe_mul_mod_blksPerPl, wheels, tick]
  by_cases chipLast : chip + 1 = geometry.chips
  · by_cases blockLast : block + 1 = geometry.stripe
    · by_cases pgLast : pg + 1 = geometry.pgsPerBlk <;>
        simp [chipLast, blockLast, pgLast]
    · simp [chipLast, blockLast, Nat.add_assoc]
  · simp [chipLast, Nat.add_assoc]

@[simp]
theorem zoneAfter_zero (id : Nat) : geometry.zoneAfter id 0 = geometry.zone id := by
  have notFull : 0 ≠ pagesPerZone geometry.spp geometry.zoneSize :=
    Nat.ne_of_lt geometry.pagesPerZone_pos
  simp only [zoneAfter, zoneAt, wheels, digits, notFull, if_false, Nat.zero_mod,
    Nat.zero_div, List.getD_cons_zero, List.getD_cons_succ, Nat.add_zero]
  rfl

/-- The step that consumes page `n` leads to the wheels of `n + 1`. -/
theorem advance_zoneAfter (id : Nat) {n : Nat}
    (lt : n < pagesPerZone geometry.spp geometry.zoneSize) :
    geometry.advance (geometry.zoneAfter id n) = geometry.zoneAfter id (n + 1) := by
  have notFull : n ≠ pagesPerZone geometry.spp geometry.zoneSize := Nat.ne_of_lt lt
  rw [zoneAfter, advance_zoneAt geometry id _ _ (digits_fits geometry.wheels_pos n),
    tick_digits geometry.wheels_pos n, zoneAfter]
  simp only [notFull, if_false, decide_eq_true_eq]
  have pgSucc : (n + 1) / volume geometry.wheels =
      if (n + 1) % volume geometry.wheels = 0 then n / volume geometry.wheels + 1
      else n / volume geometry.wheels := by
    rw [Nat.succ_div]
    simp only [Nat.dvd_iff_mod_eq_zero]
    split <;> rfl
  have fullIff : (n + 1) % volume geometry.wheels = 0 ∧
      n / volume geometry.wheels + 1 = geometry.pgsPerBlk ↔
      n + 1 = pagesPerZone geometry.spp geometry.zoneSize := by
    rw [pagesPerZone_eq_wheels]
    constructor
    · rintro ⟨carry, pgLast⟩
      rw [if_pos carry, pgLast] at pgSucc
      rw [← pgSucc, Nat.mul_div_cancel' (Nat.dvd_of_mod_eq_zero carry)]
    · intro last
      have carry : (n + 1) % volume geometry.wheels = 0 := by
        rw [last, Nat.mul_mod_right]
      refine ⟨carry, ?_⟩
      rw [if_pos carry, last, Nat.mul_div_cancel_left _ geometry.volume_wheels_pos] at pgSucc
      exact pgSucc.symm
  rw [pgSucc]
  simp only [fullIff]

/-- Run lemma: `n` steps from the initial write pointer show `n`. -/
theorem iterate_advance (id : Nat) {n : Nat}
    (le : n ≤ pagesPerZone geometry.spp geometry.zoneSize) :
    geometry.advance^[n] (geometry.zone id) = geometry.zoneAfter id n := by
  induction n with
  | zero => simp
  | succ n ih =>
      rw [Function.iterate_succ_apply', ih (Nat.le_of_succ_le le),
        advance_zoneAfter geometry id le]

/-- The page under the write pointer is the page that `locate_page` computes. -/
@[simp]
theorem getZnsPage_zoneAfter (id n : Nat) :
    getZnsPage (geometry.zoneAfter id n) = geometry.page id n := by
  rw [page_eq_digits]
  simp only [getZnsPage, zoneAfter, zoneAt, zone_ch, zone_blk, zone_lun, wheels, digits,
    List.getD_cons_zero, List.getD_cons_succ, chRadices, blkRadices, value, volume_cons,
    volume_nil, Nat.mul_zero, Nat.add_zero, Nat.mul_one, Ppa.mk.injEq, true_and]
  exact ⟨Nat.add_comm _ _, (Nat.div_div_eq_div_mul _ _ _).symm, rfl, Nat.add_comm _ _⟩

@[simp]
theorem zoneAfter_full_iff (id n : Nat) :
    (geometry.zoneAfter id n).d.state = .full ↔
      n = pagesPerZone geometry.spp geometry.zoneSize := by
  simp only [zoneAfter, zoneAt]
  split <;> simp_all

/-- Writes and reads address the same pages: before its `n`-th step the write
pointer stands on the page that `locate_page` computes for `n`, and the zone is
full after exactly as many steps as it has pages. -/
theorem getZnsPage_iterate_and_full_iff (id : Nat) :
    (∀ n < pagesPerZone geometry.spp geometry.zoneSize,
        getZnsPage ((znsAdvanceWritePointer geometry.numFcgs geometry.spp)^[n]
            (geometry.zone id)) =
          locatePage geometry.numFcgs geometry.spp (geometry.zone id) n) ∧
      ∀ n ≤ pagesPerZone geometry.spp geometry.zoneSize,
        (((znsAdvanceWritePointer geometry.numFcgs geometry.spp)^[n]
            (geometry.zone id)).d.state = .full ↔
          n = pagesPerZone geometry.spp geometry.zoneSize) := by
  constructor
  · intro n lt
    exact (congrArg getZnsPage (geometry.iterate_advance id (Nat.le_of_lt lt))).trans
      (geometry.getZnsPage_zoneAfter id n)
  · intro n le
    have after := geometry.iterate_advance id le
    change ((geometry.advance^[n] (geometry.zone id)).d.state = _) ↔ _
    rw [after, zoneAfter_full_iff]

end Geometry

end ZnsLsm.Flash
