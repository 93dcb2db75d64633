import ZnsLsm.Flash.Checks

/-!
# Zones in any run

Whatever the requests, bad writes included, a zone is the one that `zns_init` set up with its
write pointer some steps further; only the sector counter is free.  So a zone never leaves its
channels, its LUN and its blocks, and sectors are found in it as on the new device.
-/

namespace ZnsLsm.Flash

open ZnsLsm.Transition

namespace Geometry

variable (geometry : Geometry)

/-- The size of the device and the number of zones fit `devsz` and `num_zones`. -/
def Representable : Prop :=
  geometry.devsz < 2 ^ 64 ∧ geometry.zones < 2 ^ 32

/-- The device is made of whole zones. -/
theorem devsz_eq_zones : geometry.devsz = geometry.zones * geometry.zoneSize := by
  rw [zones, numZones_eq_volume]
  simp only [devsz, getZnsMeta, zoneRadices, MixedRadix.volume_cons, MixedRadix.volume_nil,
    zoneSize_eq_stripes]
  rw [← stripe_mul_zonesPerDie, ← chips_mul_numFcgs]
  ring

/-- Sectors of the device. -/
theorem devsz_div_secsz :
    geometry.zones * geometry.zoneSize / geometry.secsz = geometry.pageSec geometry.zones 0 :=
  geometry.start_div_secsz geometry.zones

variable {geometry}

theorem Representable.sectors_lt (fits : geometry.Representable) :
    geometry.pageSec geometry.zones 0 < 2 ^ 64 := by
  apply Nat.lt_of_le_of_lt _ fits.1
  rw [devsz_eq_zones, ← devsz_div_secsz]
  exact Nat.div_le_self ..

end Geometry

/-- Every zone is the initial one some steps further. -/
structure Placed (geometry : Geometry) (n : FemuCtrl) : Prop where
  sp : n.ssd.sp = geometry.spp
  zoneSize : n.zoneSize = geometry.zoneSize
  numZones : n.numZones = geometry.zones
  numFcg : n.numFcg = geometry.numFcgs
  zones : ∀ id < geometry.zones, ∃ steps writePtr,
    n.zoneArray id = { geometry.advance^[steps] (geometry.zone id) with writePtr := writePtr }

/-- A reset zone is as `zns_init` left it. -/
theorem Geometry.znsResetWpp_eq (geometry : Geometry) {zone : NvmeZone} {id blockSize : Nat}
    (size : blockSize = geometry.secsz * geometry.secsPerPg * geometry.pgsPerBlk)
    (zoneId : zone.zoneId = id) (startLba : zone.d.startLba = (geometry.zone id).d.startLba)
    (zoneCap : zone.d.zoneCap = geometry.zoneSize) :
    znsResetWpp geometry.numFcgs blockSize geometry.spp
      { zone with writePtr := zone.d.startLba } = geometry.zone id := by
  subst size
  obtain ⟨zoneId', ⟨state, startLba', zoneCap'⟩, writePtr, wpp⟩ := zone
  simp only at zoneId startLba zoneCap
  subst zoneId startLba zoneCap
  rfl

section Placed

variable {geometry : Geometry} {n n' : FemuCtrl} {id : Nat}

theorem placed_femuInit (geometry : Geometry) :
    Placed geometry (femuInit geometry.toSsdConfig geometry.devsz) where
  sp := rfl
  zoneSize := rfl
  numZones := rfl
  numFcg := rfl
  zones id _ := ⟨0, (geometry.zone id).writePtr, rfl⟩

/-- The fields of a zone that no request changes. -/
theorem Placed.frame (placed : Placed geometry n) (idLt : id < geometry.zones) :
    (n.zoneArray id).zoneId = id ∧
      (n.zoneArray id).d.startLba = geometry.pageSec id 0 ∧
      (n.zoneArray id).d.zoneCap = geometry.zoneSize ∧
      (n.zoneArray id).wpp.fcgId = id % geometry.numFcgs ∧
      (n.zoneArray id).wpp.lun = (geometry.zone id).wpp.lun := by
  obtain ⟨steps, writePtr, eq⟩ := placed.zones id idLt
  obtain ⟨zoneId, startLba, zoneCap, fcgId, lun⟩ :=
    iterate_frame geometry.numFcgs geometry.spp steps (geometry.zone id)
  rw [eq]
  exact ⟨zoneId, startLba.trans (geometry.start_div_secsz id), zoneCap, fcgId, lun⟩

/-- A page of a zone is where it was on the new device. -/
theorem Placed.locatePage_eq (placed : Placed geometry n) (idLt : id < geometry.zones)
    (lpn : Nat) :
    locatePage geometry.numFcgs geometry.spp (n.zoneArray id) lpn = geometry.page id lpn := by
  obtain ⟨zoneId, -, zoneCap, fcgId, lun⟩ := placed.frame idLt
  exact locatePage_congr zoneId zoneCap fcgId lun lpn

theorem Placed.update (placed : Placed geometry n) (params : SameParams n n') (steps : Nat)
    {writePtr : Nat} (zones : n'.zoneArray = Function.update n.zoneArray id
      { geometry.advance^[steps] (geometry.zone id) with writePtr := writePtr }) :
    Placed geometry n' where
  sp := params.sp.trans placed.sp
  zoneSize := params.zoneSize.trans placed.zoneSize
  numZones := params.numZones.trans placed.numZones
  numFcg := params.numFcg.trans placed.numFcg
  zones other lt := by
    rw [zones]
    by_cases same : other = id
    · subst same
      exact ⟨steps, writePtr, Function.update_self ..⟩
    · rw [Function.update_of_ne same]
      exact placed.zones other lt

theorem Placed.same (placed : Placed geometry n) (params : SameParams n n')
    (zones : n'.zoneArray = n.zoneArray) : Placed geometry n' where
  sp := params.sp.trans placed.sp
  zoneSize := params.zoneSize.trans placed.zoneSize
  numZones := params.numZones.trans placed.numZones
  numFcg := params.numFcg.trans placed.numFcg
  zones := zones ▸ placed.zones

theorem Placed.lt_of_byLba (placed : Placed geometry n) {sec : Nat}
    (byLba : znsGetZoneByLba n sec = some id) : id < geometry.zones := by
  rw [← placed.numZones]
  exact lt_numZones_of_byLba byLba

theorem Placed.write (placed : Placed geometry n) {now latency : Nat} {req : NvmeRequest}
    (written : znsWrite now n req = some (n', latency)) : Placed geometry n' := by
  cases byLba : znsGetZoneByLba n req.slba with
  | none => simp [znsWrite, byLba] at written
  | some idx =>
      obtain ⟨params, zones⟩ := znsWrite_of_some byLba written
      obtain ⟨steps, writePtr, eq⟩ := placed.zones idx (placed.lt_of_byLba byLba)
      rw [eq, placed.numFcg, placed.sp, iterate_setWritePtr] at zones
      exact placed.update params (pagesTouched geometry.spp req + steps)
        (zones.trans (by rw [Function.iterate_add_apply]; rfl))

/-- A reset leaves the zone as `zns_init` did. -/
theorem Placed.znsResetWpp_eq (placed : Placed geometry n) (idLt : id < geometry.zones) :
    znsResetWpp n.numFcg (n.ssd.sp.pgsPerBlk * n.ssd.sp.secsPerPg * n.ssd.sp.secsz) n.ssd.sp
        { n.zoneArray id with writePtr := (n.zoneArray id).d.startLba } =
      geometry.zone id := by
  obtain ⟨zoneId, startLba, zoneCap, -, -⟩ := placed.frame idLt
  rw [placed.numFcg, placed.sp]
  apply geometry.znsResetWpp_eq _ zoneId _ zoneCap
  · change geometry.pgsPerBlk * geometry.secsPerPg * geometry.secsz = _
    ring
  · exact startLba.trans (geometry.start_div_secsz id).symm

theorem Placed.reset (placed : Placed geometry n) {clock : Ppa → Nat} {req : NvmeRequest}
    (wasReset : znsReset clock n req = some n') : Placed geometry n' := by
  cases byLba : znsGetZoneByLba n req.slba with
  | none => simp [znsReset, byLba] at wasReset
  | some idx =>
      obtain ⟨n'', same, params, zones⟩ := znsReset_eq clock byLba
      rw [wasReset] at same
      cases same
      split at zones
      · rw [placed.znsResetWpp_eq (placed.lt_of_byLba byLba)] at zones
        exact placed.update params 0 zones
      · exact placed.same params zones

/-- Run lemma, over arbitrary requests. -/
theorem placed_of_reachable (reachable : (ftl geometry).Reachable n) : Placed geometry n := by
  apply System.invariant_of_reachable _ _ reachable
  · rintro _ rfl
    exact placed_femuInit geometry
  · rintro n io n' placed ⟨now, served⟩
    cases io with
    | read req =>
        obtain ⟨⟨n'', latency⟩, read, rfl⟩ := Option.map_eq_some_iff.mp served
        obtain ⟨params, zones⟩ := znsRead_zones read
        exact placed.same params zones
    | write req =>
        obtain ⟨⟨n'', latency⟩, written, rfl⟩ := Option.map_eq_some_iff.mp served
        exact placed.write written
    | reset req => exact placed.reset served

/-! ## Looking up sectors -/

/-- A sector of the device is found in its zone. -/
theorem Placed.byLba (placed : Placed geometry n) (fits : geometry.Representable) {sec : Nat}
    (lt : sec < geometry.pageSec geometry.zones 0) :
    znsGetZoneByLba n sec = some (sec / (geometry.secsPerPg * geometry.pages)) ∧
      sec / (geometry.secsPerPg * geometry.pages) < geometry.zones := by
  have inside := geometry.div_lt_zones lt
  have idx := geometry.znsZoneIdx_eq placed.sp placed.zoneSize (Nat.lt_trans inside fits.2)
  refine ⟨?_, inside⟩
  rw [znsGetZoneByLba, idx, placed.numZones]
  exact if_pos inside

/-- A sector between the bounds of a zone is found in this zone. -/
theorem Placed.byLba_of_zone (placed : Placed geometry n) (fits : geometry.Representable)
    (idLt : id < geometry.zones) {sec : Nat} (start_le : (n.zoneArray id).d.startLba ≤ sec)
    (lt : sec < (n.zoneArray id).d.startLba + (n.zoneArray id).d.zoneCap / n.ssd.sp.secsz) :
    znsGetZoneByLba n sec = some id := by
  obtain ⟨-, startLba, zoneCap, -, -⟩ := placed.frame idLt
  have zoneSecs : geometry.zoneSize / n.ssd.sp.secsz = geometry.secsPerPg * geometry.pages := by
    rw [placed.sp]
    exact geometry.zoneSize_div_secsz
  rw [startLba] at start_le
  rw [startLba, zoneCap, zoneSecs, ← geometry.pageSec_add, Nat.zero_add] at lt
  rw [(placed.byLba fits (geometry.lt_device idLt lt)).1, geometry.div_eq_of_zone start_le lt]

/-- The zone of a sector in terms of the page number of the sector. -/
theorem Geometry.zone_of_sector (geometry : Geometry) (sec : Nat) :
    sec / (geometry.secsPerPg * geometry.pages) = sec / geometry.secsPerPg / geometry.pages :=
  (Nat.div_div_eq_div_mul ..).symm

end Placed

end ZnsLsm.Flash
