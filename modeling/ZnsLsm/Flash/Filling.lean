import Mathlib.Logic.Function.Iterate
import ZnsLsm.Flash.Request
import ZnsLsm.Flash.WritePointer

/-!
# Filling zones

A zone has two write pointers: `write_ptr` counts sectors, and the wheels of `wpp`
count pages.  As long as every write covers whole pages they move together, and the
zone is full when both have reached its end.
-/

namespace ZnsLsm.Flash

/-! ## What a write changes -/

/-- The pages that the loop of `zns_write` goes over. -/
def pagesTouched (sp : SsdParams) (req : NvmeRequest) : Nat :=
  lastSector req.slba req.nlb / sp.secsPerPg + 1 - req.slba / sp.secsPerPg

theorem lastSector_eq {slba nlb : Nat} (pos : 0 < slba + nlb) (lt : slba + nlb < 2 ^ 64) :
    lastSector slba nlb = slba + nlb - 1 := by
  simp only [lastSector, Nat.mod_eq_of_lt lt]
  rw [if_neg pos.ne']

/-- A write of whole pages touches no others. -/
theorem pagesTouched_eq {sp : SsdParams} {req : NvmeRequest} {first more : Nat}
    (perPagePos : 0 < sp.secsPerPg) (slba : req.slba = sp.secsPerPg * first)
    (nlb : req.nlb = sp.secsPerPg * more) (pos : 0 < more)
    (noWrap : req.slba + req.nlb < 2 ^ 64) : pagesTouched sp req = more := by
  have positive : 0 < sp.secsPerPg * more := Nat.mul_pos perPagePos pos
  have split : req.slba + req.nlb = sp.secsPerPg * (first + (more - 1)) + sp.secsPerPg := by
    rw [slba, nlb, ← Nat.mul_add, ← Nat.mul_succ]
    congr 1
    omega
  have last : lastSector req.slba req.nlb =
      sp.secsPerPg * (first + (more - 1)) + (sp.secsPerPg - 1) := by
    rw [lastSector_eq (by omega) noWrap, split]
    omega
  rw [pagesTouched, last, Nat.mul_add_div perPagePos,
    Nat.div_eq_of_lt (Nat.sub_lt perPagePos Nat.one_pos), slba,
    Nat.mul_div_cancel_left _ perPagePos]
  omega

/-- A request leaves the parameters of the device alone. -/
structure SameParams (n n' : FemuCtrl) : Prop where
  sp : n'.ssd.sp = n.ssd.sp
  zoneSize : n'.zoneSize = n.zoneSize
  numZones : n'.numZones = n.numZones
  numFcg : n'.numFcg = n.numFcg

theorem SameParams.refl (n : FemuCtrl) : SameParams n n :=
  ⟨rfl, rfl, rfl, rfl⟩

theorem SameParams.trans {n n' n'' : FemuCtrl} (first : SameParams n n')
    (second : SameParams n' n'') : SameParams n n'' where
  sp := second.sp.trans first.sp
  zoneSize := second.zoneSize.trans first.zoneSize
  numZones := second.numZones.trans first.numZones
  numFcg := second.numFcg.trans first.numFcg

/-- The loop of `zns_write` moves the write pointer by one page a round. -/
theorem znsWriteLoop_eq (numFcg now stime count : Nat) (zone : NvmeZone) (ssd : Ssd)
    (maxlat : Nat) :
    (znsWriteLoop numFcg now stime count (zone, ssd, maxlat)).1 =
        (znsAdvanceWritePointer numFcg ssd.sp)^[count] zone ∧
      (znsWriteLoop numFcg now stime count (zone, ssd, maxlat)).2.1.sp = ssd.sp := by
  induction count generalizing zone ssd maxlat with
  | zero => exact ⟨rfl, rfl⟩
  | succ count ih =>
      rw [Function.iterate_succ_apply]
      exact ih (znsAdvanceWritePointer numFcg ssd.sp zone)
        (ssdAdvanceStatus now ssd (getZnsPage zone) .write stime).2 _

/-- The sector number in a zone descriptor does not guide the write pointer. -/
@[simp]
theorem znsAdvanceWritePointer_setWritePtr (numFcg : Nat) (spp : SsdParams) (zone : NvmeZone)
    (writePtr : Nat) :
    znsAdvanceWritePointer numFcg spp { zone with writePtr := writePtr } =
      { znsAdvanceWritePointer numFcg spp zone with writePtr := writePtr } := by
  simp only [znsAdvanceWritePointer]
  split
  · split
    · rfl
    · rfl
  · rfl

@[simp]
theorem iterate_setWritePtr (numFcg : Nat) (spp : SsdParams) (count writePtr : Nat)
    (zone : NvmeZone) :
    (znsAdvanceWritePointer numFcg spp)^[count] { zone with writePtr := writePtr } =
      { (znsAdvanceWritePointer numFcg spp)^[count] zone with writePtr := writePtr } := by
  induction count generalizing zone with
  | zero => rfl
  | succ count ih =>
      rw [Function.iterate_succ_apply, Function.iterate_succ_apply,
        znsAdvanceWritePointer_setWritePtr, ih]

/-- A write to an existing zone moves both pointers of the zone, whatever the checks
print. -/
theorem znsWrite_eq (now : Nat) {n : FemuCtrl} {req : NvmeRequest} {idx : Nat}
    (byLba : znsGetZoneByLba n req.slba = some idx) :
    ∃ n' latency, znsWrite now n req = some (n', latency) ∧ SameParams n n' ∧
      n'.zoneArray = Function.update n.zoneArray idx
        { (znsAdvanceWritePointer n.numFcg n.ssd.sp)^[pagesTouched n.ssd.sp req]
            (n.zoneArray idx) with
          writePtr := ((n.zoneArray idx).writePtr + req.nlb) % 2 ^ 64 } := by
  obtain ⟨loop, sp⟩ := znsWriteLoop_eq n.numFcg now req.stime (pagesTouched n.ssd.sp req)
    { n.zoneArray idx with writePtr := ((n.zoneArray idx).writePtr + req.nlb) % 2 ^ 64 }
    n.ssd 0
  rw [iterate_setWritePtr] at loop
  simp only [znsWrite, byLba]
  refine ⟨_, _, rfl, ⟨sp, rfl, rfl, rfl⟩, ?_⟩
  exact congrArg (Function.update n.zoneArray idx) loop

theorem znsWrite_of_some {now : Nat} {n n' : FemuCtrl} {req : NvmeRequest} {idx latency : Nat}
    (byLba : znsGetZoneByLba n req.slba = some idx)
    (written : znsWrite now n req = some (n', latency)) :
    SameParams n n' ∧
      n'.zoneArray = Function.update n.zoneArray idx
        { (znsAdvanceWritePointer n.numFcg n.ssd.sp)^[pagesTouched n.ssd.sp req]
            (n.zoneArray idx) with
          writePtr := ((n.zoneArray idx).writePtr + req.nlb) % 2 ^ 64 } := by
  obtain ⟨n'', latency', same, result⟩ := znsWrite_eq now byLba
  rw [written] at same
  cases same
  exact result

/-! ## What reads and resets change -/

@[simp]
theorem znsReadLoop_sp (now stime zoneEnd : Nat) (n : FemuCtrl) (count zone : Nat) (ppa : Ppa)
    (ssd : Ssd) : (znsReadLoop now stime zoneEnd n count (zone, ppa, ssd)).2.2.sp = ssd.sp := by
  induction count generalizing zone ppa ssd with
  | zero => rfl
  | succ count ih =>
      simp only [znsReadLoop]
      split
      · exact ih ..
      · exact ih ..

/-- Reads change no zone. -/
theorem znsRead_zones {now : Nat} {n n' : FemuCtrl} {req : NvmeRequest} {latency : Nat}
    (read : znsRead now n req = some (n', latency)) :
    SameParams n n' ∧ n'.zoneArray = n.zoneArray := by
  simp only [znsRead] at read
  split at read
  · cases read
    exact ⟨⟨znsReadLoop_sp .., rfl, rfl, rfl⟩, rfl⟩
  · cases read

@[simp]
theorem eraseBlock_sp (clock : Ppa → Nat) (ssd : Ssd) (ppa : Ppa) :
    (eraseBlock clock ssd ppa).sp = ssd.sp := by
  simp only [eraseBlock]
  split
  · rfl
  · rfl

@[simp]
theorem eraseBlocks_sp (clock : Ppa → Nat) (zone : NvmeZone) (stripe ch rounds blk : Nat)
    (ssd : Ssd) :
    (eraseBlocks clock zone stripe ch rounds blk ssd).sp = ssd.sp := by
  induction rounds generalizing blk ssd with
  | zero => rfl
  | succ rounds ih =>
      simp only [eraseBlocks]
      split
      · rw [ih, eraseBlock_sp]
      · rfl

@[simp]
theorem eraseChannels_sp (clock : Ppa → Nat) (zone : NvmeZone) (stripe count ch : Nat) (ssd : Ssd) :
    (eraseChannels clock zone stripe count ch ssd).sp = ssd.sp := by
  induction count generalizing ch ssd with
  | zero => rfl
  | succ count ih =>
      simp only [eraseChannels]
      rw [ih, eraseBlocks_sp]

/-- A reset changes a full zone only. -/
theorem znsReset_eq (clock : Ppa → Nat) {n : FemuCtrl} {req : NvmeRequest} {idx : Nat}
    (byLba : znsGetZoneByLba n req.slba = some idx) :
    ∃ n', znsReset clock n req = some n' ∧ SameParams n n' ∧
      n'.zoneArray =
        if (n.zoneArray idx).d.state = .full then
          Function.update n.zoneArray idx
            (znsResetWpp n.numFcg (n.ssd.sp.pgsPerBlk * n.ssd.sp.secsPerPg * n.ssd.sp.secsz)
              n.ssd.sp
              { n.zoneArray idx with writePtr := (n.zoneArray idx).d.startLba })
        else
          n.zoneArray := by
  simp only [znsReset, byLba]
  by_cases full : (n.zoneArray idx).d.state = .full
  · rw [if_neg (not_not.mpr full), if_pos full]
    exact ⟨_, rfl, ⟨eraseChannels_sp .., rfl, rfl, rfl⟩, rfl⟩
  · rw [if_pos full, if_neg full]
    exact ⟨_, rfl, ⟨rfl, rfl, rfl, rfl⟩, rfl⟩

theorem lt_numZones_of_byLba {n : FemuCtrl} {sec idx : Nat}
    (byLba : znsGetZoneByLba n sec = some idx) : idx < n.numZones := by
  rw [znsGetZoneByLba] at byLba
  obtain ⟨lt, same⟩ := Option.ite_none_right_eq_some.mp byLba
  rw [← Option.some.inj same]
  exact lt

namespace Geometry

variable (geometry : Geometry)

/-! ## Sectors of a zone -/

/-- Pages of a zone. -/
def pages : Nat :=
  pagesPerZone geometry.spp geometry.zoneSize

/-- Zones of the device. -/
def zones : Nat :=
  numZones geometry.toSsdConfig geometry.devsz

/-- The first sector of a page of a zone. -/
def pageSec (id n : Nat) : Nat :=
  geometry.secsPerPg * (id * geometry.pages + n)

theorem pages_pos : 0 < geometry.pages :=
  geometry.pagesPerZone_pos

theorem zoneSize_eq_pages :
    geometry.zoneSize = geometry.secsz * (geometry.secsPerPg * geometry.pages) := by
  rw [pages, pagesPerZone_eq_volume]
  simp only [pageRadices, MixedRadix.volume_cons, MixedRadix.volume_nil, zoneSize_eq_stripes,
    SsdConfig.blockSize]
  ring

@[simp]
theorem zoneSize_div_secsz :
    geometry.zoneSize / geometry.secsz = geometry.secsPerPg * geometry.pages := by
  rw [zoneSize_eq_pages, Nat.mul_div_cancel_left _ geometry.secsz_pos]

/-- The zone number of a sector, if it fits `uint32_t`. -/
theorem znsZoneIdx_eq {n : FemuCtrl} (sp : n.ssd.sp = geometry.spp)
    (zoneSize : n.zoneSize = geometry.zoneSize) {sec : Nat}
    (lt : sec / (geometry.secsPerPg * geometry.pages) < 2 ^ 32) :
    znsZoneIdx n sec = sec / (geometry.secsPerPg * geometry.pages) := by
  have zoneSecs : n.zoneSize / n.ssd.sp.secsz = geometry.secsPerPg * geometry.pages := by
    rw [zoneSize, sp]
    exact geometry.zoneSize_div_secsz
  rw [znsZoneIdx, zoneSecs]
  exact Nat.mod_eq_of_lt lt

@[simp]
theorem start_div_secsz (id : Nat) :
    id * geometry.zoneSize / geometry.secsz = geometry.pageSec id 0 := by
  rw [zoneSize_eq_pages, pageSec, Nat.add_zero, Nat.mul_left_comm,
    Nat.mul_div_cancel_left _ geometry.secsz_pos, Nat.mul_left_comm]

theorem pageSec_add (id n more : Nat) :
    geometry.pageSec id (n + more) = geometry.pageSec id n + geometry.secsPerPg * more := by
  rw [pageSec, pageSec, ← Nat.add_assoc, Nat.mul_add]

theorem pageSec_le {id n n' : Nat} (le : n ≤ n') : geometry.pageSec id n ≤ geometry.pageSec id n' :=
  Nat.mul_le_mul_left _ (Nat.add_le_add_left le _)

@[simp]
theorem pageSec_div (id n : Nat) :
    geometry.pageSec id n / geometry.secsPerPg = id * geometry.pages + n :=
  Nat.mul_div_cancel_left _ geometry.secsPerPg_pos

/-- The end of a zone is the start of the next one. -/
@[simp]
theorem pageSec_pages (id : Nat) :
    geometry.pageSec id geometry.pages = geometry.pageSec (id + 1) 0 := by
  rw [pageSec, pageSec, Nat.add_zero, Nat.succ_mul]

/-- The zone number of a sector of a zone. -/
theorem div_eq_of_zone {id sec : Nat} (ge : geometry.pageSec id 0 ≤ sec)
    (lt : sec < geometry.pageSec id geometry.pages) :
    sec / (geometry.secsPerPg * geometry.pages) = id := by
  rw [pageSec_pages] at lt
  apply Nat.div_eq_of_lt_le
  · rw [Nat.mul_left_comm]
    exact ge
  · rw [Nat.mul_left_comm]
    exact lt

theorem ttSecs_eq : geometry.spp.ttSecs = geometry.pageSec geometry.zones 0 := by
  rw [pageSec, Nat.add_zero, zones, numZones_eq_volume, pages, pagesPerZone_eq_volume]
  simp only [pageRadices, zoneRadices, MixedRadix.volume_cons, MixedRadix.volume_nil]
  change geometry.secsPerPg * geometry.pgsPerBlk * geometry.blksPerPl * geometry.plsPerLun *
    geometry.lunsPerCh * geometry.nchs = _
  rw [geometry.onePlane, ← stripe_mul_zonesPerDie, ← chips_mul_numFcgs]
  ring

/-- Zone and sector numbers fit their types. -/
def Small : Prop :=
  geometry.zones < 2 ^ 32 ∧ geometry.pageSec geometry.zones 0 < 2 ^ 63

variable {geometry}

theorem small_of_ttSecs (lt : geometry.spp.ttSecs < 2 ^ 31) : geometry.Small := by
  rw [ttSecs_eq] at lt
  have zonesLe : geometry.zones ≤ geometry.pageSec geometry.zones 0 := by
    rw [pageSec, Nat.add_zero, ← Nat.mul_assoc, Nat.mul_right_comm]
    exact Nat.le_mul_of_pos_left _
      (Nat.mul_pos geometry.secsPerPg_pos geometry.pages_pos)
  exact ⟨by omega, by omega⟩

theorem Small.pageSec_lt (small : geometry.Small) {id n : Nat} (idLt : id < geometry.zones)
    (le : n ≤ geometry.pages) : geometry.pageSec id n < 2 ^ 63 := by
  apply Nat.lt_of_le_of_lt _ small.2
  calc
    geometry.pageSec id n ≤ geometry.pageSec id geometry.pages := geometry.pageSec_le le
    _ = geometry.pageSec (id + 1) 0 := geometry.pageSec_pages id
    _ ≤ geometry.pageSec geometry.zones 0 :=
      Nat.mul_le_mul_left _ (Nat.mul_le_mul_right _ idLt)

variable (geometry)

/-! ## Zones filled in whole pages -/

/-- Zone `id` after its first `n` pages were written. -/
def filled (id n : Nat) : NvmeZone :=
  { geometry.zoneAfter id n with writePtr := geometry.pageSec id n }

@[simp]
theorem filled_writePtr (id n : Nat) : (geometry.filled id n).writePtr = geometry.pageSec id n :=
  rfl

@[simp]
theorem filled_zoneCap (id n : Nat) : (geometry.filled id n).d.zoneCap = geometry.zoneSize :=
  rfl

@[simp]
theorem filled_zoneId (id n : Nat) : (geometry.filled id n).zoneId = id :=
  rfl

@[simp]
theorem filled_fcgId (id n : Nat) : (geometry.filled id n).wpp.fcgId = id % geometry.numFcgs :=
  rfl

@[simp]
theorem filled_lun (id n : Nat) : (geometry.filled id n).wpp.lun = (geometry.zone id).wpp.lun :=
  rfl

@[simp]
theorem filled_pg (id n : Nat) :
    (geometry.filled id n).wpp.pg = n / MixedRadix.volume geometry.wheels :=
  rfl

@[simp]
theorem filled_startLba (id n : Nat) :
    (geometry.filled id n).d.startLba = geometry.pageSec id 0 :=
  geometry.start_div_secsz id

@[simp]
theorem filled_full_iff (id n : Nat) :
    (geometry.filled id n).d.state = .full ↔ n = geometry.pages :=
  geometry.zoneAfter_full_iff id n

theorem zone_eq_filled (id : Nat) : geometry.zone id = geometry.filled id 0 := by
  rw [filled, zoneAfter_zero, ← start_div_secsz]
  rfl

/-- Writing some more pages. -/
theorem iterate_filled (id : Nat) {n more : Nat} (le : n + more ≤ geometry.pages)
    (writePtr : Nat) :
    { geometry.advance^[more] (geometry.filled id n) with writePtr := writePtr } =
      { geometry.filled id (n + more) with writePtr := writePtr } := by
  have steps := geometry.iterate_advance id le
  rw [Nat.add_comm n more, Function.iterate_add_apply,
    geometry.iterate_advance id (Nat.le_trans (Nat.le_add_right n more) le)] at steps
  have same : geometry.advance^[more] (geometry.filled id n) =
      { geometry.advance^[more] (geometry.zoneAfter id n) with
        writePtr := geometry.pageSec id n } :=
    iterate_setWritePtr geometry.numFcgs geometry.spp more (geometry.pageSec id n)
      (geometry.zoneAfter id n)
  rw [same, steps, Nat.add_comm more n]
  rfl

/-- Resetting a zone. -/
theorem znsResetWpp_filled (id n : Nat) {blockSize : Nat}
    (size : blockSize = geometry.secsz * geometry.secsPerPg * geometry.pgsPerBlk) :
    znsResetWpp geometry.numFcgs blockSize geometry.spp
        { geometry.filled id n with writePtr := (geometry.filled id n).d.startLba } =
      geometry.filled id 0 := by
  subst size
  rw [filled_startLba, ← zone_eq_filled, Geometry.zone, znsInitZone, znsResetWpp]
  have start := geometry.start_div_secsz id
  have secsz : geometry.spp.secsz = geometry.secsz := rfl
  have startLba := geometry.filled_startLba id n
  simp only [filled_zoneId, filled_zoneCap, secsz, start, NvmeZone.mk.injEq, startLba,
    true_and]
  rfl

end Geometry

/-! ## States filled in whole pages -/

/-- The first `count id` pages of every zone are written. -/
structure Holds (geometry : Geometry) (count : Nat → Nat) (n : FemuCtrl) : Prop where
  sp : n.ssd.sp = geometry.spp
  zoneSize : n.zoneSize = geometry.zoneSize
  numZones : n.numZones = geometry.zones
  numFcg : n.numFcg = geometry.numFcgs
  zones : ∀ id < geometry.zones, n.zoneArray id = geometry.filled id (count id)
  count_le : ∀ id < geometry.zones, count id ≤ geometry.pages

section Holds

variable {geometry : Geometry} {count : Nat → Nat} {n n' : FemuCtrl} {id : Nat}

theorem holds_femuInit (geometry : Geometry) :
    Holds geometry (fun _ => 0) (femuInit geometry.toSsdConfig geometry.devsz) where
  sp := rfl
  zoneSize := rfl
  numZones := rfl
  numFcg := rfl
  zones id _ := geometry.zone_eq_filled id
  count_le _ _ := Nat.zero_le _

/-- A request that leaves the zones alone. -/
theorem Holds.same (holds : Holds geometry count n) (params : SameParams n n')
    (zones : n'.zoneArray = n.zoneArray) : Holds geometry count n' where
  sp := params.sp.trans holds.sp
  zoneSize := params.zoneSize.trans holds.zoneSize
  numZones := params.numZones.trans holds.numZones
  numFcg := params.numFcg.trans holds.numFcg
  zones := zones ▸ holds.zones
  count_le := holds.count_le

/-- A request that changes the fill of one zone. -/
theorem Holds.update (holds : Holds geometry count n) (params : SameParams n n') {pages : Nat}
    (le : pages ≤ geometry.pages)
    (zones : n'.zoneArray = Function.update n.zoneArray id (geometry.filled id pages)) :
    Holds geometry (Function.update count id pages) n' where
  sp := params.sp.trans holds.sp
  zoneSize := params.zoneSize.trans holds.zoneSize
  numZones := params.numZones.trans holds.numZones
  numFcg := params.numFcg.trans holds.numFcg
  zones other lt := by
    rw [zones]
    by_cases same : other = id
    · subst same
      rw [Function.update_self, Function.update_self]
    · rw [Function.update_of_ne same, Function.update_of_ne same]
      exact holds.zones other lt
  count_le other lt := by
    by_cases same : other = id
    · subst same
      rw [Function.update_self]
      exact le
    · rw [Function.update_of_ne same]
      exact holds.count_le other lt

/-- The zone that a sector lies in. -/
theorem Holds.zoneIdx (holds : Holds geometry count n) (small : geometry.Small)
    (idLt : id < geometry.zones) {sec : Nat} (ge : geometry.pageSec id 0 ≤ sec)
    (lt : sec < geometry.pageSec id geometry.pages) : znsZoneIdx n sec = id := by
  have quotient := geometry.div_eq_of_zone ge lt
  rw [geometry.znsZoneIdx_eq holds.sp holds.zoneSize, quotient]
  rw [quotient]
  exact Nat.lt_trans idLt small.1

theorem Holds.byLba (holds : Holds geometry count n) (small : geometry.Small)
    (idLt : id < geometry.zones) {sec : Nat} (ge : geometry.pageSec id 0 ≤ sec)
    (lt : sec < geometry.pageSec id geometry.pages) : znsGetZoneByLba n sec = some id := by
  simp only [znsGetZoneByLba, holds.zoneIdx small idLt ge lt, holds.numZones, idLt, if_true]

/-- A whole number of pages written at the write pointer. -/
theorem Holds.write (holds : Holds geometry count n) (small : geometry.Small)
    (idLt : id < geometry.zones) {now latency more : Nat} {req : NvmeRequest}
    (slba : req.slba = geometry.pageSec id (count id)) (nlb : req.nlb = geometry.secsPerPg * more)
    (pos : 0 < more) (le : count id + more ≤ geometry.pages)
    (written : znsWrite now n req = some (n', latency)) :
    Holds geometry (Function.update count id (count id + more)) n' := by
  have perPagePos := geometry.secsPerPg_pos
  have perPage : n.ssd.sp.secsPerPg = geometry.secsPerPg := by rw [holds.sp]; rfl
  have room : geometry.pageSec id (count id) < geometry.pageSec id geometry.pages :=
    Nat.mul_lt_mul_of_pos_left (by omega) perPagePos
  have byLba : znsGetZoneByLba n req.slba = some id := by
    rw [slba]
    exact holds.byLba small idLt (geometry.pageSec_le (Nat.zero_le _)) room
  obtain ⟨params, zones⟩ := znsWrite_of_some byLba written
  have inside : geometry.pageSec id (count id + more) < 2 ^ 63 := small.pageSec_lt idLt le
  have ends : geometry.pageSec id (count id) + req.nlb = geometry.pageSec id (count id + more) := by
    rw [nlb, geometry.pageSec_add]
  have touched : pagesTouched n.ssd.sp req = more := by
    have start : req.slba = n.ssd.sp.secsPerPg * (id * geometry.pages + count id) := by
      rw [slba, perPage]
      rfl
    rw [← perPage] at nlb perPagePos
    apply pagesTouched_eq perPagePos start nlb pos
    rw [slba, ends]
    omega
  apply holds.update params le
  rw [zones, touched, holds.zones id idLt, holds.numFcg, holds.sp]
  refine congrArg (Function.update n.zoneArray id)
    ((geometry.iterate_filled id le _).trans ?_)
  rw [geometry.filled_writePtr, ends, Nat.mod_eq_of_lt (by omega)]
  rfl

/-- A reset empties a full zone and leaves any other zone alone. -/
theorem Holds.reset (holds : Holds geometry count n) {clock : Ppa → Nat} {req : NvmeRequest}
    (idLt : id < geometry.zones) (byLba : znsGetZoneByLba n req.slba = some id)
    (wasReset : znsReset clock n req = some n') :
    Holds geometry
      (if count id = geometry.pages then Function.update count id 0 else count) n' := by
  obtain ⟨n'', same, params, zones⟩ := znsReset_eq clock byLba
  rw [wasReset] at same
  cases same
  have full := geometry.filled_full_iff id (count id)
  rw [← holds.zones id idLt] at full
  by_cases isFull : count id = geometry.pages
  · rw [if_pos (full.mpr isFull)] at zones
    rw [if_pos isFull]
    apply holds.update params (Nat.zero_le _)
    rw [zones, holds.zones id idLt, holds.numFcg, holds.sp]
    refine congrArg (Function.update n.zoneArray id)
      (geometry.znsResetWpp_filled id (count id) ?_)
    change geometry.pgsPerBlk * geometry.secsPerPg * geometry.secsz = _
    ring
  · rw [if_neg fun state => isFull (full.mp state)] at zones
    rw [if_neg isFull]
    exact holds.same params zones

end Holds

end ZnsLsm.Flash
