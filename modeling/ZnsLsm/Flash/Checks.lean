import ZnsLsm.Flash.Filling
import ZnsLsm.Transition

/-!
# What the checks of a write are worth

`zns_check_zone_write` only prints.  A write that fails it still moves both pointers of
the zone, and a write that passes it keeps them in step only if it covers whole pages:
a page that two writes touch is counted twice by `wpp`.
-/

namespace ZnsLsm.Flash

open ZnsLsm.Transition

/-! ## Agreement of the two pointers -/

/-- The page of a sector, as `zns_read` finds it. -/
def pageOfSector (n : FemuCtrl) (sec : Nat) : Ppa :=
  let sp := n.ssd.sp
  locatePage n.numFcg sp (n.zoneArray (znsZoneIdx n sec))
    (sec / sp.secsPerPg % (n.zoneSize / (sp.secsPerPg * sp.secsz)))

/-- The zone is full when its capacity is used up, and until then `wpp` stands on the
page of `write_ptr`. -/
structure PointersAgree (n : FemuCtrl) (idx : Nat) : Prop where
  full_iff : (n.zoneArray idx).d.state = .full ↔
    (n.zoneArray idx).writePtr =
      (n.zoneArray idx).d.startLba + (n.zoneArray idx).d.zoneCap / n.ssd.sp.secsz
  page : (n.zoneArray idx).d.state ≠ .full →
    getZnsPage (n.zoneArray idx) = pageOfSector n (n.zoneArray idx).writePtr

/-- A write of at least one sector to zone `idx` that passes all tests. -/
structure Accepted (n : FemuCtrl) (req : NvmeRequest) (idx : Nat) : Prop where
  zone : znsGetZoneByLba n req.slba = some idx
  nlb_pos : 0 < req.nlb
  slba_lt : req.slba < 2 ^ 64
  nlb_lt : req.nlb < 2 ^ 64
  silent : znsCheckZoneWrite n.ssd.sp (n.zoneArray idx) req.slba req.nlb = []

instance (n : FemuCtrl) (req : NvmeRequest) (idx : Nat) : Decidable (Accepted n req idx) :=
  decidable_of_iff
    (znsGetZoneByLba n req.slba = some idx ∧ 0 < req.nlb ∧ req.slba < 2 ^ 64 ∧
      req.nlb < 2 ^ 64 ∧ znsCheckZoneWrite n.ssd.sp (n.zoneArray idx) req.slba req.nlb = [])
    ⟨fun ⟨zone, pos, slba, nlb, silent⟩ => ⟨zone, pos, slba, nlb, silent⟩,
      fun ⟨zone, pos, slba, nlb, silent⟩ => ⟨zone, pos, slba, nlb, silent⟩⟩

/-- The four tests. -/
@[simp]
theorem znsCheckZoneWrite_eq_nil {sp : SsdParams} {zone : NvmeZone} {slba nlb : Nat} :
    znsCheckZoneWrite sp zone slba nlb = [] ↔
      (slba + nlb) % 2 ^ 64 ≤ sp.ttSecs ∧
        (slba + nlb) % 2 ^ 64 ≤ zone.d.startLba + zone.d.zoneCap / sp.secsz ∧
        zone.d.state ≠ .full ∧ zone.writePtr = slba := by
  simp only [znsCheckZoneWrite, List.append_eq_nil_iff, ite_eq_right_iff, reduceCtorEq,
    imp_false, Nat.not_lt, not_not, ne_eq, and_assoc]

/-- The request covers whole pages and does not run past the last 64-bit sector. -/
def WholePages (geometry : Geometry) (req : NvmeRequest) : Prop :=
  geometry.secsPerPg ∣ req.nlb ∧ req.slba + req.nlb < 2 ^ 64

instance (geometry : Geometry) (req : NvmeRequest) : Decidable (WholePages geometry req) :=
  inferInstanceAs (Decidable (_ ∧ _))

section Agreement

variable {geometry : Geometry} {count : Nat → Nat} {n n' : FemuCtrl} {id : Nat}

/-- A zone keeps its page addresses while it is filled. -/
@[simp]
theorem locatePage_filled (geometry : Geometry) (id filled lpn : Nat) :
    locatePage geometry.numFcgs geometry.spp (geometry.filled id filled) lpn =
      geometry.page id lpn :=
  rfl

/-- Moving a zone's pointers leaves its page addresses alone. -/
theorem locatePage_congr {numFcg : Nat} {spp : SsdParams} {zone zone' : NvmeZone}
    (zoneId : zone'.zoneId = zone.zoneId) (zoneCap : zone'.d.zoneCap = zone.d.zoneCap)
    (fcgId : zone'.wpp.fcgId = zone.wpp.fcgId) (lun : zone'.wpp.lun = zone.wpp.lun) (lpn : Nat) :
    locatePage numFcg spp zone' lpn = locatePage numFcg spp zone lpn := by
  simp only [locatePage, zoneId, zoneCap, fcgId, lun]

/-- The page of a sector in terms of zone and page numbers. -/
theorem Geometry.sector_digits (geometry : Geometry) (sec : Nat) :
    sec / geometry.secsPerPg =
      sec / (geometry.secsPerPg * geometry.pages) * geometry.pages +
        sec / geometry.secsPerPg % geometry.pages := by
  rw [← Nat.div_div_eq_div_mul]
  exact (Nat.div_add_mod' ..).symm

theorem Holds.pagesOfZone (holds : Holds geometry count n) :
    n.zoneSize / (n.ssd.sp.secsPerPg * n.ssd.sp.secsz) = geometry.pages := by
  rw [holds.zoneSize, holds.sp]
  rfl

/-- What the pointers stand on after zones were filled in whole pages. -/
theorem Holds.pointersAgree (holds : Holds geometry count n) (small : geometry.Small)
    (idLt : id < geometry.zones) : PointersAgree n id := by
  have ends : (n.zoneArray id).d.startLba + (n.zoneArray id).d.zoneCap / n.ssd.sp.secsz =
      geometry.pageSec id geometry.pages := by
    rw [holds.zones id idLt, holds.sp, geometry.filled_startLba, geometry.filled_zoneCap]
    change _ + geometry.zoneSize / geometry.secsz = _
    rw [geometry.zoneSize_div_secsz, ← geometry.pageSec_add, Nat.zero_add]
  constructor
  · rw [ends, holds.zones id idLt, geometry.filled_full_iff, geometry.filled_writePtr]
    constructor
    · intro full
      rw [full]
    · intro same
      exact Nat.add_left_cancel (Nat.eq_of_mul_eq_mul_left geometry.secsPerPg_pos same)
  · intro notFull
    rw [holds.zones id idLt] at notFull ⊢
    have lt : count id < geometry.pages := by
      apply Nat.lt_of_le_of_ne (holds.count_le id idLt)
      exact fun full => notFull ((geometry.filled_full_iff id (count id)).mpr full)
    have idx : znsZoneIdx n (geometry.pageSec id (count id)) = id :=
      holds.zoneIdx small idLt (geometry.pageSec_le (Nat.zero_le _))
        (Nat.mul_lt_mul_of_pos_left (Nat.add_lt_add_left lt _) geometry.secsPerPg_pos)
    have lpn : geometry.pageSec id (count id) / n.ssd.sp.secsPerPg =
        id * geometry.pages + count id := by
      rw [holds.sp]
      exact geometry.pageSec_div id (count id)
    rw [geometry.filled_writePtr, pageOfSector, idx, lpn, holds.pagesOfZone, holds.numFcg, holds.sp,
      holds.zones id idLt, Nat.mul_comm id, Nat.mul_add_mod, Nat.mod_eq_of_lt lt, locatePage_filled]
    exact geometry.getZnsPage_zoneAfter id (count id)

/-- The write pointer never leaves the state in which its zone is full. -/
theorem iterate_full {numFcg : Nat} {spp : SsdParams} {zone : NvmeZone} (steps : Nat)
    (full : zone.d.state = .full) :
    ((znsAdvanceWritePointer numFcg spp)^[steps] zone).d.state = .full := by
  induction steps with
  | zero => exact full
  | succ steps ih =>
      rw [Function.iterate_succ_apply']
      simp only [znsAdvanceWritePointer]
      split
      · split
        · split
          · rfl
          · exact ih
        · exact ih
      · exact ih

/-- The write pointer stays in its zone. -/
theorem iterate_frame (numFcg : Nat) (spp : SsdParams) (steps : Nat) (zone : NvmeZone) :
    ((znsAdvanceWritePointer numFcg spp)^[steps] zone).zoneId = zone.zoneId ∧
      ((znsAdvanceWritePointer numFcg spp)^[steps] zone).d.startLba = zone.d.startLba ∧
      ((znsAdvanceWritePointer numFcg spp)^[steps] zone).d.zoneCap = zone.d.zoneCap ∧
      ((znsAdvanceWritePointer numFcg spp)^[steps] zone).wpp.fcgId = zone.wpp.fcgId ∧
      ((znsAdvanceWritePointer numFcg spp)^[steps] zone).wpp.lun = zone.wpp.lun := by
  induction steps with
  | zero => exact ⟨rfl, rfl, rfl, rfl, rfl⟩
  | succ steps ih =>
      rw [Function.iterate_succ_apply']
      generalize (znsAdvanceWritePointer numFcg spp)^[steps] zone = moved at ih ⊢
      simp only [znsAdvanceWritePointer]
      split
      · split
        · split
          · exact ih
          · exact ih
        · exact ih
      · exact ih

/-- A write pointer that passes the last page of its zone has marked the zone full. -/
theorem Geometry.iterate_advance_full (geometry : Geometry) (id : Nat) {filled steps : Nat}
    (le : filled ≤ geometry.pages) (beyond : geometry.pages ≤ filled + steps) :
    (geometry.advance^[steps] (geometry.filled id filled)).d.state = .full := by
  obtain ⟨rest, restEq⟩ := Nat.exists_eq_add_of_le beyond
  have split : steps = rest + (geometry.pages - filled) := by omega
  have atEnd := geometry.iterate_filled id (Nat.le_of_eq (Nat.add_sub_cancel' le)) 0
  have state := congrArg (fun zone : NvmeZone => zone.d.state) atEnd
  have endFull : (geometry.advance^[geometry.pages - filled]
      (geometry.filled id filled)).d.state = .full := by
    refine state.trans ?_
    rw [Nat.add_sub_cancel' le]
    exact (geometry.filled_full_iff id geometry.pages).mpr rfl
  rw [split, Function.iterate_add_apply]
  exact iterate_full rest endFull

theorem Holds.lt_of_byLba (holds : Holds geometry count n) {sec idx : Nat}
    (byLba : znsGetZoneByLba n sec = some idx) : idx < geometry.zones := by
  rw [← holds.numZones]
  exact lt_numZones_of_byLba byLba

/-- A write that passes the tests starts behind the written pages of its zone. -/
theorem Holds.accepted (holds : Holds geometry count n) {req : NvmeRequest} {idx : Nat}
    (accepted : Accepted n req idx) :
    idx < geometry.zones ∧ req.slba = geometry.pageSec idx (count idx) ∧
      count idx < geometry.pages ∧
      (req.slba + req.nlb) % 2 ^ 64 ≤ geometry.pageSec idx geometry.pages := by
  have idxLt := holds.lt_of_byLba accepted.zone
  obtain ⟨-, boundary, notFull, writePtr⟩ := znsCheckZoneWrite_eq_nil.mp accepted.silent
  rw [holds.zones idx idxLt] at boundary notFull writePtr
  rw [holds.sp, geometry.filled_startLba, geometry.filled_zoneCap] at boundary
  change _ ≤ _ + geometry.zoneSize / geometry.secsz at boundary
  rw [geometry.zoneSize_div_secsz, ← geometry.pageSec_add, Nat.zero_add] at boundary
  refine ⟨idxLt, writePtr.symm, ?_, boundary⟩
  apply Nat.lt_of_le_of_ne (holds.count_le idx idxLt)
  exact fun full => notFull ((geometry.filled_full_iff idx (count idx)).mpr full)

/-- Step lemma: whole pages keep the zones filled in whole pages. -/
theorem Holds.writeWhole (holds : Holds geometry count n) (small : geometry.Small)
    {req : NvmeRequest} {idx now latency : Nat} (accepted : Accepted n req idx)
    (whole : WholePages geometry req) (written : znsWrite now n req = some (n', latency)) :
    ∃ count', Holds geometry count' n' := by
  obtain ⟨idxLt, slba, -, boundary⟩ := holds.accepted accepted
  obtain ⟨⟨more, nlb⟩, noWrap⟩ := whole
  rw [Nat.mod_eq_of_lt noWrap, slba, nlb, ← geometry.pageSec_add] at boundary
  have le : count idx + more ≤ geometry.pages :=
    Nat.le_of_add_le_add_left (Nat.le_of_mul_le_mul_left boundary geometry.secsPerPg_pos)
  have pos : 0 < more := by
    apply Nat.pos_of_ne_zero
    rintro rfl
    exact accepted.nlb_pos.ne' nlb
  exact ⟨_, holds.write small idxLt slba nlb pos le written⟩

/-- The pages touched by a write and the sector behind it name the same page only if the
write ends on a page boundary. -/
theorem dvd_of_pagesTouched {sp : SsdParams} {req : NvmeRequest} (pos : 0 < req.nlb)
    (noWrap : req.slba + req.nlb < 2 ^ 64)
    (same : (req.slba + req.nlb) / sp.secsPerPg =
      req.slba / sp.secsPerPg + pagesTouched sp req) :
    sp.secsPerPg ∣ req.slba + req.nlb := by
  rw [pagesTouched, lastSector_eq (Nat.add_pos_right _ pos) noWrap] at same
  have behind : req.slba / sp.secsPerPg ≤ (req.slba + req.nlb - 1) / sp.secsPerPg :=
    Nat.div_le_div_right (Nat.le_sub_one_of_lt (Nat.lt_add_of_pos_right pos))
  rw [← Nat.add_sub_assoc (Nat.le_succ_of_le behind), Nat.add_sub_cancel_left] at same
  obtain ⟨last, lastEq⟩ := Nat.exists_eq_succ_of_ne_zero (Nat.add_pos_right req.slba pos).ne'
  rw [lastEq, Nat.succ_sub_one, Nat.succ_eq_add_one, Nat.succ_div] at same
  rw [lastEq]
  by_contra notDvd
  rw [if_neg notDvd] at same
  exact absurd same (Nat.ne_of_lt (Nat.lt_succ_self _))

/-- The page of a sector of the device, if the zones kept their page addresses. -/
theorem pageOfSector_eq (sp : n.ssd.sp = geometry.spp) (zoneSize : n.zoneSize = geometry.zoneSize)
    (numFcg : n.numFcg = geometry.numFcgs) (small : geometry.Small)
    (addresses : ∀ id < geometry.zones, ∀ lpn,
      locatePage geometry.numFcgs geometry.spp (n.zoneArray id) lpn = geometry.page id lpn)
    {sec : Nat} (lt : sec / (geometry.secsPerPg * geometry.pages) < geometry.zones) :
    pageOfSector n sec =
      geometry.page (sec / (geometry.secsPerPg * geometry.pages))
        (sec / geometry.secsPerPg % geometry.pages) := by
  have pages : n.zoneSize / (n.ssd.sp.secsPerPg * n.ssd.sp.secsz) = geometry.pages := by
    rw [zoneSize, sp]
    rfl
  have perPage : n.ssd.sp.secsPerPg = geometry.secsPerPg := by
    rw [sp]
    rfl
  have idx := geometry.znsZoneIdx_eq sp zoneSize (Nat.lt_trans lt small.1)
  rw [← addresses _ lt, pageOfSector, idx, pages, perPage, numFcg, sp]

/-! ### Zones that a write has moved -/

namespace Geometry

variable (geometry : Geometry)

/-- A zone with `filled` pages, some more steps of the write pointer later. -/
def moved (id filled steps writePtr : Nat) : NvmeZone :=
  { geometry.advance^[steps] (geometry.filled id filled) with writePtr := writePtr }

variable {id filled steps writePtr : Nat}

/-- The steps do not leave the zone. -/
theorem moved_end :
    (geometry.moved id filled steps writePtr).d.startLba +
        (geometry.moved id filled steps writePtr).d.zoneCap / geometry.secsz =
      geometry.pageSec id geometry.pages := by
  obtain ⟨-, startLba, zoneCap, -, -⟩ :=
    iterate_frame geometry.numFcgs geometry.spp steps (geometry.filled id filled)
  have start : (geometry.moved id filled steps writePtr).d.startLba = geometry.pageSec id 0 :=
    startLba.trans (geometry.filled_startLba id filled)
  have cap : (geometry.moved id filled steps writePtr).d.zoneCap = geometry.zoneSize := zoneCap
  rw [start, cap, geometry.zoneSize_div_secsz, ← geometry.pageSec_add, Nat.zero_add]

@[simp]
theorem locatePage_moved (lpn : Nat) :
    locatePage geometry.numFcgs geometry.spp (geometry.moved id filled steps writePtr) lpn =
      geometry.page id lpn := by
  obtain ⟨zoneId, -, zoneCap, fcgId, lun⟩ :=
    iterate_frame geometry.numFcgs geometry.spp steps (geometry.filled id filled)
  exact (locatePage_congr zoneId zoneCap fcgId lun lpn).trans
    (locatePage_filled geometry id filled lpn)

theorem moved_of_room (room : filled + steps ≤ geometry.pages) :
    geometry.moved id filled steps writePtr =
      { geometry.filled id (filled + steps) with writePtr := writePtr } :=
  geometry.iterate_filled id room writePtr

@[simp]
theorem moved_full_iff (le : filled ≤ geometry.pages) :
    (geometry.moved id filled steps writePtr).d.state = .full ↔
      geometry.pages ≤ filled + steps := by
  by_cases beyond : geometry.pages ≤ filled + steps
  · exact iff_of_true (geometry.iterate_advance_full id le beyond) beyond
  · rw [geometry.moved_of_room (Nat.le_of_not_le beyond)]
    refine (geometry.filled_full_iff id (filled + steps)).trans ?_
    constructor
    · exact Nat.le_of_eq ∘ Eq.symm
    · exact fun le => absurd le beyond

@[simp]
theorem getZnsPage_moved (room : filled + steps ≤ geometry.pages) :
    getZnsPage (geometry.moved id filled steps writePtr) = geometry.page id (filled + steps) := by
  rw [geometry.moved_of_room room]
  exact geometry.getZnsPage_zoneAfter id (filled + steps)

/-- A sector of a zone is a sector of the device. -/
theorem lt_device (idLt : id < geometry.zones) {sec : Nat}
    (lt : sec < geometry.pageSec id geometry.pages) : sec < geometry.pageSec geometry.zones 0 :=
  calc
    sec < geometry.pageSec id geometry.pages := lt
    _ = geometry.pageSec (id + 1) 0 := geometry.pageSec_pages id
    _ ≤ geometry.pageSec geometry.zones 0 :=
      Nat.mul_le_mul_left _ (Nat.mul_le_mul_right _ idLt)

/-- A sector of the device lies in a zone. -/
theorem div_lt_zones {sec : Nat} (lt : sec < geometry.pageSec geometry.zones 0) :
    sec / (geometry.secsPerPg * geometry.pages) < geometry.zones := by
  apply Nat.div_lt_of_lt_mul
  rw [Geometry.pageSec, Nat.add_zero, Nat.mul_left_comm, Nat.mul_comm] at lt
  exact lt

end Geometry

/-- What a write that passes the tests makes of its zone. -/
theorem Holds.written (holds : Holds geometry count n) {req : NvmeRequest} {idx now latency : Nat}
    (accepted : Accepted n req idx) (written : znsWrite now n req = some (n', latency)) :
    SameParams n n' ∧
      n'.zoneArray = Function.update n.zoneArray idx
        (geometry.moved idx (count idx) (pagesTouched geometry.spp req)
          ((req.slba + req.nlb) % 2 ^ 64)) := by
  obtain ⟨idxLt, slba, -, -⟩ := holds.accepted accepted
  obtain ⟨params, zones⟩ := znsWrite_of_some accepted.zone written
  rw [holds.zones idx idxLt, holds.numFcg, holds.sp, geometry.filled_writePtr, ← slba] at zones
  exact ⟨params, zones⟩

/-- If a write leaves room in its zone and the pointers agree, the request ends as many pages
further as the loop has gone. -/
theorem Holds.lpn_of_agree (holds : Holds geometry count n) (small : geometry.Small)
    {req : NvmeRequest} {idx now latency : Nat} (accepted : Accepted n req idx)
    (written : znsWrite now n req = some (n', latency)) (agree : PointersAgree n' idx)
    (room : count idx + pagesTouched geometry.spp req < geometry.pages) :
    (req.slba + req.nlb) % 2 ^ 64 / geometry.secsPerPg =
      req.slba / geometry.secsPerPg + pagesTouched geometry.spp req := by
  obtain ⟨idxLt, slba, hasRoom, boundary⟩ := holds.accepted accepted
  obtain ⟨params, zones⟩ := holds.written accepted written
  have sp' : n'.ssd.sp = geometry.spp := params.sp.trans holds.sp
  obtain ⟨fullIff, page⟩ := agree
  generalize (req.slba + req.nlb) % 2 ^ 64 = past at boundary zones ⊢
  have addresses : ∀ id < geometry.zones, ∀ lpn,
      locatePage geometry.numFcgs geometry.spp (n'.zoneArray id) lpn = geometry.page id lpn := by
    intro id idLt lpn
    rw [zones]
    by_cases same : id = idx
    · subst same
      rw [Function.update_self]
      exact geometry.locatePage_moved lpn
    · rw [Function.update_of_ne same, holds.zones id idLt]
      exact locatePage_filled geometry id (count id) lpn
  rw [zones, Function.update_self, sp'] at fullIff
  rw [zones, Function.update_self] at page
  have notFull : (geometry.moved idx (count idx) (pagesTouched geometry.spp req) past).d.state ≠
      .full :=
    mt (geometry.moved_full_iff (Nat.le_of_lt hasRoom)).mp (Nat.not_le.mpr room)
  have pastLt : past < geometry.pageSec idx geometry.pages := by
    apply Nat.lt_of_le_of_ne boundary
    intro used
    exact notFull (fullIff.mpr (used.trans geometry.moved_end.symm))
  have pastZone := geometry.div_lt_zones (geometry.lt_device idxLt pastLt)
  have digits := (page notFull).symm.trans (geometry.getZnsPage_moved room.le)
  have writePtr : (geometry.moved idx (count idx) (pagesTouched geometry.spp req) past).writePtr =
      past := rfl
  rw [writePtr, pageOfSector_eq sp' (params.zoneSize.trans holds.zoneSize)
    (params.numFcg.trans holds.numFcg) small addresses pastZone] at digits
  obtain ⟨zoneEq, pageEq⟩ := Prod.mk.inj (geometry.page_injOn
    (show (past / (geometry.secsPerPg * geometry.pages),
        past / geometry.secsPerPg % geometry.pages) ∈ geometry.pageNumbers from
      ⟨pastZone, Nat.mod_lt _ geometry.pages_pos⟩)
    (show (idx, count idx + pagesTouched geometry.spp req) ∈ geometry.pageNumbers from
      ⟨idxLt, room⟩) digits)
  rw [geometry.sector_digits, zoneEq, pageEq, slba, geometry.pageSec_div, Nat.add_assoc]

/-- Step lemma: only whole pages leave the pointers of the zone in agreement. -/
theorem Holds.whole_of_agree (holds : Holds geometry count n) (small : geometry.Small)
    {req : NvmeRequest} {idx now latency : Nat} (accepted : Accepted n req idx)
    (written : znsWrite now n req = some (n', latency)) (agree : PointersAgree n' idx) :
    WholePages geometry req := by
  obtain ⟨idxLt, slba, room, -⟩ := holds.accepted accepted
  have start : geometry.secsPerPg ∣ req.slba := slba ▸ Nat.dvd_mul_right _ _
  have pastEq : (req.slba + req.nlb) % 2 ^ 64 = req.slba + req.nlb ∧
      req.slba + req.nlb < 2 ^ 64 ∨ (req.slba + req.nlb) % 2 ^ 64 < req.slba := by
    have slbaLt := accepted.slba_lt
    have nlbLt := accepted.nlb_lt
    omega
  -- If the request does not run past the last sector, its end must be a page boundary.
  have finish (noWrap : req.slba + req.nlb < 2 ^ 64)
      (dvd : geometry.secsPerPg ∣ req.slba + req.nlb) : WholePages geometry req :=
    ⟨(Nat.dvd_add_right start).mp dvd, noWrap⟩
  by_cases beyond : geometry.pages ≤ count idx + pagesTouched geometry.spp req
  · -- The loop has passed the last page, so the zone is full and its capacity used up.
    obtain ⟨params, zones⟩ := holds.written accepted written
    have sp' : n'.ssd.sp = geometry.spp := params.sp.trans holds.sp
    have fullIff := agree.full_iff
    rw [zones, Function.update_self, sp'] at fullIff
    have used : (req.slba + req.nlb) % 2 ^ 64 = geometry.pageSec idx geometry.pages :=
      (fullIff.mp ((geometry.moved_full_iff (Nat.le_of_lt room)).mpr beyond)).trans
        geometry.moved_end
    rcases pastEq with ⟨same, noWrap⟩ | wrapped
    · apply finish noWrap
      rw [← same, used]
      exact Nat.dvd_mul_right _ _
    · have inside : req.slba < geometry.pageSec idx geometry.pages := by
        rw [slba]
        exact Nat.mul_lt_mul_of_pos_left (Nat.add_lt_add_left room _) geometry.secsPerPg_pos
      exact absurd (used ▸ wrapped) (Nat.lt_asymm inside)
  · -- The zone has room left, so both pointers stand on one of its pages.
    have lpn := holds.lpn_of_agree small accepted written agree (Nat.lt_of_not_le beyond)
    rcases pastEq with ⟨same, noWrap⟩ | wrapped
    · apply finish noWrap
      rw [same] at lpn
      exact @dvd_of_pagesTouched geometry.spp req accepted.nlb_pos noWrap lpn
    · have le : (req.slba + req.nlb) % 2 ^ 64 / geometry.secsPerPg ≤
          req.slba / geometry.secsPerPg := Nat.div_le_div_right (Nat.le_of_lt wrapped)
      have below := Nat.mul_div_le ((req.slba + req.nlb) % 2 ^ 64) geometry.secsPerPg
      have same : (req.slba + req.nlb) % 2 ^ 64 / geometry.secsPerPg =
          req.slba / geometry.secsPerPg := by omega
      rw [same, Nat.mul_div_cancel' start] at below
      exact absurd wrapped (Nat.not_lt.mpr below)

/-! ## Runs of accepted writes -/

/-- Writes that pass the tests one after the other, each with the state it leads to. -/
inductive Filling : FemuCtrl → List (NvmeRequest × FemuCtrl) → Prop
  | nil {n : FemuCtrl} : Filling n []
  | write {n n' : FemuCtrl} {req : NvmeRequest} {idx now latency : Nat}
      {run : List (NvmeRequest × FemuCtrl)} :
      Accepted n req idx → znsWrite now n req = some (n', latency) → Filling n' run →
        Filling n ((req, n') :: run)

/-- Run lemma: the pointers agree in every state exactly if all writes cover whole pages. -/
theorem Holds.filling (holds : Holds geometry count n) (small : geometry.Small)
    {run : List (NvmeRequest × FemuCtrl)} (filling : Filling n run) :
    (∀ step ∈ run, ∀ id < geometry.zones, PointersAgree step.2 id) ↔
      ∀ step ∈ run, WholePages geometry step.1 := by
  induction filling generalizing count with
  | nil => simp
  | write accepted written _ ih =>
      rw [List.forall_mem_cons, List.forall_mem_cons]
      constructor
      · rintro ⟨agree, rest⟩
        have whole := holds.whole_of_agree small accepted written
          (agree _ (holds.accepted accepted).1)
        obtain ⟨count', holds'⟩ := holds.writeWhole small accepted whole written
        exact ⟨whole, (ih holds').mp rest⟩
      · rintro ⟨whole, rest⟩
        obtain ⟨count', holds'⟩ := holds.writeWhole small accepted whole written
        exact ⟨fun id idLt => holds'.pointersAgree small idLt, (ih holds').mpr rest⟩

/-- From the initial state, the two pointers of every zone agree all along a run of accepted
writes exactly if every write covers whole pages. -/
theorem pointersAgree_iff_wholePages (geometry : Geometry)
    (small : geometry.spp.ttSecs < 2 ^ 31) {run : List (NvmeRequest × FemuCtrl)}
    (filling : Filling (femuInit geometry.toSsdConfig geometry.devsz) run) :
    (∀ step ∈ run, ∀ id < geometry.zones, PointersAgree step.2 id) ↔
      ∀ step ∈ run, WholePages geometry step.1 :=
  (holds_femuInit geometry).filling (Geometry.small_of_ttSecs small) filling

/-- A request on the new device of a configuration that passes the tests. -/
theorem accepted_femuInit {config : SsdConfig} {devsz : Nat} {req : NvmeRequest} {idx : Nat}
    (zone : znsGetZoneByLba (femuInit config devsz) req.slba = some idx)
    (pos : 0 < req.nlb) (slba_lt : req.slba < 2 ^ 64) (nlb_lt : req.nlb < 2 ^ 64)
    (silent : znsCheckZoneWrite (femuInit config devsz).ssd.sp
      ((femuInit config devsz).zoneArray idx) req.slba req.nlb = []) :
    Accepted (femuInit config devsz) req idx :=
  ⟨zone, pos, slba_lt, nlb_lt, silent⟩

/-- A zone of the small device is filled by a page, seven pages and the rest. -/
theorem pointersAgree_after_fill : ∃ run,
    Filling (femuInit geometry8G.toSsdConfig geometry8G.devsz) run ∧
      run.map (fun step => ((step.2.zoneArray 0).writePtr, (step.2.zoneArray 0).d.state)) =
        [(1024, .empty), (8192, .empty), (131072, .full)] ∧
      ∀ step ∈ run, ∀ id < geometry8G.zones, PointersAgree step.2 id := by
  have filled : ((znsWrite 1 (femuInit geometry8G.toSsdConfig geometry8G.devsz)
      ⟨0, 1024, 1⟩).bind fun one => (znsWrite 2 one.1 ⟨1024, 7168, 2⟩).bind fun two =>
        (znsWrite 3 two.1 ⟨8192, 122880, 3⟩).map fun three =>
          ([one.1, two.1, three.1].map fun n =>
              ((n.zoneArray 0).writePtr, (n.zoneArray 0).d.state),
            decide (Accepted one.1 ⟨1024, 7168, 2⟩ 0 ∧ Accepted two.1 ⟨8192, 122880, 3⟩ 0))) =
      some ([(1024, .empty), (8192, .empty), (131072, .full)], true) := by
    decide +kernel
  obtain ⟨⟨one, _⟩, first, filled⟩ := Option.bind_eq_some_iff.mp filled
  obtain ⟨⟨two, _⟩, second, filled⟩ := Option.bind_eq_some_iff.mp filled
  obtain ⟨⟨three, _⟩, third, filled⟩ := Option.map_eq_some_iff.mp filled
  obtain ⟨states, accepted⟩ := Prod.mk.inj filled
  obtain ⟨passes', passes''⟩ := of_decide_eq_true accepted
  have passes : Accepted (femuInit geometry8G.toSsdConfig geometry8G.devsz) ⟨0, 1024, 1⟩ 0 := by
    decide +kernel
  have filling : Filling (femuInit geometry8G.toSsdConfig geometry8G.devsz)
      [(⟨0, 1024, 1⟩, one), (⟨1024, 7168, 2⟩, two), (⟨8192, 122880, 3⟩, three)] :=
    .write passes first (.write passes' second (.write passes'' third .nil))
  refine ⟨_, filling, states, (pointersAgree_iff_wholePages geometry8G (by decide +kernel)
    filling).mpr ?_⟩
  simp only [List.forall_mem_cons, List.not_mem_nil, false_implies, implies_true, and_true]
  decide +kernel

/-- One sector written to the shipped device moves `wpp` to the next page, but not
`write_ptr`. -/
theorem not_pointersAgree :
    ¬∀ run, Filling (femuInit geometry512G.toSsdConfig geometry512G.devsz) run →
      ∀ step ∈ run, ∀ id < geometry512G.zones, PointersAgree step.2 id := by
  intro always
  have zone : znsGetZoneByLba (femuInit geometry512G.toSsdConfig geometry512G.devsz) 0 =
      some 0 := by
    decide +kernel
  obtain ⟨n, latency, written, -⟩ := znsWrite_eq 1
    (show znsGetZoneByLba (femuInit geometry512G.toSsdConfig geometry512G.devsz)
      (⟨0, 1, 1⟩ : NvmeRequest).slba = some 0 from zone)
  have accepted : Accepted (femuInit geometry512G.toSsdConfig geometry512G.devsz) ⟨0, 1, 1⟩ 0 :=
    accepted_femuInit zone (by decide) (by decide) (by decide) (by decide +kernel)
  have agree := always _ (.write accepted written .nil) _ List.mem_cons_self 0 (by decide +kernel)
  have whole := (holds_femuInit geometry512G).whole_of_agree
    (Geometry.small_of_ttSecs (by decide +kernel)) accepted written agree
  exact absurd whole.1 (by decide +kernel)

end Agreement

/-! ## Rejected writes -/

/-- Nothing that a write may touch has changed. -/
structure Unchanged (n n' : FemuCtrl) : Prop where
  writePtr : ∀ id, (n'.zoneArray id).writePtr = (n.zoneArray id).writePtr
  wpp : ∀ id, (n'.zoneArray id).wpp = (n.zoneArray id).wpp
  state : ∀ id, (n'.zoneArray id).d.state = (n.zoneArray id).d.state
  clocks : ∀ ch lun, (n'.ssd.lun ch lun).nextLunAvailTime = (n.ssd.lun ch lun).nextLunAvailTime

/-- Both pointers of a zone are within its bounds. -/
structure InBounds (n : FemuCtrl) (idx : Nat) : Prop where
  start_le : (n.zoneArray idx).d.startLba ≤ (n.zoneArray idx).writePtr
  le_end : (n.zoneArray idx).writePtr ≤
    (n.zoneArray idx).d.startLba + (n.zoneArray idx).d.zoneCap / n.ssd.sp.secsz
  pg_le : (n.zoneArray idx).wpp.pg ≤ n.ssd.sp.pgsPerBlk

/-- A write that a test rejects, of at least one sector of an existing zone. -/
structure Rejected (n : FemuCtrl) (req : NvmeRequest) (idx : Nat) : Prop where
  zone : znsGetZoneByLba n req.slba = some idx
  nlb_pos : 0 < req.nlb
  nlb_lt : req.nlb < 2 ^ 64
  printed : znsCheckZoneWrite n.ssd.sp (n.zoneArray idx) req.slba req.nlb ≠ []

/-- Every write moves `write_ptr`. -/
theorem writePtr_ne_of_znsWrite {n n' : FemuCtrl} {req : NvmeRequest} {idx now latency : Nat}
    (zone : znsGetZoneByLba n req.slba = some idx) (pos : 0 < req.nlb) (lt : req.nlb < 2 ^ 64)
    (written : znsWrite now n req = some (n', latency)) :
    (n'.zoneArray idx).writePtr ≠ (n.zoneArray idx).writePtr := by
  obtain ⟨-, zones⟩ := znsWrite_of_some zone written
  rw [zones, Function.update_self]
  change ((n.zoneArray idx).writePtr + req.nlb) % 2 ^ 64 ≠ _
  omega

/-- The requests of the host. -/
inductive Io
  | read (req : NvmeRequest)
  | write (req : NvmeRequest)
  | reset (req : NvmeRequest)

def serve (now : Clock) (n : FemuCtrl) : Io → Option FemuCtrl
  | .read req => (znsRead now.time n req).map Prod.fst
  | .write req => (znsWrite now.time n req).map Prod.fst
  | .reset req => znsReset now.erase n req

/-- Arbitrary requests, from the state that `femu_init` leaves. -/
def ftl (geometry : Geometry) : System FemuCtrl Io where
  Init n := n = femuInit geometry.toSsdConfig geometry.devsz
  Step n io n' := ∃ now, serve now n io = some n'

/-- The write passes the tests and covers whole pages. -/
def Orderly (geometry : Geometry) (n : FemuCtrl) : Io → Prop
  | .write req => (∃ idx, Accepted n req idx) ∧ WholePages geometry req
  | _ => True

instance (n : FemuCtrl) (req : NvmeRequest) : Decidable (∃ idx, Accepted n req idx) :=
  decidable_of_iff (∃ idx ∈ znsGetZoneByLba n req.slba, Accepted n req idx)
    ⟨fun ⟨idx, _, accepted⟩ => ⟨idx, accepted⟩,
      fun ⟨idx, accepted⟩ => ⟨idx, accepted.zone, accepted⟩⟩

instance (geometry : Geometry) (n : FemuCtrl) : (io : Io) → Decidable (Orderly geometry n io)
  | .write _ => inferInstanceAs (Decidable (_ ∧ _))
  | .read _ | .reset _ => inferInstanceAs (Decidable True)

/-- Serve requests on the new device as long as they are orderly. -/
def orderlyRun (geometry : Geometry) (ios : List Io) : Option FemuCtrl :=
  System.run (serve (.still 1)) (Orderly geometry)
    (femuInit geometry.toSsdConfig geometry.devsz) ios

theorem reachable_of_orderlyRun {geometry : Geometry} {ios : List Io} {n : FemuCtrl}
    (ran : orderlyRun geometry ios = some n) :
    ((ftl geometry).guarded (Orderly geometry)).Reachable n := by
  refine System.reachable_of_run ?_ rfl ran
  intro state io next served
  exact ⟨_, served⟩

section Requests

variable {geometry : Geometry} {n : FemuCtrl}

/-- Step lemma: orderly requests keep the zones filled in whole pages. -/
theorem Holds.serve {count : Nat → Nat} (holds : Holds geometry count n)
    (small : geometry.Small) {io : Io} (orderly : Orderly geometry n io) {now : Clock}
    {n' : FemuCtrl} (served : Flash.serve now n io = some n') :
    ∃ count', Holds geometry count' n' := by
  cases io with
  | read req =>
      obtain ⟨⟨n'', latency⟩, read, rfl⟩ := Option.map_eq_some_iff.mp served
      obtain ⟨params, zones⟩ := znsRead_zones read
      exact ⟨count, holds.same params zones⟩
  | write req =>
      obtain ⟨⟨n'', latency⟩, written, rfl⟩ := Option.map_eq_some_iff.mp served
      obtain ⟨⟨idx, accepted⟩, whole⟩ := orderly
      exact holds.writeWhole small accepted whole written
  | reset req =>
      cases byLba : znsGetZoneByLba n req.slba with
      | none => simp [Flash.serve, znsReset, byLba] at served
      | some idx =>
          exact ⟨_, holds.reset (holds.lt_of_byLba byLba) byLba served⟩

theorem holds_of_reachable (small : geometry.Small)
    (reachable : ((ftl geometry).guarded (Orderly geometry)).Reachable n) :
    ∃ count, Holds geometry count n := by
  apply System.invariant_of_reachable (P := fun n => ∃ count, Holds geometry count n) _ _ reachable
  · rintro _ rfl
    exact ⟨_, holds_femuInit geometry⟩
  · rintro _ io _ ⟨count, holds⟩ ⟨orderly, now, served⟩
    exact holds.serve small orderly served

theorem Holds.inBounds {count : Nat → Nat} (holds : Holds geometry count n) {id : Nat}
    (idLt : id < geometry.zones) : InBounds n id := by
  have le := holds.count_le id idLt
  constructor
  · rw [holds.zones id idLt, geometry.filled_startLba, geometry.filled_writePtr]
    exact geometry.pageSec_le (Nat.zero_le _)
  · rw [holds.zones id idLt, holds.sp, geometry.filled_startLba, geometry.filled_zoneCap,
      geometry.filled_writePtr]
    change _ ≤ _ + geometry.zoneSize / geometry.secsz
    rw [geometry.zoneSize_div_secsz, ← geometry.pageSec_add, Nat.zero_add]
    exact geometry.pageSec_le le
  · rw [holds.zones id idLt, holds.sp, geometry.filled_pg]
    apply Nat.div_le_of_le_mul
    rw [Geometry.pages, geometry.pagesPerZone_eq_wheels] at le
    exact le

/-- No rejected write leaves the state alone; the pointers stay in bounds as long as no
write is rejected and all writes cover whole pages. -/
theorem rejected_changes_and_inBounds (geometry : Geometry)
    (small : geometry.spp.ttSecs < 2 ^ 31) :
    (∀ n req idx, Rejected n req idx → ∀ now n' latency,
        znsWrite now n req = some (n', latency) → ¬Unchanged n n') ∧
      ∀ n, ((ftl geometry).guarded (Orderly geometry)).Reachable n →
        ∀ id < geometry.zones, InBounds n id := by
  constructor
  · intro n req idx rejected now n' latency written unchanged
    exact writePtr_ne_of_znsWrite rejected.zone rejected.nlb_pos rejected.nlb_lt written
      (unchanged.writePtr idx)
  · intro n reachable id idLt
    obtain ⟨count, holds⟩ := holds_of_reachable (Geometry.small_of_ttSecs small) reachable
    exact holds.inBounds idLt

/-- A zone of the small device is filled by two writes, reset and begun again: its pointers
are in bounds, and the rejected write of a sector behind `write_ptr` changes the state. -/
theorem inBounds_after_reset : ∃ n,
    orderlyRun geometry8G [.write ⟨0, 65536, 1⟩, .write ⟨65536, 65536, 1⟩, .reset ⟨5, 1, 1⟩,
        .write ⟨0, 1024, 1⟩] = some n ∧
      (n.zoneArray 0).writePtr = 1024 ∧ InBounds n 0 ∧
        ∃ n' latency, znsWrite 1 n ⟨8, 1, 1⟩ = some (n', latency) ∧ ¬Unchanged n n' := by
  obtain ⟨n, ran, held⟩ := Option.map_eq_some_iff.mp
    (show (orderlyRun geometry8G [.write ⟨0, 65536, 1⟩, .write ⟨65536, 65536, 1⟩,
        .reset ⟨5, 1, 1⟩, .write ⟨0, 1024, 1⟩]).map (fun n =>
          ((n.zoneArray 0).writePtr, znsGetZoneByLba n 8,
            znsCheckZoneWrite n.ssd.sp (n.zoneArray 0) 8 1)) =
        some (1024, some 0, [.invalidWrite 1024 8 0]) by decide +kernel)
  obtain ⟨writePtr, rest⟩ := Prod.mk.inj held
  obtain ⟨zone, printed⟩ := Prod.mk.inj rest
  obtain ⟨changes, bounds⟩ := rejected_changes_and_inBounds geometry8G (by decide +kernel)
  have rejected : Rejected n ⟨8, 1, 1⟩ 0 := by
    refine ⟨zone, by decide, by decide, ?_⟩
    dsimp only
    rw [printed]
    exact List.cons_ne_nil _ _
  obtain ⟨n', latency, written, -⟩ := znsWrite_eq 1 rejected.zone
  exact ⟨n, ran, writePtr, bounds n (reachable_of_orderlyRun ran) 0 (by decide +kernel), n',
    latency, written, changes n _ 0 rejected 1 n' latency written⟩

/-- A write of one sector behind the write pointer of the new shipped device is rejected,
and moves `write_ptr` all the same. -/
theorem not_unchanged_of_rejected :
    ¬∀ n req idx, Rejected n req idx → ∀ now n' latency,
      znsWrite now n req = some (n', latency) → Unchanged n n' := by
  intro always
  have zone : znsGetZoneByLba (femuInit geometry512G.toSsdConfig geometry512G.devsz)
      (⟨8, 1, 1⟩ : NvmeRequest).slba = some 0 := by
    decide +kernel
  obtain ⟨n, latency, written, -⟩ := znsWrite_eq 1 zone
  have unchanged := always _ _ 0 ⟨zone, by decide, by decide, by decide +kernel⟩ 1 n latency written
  exact writePtr_ne_of_znsWrite zone (by decide) (by decide) written (unchanged.writePtr 0)

end Requests

end ZnsLsm.Flash
