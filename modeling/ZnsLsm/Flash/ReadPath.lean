import ZnsLsm.Flash.Commands
import ZnsLsm.Flash.Placement

/-!
# The pages of a read

`get_next_page` is the odometer of the write pointer on a copy of the address.  It reports the
end of the zone on the last page, where `zns_read` turns to the first page of the next zone; so
the loop goes over the page numbers of the request in order, across any number of zones.
-/

namespace ZnsLsm.Flash

open ZnsLsm.Transition

/-! ## The odometer of reads -/

/-- `get_next_page` steps like the write pointer, and reports what fills the zone. -/
theorem getNextPage_getZnsPage {numFcg : Nat} {sp : SsdParams} {zone moved : NvmeZone}
    (blocks : sp.secsPerBlk * sp.secsz = sp.pgsPerBlk * sp.secsPerPg * sp.secsz)
    (zoneId : zone.zoneId = moved.zoneId) (zoneCap : zone.d.zoneCap = moved.d.zoneCap)
    (fcgId : zone.wpp.fcgId = moved.wpp.fcgId) :
    (getNextPage numFcg sp zone (getZnsPage moved)).2 =
        getZnsPage (znsAdvanceWritePointer numFcg sp moved) ∧
      (moved.d.state ≠ .full →
        ((getNextPage numFcg sp zone (getZnsPage moved)).1 = true ↔
          (znsAdvanceWritePointer numFcg sp moved).d.state = .full)) := by
  have ch : (getZnsPage moved).ch = moved.wpp.ch := rfl
  have blk : (getZnsPage moved).blk = moved.wpp.blk := rfl
  have pg : (getZnsPage moved).pg = moved.wpp.pg := rfl
  simp only [getNextPage, znsAdvanceWritePointer, blocks, zoneId, zoneCap, fcgId, ch, blk, pg]
  split
  · split
    · refine ⟨rfl, fun notFull => ?_⟩
      rw [beq_iff_eq]
      split
      · rename_i last
        exact iff_of_true last rfl
      · rename_i notLast
        exact iff_of_false notLast notFull
    · exact ⟨rfl, fun notFull => iff_of_false Bool.false_ne_true notFull⟩
  · exact ⟨rfl, fun notFull => iff_of_false Bool.false_ne_true notFull⟩

namespace Geometry

variable (geometry : Geometry)

/-- The page behind a page of a zone; the flag reports the last one. -/
theorem getNextPage_page {zone : NvmeZone} {id k : Nat} (zoneId : zone.zoneId = id)
    (zoneCap : zone.d.zoneCap = geometry.zoneSize)
    (fcgId : zone.wpp.fcgId = id % geometry.numFcgs) (lt : k < geometry.pages) :
    (getNextPage geometry.numFcgs geometry.spp zone (geometry.page id k)).2 =
        geometry.page id (k + 1) ∧
      ((getNextPage geometry.numFcgs geometry.spp zone (geometry.page id k)).1 = true ↔
        k + 1 = geometry.pages) := by
  have blocks : geometry.spp.secsPerBlk * geometry.spp.secsz =
      geometry.spp.pgsPerBlk * geometry.spp.secsPerPg * geometry.spp.secsz := by
    simp only [spp, ssdInitParams, Nat.mul_comm geometry.secsPerPg]
  obtain ⟨next, done⟩ := @getNextPage_getZnsPage geometry.numFcgs geometry.spp zone
    (geometry.zoneAfter id k) blocks zoneId zoneCap fcgId
  have step : znsAdvanceWritePointer geometry.numFcgs geometry.spp (geometry.zoneAfter id k) =
      geometry.zoneAfter id (k + 1) := geometry.advance_zoneAfter id lt
  rw [getZnsPage_zoneAfter, step] at next done
  refine ⟨next.trans (geometry.getZnsPage_zoneAfter id (k + 1)), ?_⟩
  rw [done fun full => Nat.ne_of_lt lt ((geometry.zoneAfter_full_iff id k).mp full)]
  exact geometry.zoneAfter_full_iff id (k + 1)

/-- Where page number `lpn` of the device is: its zone and its address. -/
def visit (lpn : Nat) : Nat × Ppa :=
  (lpn / geometry.pages, geometry.page (lpn / geometry.pages) (lpn % geometry.pages))

/-- The next page number stays in the zone unless the zone ends. -/
theorem visit_succ {lpn : Nat} (inner : lpn % geometry.pages + 1 ≠ geometry.pages) :
    geometry.visit (lpn + 1) =
      (lpn / geometry.pages,
        geometry.page (lpn / geometry.pages) (lpn % geometry.pages + 1)) := by
  have less : lpn % geometry.pages + 1 < geometry.pages :=
    Nat.lt_of_le_of_ne (Nat.mod_lt _ geometry.pages_pos) inner
  have split : lpn + 1 = lpn % geometry.pages + 1 + geometry.pages * (lpn / geometry.pages) := by
    rw [Nat.add_right_comm, Nat.mod_add_div]
  rw [visit, split, Nat.add_mul_mod_self_left, Nat.mod_eq_of_lt less,
    Nat.add_mul_div_left _ _ geometry.pages_pos, Nat.div_eq_of_lt less, Nat.zero_add]

theorem visit_next {lpn : Nat} (last : lpn % geometry.pages + 1 = geometry.pages) :
    geometry.visit (lpn + 1) =
      (lpn / geometry.pages + 1, geometry.page (lpn / geometry.pages + 1) 0) := by
  have split : lpn + 1 = geometry.pages * (lpn / geometry.pages + 1) := by
    rw [Nat.mul_succ, ← last, ← Nat.add_assoc, last, Nat.div_add_mod]
  rw [visit, split, Nat.mul_mod_right, Nat.mul_div_cancel_left _ geometry.pages_pos]

end Geometry

/-! ## The loop -/

section Reads

variable {geometry : Geometry} {n : FemuCtrl}

/-- From page `lpn` on the loop visits the next page numbers, as long as they do not go beyond
the last zone of the request. -/
theorem Placed.readPages_eq (placed : Placed geometry n) {zoneEnd : Nat}
    (zoneEndLt : zoneEnd < geometry.zones) (count lpn : Nat)
    (inside : ∀ other < lpn + count, other / geometry.pages ≤ zoneEnd) :
    readPages n zoneEnd count (geometry.visit lpn).1 (geometry.visit lpn).2 =
      (List.range' lpn count).map geometry.visit := by
  induction count generalizing lpn with
  | zero => rfl
  | succ count ih =>
      have rest := ih (lpn + 1) fun other lt => inside other (by omega)
      have zoneLe : lpn / geometry.pages ≤ zoneEnd := inside lpn (by omega)
      have zoneLt : lpn / geometry.pages < geometry.zones := Nat.lt_of_le_of_lt zoneLe zoneEndLt
      obtain ⟨zoneId, -, zoneCap, fcgId, -⟩ := placed.frame zoneLt
      obtain ⟨next, done⟩ := geometry.getNextPage_page zoneId zoneCap fcgId
        (Nat.mod_lt lpn geometry.pages_pos)
      rw [List.range'_succ, List.map_cons, ← rest]
      simp only [readPages, placed.sp, placed.numFcg]
      congr 1
      by_cases last : lpn % geometry.pages + 1 = geometry.pages
      · have ended := done.mpr last
        rw [geometry.visit_next last]
        by_cases final : lpn / geometry.pages = zoneEnd
        · -- The last zone of the request has ended, so nothing is left to read.
          have none : count = 0 := by
            by_contra more
            have beyond := inside (lpn + 1) (by omega)
            have zone := congrArg Prod.fst (geometry.visit_next last)
            simp only [Geometry.visit] at zone
            omega
          rw [none]
          split
          · rfl
          · rfl
        · rw [if_pos ⟨ended, final⟩]
          exact congrArg (readPages n zoneEnd count _)
            (placed.locatePage_eq (by simp only [Geometry.visit]; omega) 0)
      · have goesOn : ¬((getNextPage geometry.numFcgs geometry.spp
            (n.zoneArray (lpn / geometry.pages)) (geometry.visit lpn).2).1 = true ∧
            lpn / geometry.pages ≠ zoneEnd) := fun crosses => last (done.mp crosses.1)
        rw [geometry.visit_succ last]
        exact (if_neg goesOn).trans (congrArg (readPages n zoneEnd count _) next)

/-! ## The request -/

/-- The addresses that `zns_read` passes to `ssd_advance_status`, each with `zone_start`. -/
def readVisits (n : FemuCtrl) (req : NvmeRequest) : List (Nat × Ppa) :=
  match znsGetZoneByLba n req.slba, znsGetZoneByLba n (lastSector req.slba req.nlb) with
  | some zoneStart, some zoneEnd =>
      let sp := n.ssd.sp
      let startLpn := req.slba / sp.secsPerPg
      let endLpn := lastSector req.slba req.nlb / sp.secsPerPg
      let lpnInZone := startLpn % (n.zoneSize / (sp.secsPerPg * sp.secsz))
      readPages n zoneEnd (endLpn + 1 - startLpn) zoneStart
        (locatePage n.numFcg sp (n.zoneArray zoneStart) lpnInZone)
  | _, _ => []

/-- What `zns_read` does to the LUNs is what its addresses do, in order. -/
theorem znsRead_commands {now latency : Nat} {n' : FemuCtrl} {req : NvmeRequest}
    (read : znsRead now n req = some (n', latency)) :
    n'.ssd = (readVisits n req).foldl
      (fun ssd visit => (ssdAdvanceStatus now ssd visit.2 .read req.stime).2) n.ssd := by
  simp only [znsRead] at read
  split at read
  · rename_i zoneStart zoneEnd first last
    cases read
    simp only [readVisits, first, last]
    exact znsReadLoop_commands now req.stime zoneEnd n _ zoneStart _ rfl
  · cases read

/-- The read goes over its page numbers in order, in the flash and in its zones. -/
structure ReadsInOrder (geometry : Geometry) (now : Nat) (n n' : FemuCtrl) (req : NvmeRequest) :
    Prop where
  commands : n'.ssd = (readVisits n req).foldl
    (fun ssd visit => (ssdAdvanceStatus now ssd visit.2 .read req.stime).2) n.ssd
  visits : readVisits n req =
    (List.range' (req.slba / geometry.secsPerPg)
      ((req.slba + req.nlb - 1) / geometry.secsPerPg + 1 - req.slba / geometry.secsPerPg)).map
      fun lpn => (lpn / geometry.pages,
        locatePage n.numFcg n.ssd.sp (n.zoneArray (lpn / geometry.pages)) (lpn % geometry.pages))
  inFlash : ∀ visit ∈ readVisits n req, visit.2 ∈ geometry.flash
  zones : ∃ zoneStart zoneEnd, znsGetZoneByLba n req.slba = some zoneStart ∧
    znsGetZoneByLba n (req.slba + req.nlb - 1) = some zoneEnd ∧
      (∀ visit ∈ readVisits n req, visit.1 ≤ zoneEnd) ∧
      ∀ count ppa ssd, (znsReadLoop now req.stime zoneEnd n count (zoneStart, ppa, ssd)).1 ≤ zoneEnd

theorem Geometry.visit_mem_flash (geometry : Geometry) {lpn : Nat}
    (lt : lpn / geometry.pages < geometry.zones) : (geometry.visit lpn).2 ∈ geometry.flash := by
  apply geometry.page_mem_flash
  · rw [← geometry.numZones_eq_volume]
    exact lt
  · rw [← geometry.pagesPerZone_eq_volume]
    exact Nat.mod_lt _ geometry.pages_pos

/-- The zones of the first and the last sector of a read within the device. -/
theorem Placed.zonesOfRead (placed : Placed geometry n) (fits : geometry.Representable)
    {req : NvmeRequest} (pos : 1 ≤ req.nlb)
    (inside : req.slba + req.nlb ≤ geometry.pageSec geometry.zones 0) :
    lastSector req.slba req.nlb = req.slba + req.nlb - 1 ∧
      znsGetZoneByLba n req.slba = some (req.slba / geometry.secsPerPg / geometry.pages) ∧
      znsGetZoneByLba n (req.slba + req.nlb - 1) =
        some ((req.slba + req.nlb - 1) / geometry.secsPerPg / geometry.pages) ∧
      (req.slba + req.nlb - 1) / geometry.secsPerPg / geometry.pages < geometry.zones := by
  obtain ⟨first, -⟩ := placed.byLba fits (show req.slba < _ by omega)
  obtain ⟨final, finalLt⟩ := placed.byLba fits (show req.slba + req.nlb - 1 < _ by omega)
  rw [geometry.zone_of_sector] at first final finalLt
  exact ⟨lastSector_eq (by omega) (Nat.lt_of_le_of_lt inside fits.sectors_lt), first, final,
    finalLt⟩

/-- A read within the device visits the page numbers of its sectors. -/
theorem Placed.readVisits_eq (placed : Placed geometry n) (fits : geometry.Representable)
    {req : NvmeRequest} (pos : 1 ≤ req.nlb)
    (inside : req.slba + req.nlb ≤ geometry.pageSec geometry.zones 0) :
    readVisits n req =
      (List.range' (req.slba / geometry.secsPerPg)
        ((req.slba + req.nlb - 1) / geometry.secsPerPg + 1 - req.slba / geometry.secsPerPg)).map
        geometry.visit := by
  obtain ⟨last, first, final, finalLt⟩ := placed.zonesOfRead fits pos inside
  have ordered : req.slba / geometry.secsPerPg ≤ (req.slba + req.nlb - 1) / geometry.secsPerPg :=
    Nat.div_le_div_right (by omega)
  have firstLt : req.slba / geometry.secsPerPg / geometry.pages < geometry.zones :=
    Nat.lt_of_le_of_lt (Nat.div_le_div_right ordered) finalLt
  have perPage : n.ssd.sp.secsPerPg = geometry.secsPerPg := by rw [placed.sp]; rfl
  have perZone : n.zoneSize / (geometry.secsPerPg * n.ssd.sp.secsz) = geometry.pages := by
    rw [placed.zoneSize, placed.sp]
    rfl
  rw [← placed.readPages_eq finalLt]
  · simp only [readVisits, last, first, final, perPage, perZone]
    rw [placed.numFcg, placed.sp, placed.locatePage_eq firstLt]
    rfl
  · intro other lt
    exact Nat.div_le_div_right (by omega)

/-- The visits of a read belong to page numbers from the first to the last one. -/
theorem lpn_le_of_mem {first last lpn : Nat} (mem : lpn ∈ List.range' first (last + 1 - first)) :
    lpn ≤ last := by
  have range := List.mem_range'_1.mp mem
  omega

/-- After any requests, every read within the device visits exactly the pages of its sectors, in
order, whatever zones it crosses. -/
theorem znsRead_visits (geometry : Geometry) (fits : geometry.Representable)
    (reachable : (ftl geometry).Reachable n) {req : NvmeRequest} (pos : 1 ≤ req.nlb)
    (inside : req.slba + req.nlb ≤ geometry.zones * geometry.zoneSize / geometry.secsz)
    (now : Nat) :
    ∃ n', znsRead now n req = some (n', 0) ∧ ReadsInOrder geometry now n n' req := by
  have placed := placed_of_reachable reachable
  rw [geometry.devsz_div_secsz] at inside
  obtain ⟨last, first, final, finalLt⟩ := placed.zonesOfRead fits pos inside
  have visits := placed.readVisits_eq fits pos inside
  have inZones : ∀ visit ∈ readVisits n req, ∃ lpn, visit = geometry.visit lpn ∧
      lpn / geometry.pages ≤ (req.slba + req.nlb - 1) / geometry.secsPerPg / geometry.pages := by
    intro visit mem
    rw [visits] at mem
    obtain ⟨lpn, lpnMem, rfl⟩ := List.mem_map.mp mem
    exact ⟨lpn, rfl, Nat.div_le_div_right (lpn_le_of_mem lpnMem)⟩
  obtain ⟨n', read⟩ : ∃ n', znsRead now n req = some (n', 0) := by
    simp only [znsRead, last, first, final]
    exact ⟨_, rfl⟩
  refine ⟨n', read, znsRead_commands read, ?_, ?_, _, _, first, final, ?_, ?_⟩
  · rw [visits]
    apply List.map_congr_left
    intro lpn mem
    have zoneLe := @Nat.div_le_div_right _ _ geometry.pages (lpn_le_of_mem mem)
    rw [placed.numFcg, placed.sp, placed.locatePage_eq (Nat.lt_of_le_of_lt zoneLe finalLt)]
    rfl
  · intro visit mem
    obtain ⟨lpn, rfl, zoneLe⟩ := inZones visit mem
    exact geometry.visit_mem_flash (Nat.lt_of_le_of_lt zoneLe finalLt)
  · intro visit mem
    obtain ⟨lpn, rfl, zoneLe⟩ := inZones visit mem
    exact zoneLe
  · intro count ppa ssd
    apply znsReadLoop_zone_le
    exact Nat.div_le_div_right (Nat.div_le_div_right (by omega))

/-- A read of the last page of zone 0 and the first page of zone 1 of the new small device. -/
theorem znsRead_visits_two_zones :
    ∃ n', znsRead 1 (femuInit geometry8G.toSsdConfig geometry8G.devsz) ⟨130048, 2048, 1⟩ =
        some (n', 0) ∧
      ReadsInOrder geometry8G 1 (femuInit geometry8G.toSsdConfig geometry8G.devsz) n'
        ⟨130048, 2048, 1⟩ :=
  znsRead_visits geometry8G ⟨by decide +kernel, by decide +kernel⟩ (.init rfl) (by decide)
    (by decide +kernel) 1

end Reads

end ZnsLsm.Flash
