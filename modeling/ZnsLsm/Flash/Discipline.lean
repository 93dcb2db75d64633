import Mathlib.Data.Int.CardIntervalMod
import ZnsLsm.EraseBlocks
import ZnsLsm.Flash.Checks
import ZnsLsm.Flash.Erasing
import ZnsLsm.Flash.Latency
import ZnsLsm.Flash.ReadPath

/-!
# What the requests do to the flash

The simulator keeps no state of its blocks: `ssd_advance_status` only moves clocks.  A real
flash has rules, though.  The pages of a block are programmed in order, each once between
two erases, and a page is read after it was programmed.  Here the commands of every request
are recorded, with what the LUNs are told of them, and the record is played on a medium
that has these rules.
-/

namespace ZnsLsm.Flash

open ZnsLsm.EraseBlocks ZnsLsm.Transition

/-! ## The record -/

/-- A command that reaches the flash, and the times that `ssd_advance_status` reads. -/
structure Issued where
  now : Nat
  stime : Nat
  command : Command Ppa

/-- What a command does to the LUNs. -/
def Issued.perform (ssd : Ssd) (issued : Issued) : Ssd :=
  match issued.command with
  | .program block page =>
      (ssdAdvanceStatus issued.now ssd { block with pg := page } .write issued.stime).2
  | .read block page =>
      (ssdAdvanceStatus issued.now ssd { block with pg := page } .read issued.stime).2
  | .erase block => eraseCommand issued.now ssd block

def Io.req : Io → NvmeRequest
  | .read req | .write req | .reset req => req

/-- The commands of a request, in order. -/
def Io.commands (n : FemuCtrl) : Io → List (Command Ppa)
  | .read req => (readVisits n req).map fun visit => .read visit.2.block visit.2.pg
  | .write req => (writeVisits n req).map fun ppa => .program ppa.block ppa.pg
  | .reset req =>
      match znsGetZoneByLba n req.slba with
      | none => []
      | some idx =>
          if (n.zoneArray idx).d.state = .full then (resetBlocks n idx).map .erase else []

/-- What the clock shows when a command of the request reads it. -/
def Clock.reading (now : Clock) : Command Ppa → Nat
  | .erase block => now.erase block
  | .program _ _ | .read _ _ => now.time

def Io.issued (now : Clock) (n : FemuCtrl) (io : Io) : List Issued :=
  (io.commands n).map fun command => ⟨now.reading command, io.req.stime, command⟩

/-- Requests on the new device, with the record of their commands. -/
def journaled (geometry : Geometry) : System (FemuCtrl × List Issued) Io where
  Init state := state = (femuInit geometry.toSsdConfig geometry.devsz, [])
  Step state io next :=
    ∃ now, serve now state.1 io = some next.1 ∧ next.2 = state.2 ++ io.issued now state.1

/-- Every sector of the request lies below the write pointer of its zone. -/
def Readable (n : FemuCtrl) (req : NvmeRequest) : Prop :=
  1 ≤ req.nlb ∧ ∀ sec, req.slba ≤ sec → sec < req.slba + req.nlb →
    ∃ idx, znsGetZoneByLba n sec = some idx ∧ sec < (n.zoneArray idx).writePtr

/-- Writes pass the tests and cover whole pages, reads keep to what was written. -/
def Proper (geometry : Geometry) (state : FemuCtrl × List Issued) : Io → Prop
  | .read req => Readable state.1 req
  | io => Orderly geometry state.1 io

/-- The commands move the clocks of the LUNs one after the other. -/
theorem serve_ssd {now : Clock} {n n' : FemuCtrl} {io : Io}
    (delay : n.ssd.sp.enableGcDelay = true) (served : serve now n io = some n') :
    n'.ssd = (io.issued now n).foldl Issued.perform n.ssd := by
  rw [Io.issued, List.foldl_map]
  cases io with
  | read req =>
      obtain ⟨⟨n'', latency⟩, read, rfl⟩ := Option.map_eq_some_iff.mp served
      rw [Io.commands, List.foldl_map]
      exact znsRead_commands read
  | write req =>
      obtain ⟨⟨n'', latency⟩, written, rfl⟩ := Option.map_eq_some_iff.mp served
      rw [Io.commands, List.foldl_map]
      have pairs : ∀ (ppas : List Ppa) (state : Ssd × Nat),
          (ppas.foldl (serveCommand now.time req.stime .write) state).1 =
            ppas.foldl (fun ssd ppa => (ssdAdvanceStatus now.time ssd ppa .write req.stime).2)
              state.1 := by
        intro ppas
        induction ppas with
        | nil => exact fun _ => rfl
        | cons ppa ppas ih => exact fun state => ih _
      exact (congrArg Prod.fst (znsWrite_commands written)).trans (pairs _ _)
  | reset req =>
      change znsReset now.erase n req = some n' at served
      rw [Io.commands]
      cases byLba : znsGetZoneByLba n req.slba with
      | none =>
          simp only [znsReset, byLba] at served
          cases served
      | some idx =>
          by_cases full : (n.zoneArray idx).d.state = .full
          · rw [znsReset_of_full now.erase byLba full delay] at served
            cases served
            dsimp only
            rw [if_pos full, List.foldl_map]
            rfl
          · simp only [znsReset, byLba] at served
            rw [if_pos full] at served
            cases served
            dsimp only
            rw [if_neg full]
            rfl

/-! ## The layout of the zones -/

theorem Ppa.of_block_eq {ppa ppa' : Ppa} (same : ppa.block = ppa'.block) :
    ppa.ch = ppa'.ch ∧ ppa.lun = ppa'.lun ∧ ppa.blk = ppa'.blk := by
  simp only [block, Ppa.mk.injEq] at same
  exact ⟨same.2.2.2.2, same.2.2.2.1, same.1⟩

namespace Geometry

variable (geometry : Geometry)

/-- Two pages of a zone share a block if their numbers agree modulo the blocks of a stripe. -/
theorem block_eq_iff (id k n : Nat) :
    (geometry.page id k).block = (geometry.page id n).block ↔
      k ≡ n [MOD geometry.chips * geometry.stripe] := by
  simp only [block_page, Ppa.mk.injEq, Nat.add_left_cancel_iff, true_and, Nat.ModEq]
  rw [Nat.mod_mul, Nat.mod_mul]
  constructor
  · rintro ⟨blk, ch⟩
    rw [blk, ch]
  · intro same
    have ch := congrArg (· % geometry.chips) same
    simp only [Nat.add_mul_mod_self_left, Nat.mod_mod] at ch
    rw [ch] at same
    exact ⟨Nat.eq_of_mul_eq_mul_left geometry.chips_pos (Nat.add_left_cancel same), ch⟩

theorem pages_eq_blocks :
    geometry.pages = geometry.chips * geometry.stripe * geometry.pgsPerBlk := by
  rw [pages, pagesPerZone_eq_volume]
  simp only [pageRadices, MixedRadix.volume_cons, MixedRadix.volume_nil]
  ring

/-- The zones on the blocks of the flash. -/
def layout : Layout Ppa where
  zones := geometry.zones
  pages := geometry.pages
  perBlock := geometry.pgsPerBlk
  block id n := (geometry.page id n).block
  page id n := (geometry.page id n).pg
  inTurn id _ n _ := by
    have pos := Nat.mul_pos geometry.chips_pos geometry.stripe_pos
    simp only [block_eq_iff, Nat.count_modEq_card n pos, Nat.lt_irrefl, if_false, Nat.add_zero]
    rw [page_eq_digits, Nat.div_div_eq_div_mul]
  full id _ n _ := by
    have pos := Nat.mul_pos geometry.chips_pos geometry.stripe_pos
    simp only [block_eq_iff, Nat.count_modEq_card _ pos]
    rw [pages_eq_blocks, Nat.mul_mod_right, Nat.mul_div_cancel_left _ pos,
      if_neg (Nat.not_lt_zero _)]
    rfl
  apart id idLt n _ id' idLt' n' _ same := by
    rw [zones, numZones_eq_volume] at idLt idLt'
    obtain ⟨ch, lun, blk⟩ := Ppa.of_block_eq same
    exact (geometry.zone_eq_of_block_eq idLt idLt' ch lun blk).1

end Geometry

/-! ## Requests keep to the rules of the flash -/

section Requests

variable {geometry : Geometry} {count erases : Nat → Nat} {n n' : FemuCtrl}
  {medium : Medium Ppa} {id : Nat} {now : Clock} {req : NvmeRequest}

theorem Holds.placed (holds : Holds geometry count n) : Placed geometry n where
  sp := holds.sp
  zoneSize := holds.zoneSize
  numZones := holds.numZones
  numFcg := holds.numFcg
  zones id idLt := by
    have le : 0 + count id ≤ geometry.pages := (Nat.zero_add _).symm ▸ holds.count_le id idLt
    have steps := geometry.iterate_filled id le (geometry.pageSec id (count id))
    rw [← geometry.zone_eq_filled, Nat.zero_add] at steps
    exact ⟨count id, geometry.pageSec id (count id), (holds.zones id idLt).trans steps.symm⟩

/-- A whole number of pages at the write pointer. -/
theorem Holds.write_commands (holds : Holds geometry count n) (small : geometry.Small)
    (idLt : id < geometry.zones) {more : Nat} (slba : req.slba = geometry.pageSec id (count id))
    (nlb : req.nlb = geometry.secsPerPg * more) (pos : 0 < more)
    (le : count id + more ≤ geometry.pages) :
    (Io.write req).commands n = geometry.layout.fill id (count id) more := by
  have start : geometry.pageSec id 0 ≤ req.slba := slba ▸ geometry.pageSec_le (Nat.zero_le _)
  have inside : req.slba < geometry.pageSec id geometry.pages := by
    rw [slba]
    exact Nat.mul_lt_mul_of_pos_left (by omega) geometry.secsPerPg_pos
  have past : req.slba + req.nlb < 2 ^ 64 := by
    rw [slba, nlb, ← geometry.pageSec_add]
    exact Nat.lt_trans (small.pageSec_lt idLt le) (by decide)
  have touched : pagesTouched n.ssd.sp req = more := by
    rw [holds.sp]
    exact pagesTouched_eq geometry.secsPerPg_pos slba nlb pos past
  have notFull : (n.zoneArray id).d.state ≠ .full := by
    rw [holds.zones id idLt, ne_eq, geometry.filled_full_iff]
    omega
  have stands : getZnsPage (n.zoneArray id) = geometry.page id (count id) := by
    rw [holds.zones id idLt]
    exact geometry.getZnsPage_zoneAfter id (count id)
  rw [Io.commands, holds.placed.writeVisits_page idLt (holds.byLba small idLt start inside) touched
    pos notFull stands le, List.map_map]
  rfl

/-- A reset erases the blocks of a full zone and nothing else. -/
theorem Holds.reset_commands (holds : Holds geometry count n)
    (byLba : znsGetZoneByLba n req.slba = some id) :
    (Io.reset req).commands n =
      if count id = geometry.pages then (geometry.zoneBlocks id).map .erase else [] := by
  have idLt := holds.lt_of_byLba byLba
  simp only [Io.commands, byLba, holds.placed.resetBlocks_eq idLt, holds.zones id idLt,
    geometry.filled_full_iff]

/-- A sector below the write pointer of its zone, by its page number. -/
theorem Holds.lt_of_readable (holds : Holds geometry count n) (small : geometry.Small)
    {sec : Nat} (byLba : znsGetZoneByLba n sec = some id)
    (below : sec < (n.zoneArray id).writePtr) :
    sec < geometry.pageSec geometry.zones 0 ∧ sec / geometry.secsPerPg / geometry.pages = id ∧
      sec / geometry.secsPerPg % geometry.pages < count id := by
  have idLt := holds.lt_of_byLba byLba
  have le := holds.count_le id idLt
  rw [holds.zones id idLt, geometry.filled_writePtr] at below
  have inDevice : sec < geometry.pageSec geometry.zones 0 :=
    geometry.lt_device idLt (Nat.lt_of_lt_of_le below (geometry.pageSec_le le))
  have zone : sec / geometry.secsPerPg / geometry.pages = id := by
    have zoneLt := geometry.div_lt_zones inDevice
    have idx := geometry.znsZoneIdx_eq holds.sp holds.zoneSize (Nat.lt_trans zoneLt small.1)
    rw [znsGetZoneByLba, idx] at byLba
    simp only [holds.numZones, zoneLt, if_true, Option.some.injEq] at byLba
    rw [← geometry.zone_of_sector, byLba]
  refine ⟨inDevice, zone, ?_⟩
  have page : sec / geometry.secsPerPg < id * geometry.pages + count id :=
    Nat.div_lt_of_lt_mul below
  have digits := Nat.div_add_mod (sec / geometry.secsPerPg) geometry.pages
  rw [zone, Nat.mul_comm] at digits
  omega

/-- A read of written sectors stays in the pages that are programmed. -/
theorem Holds.read_commands (holds : Holds geometry count n) (small : geometry.Small)
    (fits : geometry.Representable) (readable : Readable n req) :
    ∀ command ∈ (Io.read req).commands n, ∃ id < geometry.zones, ∃ k < count id,
      command = .read (geometry.layout.block id k) (geometry.layout.page id k) := by
  obtain ⟨pos, below⟩ := readable
  have inside : req.slba + req.nlb ≤ geometry.pageSec geometry.zones 0 := by
    obtain ⟨idx, byLba, lt⟩ := below (req.slba + req.nlb - 1) (by omega) (by omega)
    have last := (holds.lt_of_readable small byLba lt).1
    omega
  rw [Io.commands, holds.placed.readVisits_eq fits pos inside, List.map_map]
  intro command mem
  obtain ⟨lpn, range, rfl⟩ := List.mem_map.mp mem
  have bounds := List.mem_range'_1.mp range
  -- A sector of the request on this page.
  have first := Nat.div_add_mod req.slba geometry.secsPerPg
  have firstLt := Nat.mod_lt req.slba geometry.secsPerPg_pos
  have last := Nat.div_add_mod (req.slba + req.nlb - 1) geometry.secsPerPg
  obtain ⟨sec, ge, lt, onPage⟩ : ∃ sec, req.slba ≤ sec ∧ sec < req.slba + req.nlb ∧
      sec / geometry.secsPerPg = lpn := by
    rcases Nat.eq_or_lt_of_le bounds.1 with same | later
    · exact ⟨req.slba, Nat.le_refl _, by omega, same⟩
    · refine ⟨geometry.secsPerPg * lpn, ?_, ?_, Nat.mul_div_cancel_left _ geometry.secsPerPg_pos⟩
      · have next := Nat.mul_le_mul_left geometry.secsPerPg (Nat.succ_le_of_lt later)
        rw [Nat.mul_succ] at next
        omega
      · have upTo : lpn ≤ (req.slba + req.nlb - 1) / geometry.secsPerPg := by omega
        have reach := Nat.mul_le_mul_left geometry.secsPerPg upTo
        omega
  obtain ⟨idx, byLba, written⟩ := below sec ge lt
  obtain ⟨-, zone, page⟩ := holds.lt_of_readable small byLba written
  rw [onPage] at zone page
  exact ⟨idx, holds.lt_of_byLba byLba, _, page, by rw [← zone]; rfl⟩

/-- A read of written sectors is carried out. -/
theorem Holds.exists_read (holds : Holds geometry count n) (small : geometry.Small)
    {req : NvmeRequest} (readable : Readable n req) (now : Nat) :
    ∃ n' latency, znsRead now n req = some (n', latency) := by
  obtain ⟨pos, written⟩ := readable
  obtain ⟨first, byFirst, -⟩ := written req.slba (Nat.le_refl _) (by omega)
  obtain ⟨last, byLast, below⟩ := written (req.slba + req.nlb - 1) (by omega) (by omega)
  have inDevice := (holds.lt_of_readable small byLast below).1
  have deviceLt := small.2
  rw [znsRead, byFirst, lastSector_eq (by omega) (by omega), byLast]
  exact ⟨_, _, rfl⟩

/-- A write that passes the tests and covers whole pages. -/
theorem Holds.pages_of_accepted (holds : Holds geometry count n) (accepted : Accepted n req id)
    (whole : WholePages geometry req) :
    ∃ more, req.nlb = geometry.secsPerPg * more ∧ 0 < more ∧
      count id + more ≤ geometry.pages := by
  obtain ⟨-, slba, -, le⟩ := holds.accepted accepted
  obtain ⟨⟨more, nlb⟩, noWrap⟩ := whole
  refine ⟨more, nlb, Nat.pos_of_ne_zero ?_, ?_⟩
  · rintro rfl
    exact accepted.nlb_pos.ne' nlb
  · rw [Nat.mod_eq_of_lt noWrap, slba, nlb, ← geometry.pageSec_add] at le
    exact Nat.le_of_add_le_add_left (Nat.le_of_mul_le_mul_left le geometry.secsPerPg_pos)

/-- Step lemma: the commands of a proper request are legal, and they leave the medium filled
as far as the zones are. -/
theorem Holds.disciplined (holds : Holds geometry count n) (small : geometry.Small)
    (fits : geometry.Representable) (filled : geometry.layout.Filled count erases medium)
    {log : List Issued} {io : Io} (proper : Proper geometry (n, log) io)
    (served : Flash.serve now n io = some n') :
    medium.LegalAll geometry.pgsPerBlk (io.commands n) ∧
      ∃ count' erases', Holds geometry count' n' ∧
        geometry.layout.Filled count' erases' (medium.run (io.commands n)) := by
  cases io with
  | read req =>
      obtain ⟨⟨n'', latency⟩, read, rfl⟩ := Option.map_eq_some_iff.mp served
      obtain ⟨params, zones⟩ := znsRead_zones read
      have reads : ∀ command ∈ (Io.read req).commands n, ∃ block page,
          command = .read block page ∧ page < medium.programmed block := by
        intro command mem
        obtain ⟨idx, idxLt, k, lt, rfl⟩ := holds.read_commands small fits proper command mem
        have inZone : k < geometry.pages := Nat.lt_of_lt_of_le lt (holds.count_le idx idxLt)
        exact ⟨_, _, rfl, (filled.lt_programmed_iff idxLt inZone).mpr lt⟩
      obtain ⟨legal, same⟩ : medium.LegalAll geometry.pgsPerBlk _ ∧ _ :=
        Medium.legalAll_of_reads reads
      exact ⟨legal, count, erases, holds.same params zones, same.symm ▸ filled⟩
  | write req =>
      obtain ⟨⟨n'', latency⟩, written, rfl⟩ := Option.map_eq_some_iff.mp served
      obtain ⟨⟨idx, accepted⟩, whole⟩ := proper
      obtain ⟨idxLt, slba, -, -⟩ := holds.accepted accepted
      obtain ⟨more, nlb, pos, le⟩ := holds.pages_of_accepted accepted whole
      rw [holds.write_commands small idxLt slba nlb pos le]
      obtain ⟨legal, filled'⟩ := filled.fill idxLt le
      exact ⟨legal, _, _, holds.write small idxLt slba nlb pos le written, filled'⟩
  | reset req =>
      change znsReset now.erase n req = some n' at served
      cases byLba : znsGetZoneByLba n req.slba with
      | none =>
          simp only [znsReset, byLba] at served
          cases served
      | some idx =>
          have idxLt := holds.lt_of_byLba byLba
          have after := holds.reset idxLt byLba served
          rw [holds.reset_commands byLba]
          by_cases full : count idx = geometry.pages
          · rw [if_pos full] at after ⊢
            obtain ⟨legal, filled'⟩ := filled.empty idxLt full (geometry.nodup_zoneBlocks idx)
              (geometry.mem_zoneBlocks idx)
            exact ⟨legal, _, _, after, filled'⟩
          · rw [if_neg full] at after ⊢
            exact ⟨trivial, _, _, after, filled⟩

end Requests

/-! ## Whole runs -/

/-- The record of a run: the LUNs were told exactly its commands, these are legal on a new
medium, they program the pages below the write pointers, and they wear the blocks of a zone
evenly. -/
structure KeepsRules (geometry : Geometry) (n : FemuCtrl) (log : List Issued) : Prop where
  clocks : n.ssd =
    log.foldl Issued.perform (femuInit geometry.toSsdConfig geometry.devsz).ssd
  legal : Medium.blank.LegalAll geometry.pgsPerBlk (log.map Issued.command)
  programmed : ∀ id < geometry.zones, ∀ lpn < geometry.pages,
    ((geometry.page id lpn).pg <
        (Medium.blank.run (log.map Issued.command)).programmed (geometry.page id lpn).block ↔
      geometry.pageSec id lpn < (n.zoneArray id).writePtr)
  wear : ∀ id < geometry.zones, ∀ lpn < geometry.pages, ∀ lpn' < geometry.pages,
    (Medium.blank.run (log.map Issued.command)).erased (geometry.page id lpn).block =
      (Medium.blank.run (log.map Issued.command)).erased (geometry.page id lpn').block

/-- The invariant of a run. -/
structure Recorded (geometry : Geometry) (count erases : Nat → Nat) (n : FemuCtrl)
    (log : List Issued) : Prop where
  holds : Holds geometry count n
  clocks : n.ssd =
    log.foldl Issued.perform (femuInit geometry.toSsdConfig geometry.devsz).ssd
  legal : Medium.blank.LegalAll geometry.pgsPerBlk (log.map Issued.command)
  filled : geometry.layout.Filled count erases (Medium.blank.run (log.map Issued.command))

section Runs

variable {geometry : Geometry} {count erases : Nat → Nat} {n n' : FemuCtrl} {log : List Issued}

theorem recorded_femuInit (geometry : Geometry) :
    Recorded geometry (fun _ => 0) (fun _ => 0)
      (femuInit geometry.toSsdConfig geometry.devsz) [] where
  holds := holds_femuInit geometry
  clocks := rfl
  legal := trivial
  filled := geometry.layout.filled_blank

/-- Some more commands of one request. -/
theorem Recorded.extend (recorded : Recorded geometry count erases n log) {io : Io} {now : Clock}
    (served : serve now n io = some n')
    (step : (Medium.blank.run (log.map Issued.command)).LegalAll geometry.pgsPerBlk
        (io.commands n) ∧
      ∃ count' erases', Holds geometry count' n' ∧ geometry.layout.Filled count' erases'
        ((Medium.blank.run (log.map Issued.command)).run (io.commands n))) :
    ∃ count' erases', Recorded geometry count' erases' n' (log ++ io.issued now n) := by
  obtain ⟨legal, count', erases', holds', filled'⟩ := step
  have commands : (log ++ io.issued now n).map Issued.command =
      log.map Issued.command ++ io.commands n := by
    rw [List.map_append, Io.issued, List.map_map]
    exact congrArg _ (List.map_id _)
  have delay : n.ssd.sp.enableGcDelay = true := by
    rw [recorded.holds.sp]
    rfl
  refine ⟨count', erases', holds', ?_, ?_, ?_⟩
  · rw [List.foldl_append, ← recorded.clocks]
    exact serve_ssd delay served
  · rw [commands]
    exact Medium.legalAll_append.mpr ⟨recorded.legal, legal⟩
  · rw [commands, Medium.run_append]
    exact filled'

theorem recorded_of_reachable (small : geometry.Small) (fits : geometry.Representable)
    (reachable : ((journaled geometry).guarded (Proper geometry)).Reachable (n, log)) :
    ∃ count erases, Recorded geometry count erases n log := by
  refine System.invariant_of_reachable
    (P := fun state => ∃ count erases, Recorded geometry count erases state.1 state.2) ?_ ?_
    reachable
  · rintro _ rfl
    exact ⟨_, _, recorded_femuInit geometry⟩
  · rintro ⟨n, log⟩ io ⟨n', log'⟩ ⟨count, erases, recorded⟩ ⟨proper, now, served, rfl⟩
    exact recorded.extend served
      (recorded.holds.disciplined small fits recorded.filled proper served)

theorem Recorded.keepsRules (recorded : Recorded geometry count erases n log) :
    KeepsRules geometry n log where
  clocks := recorded.clocks
  legal := recorded.legal
  programmed id idLt lpn lt := by
    have below : geometry.pageSec id lpn < geometry.pageSec id (count id) ↔ lpn < count id := by
      simp only [Geometry.pageSec, Nat.mul_lt_mul_left geometry.secsPerPg_pos,
        Nat.add_lt_add_iff_left]
    rw [recorded.holds.zones id idLt, geometry.filled_writePtr, below]
    exact recorded.filled.lt_programmed_iff idLt lt
  wear id idLt lpn lt lpn' lt' :=
    (recorded.filled.erased id idLt lpn lt).trans (recorded.filled.erased id idLt lpn' lt').symm

/-- Whatever the host asks for, as long as its writes pass the tests and cover whole pages
and its reads keep to written sectors, the flash gets legal commands only. -/
theorem keepsRules_of_reachable (geometry : Geometry) (small : geometry.Small)
    (fits : geometry.Representable)
    (reachable : ((journaled geometry).guarded (Proper geometry)).Reachable (n, log)) :
    KeepsRules geometry n log := by
  obtain ⟨count, erases, recorded⟩ := recorded_of_reachable small fits reachable
  exact recorded.keepsRules

/-- The first zone of the new small device, written at once and then reset. -/
theorem keepsRules_after_reset : ∃ n log, log.length = 136 ∧ KeepsRules geometry8G n log := by
  have pages : geometry8G.pages = 128 := by decide +kernel
  have zonesPos : 0 < geometry8G.zones := by decide +kernel
  have small : geometry8G.Small := Geometry.small_of_ttSecs (by decide +kernel)
  have fits : geometry8G.Representable := ⟨by decide +kernel, by decide +kernel⟩
  let req : NvmeRequest := ⟨0, 131072, 1⟩
  have holds := holds_femuInit geometry8G
  have accepted : Accepted (femuInit geometry8G.toSsdConfig geometry8G.devsz) req 0 :=
    accepted_femuInit (by decide +kernel) (by decide) (by decide) (by decide) (by decide +kernel)
  have sectors : req.nlb = geometry8G.secsPerPg * 128 := rfl
  have whole : WholePages geometry8G req := ⟨⟨128, sectors⟩, by decide⟩
  obtain ⟨n, latency, written, -⟩ := znsWrite_eq 1 accepted.zone
  have holds' := holds.write small zonesPos rfl sectors (by decide) (Nat.le_of_eq pages.symm)
    written
  have full : (n.zoneArray 0).d.state = .full := by
    rw [holds'.zones 0 zonesPos, Function.update_self, Nat.zero_add, ← pages]
    exact (geometry8G.filled_full_iff 0 geometry8G.pages).mpr rfl
  have byLba : znsGetZoneByLba n req.slba = some 0 := by
    apply holds'.byLba small zonesPos (Nat.zero_le _)
    rw [pages]
    decide +kernel
  obtain ⟨n', wasReset, -⟩ := holds'.placed.emptied zonesPos byLba full fun block => 2 + block.ch
  have writes := holds.write_commands small zonesPos rfl sectors (by decide)
    (Nat.le_of_eq pages.symm)
  have resets := holds'.reset_commands byLba
  rw [if_pos (by rw [Function.update_self, Nat.zero_add, pages])] at resets
  have erased : (geometry8G.zoneBlocks 0).length = 8 := by decide +kernel
  have first : ((journaled geometry8G).guarded (Proper geometry8G)).Step
      (femuInit geometry8G.toSsdConfig geometry8G.devsz, []) (.write req)
      (n, (Io.write req).issued (.still 1) (femuInit geometry8G.toSsdConfig geometry8G.devsz)) :=
    ⟨⟨⟨0, accepted⟩, whole⟩, .still 1, congrArg (Option.map Prod.fst) written, rfl⟩
  have second : ((journaled geometry8G).guarded (Proper geometry8G)).Step
      (n, (Io.write req).issued (.still 1) (femuInit geometry8G.toSsdConfig geometry8G.devsz))
      (.reset req)
      (n', (Io.write req).issued (.still 1) (femuInit geometry8G.toSsdConfig geometry8G.devsz) ++
        (Io.reset req).issued ⟨2, fun block => 2 + block.ch⟩ n) :=
    ⟨trivial, ⟨2, fun block => 2 + block.ch⟩, wasReset, rfl⟩
  refine ⟨_, _, ?_, keepsRules_of_reachable geometry8G small fits
    (.step (.step (.init rfl) first) second)⟩
  simp only [List.length_append, Io.issued, List.length_map, writes, resets, Layout.fill,
    List.length_range', erased]

end Runs

end ZnsLsm.Flash
