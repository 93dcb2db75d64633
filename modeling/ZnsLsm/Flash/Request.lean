import ZnsLsm.Flash.Zone

/-!
# Requests of the flash translation layer

`dispatch_io` turns a byte range into sectors and hands it to `zns_write`,
`zns_read` or `zns_reset`.  These move the zones' write pointers and the clocks of
the LUNs.  `none` is the failed assertion of `zns_get_zone_by_lba`.

`zns_check_zone_write` only prints: the model keeps what it printed in `errors`,
newest first.  The wall clock is the parameter `now`, read where a command carries
no start time of its own; the erases of a reset never carry one, so each reads it anew.
-/

namespace ZnsLsm.Flash

/-- The clock fields of `struct nand_lun`. -/
structure NandLun where
  nextLunAvailTime : Nat
  gcEndtime : Nat
  deriving DecidableEq, Repr

/-- The LUNs, addressed by channel and LUN number, and the parameters. -/
structure Ssd where
  sp : SsdParams
  lun : Nat → Nat → NandLun

/-- The lines that `ftl_err` prints for a bad request. -/
inductive FtlErr
  | pastDevice (slba : Nat)
  | zoneBoundary
  | zoneFull
  | invalidWrite (writePtr slba zoneId : Nat)
  | readPastDevice (startLpn : Nat)
  deriving DecidableEq, Repr

structure FemuCtrl where
  zoneArray : Nat → NvmeZone
  ssd : Ssd
  zoneSize : Nat
  numZones : Nat
  numFcg : Nat
  errors : List FtlErr

/-- The fields of `NvmeRequest` that the translation layer reads. -/
structure NvmeRequest where
  slba : Nat
  nlb : Nat
  stime : Nat
  deriving DecidableEq, Repr

/-- What the wall clock shows while a request is served: `dispatch_io` reads it once, and a
reset once more for each block that it erases. -/
structure Clock where
  time : Nat
  erase : Ppa → Nat

/-- A clock that stands still. -/
def Clock.still (time : Nat) : Clock :=
  ⟨time, fun _ => time⟩

inductive NandOp
  | read
  | write
  | erase
  deriving DecidableEq, Repr

/-- `femu_init`: `ssd_init` and `zns_init` on a device of `devsz` bytes. -/
def femuInit (config : SsdConfig) (devsz : Nat) : FemuCtrl where
  zoneArray := znsInitZone (ssdInitParams config) config.zoneSize config.numFcgs
  ssd := { sp := ssdInitParams config, lun := fun _ _ => ⟨0, 0⟩ }
  zoneSize := config.zoneSize
  numZones := numZones config devsz
  numFcg := config.numFcgs
  errors := []

/-- Overwrite one zone descriptor. -/
def FemuCtrl.setZone (n : FemuCtrl) (idx : Nat) (zone : NvmeZone) : FemuCtrl :=
  { n with zoneArray := Function.update n.zoneArray idx zone }

/-- Overwrite the clocks of one LUN. -/
def Ssd.setLun (ssd : Ssd) (ch lun : Nat) (clocks : NandLun) : Ssd :=
  { ssd with
    lun := Function.update ssd.lun ch (Function.update (ssd.lun ch) lun clocks) }

@[simp]
theorem Ssd.setLun_lun_self (ssd : Ssd) (ch lun : Nat) (clocks : NandLun) :
    (ssd.setLun ch lun clocks).lun ch lun = clocks := by
  simp only [setLun, Function.update_self]

@[simp]
theorem Ssd.setLun_lun_of_ne (ssd : Ssd) (clocks : NandLun) {ch lun ch' lun' : Nat}
    (differ : ¬(ch = ch' ∧ lun = lun')) :
    (ssd.setLun ch lun clocks).lun ch' lun' = ssd.lun ch' lun' := by
  by_cases sameCh : ch' = ch
  · subst sameCh
    simp only [setLun, Function.update_self]
    apply Function.update_of_ne
    rintro rfl
    exact differ ⟨rfl, rfl⟩
  · simp only [setLun, Function.update_of_ne sameCh]

/-- The latency that `ssd_advance_status` adds for a command. -/
def NandOp.latency (sp : SsdParams) : NandOp → Nat
  | .read => sp.pgRdLat
  | .write => sp.pgWrLat
  | .erase => sp.blkErLat

/-- `ssd_advance_status`: the command waits for its LUN and occupies it for the
latency of the operation.  The first component is the latency seen by the
request. -/
def ssdAdvanceStatus (now : Nat) (ssd : Ssd) (ppa : Ppa) (cmd : NandOp) (stime : Nat) :
    Nat × Ssd :=
  let cmdStime := if stime = 0 then now else stime
  let lun := ssd.lun ppa.ch ppa.lun
  let nandStime :=
    if lun.nextLunAvailTime < cmdStime then cmdStime else lun.nextLunAvailTime
  let avail := nandStime + cmd.latency ssd.sp
  (avail - cmdStime, ssd.setLun ppa.ch ppa.lun { lun with nextLunAvailTime := avail })

/-- `zns_zone_idx`; the result is a `uint32_t`. -/
def znsZoneIdx (n : FemuCtrl) (slba : Nat) : Nat :=
  slba / (n.zoneSize / n.ssd.sp.secsz) % 2 ^ 32

/-- `zns_get_zone_by_lba`, as an index into the zone array. -/
def znsGetZoneByLba (n : FemuCtrl) (slba : Nat) : Option Nat :=
  let zoneIdx := znsZoneIdx n slba
  if zoneIdx < n.numZones then some zoneIdx else none

/-- The last sector of a request, computed in unsigned 64-bit arithmetic. -/
def lastSector (slba nlb : Nat) : Nat :=
  let past := (slba + nlb) % 2 ^ 64
  if past = 0 then 2 ^ 64 - 1 else past - 1

/-- `zns_check_zone_write`: the errors that it prints, in order. -/
def znsCheckZoneWrite (sp : SsdParams) (zone : NvmeZone) (slba nlb : Nat) : List FtlErr :=
  let past := (slba + nlb) % 2 ^ 64
  (if sp.ttSecs < past then [.pastDevice slba] else []) ++
  (if zone.d.startLba + zone.d.zoneCap / sp.secsz < past then [.zoneBoundary] else []) ++
  (if zone.d.state = .full then [.zoneFull] else []) ++
  (if zone.writePtr ≠ slba then [.invalidWrite zone.writePtr slba zone.zoneId] else [])

/-- The loop of `zns_write` over `count` pages, with the running maximum. -/
def znsWriteLoop (numFcg now stime : Nat) :
    Nat → NvmeZone × Ssd × Nat → NvmeZone × Ssd × Nat
  | 0, acc => acc
  | count + 1, (zone, ssd, maxlat) =>
      let ppa := getZnsPage zone
      let zone := znsAdvanceWritePointer numFcg ssd.sp zone
      let (curlat, ssd) := ssdAdvanceStatus now ssd ppa .write stime
      znsWriteLoop numFcg now stime count (zone, ssd, max curlat maxlat)

/-- `zns_write`; the second component is the latency it returns. -/
def znsWrite (now : Nat) (n : FemuCtrl) (req : NvmeRequest) : Option (FemuCtrl × Nat) :=
  match znsGetZoneByLba n req.slba with
  | none => none
  | some idx =>
      let sp := n.ssd.sp
      let zone := n.zoneArray idx
      let errors := znsCheckZoneWrite sp zone req.slba req.nlb
      let zone := { zone with writePtr := (zone.writePtr + req.nlb) % 2 ^ 64 }
      let startLpn := req.slba / sp.secsPerPg
      let endLpn := lastSector req.slba req.nlb / sp.secsPerPg
      let (zone, ssd, maxlat) :=
        znsWriteLoop n.numFcg now req.stime (endLpn + 1 - startLpn) (zone, n.ssd, 0)
      some ({ n.setZone idx zone with ssd := ssd, errors := errors.reverse ++ n.errors },
        maxlat)

/-- `get_next_page`; the flag reports the end of the zone. -/
def getNextPage (numFcg : Nat) (sp : SsdParams) (zone : NvmeZone) (page : Ppa) :
    Bool × Ppa :=
  let nchs := sp.nchs / numFcg
  if (page.ch + 1) % nchs = 0 then
    let blockSize := sp.secsPerBlk * sp.secsz
    let stripe := zone.d.zoneCap / blockSize / (sp.nchs / numFcg)
    if (page.blk + 1) % stripe = 0 then
      (page.pg + 1 == sp.pgsPerBlk,
        { page with
          ch := nchs * zone.wpp.fcgId
          blk := stripe * (zone.zoneId / numFcg) % sp.blksPerPl
          pg := page.pg + 1 })
    else
      (false, { page with ch := nchs * zone.wpp.fcgId, blk := page.blk + 1 })
  else
    (false, { page with ch := page.ch + 1 })

/-- The loop of `zns_read` over `count` pages; `zone` is the index of `zone_start`. -/
def znsReadLoop (now stime zoneEnd : Nat) (n : FemuCtrl) :
    Nat → Nat × Ppa × Ssd → Nat × Ppa × Ssd
  | 0, acc => acc
  | count + 1, (zone, ppa, ssd) =>
      let ssd := (ssdAdvanceStatus now ssd ppa .read stime).2
      let (zoneDone, ppa) := getNextPage n.numFcg ssd.sp (n.zoneArray zone) ppa
      if zoneDone ∧ zone ≠ zoneEnd then
        znsReadLoop now stime zoneEnd n count
          (zone + 1, locatePage n.numFcg ssd.sp (n.zoneArray (zone + 1)) 0, ssd)
      else
        znsReadLoop now stime zoneEnd n count (zone, ppa, ssd)

/-- `zns_read`; it always returns latency 0. -/
def znsRead (now : Nat) (n : FemuCtrl) (req : NvmeRequest) : Option (FemuCtrl × Nat) :=
  match znsGetZoneByLba n req.slba, znsGetZoneByLba n (lastSector req.slba req.nlb) with
  | some zoneStart, some zoneEnd =>
      let sp := n.ssd.sp
      let startLpn := req.slba / sp.secsPerPg
      let endLpn := lastSector req.slba req.nlb / sp.secsPerPg
      let lpnInZone := startLpn % (n.zoneSize / (sp.secsPerPg * sp.secsz))
      let ppa := locatePage n.numFcg sp (n.zoneArray zoneStart) lpnInZone
      let errors := if sp.ttPgs ≤ endLpn then [FtlErr.readPastDevice startLpn] else []
      let (_, _, ssd) :=
        znsReadLoop now req.stime zoneEnd n (endLpn + 1 - startLpn) (zoneStart, ppa, n.ssd)
      some ({ n with ssd := ssd, errors := errors ++ n.errors }, 0)
  | _, _ => none

/-- `zns_reset_wpp`. -/
def znsResetWpp (numFcg blockSize : Nat) (sp : SsdParams) (zone : NvmeZone) : NvmeZone :=
  let id := zone.zoneId
  { zone with
    wpp :=
      { fcgId := id % numFcg
        ch := sp.nchs / numFcg * (id % numFcg)
        lun := id / (sp.blksPerPl * blockSize * sp.nchs / zone.d.zoneCap)
        blk := zone.d.zoneCap / blockSize / (sp.nchs / numFcg) * (id / numFcg) % sp.blksPerPl
        pg := 0
        pl := 0 }
    d := { zone.d with state := .empty } }

/-- Erase one block, at the time that the clock shows then, and note when its LUN becomes
free. -/
def eraseBlock (clock : Ppa → Nat) (ssd : Ssd) (ppa : Ppa) : Ssd :=
  let ssd :=
    if ssd.sp.enableGcDelay then (ssdAdvanceStatus (clock ppa) ssd ppa .erase 0).2 else ssd
  let clocks := ssd.lun ppa.ch ppa.lun
  ssd.setLun ppa.ch ppa.lun { clocks with gcEndtime := clocks.nextLunAvailTime }

/-- The inner loop of `zns_reset`, which stops at a block past the first that is a
multiple of `stripe`; that takes at most `stripe` rounds. -/
def eraseBlocks (clock : Ppa → Nat) (zone : NvmeZone) (stripe ch : Nat) : Nat → Nat → Ssd → Ssd
  | 0, _, ssd => ssd
  | rounds + 1, blk, ssd =>
      if blk = zone.wpp.blk ∨ blk % stripe ≠ 0 then
        eraseBlocks clock zone stripe ch rounds (blk + 1)
          (eraseBlock clock ssd { blk := blk, pg := 0, pl := 0, lun := zone.wpp.lun, ch := ch })
      else
        ssd

/-- The outer loop of `zns_reset` over `count` channels from `ch` on. -/
def eraseChannels (clock : Ppa → Nat) (zone : NvmeZone) (stripe : Nat) :
    Nat → Nat → Ssd → Ssd
  | 0, _, ssd => ssd
  | count + 1, ch, ssd =>
      eraseChannels clock zone stripe count (ch + 1)
        (eraseBlocks clock zone stripe ch stripe zone.wpp.blk ssd)

/-- `zns_reset`: only a full zone is reset. -/
def znsReset (clock : Ppa → Nat) (n : FemuCtrl) (req : NvmeRequest) : Option FemuCtrl :=
  match znsGetZoneByLba n req.slba with
  | none => none
  | some idx =>
      let sp := n.ssd.sp
      let zone := n.zoneArray idx
      if zone.d.state ≠ .full then
        some n
      else
        let blockSize := sp.pgsPerBlk * sp.secsPerPg * sp.secsz
        let zone :=
          znsResetWpp n.numFcg blockSize sp { zone with writePtr := zone.d.startLba }
        let stripe := zone.d.zoneCap / blockSize / (sp.nchs / n.numFcg)
        let lastCh := sp.nchs / n.numFcg * (zone.wpp.fcgId + 1)
        let ssd := eraseChannels clock zone stripe (lastCh - zone.wpp.ch) zone.wpp.ch n.ssd
        some { n.setZone idx zone with ssd := ssd }

/-- The request that `dispatch_io` builds for a byte range. -/
def dispatchRequest (now : Nat) (n : FemuCtrl) (len offset : Nat) : NvmeRequest :=
  let secsz := n.ssd.sp.secsz
  { slba := offset / secsz
    nlb := (offset + len) / secsz - offset / secsz
    stime := now }

/-- `femu_write`, up to the busy wait for the latency. -/
def femuWrite (now : Nat) (n : FemuCtrl) (len offset : Nat) : Option FemuCtrl :=
  (znsWrite now n (dispatchRequest now n len offset)).map Prod.fst

/-- `femu_read`, up to the busy wait for the latency. -/
def femuRead (now : Nat) (n : FemuCtrl) (len offset : Nat) : Option FemuCtrl :=
  (znsRead now n (dispatchRequest now n len offset)).map Prod.fst

/-- `femu_reset`. -/
def femuReset (now : Clock) (n : FemuCtrl) (len offset : Nat) : Option FemuCtrl :=
  znsReset now.erase n (dispatchRequest now.time n len offset)

end ZnsLsm.Flash
