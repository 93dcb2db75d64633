import ZnsLsm.Flash.Config

/-!
# Zones of the flash translation layer

The zone descriptors of `ftl.h`, their initialization by `zns_init`, and the two
ways `ftl.c` finds the physical page behind a page number of a zone: the write
pointer that `zns_advance_write_pointer` moves page by page, and the closed form
of `locate_page` that reads use.
-/

namespace ZnsLsm.Flash

/-- A physical page address, `struct ppa`. -/
@[ext]
structure Ppa where
  blk : Nat
  pg : Nat
  pl : Nat
  lun : Nat
  ch : Nat
  deriving DecidableEq, Repr

/-- `struct zns_write_pointer`. -/
structure ZnsWritePointer where
  fcgId : Nat
  ch : Nat
  lun : Nat
  pg : Nat
  blk : Nat
  pl : Nat
  deriving DecidableEq, Repr

inductive NvmeZoneState
  | empty
  | open
  | full
  deriving DecidableEq, Repr

structure NvmeZoneDescr where
  state : NvmeZoneState
  startLba : Nat
  zoneCap : Nat
  deriving DecidableEq, Repr

structure NvmeZone where
  zoneId : Nat
  d : NvmeZoneDescr
  writePtr : Nat
  wpp : ZnsWritePointer
  deriving DecidableEq, Repr

/-- The part of `struct ssdparams` that request handling reads. -/
structure SsdParams where
  secsz : Nat
  secsPerPg : Nat
  pgsPerBlk : Nat
  blksPerPl : Nat
  nchs : Nat
  pgRdLat : Nat
  pgWrLat : Nat
  blkErLat : Nat
  enableGcDelay : Bool
  secsPerBlk : Nat
  ttSecs : Nat
  ttPgs : Nat
  deriving DecidableEq, Repr

/-- `ssd_init_params`. -/
def ssdInitParams (config : SsdConfig) : SsdParams where
  secsz := config.secsz
  secsPerPg := config.secsPerPg
  pgsPerBlk := config.pgsPerBlk
  blksPerPl := config.blksPerPl
  nchs := config.nchs
  pgRdLat := 40000
  pgWrLat := 200000
  blkErLat := 2000000
  enableGcDelay := true
  secsPerBlk := config.secsPerPg * config.pgsPerBlk
  ttSecs := config.secsPerPg * config.pgsPerBlk * config.blksPerPl * config.plsPerLun *
    config.lunsPerCh * config.nchs
  ttPgs := config.pgsPerBlk * config.blksPerPl * config.plsPerLun * config.lunsPerCh *
    config.nchs

/-- The body of the loop of `zns_init` for zone `i`; `start` is the running byte
offset there. -/
def znsInitZone (spp : SsdParams) (zoneSize numFcg i : Nat) : NvmeZone :=
  let blockSize := spp.secsz * spp.secsPerPg * spp.pgsPerBlk
  let start := i * zoneSize
  { zoneId := i
    d := { state := .empty, startLba := start / spp.secsz, zoneCap := zoneSize }
    writePtr := start / spp.secsz
    wpp :=
      { fcgId := i % numFcg
        ch := spp.nchs / numFcg * (i % numFcg)
        lun := i / (spp.blksPerPl * blockSize * spp.nchs / zoneSize)
        blk := zoneSize / blockSize / (spp.nchs / numFcg) * (i / numFcg) % spp.blksPerPl
        pg := 0
        pl := 0 } }

/-- `n->num_zones` as `zns_init` sets it on a device of `devsz` bytes. -/
def numZones (config : SsdConfig) (devsz : Nat) : Nat :=
  devsz / config.zoneSize

/-- Pages of a zone, as `zns_read` counts them. -/
def pagesPerZone (spp : SsdParams) (zoneSize : Nat) : Nat :=
  zoneSize / (spp.secsPerPg * spp.secsz)

/-- `zns_advance_write_pointer`. -/
def znsAdvanceWritePointer (numFcg : Nat) (spp : SsdParams) (zone : NvmeZone) : NvmeZone :=
  let nchs := spp.nchs / numFcg
  let wpp := zone.wpp
  if (wpp.ch + 1) % nchs = 0 then
    let blockSize := spp.pgsPerBlk * spp.secsPerPg * spp.secsz
    let stripe := zone.d.zoneCap / blockSize / (spp.nchs / numFcg)
    if (wpp.blk + 1) % stripe = 0 then
      { zone with
        wpp :=
          { wpp with
            ch := nchs * wpp.fcgId
            blk := stripe * (zone.zoneId / numFcg) % spp.blksPerPl
            pg := wpp.pg + 1 }
        d :=
          if wpp.pg + 1 = spp.pgsPerBlk then { zone.d with state := .full } else zone.d }
    else
      { zone with wpp := { wpp with ch := nchs * wpp.fcgId, blk := wpp.blk + 1 } }
  else
    { zone with wpp := { wpp with ch := wpp.ch + 1 } }

/-- `get_zns_page`: the page under the write pointer. -/
def getZnsPage (zone : NvmeZone) : Ppa where
  blk := zone.wpp.blk
  pg := zone.wpp.pg
  pl := zone.wpp.pl
  lun := zone.wpp.lun
  ch := zone.wpp.ch

/-- `locate_page`: the page with number `startLpn` of a zone. -/
def locatePage (numFcg : Nat) (spp : SsdParams) (zone : NvmeZone) (startLpn : Nat) : Ppa :=
  let numChip := spp.nchs / numFcg
  let blockSize := spp.secsPerBlk * spp.secsz
  let stripe := zone.d.zoneCap / blockSize / (spp.nchs / numFcg)
  let blockStart := stripe * (zone.zoneId / numFcg) % spp.blksPerPl
  { ch := startLpn % numChip + zone.wpp.fcgId * numChip
    lun := zone.wpp.lun
    blk := startLpn / numChip % stripe + blockStart
    pg := startLpn / numChip / stripe
    pl := 0 }

end ZnsLsm.Flash
