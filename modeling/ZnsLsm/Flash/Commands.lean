import ZnsLsm.Flash.Filling

/-!
# The commands of a request

The loops of `zns_write`, `zns_read` and `zns_reset` walk over pages or blocks and pass each
address to `ssd_advance_status`.  Here are the addresses alone, in order; what a loop does to
the LUNs is what its commands do one after the other.
-/

namespace ZnsLsm.Flash

/-- One command, with the greatest latency so far. -/
def serveCommand (now stime : Nat) (op : NandOp) (state : Ssd × Nat) (ppa : Ppa) : Ssd × Nat :=
  let (lat, ssd) := ssdAdvanceStatus now state.1 ppa op stime
  (ssd, max lat state.2)

/-- The pages that the loop of `zns_write` programs, from the write pointer of `zone` on. -/
def writePages (numFcg : Nat) (sp : SsdParams) : Nat → NvmeZone → List Ppa
  | 0, _ => []
  | count + 1, zone =>
      getZnsPage zone :: writePages numFcg sp count (znsAdvanceWritePointer numFcg sp zone)

/-- The pages that the loop of `zns_read` reads, each with `zone_start` at that time. -/
def readPages (n : FemuCtrl) (zoneEnd : Nat) : Nat → Nat → Ppa → List (Nat × Ppa)
  | 0, _, _ => []
  | count + 1, zone, ppa =>
      let (zoneDone, next) := getNextPage n.numFcg n.ssd.sp (n.zoneArray zone) ppa
      (zone, ppa) ::
        if zoneDone ∧ zone ≠ zoneEnd then
          readPages n zoneEnd count (zone + 1)
            (locatePage n.numFcg n.ssd.sp (n.zoneArray (zone + 1)) 0)
        else
          readPages n zoneEnd count zone next

/-- The blocks that the inner loop of `zns_reset` erases on channel `ch`. -/
def erasedOnChannel (zone : NvmeZone) (stripe ch : Nat) : Nat → Nat → List Ppa
  | 0, _ => []
  | rounds + 1, blk =>
      if blk = zone.wpp.blk ∨ blk % stripe ≠ 0 then
        { blk := blk, pg := 0, pl := 0, lun := zone.wpp.lun, ch := ch } ::
          erasedOnChannel zone stripe ch rounds (blk + 1)
      else
        []

/-- The blocks that `zns_reset` erases on `count` channels from `ch` on. -/
def erasedBlocks (zone : NvmeZone) (stripe : Nat) : Nat → Nat → List Ppa
  | 0, _ => []
  | count + 1, ch =>
      erasedOnChannel zone stripe ch stripe zone.wpp.blk ++ erasedBlocks zone stripe count (ch + 1)

/-- The loop of `zns_write`. -/
theorem znsWriteLoop_commands (numFcg now stime count : Nat) (zone : NvmeZone) (ssd : Ssd)
    (maxlat : Nat) :
    znsWriteLoop numFcg now stime count (zone, ssd, maxlat) =
      ((znsAdvanceWritePointer numFcg ssd.sp)^[count] zone,
        (writePages numFcg ssd.sp count zone).foldl (serveCommand now stime .write)
          (ssd, maxlat)) := by
  induction count generalizing zone ssd maxlat with
  | zero => rfl
  | succ count ih =>
      rw [Function.iterate_succ_apply]
      exact ih (znsAdvanceWritePointer numFcg ssd.sp zone)
        (ssdAdvanceStatus now ssd (getZnsPage zone) .write stime).2 _

/-- The loop of `zns_read`; latencies are not looked at. -/
theorem znsReadLoop_commands (now stime zoneEnd : Nat) (n : FemuCtrl) (count zone : Nat) (ppa : Ppa)
    {ssd : Ssd} (sp : ssd.sp = n.ssd.sp) :
    (znsReadLoop now stime zoneEnd n count (zone, ppa, ssd)).2.2 =
      (readPages n zoneEnd count zone ppa).foldl
        (fun ssd visit => (ssdAdvanceStatus now ssd visit.2 .read stime).2) ssd := by
  induction count generalizing zone ppa ssd with
  | zero => rfl
  | succ count ih =>
      have sp' : (ssdAdvanceStatus now ssd ppa .read stime).2.sp = n.ssd.sp := sp
      simp only [znsReadLoop, readPages, List.foldl_cons, sp']
      split
      · exact ih _ _ sp'
      · exact ih _ _ sp'

/-- `zone_start` does not run past `zone_end`. -/
theorem znsReadLoop_zone_le (now stime : Nat) {zoneEnd : Nat} (n : FemuCtrl) (count : Nat)
    {zone : Nat} (ppa : Ppa) (ssd : Ssd) (le : zone ≤ zoneEnd) :
    (znsReadLoop now stime zoneEnd n count (zone, ppa, ssd)).1 ≤ zoneEnd := by
  induction count generalizing zone ppa ssd with
  | zero => exact le
  | succ count ih =>
      simp only [znsReadLoop]
      split
      · rename_i crosses
        exact ih _ _ (Nat.lt_of_le_of_ne le crosses.2)
      · exact ih _ _ le

theorem eraseBlocks_commands (clock : Ppa → Nat) (zone : NvmeZone)
    (stripe ch rounds blk : Nat) (ssd : Ssd) :
    eraseBlocks clock zone stripe ch rounds blk ssd =
      (erasedOnChannel zone stripe ch rounds blk).foldl (eraseBlock clock) ssd := by
  induction rounds generalizing blk ssd with
  | zero => rfl
  | succ rounds ih =>
      simp only [eraseBlocks, erasedOnChannel]
      split
      · exact ih ..
      · rfl

/-- The loops of `zns_reset`. -/
theorem eraseChannels_commands (clock : Ppa → Nat) (zone : NvmeZone) (stripe count ch : Nat)
    (ssd : Ssd) :
    eraseChannels clock zone stripe count ch ssd =
      (erasedBlocks zone stripe count ch).foldl (eraseBlock clock) ssd := by
  induction count generalizing ch ssd with
  | zero => rfl
  | succ count ih =>
      rw [eraseChannels, erasedBlocks, List.foldl_append, ih, eraseBlocks_commands]

/-- `NAND_ERASE` of a block, and the note when its LUN becomes free. -/
def eraseCommand (now : Nat) (ssd : Ssd) (ppa : Ppa) : Ssd :=
  let ssd := (ssdAdvanceStatus now ssd ppa .erase 0).2
  let clocks := ssd.lun ppa.ch ppa.lun
  ssd.setLun ppa.ch ppa.lun { clocks with gcEndtime := clocks.nextLunAvailTime }

/-- As the source sets `enable_gc_delay`, every block gets its `NAND_ERASE`. -/
theorem foldl_eraseBlock (clock : Ppa → Nat) (blocks : List Ppa) {ssd : Ssd}
    (delay : ssd.sp.enableGcDelay = true) :
    blocks.foldl (eraseBlock clock) ssd =
      blocks.foldl (fun ssd ppa => eraseCommand (clock ppa) ssd ppa) ssd := by
  induction blocks generalizing ssd with
  | nil => rfl
  | cons ppa blocks ih =>
      have first : eraseBlock clock ssd ppa = eraseCommand (clock ppa) ssd ppa := by
        simp only [eraseBlock, delay, if_true]
        rfl
      rw [List.foldl_cons, List.foldl_cons, first]
      exact ih delay

end ZnsLsm.Flash
