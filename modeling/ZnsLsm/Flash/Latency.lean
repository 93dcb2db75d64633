import ZnsLsm.Flash.Commands
import ZnsLsm.Flash.Placement
import ZnsLsm.Makespan
import ZnsLsm.RoundRobin

/-!
# How long a write takes

The pages of a write lie on one LUN number of the channels of a group, dealt out channel by
channel.  All its commands carry the start time of the request, so the channels are servers
that work in parallel, and `zns_write` returns when the last one is done.
-/

namespace ZnsLsm.Flash

open ZnsLsm.Makespan ZnsLsm.RoundRobin ZnsLsm.Transition

/-! ## Commands are jobs -/

/-- When the LUNs with number `lun` are free, by channel. -/
def Ssd.avail (ssd : Ssd) (lun ch : Nat) : Nat :=
  (ssd.lun ch lun).nextLunAvailTime

@[simp]
theorem Ssd.avail_setLun (ssd : Ssd) (ch lun : Nat) (clocks : NandLun) :
    (ssd.setLun ch lun clocks).avail lun =
      Function.update (ssd.avail lun) ch clocks.nextLunAvailTime := by
  funext other
  by_cases same : other = ch
  · subst same
    rw [Function.update_self, avail, setLun_lun_self]
  · rw [Function.update_of_ne same, avail, setLun_lun_of_ne _ _ fun at_ => same at_.1.symm]
    rfl

/-- One command with a start time of its own. -/
theorem serveCommand_write (now : Nat) {stime : Nat} (started : 0 < stime) (ssd : Ssd)
    (maxlat : Nat) (ppa : Ppa) :
    ((serveCommand now stime .write (ssd, maxlat) ppa).1.avail ppa.lun,
        (serveCommand now stime .write (ssd, maxlat) ppa).2) =
      (occupy stime ssd.sp.pgWrLat (ssd.avail ppa.lun) ppa.ch,
        max (max (ssd.avail ppa.lun ppa.ch) stime + ssd.sp.pgWrLat - stime) maxlat) := by
  have waits : (if (ssd.lun ppa.ch ppa.lun).nextLunAvailTime < stime then stime
      else (ssd.lun ppa.ch ppa.lun).nextLunAvailTime) =
        max (ssd.avail ppa.lun ppa.ch) stime := by
    rw [Ssd.avail]
    split
    · rename_i free
      exact (max_eq_right free.le).symm
    · rename_i busy
      exact (max_eq_left (Nat.le_of_not_lt busy)).symm
  simp only [serveCommand, ssdAdvanceStatus, if_neg started.ne', waits, NandOp.latency,
    Ssd.avail_setLun, occupy]

/-- The commands of a write on one LUN number are jobs for its channels. -/
theorem foldl_serveCommand (now : Nat) {stime lun : Nat} (started : 0 < stime) (ppas : List Ppa)
    (onLun : ∀ ppa ∈ ppas, ppa.lun = lun) (ssd : Ssd) (maxlat : Nat) :
    ((ppas.foldl (serveCommand now stime .write) (ssd, maxlat)).1.avail lun,
        (ppas.foldl (serveCommand now stime .write) (ssd, maxlat)).2) =
      Makespan.serve stime ssd.sp.pgWrLat (ppas.map Ppa.ch) (ssd.avail lun, maxlat) := by
  induction ppas generalizing ssd maxlat with
  | nil => rfl
  | cons ppa ppas ih =>
      obtain ⟨rfl, rest⟩ := List.forall_mem_cons.mp onLun
      have first := serveCommand_write now started ssd maxlat ppa
      have sp : (serveCommand now stime .write (ssd, maxlat) ppa).1.sp = ssd.sp := rfl
      rw [List.foldl_cons, ih rest, first, sp]
      rfl

/-! ## Where the pages of a write are -/

theorem writePages_eq (numFcg : Nat) (sp : SsdParams) (count : Nat) (zone : NvmeZone) :
    writePages numFcg sp count zone =
      (List.range count).map fun steps =>
        getZnsPage ((znsAdvanceWritePointer numFcg sp)^[steps] zone) := by
  induction count generalizing zone with
  | zero => rfl
  | succ count ih =>
      rw [writePages, ih, List.range_succ_eq_map, List.map_cons, List.map_map]
      rfl

@[simp]
theorem writePages_setWritePtr (numFcg : Nat) (sp : SsdParams) (count writePtr : Nat)
    (zone : NvmeZone) :
    writePages numFcg sp count { zone with writePtr := writePtr } =
      writePages numFcg sp count zone := by
  rw [writePages_eq, writePages_eq]
  apply List.map_congr_left
  intro steps _
  rw [iterate_setWritePtr]
  rfl

namespace Geometry

variable (geometry : Geometry)

/-- The write pointer goes round the channels of its group, also when the zone is full. -/
@[simp]
theorem advance_ch (id steps : Nat) :
    (geometry.advance^[steps] (geometry.zone id)).wpp.ch =
      geometry.chips * (id % geometry.numFcgs) + steps % geometry.chips := by
  induction steps with
  | zero => rw [Nat.zero_mod, Nat.add_zero, ← zone_ch]; rfl
  | succ steps ih =>
      obtain ⟨-, -, -, fcgId, -⟩ :=
        iterate_frame geometry.numFcgs geometry.spp steps (geometry.zone id)
      rw [Function.iterate_succ_apply']
      change _ = id % geometry.numFcgs at fcgId
      change (geometry.advance^[steps] (geometry.zone id)).wpp.fcgId = _ at fcgId
      generalize geometry.advance^[steps] (geometry.zone id) = zone at ih fcgId
      have carry : (zone.wpp.ch + 1) % geometry.chips = (steps + 1) % geometry.chips := by
        rw [ih, Nat.add_assoc, Nat.mul_add_mod, Nat.mod_add_mod]
      simp only [advance, znsAdvanceWritePointer, spp_nchs_div, carry]
      split
      · rename_i wraps
        rw [wraps, Nat.add_zero, ← fcgId]
        split
        · rfl
        · rfl
      · rename_i inner
        have less := Nat.mod_lt steps geometry.chips_pos
        have next : (steps + 1) % geometry.chips = steps % geometry.chips + 1 := by
          rw [← Nat.mod_add_mod] at inner ⊢
          apply Nat.mod_eq_of_lt
          apply Nat.lt_of_le_of_ne less
          intro last
          rw [← Nat.succ_eq_add_one, last, Nat.mod_self] at inner
          exact inner rfl
        rw [next, ← Nat.add_assoc, ← ih]

/-- As long as the zone has room, the write pointer goes over its page numbers. -/
theorem writePages_page (id : Nat) {first count : Nat} (le : first + count ≤ geometry.pages) :
    writePages geometry.numFcgs geometry.spp count
        (geometry.advance^[first] (geometry.zone id)) =
      (List.range' first count).map (geometry.page id) := by
  rw [writePages_eq, List.range'_eq_map_range, List.map_map]
  apply List.map_congr_left
  intro more mem
  have lt : more + first ≤ geometry.pages := by
    have moreLt := List.mem_range.mp mem
    omega
  have page := geometry.getZnsPage_zoneAfter id (more + first)
  rw [← geometry.iterate_advance id lt, Function.iterate_add_apply] at page
  rw [Function.comp_apply, Nat.add_comm first]
  exact page

/-- Successive pages go to successive channels of the group. -/
theorem channels_writePages (id steps count : Nat) :
    (writePages geometry.numFcgs geometry.spp count
        (geometry.advance^[steps] (geometry.zone id))).map Ppa.ch =
      (turns geometry.chips steps count).map
        (geometry.chips * (id % geometry.numFcgs) + ·) := by
  rw [writePages_eq, List.map_map, turns, List.map_map]
  apply List.map_congr_left
  intro more _
  have after := geometry.advance_ch id (more + steps)
  rw [Function.iterate_add_apply, Nat.add_comm more] at after
  exact after

theorem lun_writePages {id steps count : Nat} {ppa : Ppa}
    (mem : ppa ∈ writePages geometry.numFcgs geometry.spp count
      (geometry.advance^[steps] (geometry.zone id))) :
    ppa.lun = (geometry.zone id).wpp.lun := by
  rw [writePages_eq] at mem
  obtain ⟨more, -, rfl⟩ := List.mem_map.mp mem
  obtain ⟨-, -, -, -, lun⟩ :=
    iterate_frame geometry.numFcgs geometry.spp (more + steps) (geometry.zone id)
  rw [Function.iterate_add_apply] at lun
  exact lun

end Geometry

/-! ## Shares of the channels -/

section Shares

variable {n start m base party arrival len : Nat} {clock : Nat → Nat}

/-- Moving the parties to other numbers keeps their shares. -/
theorem count_map_add_turns :
    ((turns n start m).map (base + ·)).count (base + party) = (turns n start m).count party :=
  List.count_map_of_injective _ _ (fun _ _ => Nat.add_left_cancel) _

/-- On free servers that take turns, the first one is busy for the longest time. -/
theorem sup_span_turns (pos : 0 < n) (jobs : 0 < m)
    (idle : ∀ party < n, clock (base + party) ≤ arrival) :
    ((turns n start m).map (base + ·)).toFinset.sup
        (span arrival len clock ((turns n start m).map (base + ·))) =
      largestShare n m * len := by
  apply le_antisymm
  · apply Finset.sup_le
    intro server mem
    obtain ⟨party, turn, rfl⟩ := List.mem_map.mp (List.mem_toFinset.mp mem)
    have lt := lt_of_mem_turns pos turn
    rw [span_of_idle (idle party lt), count_map_add_turns]
    exact Nat.mul_le_mul_right len (count_turns_le lt)
  · have first : start % n ∈ turns n start m := by
      obtain ⟨more, rfl⟩ := Nat.exists_eq_succ_of_ne_zero jobs.ne'
      rw [Nat.succ_eq_add_one, turns_cons]
      exact List.mem_cons_self
    have server : base + start % n ∈ ((turns n start m).map (base + ·)).toFinset :=
      List.mem_toFinset.mpr (List.mem_map_of_mem first)
    have longest := Finset.le_sup (f := span arrival len clock ((turns n start m).map (base + ·)))
      server
    rw [span_of_idle (idle _ (Nat.mod_lt start pos)), count_map_add_turns,
      count_turns_start pos] at longest
    exact longest

end Shares

/-! ## The request -/

/-- The addresses that `zns_write` passes to `ssd_advance_status`. -/
def writeVisits (n : FemuCtrl) (req : NvmeRequest) : List Ppa :=
  match znsGetZoneByLba n req.slba with
  | none => []
  | some idx =>
      writePages n.numFcg n.ssd.sp (pagesTouched n.ssd.sp req) (n.zoneArray idx)

/-- What `zns_write` does to the LUNs, and the latency, is that of its addresses, in order. -/
theorem znsWrite_commands {now latency : Nat} {n n' : FemuCtrl} {req : NvmeRequest}
    (written : znsWrite now n req = some (n', latency)) :
    (n'.ssd, latency) =
      (writeVisits n req).foldl (serveCommand now req.stime .write) (n.ssd, 0) := by
  cases byLba : znsGetZoneByLba n req.slba with
  | none => simp [znsWrite, byLba] at written
  | some idx =>
      simp only [znsWrite, byLba, znsWriteLoop_commands, writePages_setWritePtr] at written
      cases written
      simp only [writeVisits, byLba]
      rfl

/-- The same device with other LUN clocks. -/
def FemuCtrl.withClocks (n : FemuCtrl) (lun : Nat → Nat → NandLun) : FemuCtrl :=
  { n with ssd := { n.ssd with lun := lun } }

/-- The latency of a write of `m` pages to zone `id` is the time until the last of its channels
is done, and the channels share the pages evenly. -/
structure TakesMakespan (geometry : Geometry) (now : Nat) (n n' : FemuCtrl) (req : NvmeRequest)
    (latency id m : Nat) : Prop where
  commands : (n'.ssd, latency) =
    (writeVisits n req).foldl (serveCommand now req.stime .write) (n.ssd, 0)
  length : (writeVisits n req).length = m
  pages : (n.zoneArray id).d.state ≠ .full → ∀ first,
    getZnsPage (n.zoneArray id) = locatePage n.numFcg n.ssd.sp (n.zoneArray id) first →
    first + m ≤ geometry.pages →
    writeVisits n req =
      (List.range' first m).map (locatePage n.numFcg n.ssd.sp (n.zoneArray id))
  onLun : ∀ ppa ∈ writeVisits n req, ppa.lun = (n.zoneArray id).wpp.lun
  inGroup : ∀ ppa ∈ writeVisits n req, ppa.ch / geometry.chips = (n.zoneArray id).wpp.fcgId
  latency_eq : latency = ((writeVisits n req).map Ppa.ch).toFinset.sup fun ch =>
    max (n.ssd.avail (n.zoneArray id).wpp.lun ch) req.stime +
      ((writeVisits n req).map Ppa.ch).count ch * n.ssd.sp.pgWrLat - req.stime
  shares : ∀ ch, ch / geometry.chips = (n.zoneArray id).wpp.fcgId →
    m / geometry.chips ≤ ((writeVisits n req).map Ppa.ch).count ch ∧
      ((writeVisits n req).map Ppa.ch).count ch ≤ largestShare geometry.chips m
  idle : (∀ ch, ch / geometry.chips = (n.zoneArray id).wpp.fcgId →
      n.ssd.avail (n.zoneArray id).wpp.lun ch ≤ req.stime) →
    latency = largestShare geometry.chips m * n.ssd.sp.pgWrLat

section Writes

variable {geometry : Geometry} {n n' : FemuCtrl} {id m : Nat} {req : NvmeRequest}

theorem Placed.withClocks (placed : Placed geometry n) (lun : Nat → Nat → NandLun) :
    Placed geometry (n.withClocks lun) :=
  ⟨placed.sp, placed.zoneSize, placed.numZones, placed.numFcg, placed.zones⟩

/-- The pages of a write start at the write pointer of its zone. -/
theorem Placed.writeVisits_eq (placed : Placed geometry n)
    (byLba : znsGetZoneByLba n req.slba = some id) (touched : pagesTouched n.ssd.sp req = m)
    {steps writePtr : Nat} (zone : n.zoneArray id =
      { geometry.advance^[steps] (geometry.zone id) with writePtr := writePtr }) :
    writeVisits n req = writePages geometry.numFcgs geometry.spp m
      (geometry.advance^[steps] (geometry.zone id)) := by
  simp only [writeVisits, byLba]
  rw [touched, zone, writePages_setWritePtr, placed.numFcg, placed.sp]

/-- The write pointer of a zone that is not full counts its pages. -/
theorem Placed.writeVisits_page (placed : Placed geometry n) (idLt : id < geometry.zones)
    (byLba : znsGetZoneByLba n req.slba = some id) (touched : pagesTouched n.ssd.sp req = m)
    (pos : 0 < m) (notFull : (n.zoneArray id).d.state ≠ .full) {first : Nat}
    (stands : getZnsPage (n.zoneArray id) = geometry.page id first)
    (le : first + m ≤ geometry.pages) :
    writeVisits n req = (List.range' first m).map (geometry.page id) := by
  obtain ⟨steps, writePtr, zone⟩ := placed.zones id idLt
  rw [placed.writeVisits_eq byLba touched zone]
  have stepsLt : steps < geometry.pages := by
    by_contra beyond
    have full := geometry.iterate_advance_full id (Nat.zero_le _)
      (Nat.zero_add steps ▸ Nat.le_of_not_lt beyond)
    rw [← geometry.zone_eq_filled] at full
    rw [zone] at notFull
    exact notFull full
  have page : geometry.page id steps = geometry.page id first := by
    rw [← stands, zone, geometry.iterate_advance id stepsLt.le]
    exact (geometry.getZnsPage_zoneAfter id steps).symm
  have same : (id, steps) = (id, first) :=
    geometry.page_injOn ⟨idLt, stepsLt⟩ ⟨idLt, show first < geometry.pages by omega⟩ page
  cases same
  exact geometry.writePages_page id le

theorem Placed.takesMakespan (placed : Placed geometry n) (idLt : id < geometry.zones)
    (byLba : znsGetZoneByLba n req.slba = some id) (touched : pagesTouched n.ssd.sp req = m)
    (pos : 0 < m) (started : 0 < req.stime) {now latency : Nat}
    (written : znsWrite now n req = some (n', latency)) :
    TakesMakespan geometry now n n' req latency id m := by
  obtain ⟨-, -, -, fcgId, lun⟩ := placed.frame idLt
  obtain ⟨steps, writePtr, zone⟩ := placed.zones id idLt
  have visits := placed.writeVisits_eq byLba touched zone
  have channels := geometry.channels_writePages id steps m
  rw [← visits] at channels
  have onLun : ∀ ppa ∈ writeVisits n req, ppa.lun = (n.zoneArray id).wpp.lun := by
    intro ppa mem
    rw [visits] at mem
    rw [lun]
    exact geometry.lun_writePages mem
  have commands := znsWrite_commands written
  have served := foldl_serveCommand now started (writeVisits n req) onLun n.ssd 0
  rw [← commands] at served
  have latency_eq : latency = _ := (congrArg Prod.snd served).trans
    (longest_serve req.stime n.ssd.sp.pgWrLat (n.ssd.avail (n.zoneArray id).wpp.lun)
      ((writeVisits n req).map Ppa.ch))
  have inGroup : ∀ party < geometry.chips,
      (geometry.chips * (id % geometry.numFcgs) + party) / geometry.chips =
        id % geometry.numFcgs := by
    intro party lt
    rw [Nat.mul_add_div geometry.chips_pos, Nat.div_eq_of_lt lt, Nat.add_zero]
  constructor
  · exact commands
  · rw [← List.length_map Ppa.ch, channels, List.length_map, length_turns]
  · intro notFull first stands le
    rw [placed.numFcg, placed.sp] at stands ⊢
    rw [placed.locatePage_eq idLt] at stands
    rw [placed.writeVisits_page idLt byLba touched pos notFull stands le]
    exact List.map_congr_left fun lpn _ => (placed.locatePage_eq idLt lpn).symm
  · exact onLun
  · intro ppa mem
    have ch := List.mem_map_of_mem (f := Ppa.ch) mem
    rw [channels] at ch
    obtain ⟨party, turn, same⟩ := List.mem_map.mp ch
    rw [← same, fcgId]
    exact inGroup party (lt_of_mem_turns geometry.chips_pos turn)
  · exact latency_eq
  · intro ch group
    obtain ⟨party, lt, rfl⟩ : ∃ party < geometry.chips,
        ch = geometry.chips * (id % geometry.numFcgs) + party :=
      ⟨ch % geometry.chips, Nat.mod_lt _ geometry.chips_pos, by
        rw [← fcgId, ← group, Nat.div_add_mod]⟩
    rw [channels, count_map_add_turns]
    exact ⟨le_count_turns lt, count_turns_le lt⟩
  · intro idle
    rw [latency_eq, channels]
    apply sup_span_turns geometry.chips_pos pos
    intro party lt
    exact idle _ ((inGroup party lt).trans fcgId.symm)

/-- After any requests and with any LUN clocks, a write of whole pages returns the makespan of
its channels. -/
theorem znsWrite_makespan (geometry : Geometry) (fits : geometry.Representable)
    (reachable : (ftl geometry).Reachable n) (clocks : Nat → Nat → NandLun)
    (idLt : id < geometry.zones) (start_le : (n.zoneArray id).d.startLba ≤ req.slba)
    (lt : req.slba < (n.zoneArray id).d.startLba + (n.zoneArray id).d.zoneCap / n.ssd.sp.secsz)
    (aligned : n.ssd.sp.secsPerPg ∣ req.slba) (nlb : req.nlb = n.ssd.sp.secsPerPg * m)
    (pos : 1 ≤ m) (noWrap : req.slba + req.nlb < 2 ^ 64) (started : 0 < req.stime) (now : Nat) :
    ∃ n' latency, znsWrite now (n.withClocks clocks) req = some (n', latency) ∧
      TakesMakespan geometry now (n.withClocks clocks) n' req latency id m := by
  have placed := (placed_of_reachable reachable).withClocks clocks
  have byLba := placed.byLba_of_zone fits idLt start_le lt
  have perPagePos : 0 < n.ssd.sp.secsPerPg := by
    rw [(placed_of_reachable reachable).sp]
    exact geometry.secsPerPg_pos
  obtain ⟨first, slba⟩ := aligned
  obtain ⟨n', latency, written, -⟩ := znsWrite_eq now byLba
  exact ⟨n', latency, written, placed.takesMakespan idLt byLba
    (pagesTouched_eq perPagePos slba nlb pos noWrap) pos started written⟩

/-- Ten pages on the eight channels of the new small device, one of them busy at first. -/
theorem znsWrite_makespan_ten_pages :
    ∃ n' latency,
      znsWrite 1 ((femuInit geometry8G.toSsdConfig geometry8G.devsz).withClocks
          fun ch _ => ⟨if ch = 3 then 500 else 0, 0⟩) ⟨0, 10240, 100⟩ = some (n', latency) ∧
        TakesMakespan geometry8G 1 ((femuInit geometry8G.toSsdConfig geometry8G.devsz).withClocks
          fun ch _ => ⟨if ch = 3 then 500 else 0, 0⟩) n' ⟨0, 10240, 100⟩ latency 0 10 :=
  have small : geometry8G.Representable := ⟨by decide +kernel, by decide +kernel⟩
  znsWrite_makespan geometry8G small (.init rfl) _ (by decide +kernel) (by decide +kernel)
    (by decide +kernel) (by decide +kernel) rfl (by decide) (by decide) (by decide) 1

end Writes

end ZnsLsm.Flash
