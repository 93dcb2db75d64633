import ZnsLsm.Flash.Discipline
import ZnsLsm.Timetable

/-!
# When the LUNs are at work

`ssd_advance_status` keeps for each LUN the time at which it is free.  Over a whole run the
commands of a LUN stand in a timetable: they do not overlap, a command waits only while its
LUN is at work, and a write waits in `dispatch_io` until its last page is programmed.
-/

namespace ZnsLsm.Flash

open ZnsLsm.EraseBlocks ZnsLsm.Timetable ZnsLsm.Transition

/-! ## Commands are jobs of the LUNs -/

/-- The start time of a command; an erase carries none of its own. -/
def Issued.arrival (issued : Issued) : Nat :=
  match issued.command with
  | .erase _ => issued.now
  | .program _ _ | .read _ _ => if issued.stime = 0 then issued.now else issued.stime

/-- A command occupies its LUN for the latency of its operation. -/
def Issued.job (sp : SsdParams) (issued : Issued) : Job (Nat × Nat) :=
  match issued.command with
  | .program block _ => ⟨(block.ch, block.lun), issued.arrival, sp.pgWrLat⟩
  | .read block _ => ⟨(block.ch, block.lun), issued.arrival, sp.pgRdLat⟩
  | .erase block => ⟨(block.ch, block.lun), issued.arrival, sp.blkErLat⟩

/-- When the LUNs are free. -/
def Ssd.clock (ssd : Ssd) (place : Nat × Nat) : Nat :=
  (ssd.lun place.1 place.2).nextLunAvailTime

@[simp]
theorem Ssd.clock_setLun (ssd : Ssd) (ch lun : Nat) (clocks : NandLun) :
    (ssd.setLun ch lun clocks).clock =
      Function.update ssd.clock (ch, lun) clocks.nextLunAvailTime := by
  funext place
  by_cases same : place = (ch, lun)
  · subst same
    rw [Function.update_self, clock, setLun_lun_self]
  · rw [Function.update_of_ne same, clock, setLun_lun_of_ne]
    · rfl
    · rintro ⟨rfl, rfl⟩
      exact same rfl

/-- `ssd_advance_status` books a slot; the latency is the time until its end. -/
theorem ssdAdvanceStatus_eq (now : Nat) (ssd : Ssd) (ppa : Ppa) (op : NandOp) (stime : Nat) :
    ssdAdvanceStatus now ssd ppa op stime =
      ((slotOf ssd.clock ⟨(ppa.ch, ppa.lun), if stime = 0 then now else stime,
          op.latency ssd.sp⟩).finish - (if stime = 0 then now else stime),
        ssd.setLun ppa.ch ppa.lun { ssd.lun ppa.ch ppa.lun with
          nextLunAvailTime := (slotOf ssd.clock ⟨(ppa.ch, ppa.lun),
            if stime = 0 then now else stime, op.latency ssd.sp⟩).finish }) := by
  have waits : ∀ arrival, (if (ssd.lun ppa.ch ppa.lun).nextLunAvailTime < arrival then arrival
      else (ssd.lun ppa.ch ppa.lun).nextLunAvailTime) =
        max (ssd.clock (ppa.ch, ppa.lun)) arrival := by
    intro arrival
    rw [Ssd.clock]
    split
    · rename_i free
      exact (max_eq_right free.le).symm
    · rename_i busy
      exact (max_eq_left (Nat.le_of_not_lt busy)).symm
  simp only [ssdAdvanceStatus, waits, slotOf, Slot.finish]

@[simp]
theorem Issued.perform_sp (ssd : Ssd) (issued : Issued) : (issued.perform ssd).sp = ssd.sp := by
  unfold Issued.perform
  split <;> rfl

/-- A command books its slot. -/
@[simp]
theorem Issued.clock_perform (ssd : Ssd) (issued : Issued) :
    (issued.perform ssd).clock = book ssd.clock (issued.job ssd.sp) := by
  obtain ⟨now, stime, command⟩ := issued
  cases command with
  | program block page =>
      change (ssdAdvanceStatus now ssd { block with pg := page } .write stime).2.clock = _
      rw [ssdAdvanceStatus_eq, Ssd.clock_setLun]
      rfl
  | read block page =>
      change (ssdAdvanceStatus now ssd { block with pg := page } .read stime).2.clock = _
      rw [ssdAdvanceStatus_eq, Ssd.clock_setLun]
      rfl
  | erase block =>
      change (eraseCommand now ssd block).clock = _
      rw [eraseCommand, ssdAdvanceStatus_eq]
      simp only [Ssd.clock_setLun, Ssd.setLun_lun_self, Function.update_idem]
      rfl

theorem foldl_perform (log : List Issued) (ssd : Ssd) :
    (log.foldl Issued.perform ssd).sp = ssd.sp ∧
      (log.foldl Issued.perform ssd).clock =
        clockAfter ssd.clock (log.map (Issued.job ssd.sp)) := by
  induction log generalizing ssd with
  | nil => exact ⟨rfl, rfl⟩
  | cons issued log ih =>
      obtain ⟨sp, clock⟩ := ih (issued.perform ssd)
      rw [issued.perform_sp] at sp clock
      refine ⟨sp, ?_⟩
      rw [List.foldl_cons, clock, issued.clock_perform]
      rfl

/-! ## The latency of a write -/

/-- The time from the arrival of a job to its end. -/
def response {ι : Type*} (slot : Slot ι) : Nat :=
  slot.finish - slot.arrival

/-- The greatest response time is the latency that a loop over the commands finds. -/
theorem foldl_serveCommand_latency (now stime : Nat) (ppas : List Ppa) (ssd : Ssd) (maxlat : Nat) :
    (ppas.foldl (serveCommand now stime .write) (ssd, maxlat)).2 =
      ((timetable ssd.clock (ppas.map fun ppa =>
        ⟨(ppa.ch, ppa.lun), if stime = 0 then now else stime, ssd.sp.pgWrLat⟩)).map
          response).foldl max maxlat := by
  induction ppas generalizing ssd maxlat with
  | nil => rfl
  | cons ppa ppas ih =>
      have served : serveCommand now stime .write (ssd, maxlat) ppa =
          ((ssdAdvanceStatus now ssd ppa .write stime).2,
            max (ssdAdvanceStatus now ssd ppa .write stime).1 maxlat) := rfl
      have sp : (ssdAdvanceStatus now ssd ppa .write stime).2.sp = ssd.sp := rfl
      rw [List.foldl_cons, served, ih, sp, ssdAdvanceStatus_eq, Ssd.clock_setLun]
      rw [max_comm]
      rfl

theorem le_foldl_max {values : List Nat} {bound value : Nat}
    (among : value ∈ values ∨ value ≤ bound) : value ≤ values.foldl max bound := by
  induction values generalizing bound with
  | nil => exact among.resolve_left (List.not_mem_nil)
  | cons first values ih =>
      apply ih
      rcases among with mem | le
      · rcases List.mem_cons.mp mem with rfl | rest
        · exact .inr (le_max_right _ _)
        · exact .inl rest
      · exact .inr (le.trans (le_max_left _ _))

/-! ## Waiting for a request -/

/-- What `dispatch_io` calls, with the latency that it gets back. -/
def Io.answer (now : Clock) (n : FemuCtrl) : Io → Option (FemuCtrl × Nat)
  | .read req => znsRead now.time n req
  | .write req => znsWrite now.time n req
  | .reset req => (znsReset now.erase n req).map (·, 0)

/-- The busy wait: the clock is read until the request has expired. -/
def busyWait (clock : Nat → Nat) (expireTime : Nat) : Nat → Nat → Option Nat
  | 0, _ => none
  | fuel + 1, reading =>
      if expireTime ≤ clock reading then
        some (clock reading)
      else
        busyWait clock expireTime fuel (reading + 1)

/-- `dispatch_io`, with the time up to which it has waited; `now` is what the clock shows while
the request is served, and `clock` are its readings during the wait. -/
def dispatchIo (now : Clock) (clock : Nat → Nat) (fuel : Nat) (enableLatency wait : Bool)
    (n : FemuCtrl) (len offset : Nat) (op : NvmeRequest → Io) : Option (FemuCtrl × Nat) :=
  ((op (dispatchRequest now.time n len offset)).answer now n).bind fun answer =>
    if wait then
      (busyWait clock (if enableLatency then now.time + answer.2 else now.time) fuel 0).map
        (answer.1, ·)
    else
      some (answer.1, now.time)

theorem le_of_busyWait {clock : Nat → Nat} {expireTime fuel reading time : Nat}
    (waited : busyWait clock expireTime fuel reading = some time) : expireTime ≤ time := by
  induction fuel generalizing reading with
  | zero => cases waited
  | succ fuel ih =>
      rw [busyWait] at waited
      split at waited
      · rename_i expired
        cases waited
        exact expired
      · exact ih waited

/-- The wait ends once the clock has come so far. -/
theorem exists_busyWait {clock : Nat → Nat} {expireTime reading : Nat} (more : Nat)
    (expires : expireTime ≤ clock (reading + more)) :
    ∃ fuel time, busyWait clock expireTime fuel reading = some time := by
  induction more generalizing reading with
  | zero => exact ⟨1, _, if_pos expires⟩
  | succ more ih =>
      by_cases expired : expireTime ≤ clock reading
      · exact ⟨1, _, if_pos expired⟩
      · obtain ⟨fuel, time, waited⟩ := ih (by rwa [Nat.succ_add_eq_add_succ])
        exact ⟨fuel + 1, time, (if_neg expired).trans waited⟩

/-! ## Whole runs -/

/-- The slots of the recorded commands, on LUNs that were free at first. -/
def slots (geometry : Geometry) (log : List Issued) : List (Slot (Nat × Nat)) :=
  timetable (fun _ => 0) (log.map (Issued.job geometry.spp))

/-- The slots that the next request gets. -/
def Io.slots (now : Clock) (n : FemuCtrl) (io : Io) : List (Slot (Nat × Nat)) :=
  timetable n.ssd.clock ((io.issued now n).map (Issued.job n.ssd.sp))

/-- The timetable of the LUNs. -/
structure Scheduled (geometry : Geometry) (n : FemuCtrl) (log : List Issued) : Prop where
  clock : n.ssd.clock = clockAfter (fun _ => 0) (log.map (Issued.job geometry.spp))
  /-- The commands of a LUN do not overlap. -/
  disjoint : (slots geometry log).Pairwise fun slot later =>
    slot.server = later.server → slot.finish ≤ later.start
  /-- A command that comes in its turn waits only while its LUN is at work. -/
  prompt : ∀ {before slot after}, slots geometry log = before ++ slot :: after →
    (∀ other ∈ before, other.server = slot.server → other.arrival ≤ slot.arrival) →
      ∀ time, slot.arrival ≤ time → time < slot.start →
        ∃ other ∈ before, other.server = slot.server ∧ other.start ≤ time ∧ time < other.finish
  work : ∀ place, (((log.map (Issued.job geometry.spp)).filter (·.server = place)).map
    Job.len).sum ≤ n.ssd.clock place
  /-- A write is told the time until its last page is programmed. -/
  latency : ∀ {now : Clock} {req n' latency}, znsWrite now.time n req = some (n', latency) →
    latency = (((Io.write req).slots now n).map response).foldl max 0
  /-- It is waited for so long. -/
  waits : ∀ {now clock fuel len offset n' time},
    dispatchIo now clock fuel true true n len offset .write = some (n', time) →
      ∀ slot ∈ (Io.write (dispatchRequest now.time n len offset)).slots now n,
        slot.finish ≤ time
  /-- Every wait ends as time goes by. -/
  returns : ∀ {now : Clock} {clock : Nat → Nat} {enableLatency wait len offset op},
    (∀ time, ∃ reading, time ≤ clock reading) →
      (∃ answer, (op (dispatchRequest now.time n len offset)).answer now n = some answer) →
        ∃ fuel answer, dispatchIo now clock fuel enableLatency wait n len offset op = some answer

section Runs

variable {geometry : Geometry} {n : FemuCtrl} {log : List Issued}

theorem Io.slots_write (now : Clock) (n : FemuCtrl) (req : NvmeRequest) :
    (Io.write req).slots now n = timetable n.ssd.clock ((writeVisits n req).map fun ppa =>
      ⟨(ppa.ch, ppa.lun), if req.stime = 0 then now.time else req.stime,
        n.ssd.sp.pgWrLat⟩) := by
  rw [slots, issued, commands, List.map_map, List.map_map]
  rfl

theorem latency_eq {now : Clock} {latency : Nat} {req : NvmeRequest} {n' : FemuCtrl}
    (written : znsWrite now.time n req = some (n', latency)) :
    latency = (((Io.write req).slots now n).map response).foldl max 0 := by
  rw [Io.slots_write, ← foldl_serveCommand_latency]
  exact congrArg Prod.snd (znsWrite_commands written)

theorem arrival_of_slot_write {now : Clock} {req : NvmeRequest} {slot : Slot (Nat × Nat)}
    (mem : slot ∈ (Io.write req).slots now n) :
    slot.arrival = if req.stime = 0 then now.time else req.stime := by
  rw [Io.slots_write] at mem
  have job := List.mem_map_of_mem (f := Slot.toJob) mem
  rw [map_toJob_timetable] at job
  obtain ⟨ppa, -, same⟩ := List.mem_map.mp job
  rw [← same]

theorem finish_le_of_dispatchIo {now : Clock} {clock : Nat → Nat} {fuel len offset time : Nat}
    {n' : FemuCtrl}
    (returned : dispatchIo now clock fuel true true n len offset .write = some (n', time))
    {slot : Slot (Nat × Nat)}
    (mem : slot ∈ (Io.write (dispatchRequest now.time n len offset)).slots now n) :
    slot.finish ≤ time := by
  obtain ⟨⟨n'', latency⟩, written, waited⟩ := Option.bind_eq_some_iff.mp returned
  rw [if_pos rfl] at waited
  obtain ⟨until_, expired, same⟩ := Option.map_eq_some_iff.mp waited
  cases same
  have expires := le_of_busyWait expired
  rw [if_pos rfl] at expires
  have le : response slot ≤ latency := by
    rw [latency_eq written]
    exact le_foldl_max (.inl (List.mem_map_of_mem mem))
  rw [response, arrival_of_slot_write mem] at le
  have arrives : (if (dispatchRequest now.time n len offset).stime = 0 then now.time
      else (dispatchRequest now.time n len offset).stime) = now.time := ite_self _
  rw [arrives] at le
  dsimp only at expires
  omega

theorem dispatchIo_returns {now : Clock} {clock : Nat → Nat} {enableLatency wait : Bool}
    {len offset : Nat} {op : NvmeRequest → Io} (passes : ∀ time, ∃ reading, time ≤ clock reading)
    (answered : ∃ answer,
      (op (dispatchRequest now.time n len offset)).answer now n = some answer) :
    ∃ fuel answer, dispatchIo now clock fuel enableLatency wait n len offset op = some answer := by
  obtain ⟨answer, answered⟩ := answered
  cases wait with
  | false => exact ⟨0, _, Option.bind_eq_some_iff.mpr ⟨answer, answered, rfl⟩⟩
  | true =>
      obtain ⟨reading, late⟩ :=
        passes (if enableLatency then now.time + answer.2 else now.time)
      rw [← Nat.zero_add reading] at late
      obtain ⟨fuel, time, waited⟩ := exists_busyWait reading late
      refine ⟨fuel, (answer.1, time), Option.bind_eq_some_iff.mpr ⟨answer, answered, ?_⟩⟩
      exact Option.map_eq_some_iff.mpr ⟨time, waited, rfl⟩

/-- Whatever the host asks for, and whenever, the commands of the LUNs stand in a timetable. -/
theorem scheduled_of_reachable (geometry : Geometry)
    (reachable : (journaled geometry).Reachable (n, log)) : Scheduled geometry n log := by
  obtain ⟨sp, clock⟩ : n.ssd.sp = geometry.spp ∧
      n.ssd.clock = clockAfter (fun _ => 0) (log.map (Issued.job geometry.spp)) := by
    refine System.invariant_of_reachable
      (P := fun state => state.1.ssd.sp = geometry.spp ∧ state.1.ssd.clock =
        clockAfter (fun _ => 0) (state.2.map (Issued.job geometry.spp))) ?_ ?_ reachable
    · rintro _ rfl
      exact ⟨rfl, rfl⟩
    · rintro ⟨n, log⟩ io ⟨n', log'⟩ ⟨sp, clock⟩ ⟨now, served, rfl⟩
      have delay : n.ssd.sp.enableGcDelay = true := by
        rw [sp]
        rfl
      obtain ⟨sp', clock'⟩ := foldl_perform (io.issued now n) n.ssd
      rw [← serve_ssd delay served] at sp' clock'
      refine ⟨sp'.trans sp, ?_⟩
      dsimp only at clock ⊢
      rw [clock', clock, sp, List.map_append, clockAfter_append]
  constructor
  case clock => exact clock
  case disjoint => exact timetable_pairwise _ _
  case prompt =>
    intro before slot after split early time arrived waits
    exact (at_work_of_waiting split early arrived waits).resolve_left (Nat.not_lt_zero _)
  case work =>
    intro place
    rw [clock]
    have le := work_le_clockAfter (fun _ => 0) (log.map (Issued.job geometry.spp)) place
    rwa [Nat.zero_add] at le
  case latency => exact latency_eq
  case waits => exact fun returned slot mem => finish_le_of_dispatchIo returned mem
  case returns => exact dispatchIo_returns

/-- A zone is written at once, some of its pages are read, and it is reset, with a later
reading of the clock on every channel: the last erase waits for all that its LUN has to do. -/
theorem scheduled_after_reset : ∃ n log, log.length = 146 ∧
    ((slots geometry8G log).map Slot.start).getLast? = some (100 + 16 * 200000 + 40000) ∧
      Scheduled geometry8G n log := by
  obtain ⟨⟨n, log⟩, ran, held⟩ := Option.map_eq_some_iff.mp
    (show ((serve (.still 100) (femuInit geometry8G.toSsdConfig geometry8G.devsz)
        (.write ⟨0, 131072, 100⟩)).bind fun n =>
          (serve (.still 150) n (.read ⟨0, 10240, 150⟩)).bind fun n' =>
            (serve ⟨200, fun block => 200 + block.ch⟩ n' (.reset ⟨5, 1, 200⟩)).map fun n'' =>
              (n'', [] ++ (Io.write ⟨0, 131072, 100⟩).issued (.still 100)
                  (femuInit geometry8G.toSsdConfig geometry8G.devsz) ++
                (Io.read ⟨0, 10240, 150⟩).issued (.still 150) n ++
                (Io.reset ⟨5, 1, 200⟩).issued ⟨200, fun block => 200 + block.ch⟩ n')).map
        (fun state => (state.2.length, ((slots geometry8G state.2).map Slot.start).getLast?)) =
          some (146, some (100 + 16 * 200000 + 40000)) by decide +kernel)
  obtain ⟨length, last⟩ := Prod.mk.inj held
  obtain ⟨written, write, ran⟩ := Option.bind_eq_some_iff.mp ran
  obtain ⟨read, visit, ran⟩ := Option.bind_eq_some_iff.mp ran
  obtain ⟨emptied, reset, same⟩ := Option.map_eq_some_iff.mp ran
  cases same
  have begun : (journaled geometry8G).Reachable (written, _) :=
    .step (.init rfl) ⟨.still 100, write, rfl⟩
  have visited : (journaled geometry8G).Reachable (read, _) :=
    .step begun ⟨.still 150, visit, rfl⟩
  exact ⟨n, _, length, last, scheduled_of_reachable geometry8G
    (.step visited ⟨⟨200, fun block => 200 + block.ch⟩, reset, rfl⟩)⟩

end Runs

end ZnsLsm.Flash
