import ZnsLsm.Flash.Discipline
import ZnsLsm.Pool.Fetching
import ZnsLsm.Pool.Interleaving

/-!
# What the store does to the flash

The requests of the main thread and of the workers, in the order in which they happen to be
carried out, are requests of one host.  Writes and resets are in place and reads find their
tables written, so this host keeps to the conditions under which the flash gets legal
commands only.
-/

namespace ZnsLsm.Pool

open ZnsLsm.Flash ZnsLsm.Outcome ZnsLsm.Transition ZnsLsm.WriteQueues

namespace Device

variable (device : Device)

theorem representable : device.Representable := by
  have zones : device.numFcgs * (device.blksPerPl / device.stripe) * device.lunsPerCh =
      device.zoneNum := device.zoneNum_eq.symm
  have capacity := device.capacity_lt
  rw [zones] at capacity
  constructor
  · rw [device.devsz_eq_zones]
    exact Nat.lt_trans capacity (by decide)
  · exact device.small.1

end Device

/-! ## Requests of tables -/

section Tables

variable {device : Device} {count : Nat → Nat} {n : FemuCtrl} {zone k : Nat}

/-- A table for the next slot of a zone passes the tests of `zns_check_zone_write`. -/
theorem Stores.orderly_write (stores : Stores device count n) (zoneLt : zone < device.zoneNum)
    (next : k = count zone) (lt : k < device.tables) (now : Nat) :
    Orderly device.toGeometry n
      (.write (dispatchRequest now n sstableSize (device.slot zone k))) := by
  obtain ⟨slba, nlb⟩ := stores.sectors now zone k
  have inPlace := stores.writeInPlace zoneLt next lt now
  have le : (k + 1) * device.tablePages ≤ device.pages := by
    rw [device.pages_eq_tables]
    exact Nat.mul_le_mul_right _ lt
  have past : (dispatchRequest now n sstableSize (device.slot zone k)).slba +
      (dispatchRequest now n sstableSize (device.slot zone k)).nlb =
        device.pageSec zone ((k + 1) * device.tablePages) := by
    rw [slba, nlb, ← device.pageSec_add, Nat.succ_mul]
  have pastLt : device.pageSec zone ((k + 1) * device.tablePages) < 2 ^ 63 :=
    device.small.pageSec_lt zoneLt le
  have noWrap : device.pageSec zone ((k + 1) * device.tablePages) < 2 ^ 64 :=
    Nat.lt_trans pastLt (by decide)
  have nlbPos : 0 < device.secsPerPg * device.tablePages :=
    Nat.mul_pos device.secsPerPg_pos device.tablePages_pos
  refine ⟨⟨zone, inPlace.zone, nlb ▸ nlbPos, by omega, by omega, ?_⟩, ?_, ?_⟩
  · rw [znsCheckZoneWrite_eq_nil]
    refine ⟨?_, ?_, inPlace.notFull, inPlace.writePtr.symm⟩
    · rw [past, Nat.mod_eq_of_lt noWrap, stores.sp, device.ttSecs_eq]
      calc
        device.pageSec zone ((k + 1) * device.tablePages) ≤ device.pageSec zone device.pages :=
          device.pageSec_le le
        _ = device.pageSec (zone + 1) 0 := device.pageSec_pages zone
        _ ≤ device.pageSec device.zones 0 :=
          Nat.mul_le_mul_left _ (Nat.mul_le_mul_right _ zoneLt)
    · rw [past, Nat.mod_eq_of_lt noWrap, ← past]
      exact inPlace.inside
  · exact nlb ▸ Nat.dvd_mul_right _ _
  · rw [past]
    exact noWrap

/-- A read of at least a page in a written slot finds its sectors written. -/
theorem Stores.readable (stores : Stores device count n) (zoneLt : zone < device.zoneNum)
    (written : k < count zone) (sectors : device.secsz ≤ pageSize) {len offset : Nat}
    (atLeast : pageSize ≤ len) (le : device.slot zone k ≤ offset)
    (inside : offset + len ≤ device.slot zone k + sstableSize) (now : Nat) :
    Readable n (dispatchRequest now n len offset) := by
  have secsz : n.ssd.sp.secsz = device.secsz := by
    rw [stores.sp]
    rfl
  have first : device.pageSec zone (k * device.tablePages) ≤ offset / device.secsz := by
    rw [← device.slot_div_secsz]
    exact Nat.div_le_div_right le
  have last :
      (offset + len) / device.secsz ≤ device.pageSec zone ((k + 1) * device.tablePages) := by
    rw [← device.slot_div_secsz]
    refine Nat.div_le_div_right (Nat.le_trans inside (Nat.le_of_eq ?_))
    rw [Device.slot, Device.slot, Nat.mul_succ, Nat.add_assoc]
  have some_sector : offset / device.secsz + 1 ≤ (offset + len) / device.secsz := by
    rw [← Nat.add_div_right _ device.secsz_pos]
    exact Nat.div_le_div_right (Nat.add_le_add_left (Nat.le_trans sectors atLeast) _)
  have filled : device.pageSec zone ((k + 1) * device.tablePages) ≤
      device.pageSec zone (count zone * device.tablePages) :=
    device.pageSec_le (Nat.mul_le_mul_right _ written)
  have full : device.pageSec zone (count zone * device.tablePages) ≤
      device.pageSec zone device.pages := device.pageSec_le (stores.count_le zone zoneLt)
  simp only [Readable, dispatchRequest, secsz]
  refine ⟨by omega, ?_⟩
  intro sec ge lt
  have below : sec < device.pageSec zone (count zone * device.tablePages) := by omega
  refine ⟨zone, ?_, ?_⟩
  · apply Holds.byLba stores device.small zoneLt _ (Nat.lt_of_lt_of_le below full)
    exact Nat.le_trans (device.pageSec_le (Nat.zero_le _)) (Nat.le_trans first ge)
  · rw [stores.zones zone zoneLt, device.filled_writePtr]
    exact below

end Tables

/-- The event goes on with an operation, or with a write of a worker. -/
def Event.Proceeds : Event → Prop
  | .operate _ _ _ => False
  | .carry _ => True
  | .work _ _ => True

namespace World

/-! ## The requests of a run -/

/-- The request that an event makes of the simulator, and when. -/
def request (world : World) : Event → Option (Clock × Io)
  | .operate _ _ _ => none
  | .carry now =>
      match world.ahead with
      | .read len offset :: _ =>
          some (now, .read (dispatchRequest now.time world.femu len offset))
      | .write offset :: _ => some (now, .write (world.writeRequest now.time offset))
      | .reset len offset :: _ =>
          some (now, .reset (dispatchRequest now.time world.femu len offset))
      | _ => none
  | .work now worker =>
      match world.queue worker with
      | [] => none
      | task :: _ => some (now, .write (world.writeRequest now.time task.offset))

/-- The commands that reach the flash in an event. -/
def issues (world : World) (event : Event) : List Issued :=
  match world.request event with
  | none => []
  | some (now, io) => io.issued now world.femu

/-- All interleavings, with the record of the commands. -/
def journaled (device : Device) : System (World × List Issued) Event where
  Init state := (system device).Init state.1 ∧ state.2 = []
  Step state event next :=
    (system device).Step state.1 event next.1 ∧ next.2 = state.2 ++ state.1.issues event

/-- The operations read inside their tables. -/
def InTable (_ : World × List Issued) : Event → Prop
  | .operate op _ _ => op.InTable
  | _ => True

/-- The calls that are carried out, newest first. -/
def carried (world : World) : List Call :=
  world.manager.calls.drop world.ahead.length

variable {device : Device} {done : List Call} {count : Nat → Nat} {world world' : World}
  {event : Event}

theorem Follows.carried_eq (follows : world.Follows device done count) : world.carried = done := by
  rw [carried, follows.record, ← List.length_reverse, List.drop_left]

/-- An event makes its request, or leaves the simulator alone. -/
theorem serve_request (stepped : world.next device event = some world') :
    match world.request event with
    | none => world'.femu = world.femu
    | some (now, io) => Flash.serve now world.femu io = some world'.femu := by
  cases event with
  | operate op iter fuel =>
      rw [next_operate, World.operate] at stepped
      split at stepped
      · cases stepped
      · split at stepped
        · cases stepped
          rfl
        · cases stepped
          rfl
  | carry now =>
      rw [next_carry, World.carry] at stepped
      simp only [request]
      split at stepped
      · cases stepped
      · rename_i len offset rest ahead
        obtain ⟨femu, read, rfl⟩ := Option.map_eq_some_iff.mp stepped
        simp only [ahead]
        exact read
      · rename_i offset rest ahead
        obtain ⟨femu, written, rfl⟩ := Option.map_eq_some_iff.mp stepped
        simp only [ahead]
        exact written
      · rename_i worker ticket offset rest ahead
        split at stepped
        · cases stepped
          simp only [ahead]
        · cases stepped
      · rename_i ticket rest ahead
        split at stepped
        · cases stepped
          simp only [ahead]
        · cases stepped
      · rename_i len offset rest ahead
        obtain ⟨femu, wasReset, rfl⟩ := Option.map_eq_some_iff.mp stepped
        simp only [ahead]
        exact wasReset
      · rename_i err rest ahead
        cases stepped
        simp only [ahead]
  | work now worker =>
      rw [next_work, World.work] at stepped
      cases queued : world.queue worker with
      | nil =>
          rw [queued] at stepped
          cases stepped
      | cons task rest =>
          rw [queued] at stepped
          obtain ⟨femu, written, rfl⟩ := Option.map_eq_some_iff.mp stepped
          simp only [request, queued]
          exact written

/-! ## What a step leaves alone -/

theorem frame_of_proceeds {event : Event} (proceeds : event.Proceeds)
    (stepped : world.next device event = some world') :
    world'.manager = world.manager ∧ world'.stopped = world.stopped := by
  cases event with
  | operate op iter fuel => cases proceeds
  | carry now =>
      rw [next_carry, World.carry] at stepped
      split at stepped
      · cases stepped
      · obtain ⟨femu, -, rfl⟩ := Option.map_eq_some_iff.mp stepped
        exact ⟨rfl, rfl⟩
      · obtain ⟨femu, -, rfl⟩ := Option.map_eq_some_iff.mp stepped
        exact ⟨rfl, rfl⟩
      · split at stepped
        · cases stepped
          exact ⟨rfl, rfl⟩
        · cases stepped
      · split at stepped
        · cases stepped
          exact ⟨rfl, rfl⟩
        · cases stepped
      · obtain ⟨femu, -, rfl⟩ := Option.map_eq_some_iff.mp stepped
        exact ⟨rfl, rfl⟩
      · cases stepped
        exact ⟨rfl, rfl⟩
  | work now worker =>
      rw [next_work, World.work] at stepped
      split at stepped
      · cases stepped
      · obtain ⟨femu, -, rfl⟩ := Option.map_eq_some_iff.mp stepped
        exact ⟨rfl, rfl⟩

/-- While the manager runs, its state is the result of its last operation. -/
theorem operate_ends {op : Op} {iter : Finset Nat → List Nat} {fuel : Nat}
    {post : MemoryManager → Prop} (operated : world.operate device op iter fuel = some world')
    (ends : Ends post (fun _ => True) (world.manager.exec device iter fuel op))
    (running : world'.stopped = false) : post world'.manager := by
  rw [World.operate] at operated
  split at operated
  · cases operated
  · split at operated
    · rename_i m executed
      cases operated
      exact ends.of_ok executed
    · cases operated
      cases running

/-! ## Reads in a run -/

/-- The reads of the record, and the calls that the queued tasks come from. -/
structure Reads (device : Device) (world : World) : Prop where
  fetching : world.stopped = false → world.manager.Fetching device
  fetched : Fetched device world.manager.calls
  queued : ∀ worker, ∀ task ∈ world.queue worker,
    .enqueue worker task.ticket task.offset ∈ world.carried

/-- A landed table is on the flash. -/
theorem Reads.written (reads : world.Reads device) (follows : world.Follows device done count)
    {zone k : Nat} (lt : k < device.tables) (landed : Landed device done (device.slot zone k)) :
    k < count zone := by
  obtain ⟨⟨zone', zoneLt', k', used, same⟩, waited⟩ := landed
  have lt' : k' < device.tables := Nat.lt_of_lt_of_le used (follows.synced.used_le zone')
  obtain rfl : zone = zone' := by
    have divided := congrArg (· / device.zoneCap) same
    simpa only [device.slot_div_zoneCap lt, device.slot_div_zoneCap lt'] using divided
  obtain rfl : k = k' := by
    have index := congrArg device.slotIndex same
    rwa [device.slotIndex_slot zone lt, device.slotIndex_slot zone lt'] at index
  by_contra notWritten
  -- Otherwise the write of the slot is queued, and its ticket was not waited for.
  obtain ⟨worker, line, -⟩ := follows.synced.line zone
  have mem : k ∈ indices zone ((world.queue worker).map (entry device)) := by
    rw [line, List.mem_range'_1]
    dsimp only
    omega
  obtain ⟨write, isWrite, index⟩ := List.mem_map.mp mem
  obtain ⟨isQueued, zoneEq⟩ := List.mem_filter.mp isWrite
  obtain ⟨task, queued, rfl⟩ := List.mem_map.mp isQueued
  obtain ⟨zone'', zoneLt'', k'', lt'', offset⟩ := follows.slots worker task queued
  have isEntry := entry_slot lt'' offset
  rw [isEntry] at index zoneEq
  obtain rfl : zone'' = zone := of_decide_eq_true zoneEq
  obtain rfl : k'' = k := index
  have enqueued := reads.queued worker task queued
  rw [follows.carried_eq, offset] at enqueued
  have owner := follows.synced.owned worker _ isQueued
  rw [isEntry] at owner
  rw [waited worker task.ticket enqueued] at owner
  cases owner

/-- The request of an event meets the conditions of the host. -/
theorem Reads.proper (reads : world.Reads device) (follows : world.Follows device done count)
    (sectors : device.secsz ≤ pageSize) (log : List Issued) {now : Clock} {io : Io}
    (request : world.request event = some (now, io)) :
    Proper device.toGeometry (world.femu, log) io := by
  cases event with
  | operate op iter fuel => cases request
  | carry now' =>
      simp only [World.request] at request
      split at request
      · rename_i len offset rest ahead
        cases request
        have record := follows.record
        rw [ahead, List.reverse_cons, List.append_assoc] at record
        have fetched := reads.fetched
        rw [record] at fetched
        obtain ⟨atLeast, s, landed, le, inside⟩ := fetched.of_append.1
        obtain ⟨zone, zoneLt, k, used, rfl⟩ := landed.1
        have lt : k < device.tables := Nat.lt_of_lt_of_le used (follows.synced.used_le zone)
        exact follows.stores.readable zoneLt (reads.written follows lt landed) sectors atLeast le
          inside now.time
      · rename_i offset rest ahead
        cases request
        obtain ⟨zone, zoneLt, k, lt, rfl, next⟩ := follows.write ahead
        exact follows.stores.orderly_write zoneLt next lt now.time
      · rename_i len offset rest ahead
        cases request
        exact trivial
      · cases request
  | work now' worker =>
      simp only [World.request] at request
      split at request
      · cases request
      · rename_i task rest queued
        cases request
        obtain ⟨zone, zoneLt, k, lt, offset, next⟩ := follows.task queued
        rw [writeRequest, offset]
        exact follows.stores.orderly_write zoneLt next lt now.time

theorem Reads.start {m : MemoryManager} (built : MemoryManager.new device = some m) :
    (World.start device m).Reads device where
  fetching _ := MemoryManager.fetching_new built
  fetched := (MemoryManager.fetching_new built).fetched
  queued _ _ mem := absurd mem List.not_mem_nil

/-- An operation starts when all calls are carried out, and its own calls are not. -/
theorem Reads.operate (reads : world.Reads device) (follows : world.Follows device done count)
    {op : Op} {iter : Finset Nat → List Nat} {fuel : Nat} (allowed : world.manager.Allowed op)
    (inTable : op.InTable) (operated : world.operate device op iter fuel = some world') :
    world'.Reads device := by
  rw [World.operate] at operated
  split at operated
  · cases operated
  · rename_i idle
    obtain ⟨running, nothing⟩ := not_or.mp idle
    have ahead : world.ahead = [] := not_not.mp nothing
    have running : world.stopped = false := Bool.eq_false_of_not_eq_true running
    have reachable := follows.manager running
    obtain ⟨roles, books⟩ := MemoryManager.books_of_reachable reachable
    have issuing := MemoryManager.issuing_of_reachable reachable
    have issued := issuing.exec roles books allowed iter fuel
    have ends := (reads.fetching running).exec issuing roles books allowed inTable iter fuel
    have carried (m : MemoryManager) (since : world.manager.calls <:+ m.calls) :
        m.calls.drop (issuedSince world.manager m).length = world.carried := by
      rw [World.carried, ahead, List.length_nil, List.drop_zero]
      have calls := calls_eq_issuedSince since
      generalize issuedSince world.manager m = new at calls
      rw [calls, ← List.length_reverse, List.drop_left]
    split at operated
    · rename_i m executed
      cases operated
      have fetching := ends.of_ok executed
      refine ⟨fun _ => fetching, fetching.fetched, ?_⟩
      intro worker task mem
      rw [World.carried, carried m (issued.of_ok executed).since]
      exact reads.queued worker task mem
    · rename_i halt executed
      cases operated
      refine ⟨fun stillRunning => ?_, ends.of_error executed, ?_⟩
      · cases stillRunning
      · intro worker task mem
        rw [World.carried, carried halt.state (issued.of_error executed).since]
        exact reads.queued worker task mem

/-- A call is carried out. -/
theorem Reads.carry (reads : world.Reads device) (follows : world.Follows device done count)
    {now : Clock} (stepped : world.carry now = some world') : world'.Reads device := by
  have older {call : Call} {rest : List Call} (ahead : world.ahead = call :: rest) :
      world.manager.calls.drop rest.length = call :: world.carried := by
    obtain ⟨record, -⟩ := follows.nextCall ahead
    rw [follows.carried_eq, record, ← List.length_reverse, List.drop_left]
  have kept {call : Call} {rest : List Call} (ahead : world.ahead = call :: rest)
      (femu : FemuCtrl) : Reads device { world with ahead := rest, femu := femu } := by
    refine ⟨reads.fetching, reads.fetched, ?_⟩
    intro worker task mem
    rw [World.carried, older ahead]
    exact List.mem_cons_of_mem _ (reads.queued worker task mem)
  rw [World.carry] at stepped
  split at stepped
  · cases stepped
  · rename_i len offset rest ahead
    obtain ⟨femu, -, rfl⟩ := Option.map_eq_some_iff.mp stepped
    exact kept ahead femu
  · rename_i offset rest ahead
    obtain ⟨femu, -, rfl⟩ := Option.map_eq_some_iff.mp stepped
    exact kept ahead femu
  · rename_i worker ticket offset rest ahead
    split at stepped
    · cases stepped
      refine ⟨reads.fetching, reads.fetched, ?_⟩
      intro other task mem
      rw [World.carried, older ahead]
      dsimp only at mem
      by_cases same : other = worker
      · subst same
        rw [Function.update_self] at mem
        rcases List.mem_append.mp mem with old | new
        · exact List.mem_cons_of_mem _ (reads.queued other task old)
        · obtain rfl := List.mem_singleton.mp new
          exact List.mem_cons_self
      · rw [Function.update_of_ne same] at mem
        exact List.mem_cons_of_mem _ (reads.queued other task mem)
    · cases stepped
  · rename_i ticket rest ahead
    split at stepped
    · cases stepped
      exact kept ahead world.femu
    · cases stepped
  · rename_i len offset rest ahead
    obtain ⟨femu, -, rfl⟩ := Option.map_eq_some_iff.mp stepped
    exact kept ahead femu
  · rename_i err rest ahead
    cases stepped
    exact kept ahead world.femu

theorem Reads.work (reads : world.Reads device) {now : Clock} {worker : Nat}
    (stepped : world.work now worker = some world') : world'.Reads device := by
  rw [World.work] at stepped
  split at stepped
  · cases stepped
  · rename_i task rest queued
    obtain ⟨femu, -, rfl⟩ := Option.map_eq_some_iff.mp stepped
    refine ⟨reads.fetching, reads.fetched, ?_⟩
    intro other task' mem
    dsimp only at mem
    by_cases same : other = worker
    · subst same
      rw [Function.update_self] at mem
      exact reads.queued other task' (queued ▸ List.mem_cons_of_mem task mem)
    · rw [Function.update_of_ne same] at mem
      exact reads.queued other task' mem

/-! ## Whole runs -/

variable {log : List Issued}

/-- The invariant of a run: the simulator has served a host that keeps to its conditions. -/
structure Hosted (device : Device) (world : World) (log : List Issued) : Prop where
  follows : ∃ done count, world.Follows device done count
  reads : world.Reads device
  served : ((Flash.journaled device.toGeometry).guarded
    (Proper device.toGeometry)).Reachable (world.femu, log)

/-- The record may be left out. -/
theorem reachable_of_journaled
    (reachable : ((journaled device).guarded InTable).Reachable (world, log)) :
    (system device).Reachable world := by
  refine System.invariant_of_reachable (P := fun state => (system device).Reachable state.1) ?_ ?_
    reachable
  · exact fun state isInit => .init isInit.1
  · exact fun state event next before step => before.step step.2.1

theorem hosted_of_reachable (sectors : device.secsz ≤ pageSize)
    (reachable : ((journaled device).guarded InTable).Reachable (world, log)) :
    world.Hosted device log := by
  refine System.invariant_of_reachable (P := fun state => state.1.Hosted device state.2) ?_ ?_
    reachable
  · rintro ⟨world, log⟩ ⟨⟨m, built, started⟩, noLog⟩
    dsimp only at started noLog
    subst started noLog
    exact ⟨⟨_, _, Follows.start built⟩, Reads.start built, .init rfl⟩
  · rintro ⟨world, log⟩ event ⟨world', log'⟩ ⟨⟨done, count, follows⟩, reads, served⟩
      ⟨inTable, ⟨allowed, stepped⟩, issued⟩
    dsimp only at follows reads served allowed stepped issued
    subst issued
    have hosted : ((Flash.journaled device.toGeometry).guarded
        (Proper device.toGeometry)).Reachable (world'.femu, log ++ world.issues event) := by
      have request := serve_request stepped
      rw [issues]
      split at request
      · rw [request, List.append_nil]
        exact served
      · rename_i now io isRequest
        exact .step served ⟨reads.proper follows sectors log isRequest, now, request, rfl⟩
    cases event with
    | operate op iter fuel =>
        exact ⟨⟨done, count, follows.operate allowed.1 allowed.2 stepped⟩,
          reads.operate follows allowed.1 inTable stepped, hosted⟩
    | carry now => exact ⟨follows.carry stepped, reads.carry follows stepped, hosted⟩
    | work now worker => exact ⟨⟨done, follows.work stepped⟩, reads.work stepped, hosted⟩

/-- However the main thread and the workers are interleaved, the flash gets legal commands
only: every page is programmed in its turn, read after it was programmed, and erased with its
block. -/
theorem keepsRules_of_interleaving (device : Device) (sectors : device.secsz ≤ pageSize)
    (reachable : ((journaled device).guarded InTable).Reachable (world, log)) :
    KeepsRules device.toGeometry world.femu log := by
  obtain ⟨count, erases, recorded⟩ := recorded_of_reachable device.small device.representable
    (hosted_of_reachable sectors reachable).served
  exact recorded.keepsRules

/-- A table is written to the alternative device by its worker. -/
theorem keepsRules_after_work : ∃ (world : World) (log : List Issued),
    (world.femu.zoneArray 0).d.state = .full ∧ KeepsRules device8G.toGeometry world.femu log := by
  obtain ⟨world, ran, full⟩ := Option.map_eq_some_iff.mp
    (show (((MemoryManager.new device8G).bind fun m =>
        (operate device8G (start device8G m) (.writeTable 0 0)
          (fun zones => zones.sort (· ≤ ·)) 1).bind
          fun world => (world.carry (.still 0)).bind fun world => world.work (.still 0) 2).map
            fun world => (world.femu.zoneArray 0).d.state) =
        some .full by decide +kernel)
  obtain ⟨m, built, ran⟩ := Option.bind_eq_some_iff.mp ran
  obtain ⟨asked, operated, ran⟩ := Option.bind_eq_some_iff.mp ran
  obtain ⟨handed, carried, worked⟩ := Option.bind_eq_some_iff.mp ran
  have fresh : (MemoryManager.new device8G).map
      (fun m => decide (m.Allowed (.writeTable 0 0))) = some true := by
    decide +kernel
  rw [built] at fresh
  have allowed := of_decide_eq_true (Option.some.inj fresh)
  have operates : ((journaled device8G).guarded InTable).Step (start device8G m, [])
      (.operate (.writeTable 0 0) (fun zones => zones.sort (· ≤ ·)) 1)
      (asked, [] ++ (start device8G m).issues
        (.operate (.writeTable 0 0) (fun zones => zones.sort (· ≤ ·)) 1)) :=
    ⟨trivial, ⟨⟨allowed, MemoryManager.enumerates_sort⟩, operated⟩, rfl⟩
  have carries : ((journaled device8G).guarded InTable).Step (asked, []) (.carry (.still 0))
      (handed, [] ++ asked.issues (.carry (.still 0))) :=
    ⟨trivial, ⟨trivial, carried⟩, rfl⟩
  have works : ((journaled device8G).guarded InTable).Step
      (handed, [] ++ asked.issues (.carry (.still 0))) (.work (.still 0) 2)
      (world, [] ++ asked.issues (.carry (.still 0)) ++ handed.issues (.work (.still 0) 2)) :=
    ⟨trivial, ⟨trivial, worked⟩, rfl⟩
  exact ⟨world, _, full, keepsRules_of_interleaving device8G (by decide)
    (.step (.step (.step (.init ⟨⟨m, built, rfl⟩, rfl⟩) operates) carries) works)⟩

end World

end ZnsLsm.Pool
