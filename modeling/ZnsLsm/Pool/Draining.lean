import Mathlib.Algebra.BigOperators.Group.Finset.Basic
import Mathlib.Algebra.Order.BigOperators.Group.Finset
import ZnsLsm.Pool.Discipline

/-!
# The work that is decided on gets done

The main thread only waits for writes that stand in a queue, and the write at the head of a
queue can always be carried out.  So the calls of an operation and the writes of the workers
never block each other for good: in whatever order they proceed, a bounded number of steps
later all are done, and then the flash holds what the manager has written down.
-/

namespace ZnsLsm.Pool

open ZnsLsm.Flash ZnsLsm.Outcome ZnsLsm.Transition ZnsLsm.WriteQueues

/-- The event proceeds at this time. -/
def Event.ProceedsAt (now : Clock) : Event → Prop
  | .operate _ _ _ => False
  | .carry time => time = now
  | .work time _ => time = now

theorem Event.ProceedsAt.proceeds {event : Event} {now : Clock} (at_now : event.ProceedsAt now) :
    event.Proceeds := by
  cases event with
  | operate op iter fuel => cases at_now
  | carry time => exact trivial
  | work time worker => exact trivial

namespace World

variable {device : Device} {world world' : World} {done : List Call} {count : Nat → Nat}
  {event : Event}

/-- Nothing is left to do. -/
def Drained (world : World) : Prop :=
  world.ahead = [] ∧ ∀ worker, world.queue worker = []

/-! ## How much is left -/

/-- The steps that are left; carrying out `enqueue` makes a step of a worker out of one of the
main thread. -/
def pending (world : World) : Nat :=
  2 * world.ahead.length + ∑ worker ∈ Finset.range workerNum, (world.queue worker).length

/-- Every step leaves less to do. -/
theorem Follows.pending_lt (follows : world.Follows device done count)
    (proceeds : event.Proceeds) (stepped : world.next device event = some world') :
    world'.pending < world.pending := by
  cases event with
  | operate op iter fuel => cases proceeds
  | carry now =>
      rw [next_carry, World.carry] at stepped
      have shorter {call : Call} {rest : List Call} (ahead : world.ahead = call :: rest)
          (femu : FemuCtrl) :
          pending { world with ahead := rest, femu := femu } < world.pending := by
        rw [pending, pending, ahead, List.length_cons]
        dsimp only
        omega
      split at stepped
      · cases stepped
      · rename_i len offset rest ahead
        obtain ⟨femu, -, rfl⟩ := Option.map_eq_some_iff.mp stepped
        exact shorter ahead femu
      · rename_i offset rest ahead
        obtain ⟨femu, -, rfl⟩ := Option.map_eq_some_iff.mp stepped
        exact shorter ahead femu
      · rename_i worker ticket offset rest ahead
        split at stepped
        · rename_i isWorker
          cases stepped
          have sum := sum_comp_update List.length world.queue (Finset.mem_range.mpr isWorker)
            (world.queue worker ++ [⟨ticket, offset⟩])
          rw [List.length_append, List.length_singleton] at sum
          rw [pending, pending, ahead, List.length_cons]
          dsimp only
          omega
        · cases stepped
      · rename_i ticket rest ahead
        split at stepped
        · cases stepped
          exact shorter ahead world.femu
        · cases stepped
      · rename_i len offset rest ahead
        obtain ⟨femu, -, rfl⟩ := Option.map_eq_some_iff.mp stepped
        exact shorter ahead femu
      · rename_i err rest ahead
        cases stepped
        exact shorter ahead world.femu
  | work now worker =>
      rw [next_work, World.work] at stepped
      split at stepped
      · cases stepped
      · rename_i task rest queued
        obtain ⟨femu, -, rfl⟩ := Option.map_eq_some_iff.mp stepped
        have isWorker : worker < workerNum := by
          apply Nat.lt_of_not_le
          intro noWorker
          rw [follows.idle worker noWorker] at queued
          cases queued
        have sum := sum_comp_update List.length world.queue (Finset.mem_range.mpr isWorker) rest
        rw [queued, List.length_cons] at sum
        rw [pending, pending]
        dsimp only
        omega

/-! ## What can be done next -/

/-- The head of a queue can be carried out. -/
theorem Follows.can_work (follows : world.Follows device done count) (now : Clock) {worker : Nat}
    (busy : world.queue worker ≠ []) : ∃ world', world.work now worker = some world' := by
  obtain ⟨task, rest, queued⟩ := List.exists_cons_of_ne_nil busy
  obtain ⟨zone, inPlace⟩ := follows.inPlace.workers now.time worker task rest queued
  obtain ⟨n', latency, written, -, -⟩ := znsWrite_eq now.time inPlace.zone
  rw [World.work, queued]
  refine ⟨_, Option.map_eq_some_iff.mpr ⟨n', ?_, rfl⟩⟩
  exact Option.map_eq_some_iff.mpr ⟨(n', latency), written, rfl⟩

/-- The main thread can go on, or it waits for a write that stands in a queue. -/
theorem Follows.can_carry (follows : world.Follows device done count) (reads : world.Reads device)
    (sectors : device.secsz ≤ pageSize) (now : Clock) (busy : world.ahead ≠ []) :
    (∃ world', world.carry now = some world') ∨ ∃ worker, world.queue worker ≠ [] := by
  obtain ⟨call, rest, ahead⟩ := List.exists_cons_of_ne_nil busy
  obtain ⟨record, addressed, allows⟩ := follows.nextCall ahead
  rw [World.carry, ahead]
  cases call with
  | read len offset =>
      left
      have request : world.request (.carry now) =
          some (now, .read (dispatchRequest now.time world.femu len offset)) := by
        simp only [request, ahead]
      have readable : Readable world.femu (dispatchRequest now.time world.femu len offset) :=
        reads.proper follows sectors [] request
      obtain ⟨n', latency, read⟩ := follows.stores.exists_read device.small readable now.time
      refine ⟨_, Option.map_eq_some_iff.mpr ⟨n', ?_, rfl⟩⟩
      exact Option.map_eq_some_iff.mpr ⟨(n', latency), read, rfl⟩
  | write offset =>
      left
      obtain ⟨zone, inPlace⟩ := follows.inPlace.writes now.time offset rest ahead
      obtain ⟨n', latency, written, -, -⟩ := znsWrite_eq now.time inPlace.zone
      refine ⟨_, Option.map_eq_some_iff.mpr ⟨n', ?_, rfl⟩⟩
      exact Option.map_eq_some_iff.mpr ⟨(n', latency), written, rfl⟩
  | enqueue worker ticket offset =>
      left
      dsimp only
      rw [if_pos addressed.1]
      exact ⟨_, rfl⟩
  | wait ticket =>
      by_cases ready : world.Ready ticket
      · left
        dsimp only
        rw [if_pos ready]
        exact ⟨_, rfl⟩
      · right
        simp only [Ready, not_forall] at ready
        obtain ⟨worker, -, task, queued, -⟩ := ready
        exact ⟨worker, List.ne_nil_of_mem queued⟩
  | reset len offset =>
      left
      obtain ⟨zone, inPlace, -⟩ := follows.inPlace.resets now.time len offset rest ahead
      obtain ⟨n', wasReset, -, -⟩ := znsReset_eq now.erase inPlace.zone
      exact ⟨_, Option.map_eq_some_iff.mpr ⟨n', wasReset, rfl⟩⟩
  | zoneErr err => exact .inl ⟨_, rfl⟩

/-! ## When nothing is left to do -/

/-- The flash holds what the manager has written down. -/
structure Mirrored (device : Device) (world : World) : Prop where
  writePtr : ∀ zone < device.zoneNum, (world.femu.zoneArray zone).writePtr =
    (world.manager.zoneMetas zone).writePtr / device.secsz
  full : ∀ zone < device.zoneNum,
    (world.femu.zoneArray zone).d.state = .full ↔ zone ∈ world.manager.fullZone

/-- All slots handed out are written. -/
theorem Follows.count_eq_of_drained (follows : world.Follows device done count)
    (drained : world.Drained) (zone : Nat) :
    count zone = (planOf device world.manager.calls).used zone := by
  have record := follows.record
  rw [drained.1] at record
  obtain rfl : world.manager.calls = done := record
  obtain ⟨worker, line, -⟩ := follows.synced.line zone
  dsimp only at line
  rw [drained.2 worker, List.map_nil, indices_nil] at line
  have left := congrArg List.length line
  rw [List.length_nil, List.length_range'] at left
  exact Nat.le_antisymm (follows.synced.count_le zone) (Nat.le_of_sub_eq_zero left.symm)

theorem Follows.mirrored (follows : world.Follows device done count) (drained : world.Drained)
    (running : world.stopped = false) : world.Mirrored device := by
  have reachable := follows.manager running
  obtain ⟨roles, -⟩ := MemoryManager.books_of_reachable reachable
  have issuing := MemoryManager.issuing_of_reachable reachable
  have counted (zone : Nat) : count zone = (world.manager.zoneMetas zone).used :=
    (follows.count_eq_of_drained drained zone).trans (issuing.used zone)
  constructor
  · intro zone zoneLt
    rw [follows.stores.zones zone zoneLt, device.filled_writePtr, counted,
      (roles.placed zone).writePtr_eq, device.slot_div_secsz]
  · intro zone zoneLt
    rw [follows.stores.zones zone zoneLt, device.filled_full_iff, counted, device.pages_eq_tables,
      roles.full_iff zone (by simp), (roles.placed zone).end_le_iff]
    exact Nat.mul_left_inj device.tablePages_pos.ne'

/-! ## Every run of these steps ends -/

/-- The main thread and the workers proceed, but no operation starts. -/
def proceeding (device : Device) : System (World × List Issued) Event :=
  ((journaled device).guarded InTable).guarded fun _ event => event.Proceeds

/-- However the main thread and the workers proceed, they finish. -/
structure Drains (device : Device) (state : World × List Issued) : Prop where
  bounded : ∀ {labels last}, (proceeding device).Path state labels last →
    labels.length + last.1.pending ≤ state.1.pending
  progress : ∀ {labels last}, (proceeding device).Path state labels last → ¬last.1.Drained →
    ∀ now, ∃ event : Event, event.ProceedsAt now ∧ ∃ next, (proceeding device).Step last event next
  ends : ∃ labels last, (proceeding device).Path state labels last ∧ last.1.Drained
  mirrored : ∀ {labels last}, (proceeding device).Path state labels last → last.1.Drained →
    last.1.manager = state.1.manager ∧ (last.1.stopped = false → last.1.Mirrored device)

/-- A state that is not drained can proceed at any time. -/
theorem Hosted.can_proceed {log : List Issued} (hosted : world.Hosted device log)
    (sectors : device.secsz ≤ pageSize) (notDrained : ¬world.Drained) (now : Clock) :
    ∃ event : Event, event.ProceedsAt now ∧ ∃ world', world.next device event = some world' := by
  obtain ⟨⟨done, count, follows⟩, reads, -⟩ := hosted
  have working : (∃ worker, world.queue worker ≠ []) → ∃ event : Event, event.ProceedsAt now ∧
      ∃ world', world.next device event = some world' := by
    rintro ⟨worker, busy⟩
    exact ⟨.work now worker, rfl, follows.can_work now busy⟩
  by_cases idle : world.ahead = []
  · apply working
    by_contra allIdle
    exact notDrained ⟨idle, fun worker => not_not.mp (not_exists.mp allIdle worker)⟩
  · rcases follows.can_carry reads sectors now idle with ⟨world', carried⟩ | busy
    · exact ⟨.carry now, rfl, world', carried⟩
    · exact working busy

/-- From every state that an interleaving reaches, the calls of the manager and the writes of
the workers end, in whatever order they are carried out, and leave the flash as the manager
has it in its books. -/
theorem drains_of_reachable (device : Device) (sectors : device.secsz ≤ pageSize)
    {state : World × List Issued}
    (reachable : ((journaled device).guarded InTable).Reachable state) : Drains device state := by
  have preserved {state next : World × List Issued} {event : Event}
      (before : ((journaled device).guarded InTable).Reachable state)
      (step : (proceeding device).Step state event next) :
      ((journaled device).guarded InTable).Reachable next :=
    before.step step.2
  have lowers {state next : World × List Issued} {event : Event}
      (before : ((journaled device).guarded InTable).Reachable state)
      (step : (proceeding device).Step state event next) :
      next.1.pending < state.1.pending := by
    obtain ⟨done, count, follows⟩ := follows_of_reachable (reachable_of_journaled before)
    exact follows.pending_lt step.1 step.2.2.1.2
  have progress {state : World × List Issued}
      (before : ((journaled device).guarded InTable).Reachable state)
      (notDrained : ¬state.1.Drained) (now : Clock) :
      ∃ event : Event, event.ProceedsAt now ∧
        ∃ next, (proceeding device).Step state event next := by
    obtain ⟨event, at_now, world', stepped⟩ :=
      (hosted_of_reachable sectors before).can_proceed sectors notDrained now
    have proceeds := at_now.proceeds
    refine ⟨event, at_now, (world', state.2 ++ state.1.issues event), proceeds, ?_⟩
    cases event with
    | operate op iter fuel => cases at_now
    | carry time => exact ⟨trivial, ⟨trivial, stepped⟩, rfl⟩
    | work time worker => exact ⟨trivial, ⟨trivial, stepped⟩, rfl⟩
  constructor
  · intro labels last path
    exact path.length_le (P := ((journaled device).guarded InTable).Reachable)
      (fun state => state.1.pending) preserved lowers reachable
  · intro labels last path notDrained now
    exact progress (path.invariant preserved reachable) notDrained now
  · refine System.exists_path (P := ((journaled device).guarded InTable).Reachable)
      (fun state => state.1.pending) preserved lowers ?_ reachable
    intro state before notDrained
    obtain ⟨event, -, next, step⟩ := progress before notDrained (.still 0)
    exact ⟨event, next, step⟩
  · intro labels last path drained
    have same : last.1.manager = state.1.manager := by
      refine path.invariant (P := fun other => other.1.manager = state.1.manager) ?_ rfl
      intro before event next kept step
      exact (frame_of_proceeds step.1 step.2.2.1.2).1.trans kept
    obtain ⟨done, count, follows⟩ :=
      follows_of_reachable (reachable_of_journaled (path.invariant preserved reachable))
    exact ⟨same, follows.mirrored drained⟩

/-- A table is on its way to the alternative device. -/
theorem drains_of_queued : ∃ (world : World) (log : List Issued),
    (world.queue 2).map (·.offset) = [0] ∧ Drains device8G (world, log) := by
  obtain ⟨world, ran, queued⟩ := Option.map_eq_some_iff.mp
    (show (((MemoryManager.new device8G).bind fun m =>
        (operate device8G (start device8G m) (.writeTable 0 0)
          (fun zones => zones.sort (· ≤ ·)) 1).bind
          fun world => world.carry (.still 0)).map fun world => (world.queue 2).map (·.offset)) =
        some [0] by decide +kernel)
  obtain ⟨m, built, ran⟩ := Option.bind_eq_some_iff.mp ran
  obtain ⟨asked, operated, carried⟩ := Option.bind_eq_some_iff.mp ran
  have fresh : (MemoryManager.new device8G).map
      (fun m => decide (m.Allowed (.writeTable 0 0))) = some true := by
    decide +kernel
  rw [built] at fresh
  have allowed := of_decide_eq_true (Option.some.inj fresh)
  have operates : ((journaled device8G).guarded InTable).Step (start device8G m, [])
      (.operate (.writeTable 0 0) (fun zones => zones.sort (· ≤ ·)) 1)
      (asked, [] ++ (start device8G m).issues
        (.operate (.writeTable 0 0) (fun zones => zones.sort (· ≤ ·)) 1)) :=
    ⟨trivial, ⟨⟨allowed, MemoryManager.enumerates_sort⟩, operated⟩, rfl⟩
  have carries : ((journaled device8G).guarded InTable).Step (asked, []) (.carry (.still 0))
      (world, [] ++ asked.issues (.carry (.still 0))) :=
    ⟨trivial, ⟨trivial, carried⟩, rfl⟩
  exact ⟨world, _, queued, drains_of_reachable device8G (by decide)
    (.step (.step (.init ⟨⟨m, built, rfl⟩, rfl⟩) operates) carries)⟩

end World

end ZnsLsm.Pool
