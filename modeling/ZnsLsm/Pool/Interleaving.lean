import ZnsLsm.Pool.Issuing
import ZnsLsm.Pool.Media

/-!
# The main thread and the workers

The main thread carries out the calls of an operation one after the other, and each
worker runs the tasks of its queue in order.  In between, any worker may run its next
task at any time; only waiting for a future makes the main thread wait.  Whatever the
order, every request finds its zone in the right state.
-/

namespace ZnsLsm.Pool

open ZnsLsm.Flash ZnsLsm.Transition ZnsLsm.WriteQueues

/-- `femu_write` of a table, to be run by a worker. -/
structure Task where
  ticket : Nat
  offset : Nat
  deriving DecidableEq, Repr

/-- The manager decides on the calls of an operation at once; those that the main thread
has not carried out are `ahead`, oldest first. -/
structure World where
  manager : MemoryManager
  ahead : List Call
  stopped : Bool
  queue : Nat → List Task
  femu : FemuCtrl

inductive Event
  /-- The main thread calls the manager. -/
  | operate (op : Op) (iter : Finset Nat → List Nat) (fuel : Nat)
  /-- The main thread carries out its next call. -/
  | carry (now : Clock)
  /-- A worker runs its next task. -/
  | work (now : Clock) (worker : Nat)

namespace World

variable {device : Device}

/-! ## Steps -/

/-- The calls that an operation has added to the record, oldest first. -/
def issuedSince (before after : MemoryManager) : List Call :=
  (after.calls.take (after.calls.length - before.calls.length)).reverse

def operate (device : Device) (world : World) (op : Op) (iter : Finset Nat → List Nat)
    (fuel : Nat) : Option World :=
  if world.stopped ∨ world.ahead ≠ [] then
    none
  else
    match world.manager.exec device iter fuel op with
    | .ok m => some { world with manager := m, ahead := issuedSince world.manager m }
    | .error halt =>
        some
          { world with
            manager := halt.state
            ahead := issuedSince world.manager halt.state
            stopped := true }

/-- The future is ready. -/
def Ready (world : World) (ticket : Nat) : Prop :=
  ∀ worker < workerNum, ∀ task ∈ world.queue worker, task.ticket ≠ ticket

instance (world : World) (ticket : Nat) : Decidable (world.Ready ticket) :=
  inferInstanceAs (Decidable (∀ worker < workerNum, ∀ task ∈ world.queue worker, _))

def carry (world : World) (now : Clock) : Option World :=
  match world.ahead with
  | [] => none
  | .read len offset :: rest =>
      (femuRead now.time world.femu len offset).map fun femu =>
        { world with ahead := rest, femu := femu }
  | .write offset :: rest =>
      (femuWrite now.time world.femu sstableSize offset).map fun femu =>
        { world with ahead := rest, femu := femu }
  | .enqueue worker ticket offset :: rest =>
      if worker < workerNum then
        some
          { world with
            ahead := rest
            queue :=
              Function.update world.queue worker (world.queue worker ++ [⟨ticket, offset⟩]) }
      else
        none
  | .wait ticket :: rest => if world.Ready ticket then some { world with ahead := rest } else none
  | .reset len offset :: rest =>
      (femuReset now world.femu len offset).map fun femu =>
        { world with ahead := rest, femu := femu }
  | .zoneErr _ :: rest => some { world with ahead := rest }

def work (world : World) (now : Clock) (worker : Nat) : Option World :=
  match world.queue worker with
  | [] => none
  | task :: rest =>
      (femuWrite now.time world.femu sstableSize task.offset).map fun femu =>
        { world with queue := Function.update world.queue worker rest, femu := femu }

def next (device : Device) (world : World) : Event → Option World
  | .operate op iter fuel => world.operate device op iter fuel
  | .carry now => world.carry now
  | .work now worker => world.work now worker

@[simp]
theorem next_operate (device : Device) (world : World) (op : Op)
    (iter : Finset Nat → List Nat) (fuel : Nat) :
    world.next device (.operate op iter fuel) = world.operate device op iter fuel :=
  rfl

@[simp]
theorem next_carry (device : Device) (world : World) (now : Clock) :
    world.next device (.carry now) = world.carry now :=
  rfl

@[simp]
theorem next_work (device : Device) (world : World) (now : Clock) (worker : Nat) :
    world.next device (.work now worker) = world.work now worker :=
  rfl

/-- Before the first operation. -/
def start (device : Device) (manager : MemoryManager) : World where
  manager := manager
  ahead := []
  stopped := false
  queue _ := []
  femu := femuInit device.toSsdConfig device.devsz

/-- The store uses the manager as always. -/
def Allowed (world : World) : Event → Prop
  | .operate op iter _ => world.manager.Allowed op ∧ Enumerates iter
  | _ => True

/-- All interleavings of the main thread and the workers. -/
def system (device : Device) : System World Event where
  Init world := ∃ m, MemoryManager.new device = some m ∧ world = start device m
  Step world event world' := world.Allowed event ∧ world.next device event = some world'

/-! ## What the requests find -/

/-- The request of `femu_write` for a table. -/
def writeRequest (world : World) (now offset : Nat) : NvmeRequest :=
  dispatchRequest now world.femu sstableSize offset

/-- Every request that may come next is in place. -/
structure InPlace (world : World) : Prop where
  workers : ∀ now worker task rest, world.queue worker = task :: rest →
    ∃ zone, WriteInPlace world.femu (world.writeRequest now task.offset) zone
  writes : ∀ now offset rest, world.ahead = .write offset :: rest →
    ∃ zone, WriteInPlace world.femu (world.writeRequest now offset) zone
  /-- A reset finds its zone full, and no write to it is queued. -/
  resets : ∀ now len offset rest, world.ahead = .reset len offset :: rest →
    ∃ zone, ResetInPlace world.femu (dispatchRequest now world.femu len offset) zone ∧
      ∀ worker, ∀ task ∈ world.queue worker,
        znsGetZoneByLba world.femu (world.writeRequest now task.offset).slba ≠ some zone

/-! ## The invariant -/

/-- The write that a task stands for. -/
def entry (device : Device) (task : Task) : Entry Nat Nat where
  ticket := task.ticket
  zone := task.offset / device.zoneCap
  index := device.slotIndex task.offset

/-- The calls `done` are carried out, up to the tasks in the queues, and the flash holds
`count` tables in every zone. -/
structure Follows (device : Device) (done : List Call) (count : Nat → Nat) (world : World) :
    Prop where
  manager : world.stopped = false → (MemoryManager.storeSystem device).Reachable world.manager
  disciplined : Disciplined device world.manager.calls
  record : world.manager.calls = world.ahead.reverse ++ done
  synced : Synced device.tables (planOf device done)
    ⟨count, fun worker => (world.queue worker).map (entry device)⟩
  stores : Stores device count world.femu
  slots : ∀ worker, ∀ task ∈ world.queue worker, device.IsSlot task.offset
  idle : ∀ worker, workerNum ≤ worker → world.queue worker = []

variable {done : List Call} {count : Nat → Nat} {world world' : World} {call : Call}
  {rest : List Call} {now : Clock}

theorem entry_slot {zone k : Nat} (lt : k < device.tables) {task : Task}
    (offset : task.offset = device.slot zone k) :
    entry device task = ⟨task.ticket, zone, k⟩ := by
  rw [entry, offset, device.slot_div_zoneCap lt, device.slotIndex_slot zone lt]

theorem map_update (queue : Nat → List Task) (worker : Nat) (tasks : List Task) :
    (fun other => (Function.update queue worker tasks other).map (entry device)) =
      Function.update (fun other => (queue other).map (entry device)) worker
        (tasks.map (entry device)) := by
  funext other
  by_cases same : other = worker
  · subst same
    rw [Function.update_self, Function.update_self]
  · rw [Function.update_of_ne same, Function.update_of_ne same]

/-- The next call of the main thread keeps to the discipline. -/
theorem Follows.nextCall (follows : world.Follows device done count)
    (ahead : world.ahead = call :: rest) :
    world.manager.calls = rest.reverse ++ call :: done ∧ call.Addressed device ∧
      ∀ request, call.request device = some request →
        (planOf device done).Allows device.tables request := by
  have record := follows.record
  rw [ahead, List.reverse_cons, List.append_assoc] at record
  have disciplined := follows.disciplined
  rw [record] at disciplined
  obtain ⟨addressed, allows, -⟩ := disciplined.of_append
  exact ⟨record, addressed, allows⟩

/-- The next task of a worker writes the next slot of its zone. -/
theorem Follows.task (follows : world.Follows device done count) {worker : Nat} {task : Task}
    {tasks : List Task} (queued : world.queue worker = task :: tasks) :
    ∃ zone < device.zoneNum, ∃ k < device.tables,
      task.offset = device.slot zone k ∧ k = count zone := by
  obtain ⟨zone, zoneLt, k, lt, offset⟩ :=
    follows.slots worker task (queued ▸ List.mem_cons_self)
  have line : (world.queue worker).map (entry device) =
      entry device task :: tasks.map (entry device) := by
    rw [queued, List.map_cons]
  have head := (follows.synced.head line).1
  rw [entry_slot lt offset] at head
  exact ⟨zone, zoneLt, k, lt, offset, head⟩

/-- A write of the main thread is one to the next slot of its zone. -/
theorem Follows.write (follows : world.Follows device done count) {offset : Nat}
    (ahead : world.ahead = .write offset :: rest) :
    ∃ zone < device.zoneNum, ∃ k < device.tables,
      offset = device.slot zone k ∧ k = count zone := by
  obtain ⟨-, ⟨zone, zoneLt, k, lt, rfl⟩, allows⟩ := follows.nextCall ahead
  exact ⟨zone, zoneLt, k, lt, rfl, (follows.synced.write (allows _ (Call.request_write lt))).1⟩

/-- A reset of the main thread is one of a full zone without queued writes. -/
theorem Follows.reset (follows : world.Follows device done count) {len offset : Nat}
    (ahead : world.ahead = .reset len offset :: rest) :
    ∃ zone < device.zoneNum, offset = device.slot zone 0 ∧ count zone = device.tables ∧
      ∀ worker, ∀ task ∈ world.queue worker, task.offset / device.zoneCap ≠ zone := by
  obtain ⟨-, ⟨zone, zoneLt, rfl⟩, allows⟩ := follows.nextCall ahead
  obtain ⟨full, none⟩ := follows.synced.reset (allows _ (Call.request_reset zone len))
  refine ⟨zone, zoneLt, rfl, full, ?_⟩
  intro worker task mem
  exact none worker _ (List.mem_map_of_mem mem)

theorem Follows.inPlace (follows : world.Follows device done count) : world.InPlace := by
  constructor
  · intro now worker task tasks queued
    obtain ⟨zone, zoneLt, k, lt, offset, next⟩ := follows.task queued
    refine ⟨zone, ?_⟩
    rw [writeRequest, offset]
    exact follows.stores.writeInPlace zoneLt next lt now
  · intro now offset rest ahead
    obtain ⟨zone, zoneLt, k, lt, rfl, next⟩ := follows.write ahead
    exact ⟨zone, follows.stores.writeInPlace zoneLt next lt now⟩
  · intro now len offset rest ahead
    obtain ⟨zone, zoneLt, rfl, full, none⟩ := follows.reset ahead
    refine ⟨zone, follows.stores.resetInPlace zoneLt full now len, ?_⟩
    intro worker task mem byLba
    obtain ⟨zone', zoneLt', k, lt, offset⟩ := follows.slots worker task mem
    rw [writeRequest, offset, (follows.stores.sectors now zone' k).1,
      follows.stores.byLba zoneLt' lt] at byLba
    apply none worker task mem
    rw [offset, device.slot_div_zoneCap lt]
    exact Option.some.inj byLba

/-! ## Every step keeps the invariant -/

theorem Follows.start {m : MemoryManager} (built : MemoryManager.new device = some m) :
    (start device m).Follows device [] fun _ => 0 := by
  have issuing := MemoryManager.issuing_new built
  have reachable : (MemoryManager.storeSystem device).Reachable m := .init built
  have noCalls : m.calls = [] := by
    simp only [MemoryManager.new, Option.bind_eq_bind, Option.bind_eq_some_iff] at built
    obtain ⟨⟨zones, pool⟩, -, made⟩ := built
    cases made
    rfl
  exact
    { manager := fun _ => reachable
      disciplined := issuing.disciplined
      record := noCalls
      synced := synced_empty device.tables
      stores := stores_femuInit
      slots := fun _ _ mem => absurd mem List.not_mem_nil
      idle := fun _ _ => rfl }

/-- What an operation adds to the record. -/
theorem calls_eq_issuedSince {before after : MemoryManager}
    (since : before.calls <:+ after.calls) :
    after.calls = (issuedSince before after).reverse ++ before.calls := by
  obtain ⟨new, same⟩ := since
  rw [issuedSince, List.reverse_reverse, ← same, List.length_append, Nat.add_sub_cancel,
    List.take_left']
  rfl

theorem Follows.operate (follows : world.Follows device done count) {op : Op}
    {iter : Finset Nat → List Nat} {fuel : Nat} (allowed : world.manager.Allowed op)
    (enumerates : Enumerates iter)
    (operated : world.operate device op iter fuel = some world') :
    world'.Follows device done count := by
  rw [World.operate] at operated
  split at operated
  · cases operated
  · rename_i idle
    obtain ⟨running, nothing⟩ := not_or.mp idle
    have ahead : world.ahead = [] := not_not.mp nothing
    have reachable := follows.manager (Bool.eq_false_of_not_eq_true running)
    have record : world.manager.calls = done := by
      have record := follows.record
      rwa [ahead] at record
    obtain ⟨roles, books⟩ := MemoryManager.books_of_reachable reachable
    have issuing := MemoryManager.issuing_of_reachable reachable
    have ends := issuing.exec roles books allowed iter fuel
    split at operated
    · rename_i m executed
      cases operated
      have issuing' := ends.of_ok executed
      have calls := calls_eq_issuedSince issuing'.since
      rw [record] at calls
      exact
        { follows with
          manager := fun _ => reachable.step ⟨allowed, iter, fuel, enumerates, executed⟩
          disciplined := issuing'.disciplined
          record := calls }
    · rename_i halt executed
      cases operated
      have issued := ends.of_error executed
      have calls := calls_eq_issuedSince issued.since
      rw [record] at calls
      exact
        { follows with
          manager := fun running => by cases running
          disciplined := issued.disciplined
          record := calls }

/-- A silent call of the main thread. -/
theorem Follows.silent (follows : world.Follows device done count)
    (ahead : world.ahead = call :: rest) (none : call.request device = none) {femu : FemuCtrl}
    (stores : Stores device count femu) :
    Follows device (call :: done) count { world with ahead := rest, femu := femu } := by
  obtain ⟨record, -, -⟩ := follows.nextCall ahead
  have plan : planOf device (call :: done) = planOf device done := by
    rw [planOf, none]
  exact
    { follows with
      record := record
      synced := plan ▸ follows.synced
      stores := stores }

/-- A call of the main thread that asks something of the zones. -/
theorem Follows.perform (follows : world.Follows device done count)
    (ahead : world.ahead = call :: rest) {request : Request Nat Nat Nat}
    (asks : call.request device = some request)
    (ready : Machine.Ready
      (⟨count, fun worker => (world.queue worker).map (entry device)⟩ : Machine Nat Nat Nat)
      request) :
    Synced device.tables (planOf device (call :: done))
      (Machine.after ⟨count, fun worker => (world.queue worker).map (entry device)⟩
        request) := by
  obtain ⟨-, -, allows⟩ := follows.nextCall ahead
  have plan : planOf device (call :: done) = (planOf device done).after request := by
    rw [planOf, asks]
  rw [plan]
  exact follows.synced.perform (allows request asks) ready

/-- The queue of a worker changes. -/
theorem Follows.requeue (follows : world.Follows device done count) {worker : Nat}
    (workerLt : worker < workerNum) {tasks : List Task}
    (isSlot : ∀ task ∈ tasks, device.IsSlot task.offset) :
    (∀ other, ∀ task ∈ Function.update world.queue worker tasks other,
        device.IsSlot task.offset) ∧
      ∀ other, workerNum ≤ other → Function.update world.queue worker tasks other = [] := by
  constructor
  · intro other task mem
    by_cases same : other = worker
    · subst same
      rw [Function.update_self] at mem
      exact isSlot task mem
    · rw [Function.update_of_ne same] at mem
      exact follows.slots other task mem
  · intro other noWorker
    rw [Function.update_of_ne (by omega)]
    exact follows.idle other noWorker

/-- The next call puts a write into the queue of a worker. -/
theorem Follows.enqueue (follows : world.Follows device done count) {worker ticket offset : Nat}
    (ahead : world.ahead = .enqueue worker ticket offset :: rest) :
    Follows device (.enqueue worker ticket offset :: done) count
      { world with
        ahead := rest
        queue :=
          Function.update world.queue worker (world.queue worker ++ [⟨ticket, offset⟩]) } := by
  obtain ⟨record, ⟨workerLt, zone, zoneLt, k, lt, rfl⟩, -⟩ := follows.nextCall ahead
  have synced := follows.perform ahead (Call.request_enqueue lt) trivial
  have isSlot : ∀ task ∈ world.queue worker ++ [⟨ticket, device.slot zone k⟩],
      device.IsSlot task.offset := by
    intro task mem
    rcases List.mem_append.mp mem with old | new
    · exact follows.slots worker task old
    · obtain rfl := List.mem_singleton.mp new
      exact ⟨zone, zoneLt, k, lt, rfl⟩
  obtain ⟨slots, idle⟩ := follows.requeue workerLt isSlot
  exact
    { follows with
      record := record
      synced := by
        dsimp only
        rw [map_update, List.map_append, List.map_singleton, entry_slot lt rfl]
        exact synced
      slots := slots
      idle := idle }

/-- The next call waits for a write that no queue holds any more. -/
theorem Follows.wait (follows : world.Follows device done count) {ticket : Nat}
    (ahead : world.ahead = .wait ticket :: rest) (ready : world.Ready ticket) :
    Follows device (.wait ticket :: done) count { world with ahead := rest } := by
  obtain ⟨record, -, -⟩ := follows.nextCall ahead
  have isReady : Machine.Ready
      (⟨count, fun worker => (world.queue worker).map (entry device)⟩ : Machine Nat Nat Nat)
      (.wait ticket) := by
    intro worker write mem
    obtain ⟨task, queued, rfl⟩ := List.mem_map.mp mem
    rcases Nat.lt_or_ge worker workerNum with isWorker | noWorker
    · exact ready worker isWorker task queued
    · rw [follows.idle worker noWorker] at queued
      cases queued
  exact
    { follows with
      record := record
      synced := follows.perform ahead rfl isReady }

theorem Follows.carry (follows : world.Follows device done count)
    (carried : world.carry now = some world') :
    ∃ done' count', world'.Follows device done' count' := by
  rw [World.carry] at carried
  split at carried
  · cases carried
  · rename_i len offset rest ahead
    obtain ⟨femu, read, rfl⟩ := Option.map_eq_some_iff.mp carried
    exact ⟨_, count, follows.silent ahead rfl (follows.stores.read read)⟩
  · rename_i offset rest ahead
    obtain ⟨femu, written, rfl⟩ := Option.map_eq_some_iff.mp carried
    obtain ⟨record, -, -⟩ := follows.nextCall ahead
    obtain ⟨zone, zoneLt, k, lt, rfl, next⟩ := follows.write ahead
    refine ⟨.write (device.slot zone k) :: done, Function.update count zone (k + 1), ?_⟩
    exact
      { follows with
        record := record
        synced := follows.perform ahead (Call.request_write lt) trivial
        stores := follows.stores.write zoneLt next lt written }
  · rename_i worker ticket offset rest ahead
    split at carried
    · cases carried
      exact ⟨_, count, follows.enqueue ahead⟩
    · cases carried
  · rename_i ticket rest ahead
    split at carried
    · rename_i ready
      cases carried
      exact ⟨_, count, follows.wait ahead ready⟩
    · cases carried
  · rename_i len offset rest ahead
    obtain ⟨femu, wasReset, rfl⟩ := Option.map_eq_some_iff.mp carried
    obtain ⟨record, -, -⟩ := follows.nextCall ahead
    obtain ⟨zone, zoneLt, rfl, full, -⟩ := follows.reset ahead
    refine ⟨.reset len (device.slot zone 0) :: done, Function.update count zone 0, ?_⟩
    exact
      { follows with
        record := record
        synced := follows.perform ahead (Call.request_reset zone len) trivial
        stores := follows.stores.reset zoneLt full wasReset }
  · rename_i err rest ahead
    cases carried
    exact ⟨_, count, follows.silent ahead rfl follows.stores⟩

theorem Follows.work (follows : world.Follows device done count) {worker : Nat}
    (worked : world.work now worker = some world') :
    ∃ count', world'.Follows device done count' := by
  rw [World.work] at worked
  split at worked
  · cases worked
  · rename_i task tasks queued
    obtain ⟨femu, written, rfl⟩ := Option.map_eq_some_iff.mp worked
    obtain ⟨zone, zoneLt, k, lt, offset, next⟩ := follows.task queued
    rw [offset] at written
    have line : (world.queue worker).map (entry device) =
        entry device task :: tasks.map (entry device) := by
      rw [queued, List.map_cons]
    have synced := follows.synced.work line
    have taskEq := entry_slot lt offset
    have workerLt : worker < workerNum := by
      apply Nat.lt_of_not_le
      intro noWorker
      rw [follows.idle worker noWorker] at queued
      cases queued
    obtain ⟨slots, idle⟩ := follows.requeue workerLt fun task' mem =>
      follows.slots worker task' (queued ▸ List.mem_cons_of_mem task mem)
    refine ⟨Function.update count zone (k + 1), ?_⟩
    exact
      { follows with
        synced := by
          dsimp only
          rw [map_update]
          rw [Machine.work, taskEq] at synced
          exact synced
        stores := follows.stores.write zoneLt next lt written
        slots := slots
        idle := idle }

theorem follows_of_reachable (reachable : (system device).Reachable world) :
    ∃ done count, world.Follows device done count := by
  refine System.invariant_of_reachable
    (P := fun world => ∃ done count, world.Follows device done count) ?_ ?_ reachable
  · rintro world ⟨m, built, rfl⟩
    exact ⟨[], fun _ => 0, .start built⟩
  · rintro world event world' ⟨done, count, follows⟩ ⟨allowed, stepped⟩
    cases event with
    | operate op iter fuel =>
        exact ⟨done, count, follows.operate allowed.1 allowed.2 stepped⟩
    | carry now => exact follows.carry stepped
    | work now worker => exact ⟨done, follows.work stepped⟩

/-- In every interleaving, every request that may come next is in place. -/
theorem inPlace_of_reachable (reachable : (system device).Reachable world) : world.InPlace := by
  obtain ⟨done, count, follows⟩ := follows_of_reachable reachable
  exact follows.inPlace

/-- A table is written to the alternative device, and its write waits for its worker. -/
theorem inPlace_of_queued : ∃ world, (system device8G).Reachable world ∧
    (world.queue 2).map (·.offset) = [0] ∧ world.InPlace := by
  obtain ⟨world, ran, queued⟩ := Option.map_eq_some_iff.mp
    (show (((MemoryManager.new device8G).bind fun m =>
        (operate device8G (start device8G m) (.writeTable 0 0)
          (fun zones => zones.sort (· ≤ ·)) 1).bind
          fun world => world.carry (.still 0)).map fun world => (world.queue 2).map (·.offset)) =
        some [0] by decide +kernel)
  obtain ⟨m, built, ran⟩ := Option.bind_eq_some_iff.mp ran
  obtain ⟨asked, operated, carried⟩ := Option.bind_eq_some_iff.mp ran
  have fresh : (MemoryManager.new device8G).map
      (fun m => decide (m.Allowed (.writeTable 0 0))) = some true := by
    decide +kernel
  rw [built] at fresh
  have allowed := of_decide_eq_true (Option.some.inj fresh)
  have operates : (system device8G).Step (start device8G m)
      (.operate (.writeTable 0 0) (fun zones => zones.sort (· ≤ ·)) 1) asked :=
    ⟨⟨allowed, MemoryManager.enumerates_sort⟩, operated⟩
  have carries : (system device8G).Step asked (.carry (.still 0)) world := ⟨trivial, carried⟩
  have reachable : (system device8G).Reachable world :=
    .step (.step (.init ⟨m, built, rfl⟩) operates) carries
  exact ⟨world, reachable, queued, inPlace_of_reachable reachable⟩

end World

end ZnsLsm.Pool
