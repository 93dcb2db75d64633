import ZnsLsm.Pool.Draining
import ZnsLsm.Threads.OwnQueues

/-!
# The workers are threads

So far a worker could run its next task at any time.  Here the tasks stand in the queues of
a thread pool, and main thread and workers go on by the atomic actions of mutexes and
condition variables.  Seen through the lines of the workers, the runs are those from before;
and since no wake-up is lost that a task needs, they still end with everything written.
-/

namespace ZnsLsm.Pool

open ZnsLsm.Flash ZnsLsm.Threads ZnsLsm.Transition ZnsLsm.WriteQueues

/-- The main thread, the thread pool with the writes it was sent, and the flash. -/
structure Threaded where
  manager : MemoryManager
  ahead : List Call
  stopped : Bool
  pool : TaskPool Task
  femu : FemuCtrl

inductive Act
  /-- The main thread calls the manager. -/
  | operate (op : Op) (iter : Finset Nat → List Nat) (fuel : Nat)
  /-- The main thread carries out its next call. -/
  | carry (now : Clock)
  /-- An action of a worker, or a notification that the main thread still has to make. -/
  | thread (now : Clock) (action : TaskPool.Action Task)

/-- What is seen of an action if the workers are no threads. -/
def Act.event : Act → Option Event
  | .operate op iter fuel => some (.operate op iter fuel)
  | .carry now => some (.carry now)
  | .thread now (.finish worker) => some (.work now worker)
  | .thread _ _ => none

/-- The action proceeds at this time, and no operation starts. -/
def Act.ProceedsAt (now : Clock) : Act → Prop
  | .operate _ _ _ => False
  | .carry time => time = now
  | .thread time _ => time = now

namespace Threaded

/-- The pool of the manager. -/
abbrev shape : Shape :=
  ThreadPool.shape workerNum

/-- The tasks of a worker are the one in hand and those in its queue. -/
def world (threaded : Threaded) : World where
  manager := threaded.manager
  ahead := threaded.ahead
  stopped := threaded.stopped
  queue := threaded.pool.line
  femu := threaded.femu

def operate (device : Device) (threaded : Threaded) (op : Op) (iter : Finset Nat → List Nat)
    (fuel : Nat) : Option Threaded :=
  if threaded.pool.owner = .using then
    (threaded.world.operate device op iter fuel).map fun world =>
      { threaded with
        manager := world.manager
        ahead := world.ahead
        stopped := world.stopped }
  else
    none

/-- A future is ready when its task is neither in a queue nor in hand. -/
def carry (threaded : Threaded) (now : Clock) : Option Threaded :=
  match threaded.ahead with
  | .enqueue worker ticket offset :: rest =>
      (threaded.pool.step shape (.enqueue worker ⟨ticket, offset⟩)).map fun pool =>
        { threaded with ahead := rest, pool := pool }
  | _ =>
      if threaded.pool.owner = .using then
        (threaded.world.carry now).map fun world =>
          { threaded with ahead := world.ahead, femu := world.femu }
      else
        none

/-- A task is a write to the flash; the pool is not destroyed. -/
def thread (threaded : Threaded) (now : Clock) : TaskPool.Action Task → Option Threaded
  | .finish worker =>
      (threaded.pool.task worker).bind fun task =>
        (femuWrite now.time threaded.femu sstableSize task.offset).bind fun femu =>
          (threaded.pool.step shape (.finish worker)).map fun pool =>
            { threaded with pool := pool, femu := femu }
  | .enqueue _ _ | .store | .notifyAll _ | .join _ => none
  | action =>
      (threaded.pool.step shape action).map fun pool => { threaded with pool := pool }

def next (device : Device) (threaded : Threaded) : Act → Option Threaded
  | .operate op iter fuel => threaded.operate device op iter fuel
  | .carry now => threaded.carry now
  | .thread now action => threaded.thread now action

def start (device : Device) (manager : MemoryManager) : Threaded where
  manager := manager
  ahead := []
  stopped := false
  pool := .new
  femu := femuInit device.toSsdConfig device.devsz

/-- The commands of an action. -/
def issues (threaded : Threaded) (act : Act) : List Issued :=
  match act.event with
  | none => []
  | some event => threaded.world.issues event

/-- The store uses the manager as always, and reads inside its tables. -/
def Allowed (threaded : Threaded) : Act → Prop
  | .operate op iter _ => threaded.manager.Allowed op ∧ Enumerates iter ∧ op.InTable
  | _ => True

/-- All interleavings of the threads, with the record of the commands. -/
def system (device : Device) : System (Threaded × List Issued) Act where
  Init state := ∃ m, MemoryManager.new device = some m ∧ state = (start device m, [])
  Step state act next := state.1.Allowed act ∧ state.1.next device act = some next.1 ∧
    next.2 = state.2 ++ state.1.issues act

variable {device : Device} {threaded threaded' : Threaded} {act : Act}
  {journal : Journal Task}

/-! ## The runs that are seen -/

/-- An operation changes the manager and what is ahead. -/
theorem eq_of_operate {world world' : World} {op : Op} {iter : Finset Nat → List Nat} {fuel : Nat}
    (operated : world.operate device op iter fuel = some world') :
    world' = { world with
      manager := world'.manager
      ahead := world'.ahead
      stopped := world'.stopped } := by
  rw [World.operate] at operated
  split at operated
  · cases operated
  · split at operated <;> cases operated <;> rfl

theorem world_operate {op : Op} {iter : Finset Nat → List Nat} {fuel : Nat}
    (stepped : threaded.operate device op iter fuel = some threaded') :
    threaded.world.operate device op iter fuel = some threaded'.world := by
  obtain ⟨-, operated⟩ := Option.ite_none_right_eq_some.mp stepped
  obtain ⟨world, asked, rfl⟩ := Option.map_eq_some_iff.mp operated
  rw [asked, eq_of_operate asked]
  rfl

/-- A call that sends no task leaves the queues alone. -/
theorem eq_of_carry {world world' : World} {now : Clock} (carried : world.carry now = some world')
    (notEnqueue : ∀ worker ticket offset rest,
      world.ahead ≠ .enqueue worker ticket offset :: rest) :
    ∃ call rest femu, world.ahead = call :: rest ∧
      world' = { world with ahead := rest, femu := femu } := by
  rw [World.carry] at carried
  split at carried
  · cases carried
  · rename_i ahead
    obtain ⟨femu, -, rfl⟩ := Option.map_eq_some_iff.mp carried
    exact ⟨_, _, femu, ahead, rfl⟩
  · rename_i ahead
    obtain ⟨femu, -, rfl⟩ := Option.map_eq_some_iff.mp carried
    exact ⟨_, _, femu, ahead, rfl⟩
  · rename_i ahead
    exact absurd ahead (notEnqueue _ _ _ _)
  · rename_i ahead
    obtain ⟨-, ⟨⟩⟩ := Option.ite_none_right_eq_some.mp carried
    exact ⟨_, _, world.femu, ahead, rfl⟩
  · rename_i ahead
    obtain ⟨femu, -, rfl⟩ := Option.map_eq_some_iff.mp carried
    exact ⟨_, _, femu, ahead, rfl⟩
  · rename_i ahead
    cases carried
    exact ⟨_, _, world.femu, ahead, rfl⟩

theorem world_carry {now : Clock} (stepped : threaded.carry now = some threaded') :
    threaded.world.carry now = some threaded'.world := by
  rw [carry] at stepped
  split at stepped
  · rename_i worker ticket offset rest ahead
    obtain ⟨pool, sent, rfl⟩ := Option.map_eq_some_iff.mp stepped
    have enqueued := TaskPool.steps_of_step sent
    have isWorker : worker < workerNum := by
      cases enqueued
      assumption
    have lines := TaskPool.line_enqueue enqueued
    have ahead' : threaded.world.ahead = .enqueue worker ticket offset :: rest := ahead
    rw [World.carry, ahead']
    dsimp only
    rw [if_pos isWorker]
    exact congrArg some (congrArg
      (fun queue => ({ threaded.world with ahead := rest, queue := queue } : World)) lines.symm)
  · rename_i notEnqueue
    obtain ⟨-, carried⟩ := Option.ite_none_right_eq_some.mp stepped
    obtain ⟨world, taken, rfl⟩ := Option.map_eq_some_iff.mp carried
    obtain ⟨call, rest, femu, -, rfl⟩ := eq_of_carry taken notEnqueue
    exact taken

/-- Only a finished task is seen. -/
theorem world_thread (accounted : threaded.pool.Accounted shape journal) {now : Clock}
    {action : TaskPool.Action Task} (stepped : threaded.thread now action = some threaded') :
    match (Act.thread now action).event with
    | none => threaded'.world = threaded.world
    | some event => threaded.world.next device event = some threaded'.world := by
  have unseen : (∀ queue task, action ≠ .enqueue queue task) → (∀ i, action ≠ .finish i) →
      (threaded.pool.step shape action).map (fun pool => { threaded with pool := pool }) =
        some threaded' → threaded'.world = threaded.world := by
    intro notEnqueue notFinish moved
    obtain ⟨pool, taken, rfl⟩ := Option.map_eq_some_iff.mp moved
    have lines := accounted.line_eq notEnqueue notFinish (TaskPool.steps_of_step taken)
    exact congrArg (fun queue => ({ threaded.world with queue := queue } : World)) lines
  cases action with
  | finish worker =>
      obtain ⟨task, held, stepped⟩ := Option.bind_eq_some_iff.mp stepped
      obtain ⟨femu, written, stepped⟩ := Option.bind_eq_some_iff.mp stepped
      obtain ⟨pool, taken, rfl⟩ := Option.map_eq_some_iff.mp stepped
      obtain ⟨head, lines⟩ := TaskPool.line_finish held (TaskPool.steps_of_step taken)
      change threaded.world.work now worker = _
      have queue : threaded.world.queue worker = task :: threaded.pool.tasks worker := head
      rw [World.work, queue]
      refine Option.map_eq_some_iff.mpr ⟨femu, written, ?_⟩
      exact congrArg (fun queue => ({ threaded.world with queue := queue, femu := femu } : World))
        lines.symm
  | enqueue | store | notifyAll | join => cases stepped
  | lock | test | block | leave | notifyOne =>
      exact unseen (fun _ _ => by simp) (fun _ => by simp) stepped

theorem world_next (accounted : threaded.pool.Accounted shape journal)
    (stepped : threaded.next device act = some threaded') :
    match act.event with
    | none => threaded'.world = threaded.world
    | some event => threaded.world.next device event = some threaded'.world := by
  cases act with
  | operate op iter fuel => exact world_operate stepped
  | carry now => exact world_carry stepped
  | thread now action => exact world_thread accounted stepped

/-! ## The pool in a run -/

/-- The pool is in use: its invariants hold, and its destructor does not run. -/
def Pooled (threaded : Threaded) : Prop :=
  (∃ journal, TaskPool.Kept shape (threaded.pool, journal)) ∧
    (threaded.pool.owner = .using ∨ ∃ queue, threaded.pool.owner = .notifying queue)

/-- What a thread does is a step of the pool. -/
theorem step_of_thread {now : Clock} {action : TaskPool.Action Task}
    (stepped : threaded.thread now action = some threaded') :
    action.Proceeds ∧ threaded.pool.step shape action = some threaded'.pool ∧
      threaded'.ahead = threaded.ahead ∧ threaded'.manager = threaded.manager := by
  cases action with
  | finish worker =>
      obtain ⟨task, -, stepped⟩ := Option.bind_eq_some_iff.mp stepped
      obtain ⟨femu, -, stepped⟩ := Option.bind_eq_some_iff.mp stepped
      obtain ⟨pool, taken, rfl⟩ := Option.map_eq_some_iff.mp stepped
      exact ⟨trivial, taken, rfl, rfl⟩
  | enqueue | store | notifyAll | join => cases stepped
  | lock | test | block | leave | notifyOne =>
      obtain ⟨pool, taken, rfl⟩ := Option.map_eq_some_iff.mp stepped
      exact ⟨trivial, taken, rfl, rfl⟩

/-- What the main thread and the workers do to the pool. -/
theorem pool_next (stepped : threaded.next device act = some threaded') :
    threaded'.pool = threaded.pool ∨
      ∃ action : TaskPool.Action Task, action.InUse ∧
        threaded.pool.step shape action = some threaded'.pool := by
  cases act with
  | operate op iter fuel =>
      obtain ⟨-, operated⟩ := Option.ite_none_right_eq_some.mp stepped
      obtain ⟨world, -, rfl⟩ := Option.map_eq_some_iff.mp operated
      exact .inl rfl
  | carry now =>
      change threaded.carry now = some threaded' at stepped
      rw [carry] at stepped
      split at stepped
      · obtain ⟨pool, sent, rfl⟩ := Option.map_eq_some_iff.mp stepped
        refine .inr ⟨_, ?_, sent⟩
        trivial
      · obtain ⟨-, carried⟩ := Option.ite_none_right_eq_some.mp stepped
        obtain ⟨world, -, rfl⟩ := Option.map_eq_some_iff.mp carried
        exact .inl rfl
  | thread now action =>
      obtain ⟨proceeds, taken, -⟩ := step_of_thread stepped
      exact .inr ⟨action, proceeds.inUse, taken⟩

theorem Pooled.next (pooled : threaded.Pooled)
    (stepped : threaded.next device act = some threaded') : threaded'.Pooled := by
  rcases pool_next stepped with same | ⟨action, inUse, taken⟩
  · rw [Pooled, same]
    exact pooled
  · obtain ⟨⟨journal, kept⟩, owner⟩ := pooled
    refine ⟨⟨journal.note shape threaded.pool action, ?_⟩, ?_⟩
    · exact kept.step (Option.map_eq_some_iff.mpr ⟨_, taken, rfl⟩)
    · exact TaskPool.owner_of_inUse inUse owner (TaskPool.steps_of_step taken)

theorem pooled_of_reachable {log : List Issued}
    (reachable : (system device).Reachable (threaded, log)) : threaded.Pooled := by
  refine System.invariant_of_reachable (P := fun state => state.1.Pooled) ?_
    (fun _ _ _ pooled step => pooled.next step.2.1) reachable
  rintro _ ⟨m, -, rfl⟩
  exact ⟨⟨_, TaskPool.kept_of_reachable (.init rfl)⟩, .inl rfl⟩

theorem allowed_event (allowed : threaded.Allowed act) {event : Event}
    (seen : act.event = some event) (log : List Issued) :
    World.InTable (threaded.world, log) event ∧ threaded.world.Allowed event := by
  cases act with
  | operate op iter fuel =>
      cases seen
      exact ⟨allowed.2.2, allowed.1, allowed.2.1⟩
  | carry now =>
      cases seen
      exact ⟨trivial, trivial⟩
  | thread now action =>
      cases action with
      | finish worker =>
          cases seen
          exact ⟨trivial, trivial⟩
      | lock | test | block | leave | enqueue | notifyOne | store | notifyAll | join => cases seen

/-- Seen through the lines of the workers, every run of the threads is a run of main thread and
workers, with the same commands to the flash. -/
theorem reachable_world {state : Threaded × List Issued}
    (reachable : (system device).Reachable state) :
    ((World.journaled device).guarded World.InTable).Reachable (state.1.world, state.2) := by
  refine System.reachable_of_simulation (fun state => (state.1.world, state.2)) ?_ ?_ reachable
  · rintro _ ⟨m, built, rfl⟩
    exact ⟨⟨m, built, rfl⟩, rfl⟩
  · rintro ⟨threaded, log⟩ act ⟨threaded', log'⟩ before ⟨allowed, stepped, issued⟩
    obtain ⟨⟨journal, kept⟩, -⟩ := pooled_of_reachable before
    have seen := world_next kept.2 stepped
    dsimp only at issued stepped ⊢
    rw [issues] at issued
    cases view : act.event with
    | none =>
        rw [view] at seen issued
        left
        rw [seen, issued]
        exact congrArg _ (List.append_nil log)
    | some event =>
        rw [view] at seen issued
        right
        obtain ⟨inTable, isAllowed⟩ := allowed_event allowed view log
        exact ⟨event, inTable, ⟨isAllowed, seen⟩, issued⟩

/-! ## How much is left -/

/-- To send a task leaves the pool eight steps more. -/
def stepsLeft (threaded : Threaded) : Nat :=
  9 * threaded.ahead.length + threaded.pool.stepsLeft shape

theorem stepsLeft_carry {now : Clock} (stepped : threaded.carry now = some threaded') :
    threaded'.stepsLeft < threaded.stepsLeft := by
  rw [carry] at stepped
  split at stepped
  · rename_i worker ticket offset rest ahead
    obtain ⟨pool, sent, rfl⟩ := Option.map_eq_some_iff.mp stepped
    have left := TaskPool.stepsLeft_enqueue (TaskPool.steps_of_step sent)
    rw [stepsLeft, stepsLeft, ahead, List.length_cons]
    dsimp only
    omega
  · rename_i notEnqueue
    obtain ⟨-, carried⟩ := Option.ite_none_right_eq_some.mp stepped
    obtain ⟨world, taken, rfl⟩ := Option.map_eq_some_iff.mp carried
    obtain ⟨call, rest, femu, ahead, rfl⟩ := eq_of_carry taken notEnqueue
    have shorter : threaded.ahead = call :: rest := ahead
    rw [stepsLeft, stepsLeft, shorter, List.length_cons]
    dsimp only
    omega

theorem stepsLeft_thread {now : Clock} {action : TaskPool.Action Task}
    (stepped : threaded.thread now action = some threaded') :
    threaded'.stepsLeft < threaded.stepsLeft := by
  obtain ⟨proceeds, taken, ahead, -⟩ := step_of_thread stepped
  have less := TaskPool.stepsLeft_lt (TaskPool.steps_of_step taken) proceeds
  rw [stepsLeft, stepsLeft, ahead]
  omega

/-! ## What can be done next -/

/-- Nothing is left to do, for the threads either. -/
def Drained (threaded : Threaded) : Prop :=
  threaded.world.Drained ∧ threaded.pool.owner = .using

variable {done : List Call} {count : Nat → Nat} {log : List Issued}

/-- A step of the pool is one of the whole: the flash takes the write of a task. -/
theorem can_thread (accounted : threaded.pool.Accounted shape journal)
    (follows : threaded.world.Follows device done count) (now : Clock)
    {action : TaskPool.Action Task} (proceeds : action.Proceeds) {pool : TaskPool Task}
    (taken : threaded.pool.step shape action = some pool) :
    ∃ act : Act, act.ProceedsAt now ∧ ∃ threaded', threaded.next device act = some threaded' := by
  refine ⟨.thread now action, rfl, ?_⟩
  cases action with
  | finish worker =>
      have running : threaded.pool.workers worker = .running := by
        cases TaskPool.steps_of_step taken
        assumption
      obtain ⟨task, held⟩ := Option.ne_none_iff_exists'.mp (accounted.held running)
      have queue : threaded.world.queue worker = task :: threaded.pool.tasks worker :=
        (TaskPool.line_finish held (TaskPool.steps_of_step taken)).1
      obtain ⟨world, worked⟩ := follows.can_work now (List.ne_nil_of_mem (by
        rw [queue]
        exact List.mem_cons_self))
      rw [World.work, queue] at worked
      obtain ⟨femu, written, -⟩ := Option.map_eq_some_iff.mp worked
      refine ⟨{ threaded with pool := pool, femu := femu }, ?_⟩
      refine Option.bind_eq_some_iff.mpr ⟨task, held, ?_⟩
      refine Option.bind_eq_some_iff.mpr ⟨femu, written, ?_⟩
      exact Option.map_eq_some_iff.mpr ⟨pool, taken, rfl⟩
  | enqueue | store | notifyAll | join => exact proceeds.elim
  | lock | test | block | leave | notifyOne =>
      exact ⟨_, Option.map_eq_some_iff.mpr ⟨pool, taken, rfl⟩⟩

/-- The main thread goes on, or a worker has the mutex that it waits for. -/
theorem can_carry (kept : TaskPool.Kept shape (threaded.pool, journal))
    (follows : threaded.world.Follows device done count) (owner : threaded.pool.owner = .using)
    {now : Clock} {world : World} (carried : threaded.world.carry now = some world) :
    ∃ act : Act, act.ProceedsAt now ∧ ∃ threaded', threaded.next device act = some threaded' := by
  by_cases sends : ∃ worker ticket offset rest,
      threaded.ahead = .enqueue worker ticket offset :: rest
  · obtain ⟨worker, ticket, offset, rest, ahead⟩ := sends
    by_cases unlocked : threaded.pool.Unlocked shape worker
    · have isWorker : worker < workerNum := by
        have next : threaded.world.ahead = .enqueue worker ticket offset :: rest := ahead
        rw [World.carry, next] at carried
        exact (Option.ite_none_right_eq_some.mp carried).1
      refine ⟨.carry now, rfl, ?_⟩
      change ∃ threaded', threaded.carry now = some threaded'
      rw [carry, ahead]
      exact ⟨_, Option.map_eq_some_iff.mpr ⟨_, if_pos ⟨isWorker, owner, unlocked⟩, rfl⟩⟩
    · simp only [TaskPool.Unlocked, not_forall, Bool.not_eq_false] at unlocked
      obtain ⟨holder, lt, -, holds⟩ := unlocked
      obtain ⟨action, proceeds, pool, taken⟩ := kept.1.can_move_of_holds lt holds
      exact can_thread kept.2 follows now proceeds taken
  · refine ⟨.carry now, rfl, ?_⟩
    change ∃ threaded', threaded.carry now = some threaded'
    rw [carry]
    split
    · rename_i ahead
      exact absurd ⟨_, _, _, _, ahead⟩ sends
    · rw [if_pos owner]
      exact ⟨_, Option.map_eq_some_iff.mpr ⟨world, carried, rfl⟩⟩

/-- As long as something is left to do, a thread can go on at any time. -/
theorem Pooled.can_proceed (pooled : threaded.Pooled) (hosted : threaded.world.Hosted device log)
    (sectors : device.secsz ≤ pageSize) (notDrained : ¬threaded.Drained) (now : Clock) :
    ∃ act : Act, act.ProceedsAt now ∧ ∃ threaded', threaded.next device act = some threaded' := by
  obtain ⟨⟨journal, kept⟩, owner⟩ := pooled
  obtain ⟨⟨done, count, follows⟩, reads, -⟩ := hosted
  rcases owner with owner | ⟨queue, owner⟩
  · by_cases busy : ∃ worker, threaded.world.queue worker ≠ []
    · obtain ⟨worker, tasks⟩ := busy
      have notIdle : ¬threaded.pool.Idle shape := by
        rintro ⟨empty, held⟩
        have isWorker : worker < workerNum :=
          Nat.lt_of_not_le fun noWorker => tasks (follows.idle worker noWorker)
        apply tasks
        change (threaded.pool.task worker).toList ++ threaded.pool.tasks worker = []
        rw [held, empty worker isWorker]
        rfl
      obtain ⟨action, proceeds, pool, taken⟩ := kept.1.can_move kept.2 notIdle
      exact can_thread kept.2 follows now proceeds taken
    · have ahead : threaded.world.ahead ≠ [] := fun idle =>
        notDrained ⟨⟨idle, fun worker => not_not.mp (not_exists.mp busy worker)⟩, owner⟩
      rcases follows.can_carry reads sectors now ahead with ⟨world, carried⟩ | tasks
      · exact can_carry kept follows owner carried
      · exact absurd tasks busy
  · obtain ⟨action, proceeds, pool, taken⟩ := TaskPool.can_notify owner
    exact can_thread kept.2 follows now proceeds taken

/-! ## Every run of the threads ends -/

/-- The threads proceed, but no operation starts. -/
def proceeding (device : Device) : System (Threaded × List Issued) Act :=
  (system device).guarded fun _ act => ∃ now, act.ProceedsAt now

theorem step_of_proceeds (act : Act) {now : Clock} (at_now : act.ProceedsAt now)
    (stepped : threaded.next device act = some threaded') (log : List Issued) :
    (proceeding device).Step (threaded, log) act (threaded', log ++ threaded.issues act) := by
  refine ⟨⟨now, at_now⟩, ?_, stepped, rfl⟩
  cases act with
  | operate op iter fuel => exact at_now.elim
  | carry time => trivial
  | thread time action => trivial

theorem reachable_of_path {state last : Threaded × List Issued} {labels : List Act}
    (path : (proceeding device).Path state labels last)
    (reachable : (system device).Reachable state) : (system device).Reachable last := by
  refine path.invariant (P := (system device).Reachable) ?_ reachable
  exact fun before step => before.step step.2

/-- However the threads are scheduled, main thread and workers do what they did before, and
finish. -/
structure Completes (device : Device) (state : Threaded × List Issued) : Prop where
  /-- The same commands come from a run in which the workers are no threads. -/
  seen : ((World.journaled device).guarded World.InTable).Reachable (state.1.world, state.2)
  bounded : ∀ {labels last}, (proceeding device).Path state labels last →
    labels.length + last.1.stepsLeft ≤ state.1.stepsLeft
  progress : ∀ {labels last}, (proceeding device).Path state labels last → ¬last.1.Drained →
    ∀ now, ∃ act : Act, act.ProceedsAt now ∧ ∃ next, (proceeding device).Step last act next
  ends : ∃ labels last, (proceeding device).Path state labels last ∧ last.1.Drained
  mirrored : ∀ {labels last}, (proceeding device).Path state labels last → last.1.Drained →
    last.1.manager = state.1.manager ∧ (last.1.stopped = false → last.1.world.Mirrored device)

theorem manager_of_proceeds {now : Clock} (proceeds : act.ProceedsAt now)
    (stepped : threaded.next device act = some threaded') :
    threaded'.manager = threaded.manager := by
  cases act with
  | operate op iter fuel => exact proceeds.elim
  | carry time =>
      change threaded.carry time = some threaded' at stepped
      rw [carry] at stepped
      split at stepped
      · obtain ⟨pool, -, rfl⟩ := Option.map_eq_some_iff.mp stepped
        rfl
      · obtain ⟨-, carried⟩ := Option.ite_none_right_eq_some.mp stepped
        obtain ⟨world, -, rfl⟩ := Option.map_eq_some_iff.mp carried
        rfl
  | thread time action => exact (step_of_thread stepped).2.2.2

/-- From every state that the threads reach, they end, with everything written, in whatever
order they go on. -/
theorem completes_of_reachable (device : Device) (sectors : device.secsz ≤ pageSize)
    {state : Threaded × List Issued} (reachable : (system device).Reachable state) :
    Completes device state := by
  have preserved {state next : Threaded × List Issued} {act : Act}
      (before : (system device).Reachable state) (step : (proceeding device).Step state act next) :
      (system device).Reachable next :=
    before.step step.2
  have lowers {state next : Threaded × List Issued} {act : Act}
      (_ : (system device).Reachable state) (step : (proceeding device).Step state act next) :
      next.1.stepsLeft < state.1.stepsLeft := by
    obtain ⟨⟨now, proceeds⟩, -, stepped, -⟩ := step
    cases act with
    | operate op iter fuel => exact proceeds.elim
    | carry time => exact stepsLeft_carry stepped
    | thread time action => exact stepsLeft_thread stepped
  have progress {state : Threaded × List Issued} (before : (system device).Reachable state)
      (notDrained : ¬state.1.Drained) (now : Clock) :
      ∃ act : Act, act.ProceedsAt now ∧ ∃ next, (proceeding device).Step state act next := by
    have hosted := World.hosted_of_reachable sectors (reachable_world before)
    obtain ⟨act, at_now, threaded, stepped⟩ :=
      (pooled_of_reachable before).can_proceed hosted sectors notDrained now
    exact ⟨act, at_now, _, step_of_proceeds act at_now stepped state.2⟩
  constructor
  case seen => exact reachable_world reachable
  case bounded =>
    intro labels last path
    exact path.length_le (P := (system device).Reachable) (fun state => state.1.stepsLeft)
      preserved lowers reachable
  case progress =>
    intro labels last path notDrained now
    exact progress (reachable_of_path path reachable) notDrained now
  case ends =>
    refine System.exists_path (P := (system device).Reachable) (fun state => state.1.stepsLeft)
      preserved lowers ?_ reachable
    intro state before notDrained
    obtain ⟨act, -, next, step⟩ := progress before notDrained (.still 0)
    exact ⟨act, next, step⟩
  case mirrored =>
    intro labels last path drained
    have same : last.1.manager = state.1.manager := by
      refine path.invariant (P := fun other => other.1.manager = state.1.manager) ?_ rfl
      rintro before act next kept ⟨⟨now, proceeds⟩, -, stepped, -⟩
      exact (manager_of_proceeds proceeds stepped).trans kept
    obtain ⟨done, count, follows⟩ := World.follows_of_reachable
      (World.reachable_of_journaled (reachable_world (reachable_of_path path reachable)))
    exact ⟨same, follows.mirrored drained.1⟩

/-- The worker sleeps, its task is sent, and the notification is still to come. -/
theorem completes_of_asleep : ∃ (threaded : Threaded) (log : List Issued),
    threaded.pool.workers 2 = .blocked ∧ (threaded.pool.tasks 2).map (·.offset) = [0] ∧
      Completes device8G (threaded, log) := by
  obtain ⟨threaded, ran, seen⟩ := Option.map_eq_some_iff.mp
    (show (((MemoryManager.new device8G).bind fun m =>
        ((start device8G m).operate device8G (.writeTable 0 0)
          (fun zones => zones.sort (· ≤ ·)) 1).bind fun asked =>
            (asked.thread (.still 0) (.lock 2)).bind fun locked =>
              (locked.thread (.still 0) (.test 2)).bind fun failed =>
                (failed.thread (.still 0) (.block 2)).bind fun blocked =>
                  blocked.carry (.still 0)).map fun threaded =>
            (threaded.pool.workers 2, (threaded.pool.tasks 2).map (·.offset))) =
        some (.blocked, [0]) by decide +kernel)
  obtain ⟨m, built, ran⟩ := Option.bind_eq_some_iff.mp ran
  obtain ⟨asked, operated, ran⟩ := Option.bind_eq_some_iff.mp ran
  obtain ⟨locked, locks, ran⟩ := Option.bind_eq_some_iff.mp ran
  obtain ⟨failed, tests, ran⟩ := Option.bind_eq_some_iff.mp ran
  obtain ⟨blocked, blocks, carried⟩ := Option.bind_eq_some_iff.mp ran
  have fresh : (MemoryManager.new device8G).map
      (fun m => decide (m.Allowed (.writeTable 0 0))) = some true := by
    decide +kernel
  rw [built] at fresh
  have allowed : (start device8G m).Allowed
      (.operate (.writeTable 0 0) (fun zones => zones.sort (· ≤ ·)) 1) :=
    ⟨of_decide_eq_true (Option.some.inj fresh), MemoryManager.enumerates_sort, trivial⟩
  obtain ⟨log, begun⟩ : ∃ log, (system device8G).Reachable (asked, log) :=
    ⟨_, .step (.init ⟨m, built, rfl⟩) ⟨allowed, operated, rfl⟩⟩
  obtain ⟨labels, log', path⟩ : ∃ labels log',
      (proceeding device8G).Path (asked, log) labels (threaded, log') :=
    ⟨_, _, .cons (step_of_proceeds (.thread (.still 0) (.lock 2)) rfl locks log)
      (.cons (step_of_proceeds (.thread (.still 0) (.test 2)) rfl tests _)
        (.cons (step_of_proceeds (.thread (.still 0) (.block 2)) rfl blocks _)
          (.cons (step_of_proceeds (.carry (.still 0)) rfl carried _) (.nil _))))⟩
  obtain ⟨worker, tasks⟩ := Prod.mk.inj seen
  exact ⟨threaded, log', worker, tasks, completes_of_reachable device8G (by decide)
    (reachable_of_path path begun)⟩

end Threaded

end ZnsLsm.Pool
