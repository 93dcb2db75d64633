import ZnsLsm.Pool.Capacity
import ZnsLsm.Pool.Draining
import ZnsLsm.Store.Stack

/-!
# Commands complete

While the tables of the store fit on the device, the manager never exits, and what a command
has decided on gets done: in whatever order the main thread and the workers proceed, they
finish, and then the flash holds the tables of the store.
-/

namespace ZnsLsm.Store

open ZnsLsm.Outcome ZnsLsm.Transition
open ZnsLsm.Flash (Clock Issued)
open ZnsLsm.Pool (Device MemoryManager Op World Enumerates device8G)
open ZnsLsm.Pool.MemoryManager (Wide HasRoom capacity)

def isWrite : Op → Bool
  | .writeTable _ _ => true
  | _ => false

namespace Stack

variable {device : Device} {stack stack' : Stack} {log : List Issued}

/-- The stored tables and those to be written fit on the device. -/
def Fits (device : Device) (stack : Stack) : Prop :=
  {t | stack.world.manager.Live t}.encard + (stack.asked.countP isWrite : Nat) ≤ capacity device

/-- Beside what `Meets` asks for, the tables that a command writes fit on the device, and no
eviction loop is cut short. -/
def Lasts (device : Device) (state : Stack × List Issued) : StackEvent → Prop
  | .command invocation => Meets state (.command invocation) ∧
      ∀ stack, state.1.command invocation = some stack → stack.Fits device
  | .request _ fuel => state.1.world.manager.pendingWork device < fuel
  | _ => True

/-- The runs whose commands all fit. -/
abbrev LastingRuns (device : Device) (state : Stack × List Issued) : Prop :=
  ((system device).guarded (Lasts device)).Reachable state

theorem runs_of_lasting {state : Stack × List Issued} (runs : LastingRuns device state) :
    Runs device state.1 state.2 := by
  refine System.reachable_guarded_mono ?_ runs
  rintro before (invocation | ⟨iter, fuel⟩ | now | ⟨now, worker⟩) lasts
  · exact lasts.1
  · exact trivial
  · exact trivial
  · exact trivial

/-! ## The manager never exits -/

theorem encard_liveIn_cons (op : Op) (log : List Op) :
    (Pool.Ledger.liveIn (op :: log)).encard ≤
      (Pool.Ledger.liveIn log).encard + ([op].countP isWrite : Nat) := by
  cases op with
  | writeTable level num => exact Set.encard_insert_le _ _
  | deleteTable level num =>
      exact (Set.encard_le_encard Set.sdiff_subset).trans (self_le_add_right _ _)
  | getValue level num offset length => exact self_le_add_right _ _
  | readTable level num offset length => exact self_le_add_right _ _
  | tryReset => exact self_le_add_right _ _
  | evictZone => exact self_le_add_right _ _

theorem Fits.hasRoom (fits : stack.Fits device) {op : Op} {rest : List Op}
    (asked : stack.asked = op :: rest) (notEvict : op ≠ .evictZone) {before : List Op}
    (recorded : stack.world.manager.Recorded before) : HasRoom device before op := by
  have live : {t | stack.world.manager.Live t} = Pool.Ledger.liveIn before :=
    Set.ext recorded.live
  cases op with
  | writeTable level num =>
      rw [Fits, live, asked, List.countP_cons_of_pos rfl, Nat.cast_succ, ← add_assoc] at fits
      have bounded : (Pool.Ledger.liveIn before).encard + (rest.countP isWrite : Nat) <
          capacity device := by
        refine (ENat.add_one_le_iff ?_).mp fits
        exact ne_top_of_le_ne_top (ENat.natCast_ne_top _) ((self_le_add_right _ _).trans fits)
      exact lt_of_le_of_lt (self_le_add_right _ _) bounded
  | evictZone => exact absurd rfl notEvict
  | getValue level num offset length => exact trivial
  | readTable level num offset length => exact trivial
  | deleteTable level num => exact trivial
  | tryReset => exact trivial

/-- The request that comes next returns. -/
theorem Aligned.returns (aligned : stack.Aligned device log) (wide : Wide device)
    (running : stack.world.stopped = false) (fits : stack.Fits device) {op : Op}
    {rest : List Op} (asked : stack.asked = op :: rest) :
    stack.world.manager.Returns device op ∧
      ∀ iter fuel, Ends
        (fun m => {t | m.Live t}.encard + (rest.countP isWrite : Nat) ≤ capacity device)
        (fun _ => True) (stack.world.manager.exec device iter fuel op) := by
  obtain ⟨⟨-, notEvict⟩, before, -, clean, recorded⟩ := aligned.next asked running
  obtain ⟨done, count, follows⟩ := World.follows_of_reachable
    (World.reachable_of_journaled aligned.below)
  have reachable := follows.manager running
  obtain ⟨roles, books⟩ := MemoryManager.books_of_reachable reachable
  constructor
  · exact recorded.returns clean.2 reachable wide clean.1 (fits.hasRoom asked notEvict recorded)
  · intro iter fuel
    refine (recorded.exec clean.2 roles books clean.1 iter fuel).imp ?_ fun _ => id
    intro m recorded'
    have live : {t | stack.world.manager.Live t} = Pool.Ledger.liveIn before :=
      Set.ext recorded.live
    have live' : {t | m.Live t} = Pool.Ledger.liveIn (op :: before) := Set.ext recorded'.live
    have split : stack.asked.countP isWrite = [op].countP isWrite + rest.countP isWrite := by
      rw [asked, ← List.countP_append]
      rfl
    rw [Fits, live, split, Nat.cast_add, ← add_assoc] at fits
    rw [live']
    exact (add_le_add_left (encard_liveIn_cons op before) _).trans fits

/-- The manager has not exited, and the tables to be written fit. -/
def Lasting (device : Device) (stack : Stack) : Prop :=
  stack.world.stopped = false ∧ stack.Fits device

theorem Lasting.request (lasting : stack.Lasting device) (aligned : stack.Aligned device log)
    (wide : Wide device) {iter : Finset Nat → List Nat} {fuel : Nat}
    (enumerates : Enumerates iter) (enough : stack.world.manager.pendingWork device < fuel)
    (stepped : stack.next device (.request iter fuel) = some stack') :
    stack'.Lasting device ∧ stack.asked.length = stack'.asked.length + 1 := by
  obtain ⟨running, fits⟩ := lasting
  simp only [Stack.next] at stepped
  split at stepped
  · cases stepped
  · rename_i op rest asked
    obtain ⟨world, operated, rfl⟩ := Option.map_eq_some_iff.mp stepped
    obtain ⟨returns, fitting⟩ := aligned.returns wide running fits asked
    obtain ⟨m, executed⟩ := returns iter enumerates fuel enough
    rw [World.next_operate] at operated
    rw [World.operate, executed] at operated
    split at operated
    · cases operated
    · cases operated
      exact ⟨⟨running, (fitting iter fuel).of_ok executed⟩, by rw [asked, List.length_cons]⟩

theorem lasting_of_runs (wide : Wide device) {state : Stack × List Issued}
    (runs : LastingRuns device state) : state.1.Lasting device := by
  refine System.invariant_of_reachable_with
    (K := fun state => state.1.Aligned device state.2) (P := fun state => state.1.Lasting device)
    (fun _ before => aligned_of_runs (runs_of_lasting before)) ?_ ?_ runs
  · rintro _ ⟨m, built, rfl⟩
    have recorded := MemoryManager.recorded_new built
    have none : {t | m.Live t} = ∅ := Set.ext recorded.live
    refine ⟨rfl, ?_⟩
    change {t | m.Live t}.encard + ((0 : Nat) : ENat) ≤ capacity device
    rw [none, Set.encard_empty, Nat.cast_zero, add_zero]
    exact zero_le
  · rintro ⟨stack, log⟩ event ⟨stack', log'⟩ aligned lasting ⟨lasts, orders, stepped, -⟩
    dsimp only at aligned lasting stepped ⊢
    cases event with
    | command invocation =>
        refine ⟨?_, lasts.2 stack' stepped⟩
        change stack.command invocation = some stack' at stepped
        rw [Stack.command] at stepped
        split at stepped
        · cases stepped
        · obtain ⟨store, -, rfl⟩ := Option.map_eq_some_iff.mp stepped
          exact lasting.1
    | request iter fuel => exact (lasting.request aligned wide orders lasts stepped).1
    | carry now =>
        obtain ⟨world, carried, rfl⟩ := Option.map_eq_some_iff.mp stepped
        obtain ⟨manager, stopped⟩ := World.frame_of_proceeds
          (show (Pool.Event.carry now).Proceeds from trivial) carried
        rw [Lasting, Fits]
        dsimp only
        rw [manager, stopped]
        exact lasting
    | work now worker =>
        obtain ⟨world, worked, rfl⟩ := Option.map_eq_some_iff.mp stepped
        obtain ⟨manager, stopped⟩ := World.frame_of_proceeds
          (show (Pool.Event.work now worker).Proceeds from trivial) worked
        rw [Lasting, Fits]
        dsimp only
        rw [manager, stopped]
        exact lasting

/-! ## A command that has begun completes -/

/-- The main thread and the workers proceed, but no command begins. -/
def Proceeds : StackEvent → Prop
  | .command _ => False
  | _ => True

def proceeding (device : Device) : System (Stack × List Issued) StackEvent :=
  ((system device).guarded (Lasts device)).guarded fun _ event => Proceeds event

/-- The command has returned, and the workers have nothing left to do. -/
def Finished (stack : Stack) : Prop :=
  stack.asked = [] ∧ stack.world.Drained

/-- The event is a request, or it happens at this time. -/
def AtTime (now : Clock) : StackEvent → Prop
  | .carry time => time = now
  | .work time _ => time = now
  | _ => True

/-- The manager has not exited, and the command that has begun completes however the main
thread and the workers proceed. -/
structure Completes (device : Device) (state : Stack × List Issued) : Prop where
  running : state.1.world.stopped = false
  terminates : (proceeding device).Terminates state
  progress : ∀ {labels last}, (proceeding device).Path state labels last → ¬last.1.Finished →
    ∀ now, ∃ event, AtTime now event ∧ ∃ next, (proceeding device).Step last event next
  finishes : ∃ labels last, (proceeding device).Path state labels last ∧ last.1.Finished
  /-- Then the manager stores the tables of the store, and the flash is as in its books. -/
  finished : ∀ {labels last}, (proceeding device).Path state labels last → last.1.Finished →
    last.1.store = state.1.store ∧
      (∀ t, (last.1.world.manager.mappingTable t).isSome ↔ t ∈ state.1.store.ids) ∧
        last.1.world.Mirrored device

section Completion

variable {state next : Stack × List Issued} {event : StackEvent}

theorem lasting_step (runs : LastingRuns device state)
    (step : (proceeding device).Step state event next) : LastingRuns device next :=
  runs.step step.2

/-- A request leaves fewer requests, and every other step leaves less to do below. -/
theorem proceeding_lowers (wide : Wide device) (runs : LastingRuns device state)
    (step : (proceeding device).Step state event next) :
    Prod.Lex (· < ·) (· < ·) (next.1.asked.length, next.1.world.pending)
      (state.1.asked.length, state.1.world.pending) := by
  obtain ⟨proceeds, lasts, orders, stepped, -⟩ := step
  have aligned := aligned_of_runs (runs_of_lasting runs)
  obtain ⟨done, count, follows⟩ := World.follows_of_reachable
    (World.reachable_of_journaled aligned.below)
  cases event with
  | command invocation => cases proceeds
  | request iter fuel =>
      have shorter :=
        ((lasting_of_runs wide runs).request aligned wide orders lasts stepped).2
      exact .left _ _ (by omega)
  | carry now =>
      obtain ⟨world, carried, same⟩ := Option.map_eq_some_iff.mp stepped
      rw [← same]
      have proceeds : Pool.Event.Proceeds (.carry now) := trivial
      exact .right _ (follows.pending_lt proceeds carried)
  | work now worker =>
      obtain ⟨world, worked, same⟩ := Option.map_eq_some_iff.mp stepped
      rw [← same]
      have proceeds : Pool.Event.Proceeds (.work now worker) := trivial
      exact .right _ (follows.pending_lt proceeds worked)

/-- The manager can be called for the next request. -/
theorem Lasting.can_request (lasting : stack.Lasting device) (idle : stack.world.ahead = [])
    (busy : stack.asked ≠ []) (iter : Finset Nat → List Nat) (fuel : Nat) :
    ∃ stack', stack.next device (.request iter fuel) = some stack' := by
  obtain ⟨op, rest, asked⟩ := List.exists_cons_of_ne_nil busy
  have called : ∃ world, stack.world.next device (.operate op iter fuel) = some world := by
    change ∃ world, stack.world.operate device op iter fuel = some world
    rw [World.operate, if_neg]
    · split <;> exact ⟨_, rfl⟩
    · rw [not_or, lasting.1, idle]
      simp
  obtain ⟨world, called⟩ := called
  exact ⟨_, by simp only [Stack.next, asked, called, Option.map_some]; rfl⟩

/-- Something can be done at any time until the command is finished. -/
theorem can_proceed (wide : Wide device) (sectors : device.secsz ≤ Pool.pageSize)
    (runs : LastingRuns device state) (notFinished : ¬state.1.Finished) (now : Clock) :
    ∃ event, AtTime now event ∧ ∃ next, (proceeding device).Step state event next := by
  have aligned := aligned_of_runs (runs_of_lasting runs)
  have lasting := lasting_of_runs wide runs
  by_cases drained : state.1.world.Drained
  · have busy : state.1.asked ≠ [] := fun none => notFinished ⟨none, drained⟩
    obtain ⟨stack', stepped⟩ := lasting.can_request drained.1 busy
      (fun zones => zones.sort (· ≤ ·)) (state.1.world.manager.pendingWork device + 1)
    exact ⟨.request _ _, trivial, (stack', _), trivial, Nat.lt_succ_self _,
      MemoryManager.enumerates_sort, stepped, rfl⟩
  · obtain ⟨event, at_now, world, stepped⟩ :=
      (World.hosted_of_reachable sectors aligned.below).can_proceed sectors drained now
    cases event with
    | operate op iter fuel => cases at_now
    | carry time =>
        exact ⟨.carry time, at_now, ({ state.1 with world := world }, _), trivial, trivial, trivial,
          Option.map_eq_some_iff.mpr ⟨world, stepped, rfl⟩, rfl⟩
    | work time worker =>
        exact ⟨.work time worker, at_now, ({ state.1 with world := world }, _), trivial, trivial,
          trivial, Option.map_eq_some_iff.mpr ⟨world, stepped, rfl⟩, rfl⟩

theorem store_of_proceeding (step : (proceeding device).Step state event next) :
    next.1.store = state.1.store := by
  obtain ⟨proceeds, -, -, stepped, -⟩ := step
  cases event with
  | command invocation => cases proceeds
  | request iter fuel =>
      simp only [Stack.next] at stepped
      split at stepped
      · cases stepped
      · obtain ⟨world, -, same⟩ := Option.map_eq_some_iff.mp stepped
        rw [← same]
  | carry now =>
      obtain ⟨world, -, same⟩ := Option.map_eq_some_iff.mp stepped
      rw [← same]
  | work now worker =>
      obtain ⟨world, -, same⟩ := Option.map_eq_some_iff.mp stepped
      rw [← same]

/-- In every run whose tables fit on the device, the program is never stopped, and every command
completes. -/
theorem completes_of_runs (device : Device) (wide : Wide device)
    (sectors : device.secsz ≤ Pool.pageSize) (runs : LastingRuns device state) :
    Completes device state := by
  have terminates : (proceeding device).Terminates state :=
    System.terminates_of_measure (P := LastingRuns device)
      (Prod.lex Nat.lt_wfRel Nat.lt_wfRel).wf
      (fun state => (state.1.asked.length, state.1.world.pending)) lasting_step
      (proceeding_lowers wide) runs
  constructor
  · exact (lasting_of_runs wide runs).1
  · exact terminates
  · intro labels last path notFinished now
    exact can_proceed wide sectors (path.invariant lasting_step runs) notFinished now
  · refine terminates.exists_path (P := LastingRuns device) lasting_step ?_ runs
    intro state before notFinished
    obtain ⟨event, -, next, step⟩ := can_proceed wide sectors before notFinished (.still 0)
    exact ⟨event, next, step⟩
  · intro labels last path finished
    have same : last.1.store = state.1.store := by
      refine path.invariant (P := fun other => other.1.store = state.1.store) ?_ rfl
      exact fun kept step => (store_of_proceeding step).trans kept
    have runs' : LastingRuns device last := path.invariant lasting_step runs
    have aligned := aligned_of_runs (runs_of_lasting runs')
    have running := (lasting_of_runs wide runs').1
    obtain ⟨done, count, follows⟩ := World.follows_of_reachable
      (World.reachable_of_journaled aligned.below)
    refine ⟨same, ?_, follows.mirrored finished.2 running⟩
    rw [← same]
    exact aligned.stored running finished.1

/-- A stack whose manager stores nothing may write any table. -/
theorem fits_new {m : MemoryManager} (built : MemoryManager.new device = some m) (store : KVStore)
    {asked : List Op} (few : asked.countP isWrite ≤ capacity device) :
    Fits device ⟨store, asked, World.start device m⟩ := by
  have none : {t | m.Live t} = ∅ := Set.ext (MemoryManager.recorded_new built).live
  change {t | m.Live t}.encard + (asked.countP isWrite : Nat) ≤ capacity device
  rw [none, Set.encard_empty, zero_add]
  exact Nat.cast_le.mpr few

theorem lasting_command {invocation : Invocation} (runs : LastingRuns device (stack, log))
    (done : stack.command invocation = some stack')
    (meets : Meets (stack, log) (.command invocation)) (fits : stack'.Fits device) :
    LastingRuns device (stack', log ++ stack.issues (.command invocation)) := by
  have lasts : Lasts device (stack, log) (.command invocation) := by
    refine ⟨meets, fun other same => ?_⟩
    cases done.symm.trans same
    exact fits
  exact runs.step ⟨lasts, trivial, done, rfl⟩

/-- A put has flushed the memtable, and the manager was not called yet. -/
theorem completes_after_flush : ∃ state : Stack × List Issued,
    state.1.asked = [.writeTable 0 1] ∧ Completes device8G state := by
  obtain ⟨first, second, ⟨put7, asks7, meets7⟩, ⟨put3, asks3, meets3⟩, -⟩ := flush_wide
  obtain ⟨m, built⟩ := Option.isSome_iff_exists.mp
    (show (MemoryManager.new device8G).isSome by decide +kernel)
  have stored7 : Stack.command ⟨.new, [], World.start device8G m⟩ (Command.put 7 wide).invoke =
      some ⟨first, [], World.start device8G m⟩ := by
    simp [command, World.start, put7, asks7]
  have stored3 : Stack.command ⟨first, [], World.start device8G m⟩ (Command.put 3 wide).invoke =
      some ⟨second, [.writeTable 0 1], World.start device8G m⟩ := by
    simp [command, World.start, put3, asks3]
  have starts : LastingRuns device8G (⟨.new, [], World.start device8G m⟩, []) :=
    .init ⟨m, built, rfl⟩
  have one : [Op.writeTable 0 1].countP isWrite ≤ capacity device8G := by decide +kernel
  have runs := lasting_command
    (lasting_command starts stored7 (meets7 _ _ _) (fits_new built first (Nat.zero_le _)))
    stored3 (meets3 _ _ _) (fits_new built second one)
  exact ⟨_, rfl, completes_of_runs device8G (by decide +kernel) (by decide) runs⟩

end Completion

end Stack

end ZnsLsm.Store
