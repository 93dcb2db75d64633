import ZnsLsm.Pool.Discipline
import ZnsLsm.Store.Agreement
import ZnsLsm.Store.Slots
import ZnsLsm.Store.Termination

/-!
# The store on its device

The store calls the manager in the order of its requests, the manager hands tables to the
workers, and both send requests to the simulator.  The answers of the manager do not
influence the store, so a command decides on all its requests at once, and the main thread
then makes them one after the other; meanwhile the workers run.
-/

namespace ZnsLsm.Store

open ZnsLsm.Outcome ZnsLsm.Transition
open ZnsLsm.Flash (Clock Issued KeepsRules)
open ZnsLsm.Pool (Device MemoryManager Op World Enumerates sstableSize openZoneNum device8G)

namespace KVStore

variable {pops : List Table → List Table} {store store' : KVStore} {level : Nat}

/-! ## The requests of a command -/

theorem requests_of_cascade (valid : Pops pops) {fuel key : Nat} {s : Str}
    (reached : StageRuns .none (.merging level key s) store)
    (ok : compactionForLevel pops fuel level store = .ok store') :
    store.memoryPool <:+ store'.memoryPool := by
  induction fuel generalizing level store with
  | zero => cases ok
  | succ fuel ih =>
      rw [compactionForLevel] at ok
      split at ok
      · cases ok
        exact List.suffix_cons _ _
      · rename_i full
        cases merged : store.compactLevel pops level with
        | error fault =>
            rw [merged] at ok
            cases ok
        | ok next =>
            rw [merged] at ok
            obtain ⟨-, compacted⟩ := (compactLevel_of_stageRuns valid reached).of_ok merged
            have later := ih (stageRuns_step (.merge valid (overfull_iff.mpr full) merged) trivial
              reached) ok
            have here : store.memoryPool <:+ next.memoryPool := by
              rw [compacted.memoryPool, ← List.append_assoc, ← List.append_assoc,
                ← List.append_assoc]
              exact List.suffix_append _ _
            exact here.trans later

theorem requests_of_put (valid : Pops pops) {fuel key : Nat} {s : Str}
    (reached : StageRuns .none .idle store) (ok : store.put pops fuel key s = .ok store') :
    store.memoryPool <:+ store'.memoryPool := by
  by_cases large : sstableSize < (store.charged key s).memory
  · cases flushed : store.flush (store.charged key s) with
    | error fault =>
        rw [put_of_error large flushed] at ok
        cases ok
    | ok next =>
        have step := (flush_ends _ _).of_ok flushed
        have flushing : store.memoryPool <:+ next.memoryPool := by
          rw [step.memoryPool]
          exact List.suffix_cons _ _
        rw [put_of_flushed large flushed, compact] at ok
        split at ok
        · rename_i full
          have reached' : StageRuns .none (.flushed key s)
              (next.recharge (store.memTable.get key) s) :=
            stageRuns_step (.flush large flushed) trivial reached
          have descended := stageRuns_step (.descend full) trivial reached'
          cases cascade : compactionForLevel pops fuel 1
              (next.recharge (store.memTable.get key) s) with
          | error fault =>
              rw [cascade] at ok
              cases ok
          | ok merged =>
              rw [cascade] at ok
              cases ok
              have cascading := requests_of_cascade valid descended cascade
              exact flushing.trans cascading
        · cases ok
          exact flushing
  · rw [put_of_small large] at ok
    cases ok
    exact List.suffix_refl _

theorem requests_of_get (store : KVStore) (key : Nat) :
    store.memoryPool <:+ (store.get key).2.memoryPool := by
  obtain ⟨memoryPool, same, asked, grown, -⟩ := store.get_eq key
  rw [same, grown]
  exact List.suffix_append _ _

/-- A command only adds requests. -/
theorem requests_of_exec (valid : Pops pops) {fuel : Nat} {command : Command} {reply : Reply}
    (reached : StageRuns .none .idle store)
    (ok : store.exec pops fuel command = .ok (reply, store')) :
    store.memoryPool <:+ store'.memoryPool := by
  cases command with
  | put key s => exact requests_of_put valid reached (exec_put_ok ok).2
  | get key =>
      obtain ⟨-, rfl⟩ := exec_get_ok ok
      exact store.requests_of_get key
  | del key =>
      rcases exec_del_ok ok with ⟨-, -, done⟩ | ⟨-, -, rfl⟩
      · have asked : StageRuns .none .idle (store.get key).2 := stageRuns_step .get trivial reached
        exact (store.requests_of_get key).trans (requests_of_put valid asked done)
      · exact store.requests_of_get key

/-- The time stamps of a compaction differ from those of the tables that it merges, and what
is written leaves room in its slot. -/
def Guard.orderly : Guard where
  puts := Guard.stowed.puts
  merges call := Guard.apart.merges call ∧ Guard.stowed.merges call

instance (store : KVStore) (key : Nat) (s : Str) : Decidable (Guard.orderly.puts store key s) :=
  inferInstanceAs (Decidable (Guard.stowed.puts store key s))

instance (call : CompactionCall) : Decidable (Guard.orderly.merges call) :=
  inferInstanceAs (Decidable (_ ∧ _))

theorem stage_apart_of_orderly (state : Stage × KVStore) (action : Action)
    (allowed : Guard.orderly.stage state action) : Guard.apart.stage state action := by
  rcases state with ⟨stage, store⟩
  cases action with
  | write key s => exact trivial
  | flush key s => exact trivial
  | merge pops =>
      cases stage with
      | merging level key s => exact allowed.1
      | idle => exact trivial
      | flushed key s => exact trivial
      | settled key s => exact trivial
  | skip => exact trivial
  | descend => exact trivial
  | stop => exact trivial
  | insert => exact trivial
  | get key => exact trivial

/-- The requests of such a run are in order and inside their tables. -/
theorem indexed_of_orderly (runs : Runs .orderly store) (small : store.Countable) :
    store.Indexed ∧ store.Confined := by
  have reached := stages_of_runs runs
  constructor
  · exact stageInvariant_indexed.holds id
      (System.reachable_guarded_mono stage_apart_of_orderly reached) small
  · refine confined_of_stageRuns ?_ ?_ reached
    · exact id
    · exact And.right

end KVStore

/-! ## The stack -/

/-- The store, its requests that the manager was not called for (oldest first), and what is
below it. -/
structure Stack where
  store : KVStore
  asked : List Op
  world : World

inductive StackEvent
  /-- The main thread carries out a command of the store. -/
  | command (invocation : Invocation)
  /-- It calls the manager for the next request. -/
  | request (iter : Finset Nat → List Nat) (fuel : Nat)
  /-- It carries out the next call of the manager. -/
  | carry (now : Clock)
  /-- A worker runs its next task. -/
  | work (now : Clock) (worker : Nat)

namespace Stack

variable {device : Device}

/-- The requests that a command has added to the record, oldest first. -/
def requestsSince (before after : KVStore) : List Op :=
  (after.memoryPool.take (after.memoryPool.length - before.memoryPool.length)).reverse

/-- A command begins when the one before has returned. -/
def command (stack : Stack) (invocation : Invocation) : Option Stack :=
  if stack.world.stopped ∨ stack.asked ≠ [] ∨ stack.world.ahead ≠ [] then
    none
  else
    (stack.store.invoke invocation).map fun store =>
      { stack with store := store, asked := requestsSince stack.store store }

/-- What an event is to the manager and the workers. -/
def below (stack : Stack) : StackEvent → Option Pool.Event
  | .command _ => none
  | .request iter fuel => stack.asked.head?.map fun op => .operate op iter fuel
  | .carry now => some (.carry now)
  | .work now worker => some (.work now worker)

def next (device : Device) (stack : Stack) : StackEvent → Option Stack
  | .command invocation => stack.command invocation
  | .request iter fuel =>
      match stack.asked with
      | [] => none
      | op :: asked =>
          (stack.world.next device (.operate op iter fuel)).map fun world =>
            { stack with asked := asked, world := world }
  | .carry now => (stack.world.next device (.carry now)).map ({ stack with world := · })
  | .work now worker => (stack.world.next device (.work now worker)).map ({ stack with world := · })

/-- The commands that reach the flash in an event. -/
def issues (stack : Stack) (event : StackEvent) : List Issued :=
  match stack.below event with
  | none => []
  | some event => stack.world.issues event

/-- A set is iterated in some order of its elements. -/
def Orders : StackEvent → Prop
  | .request iter _ => Enumerates iter
  | _ => True

/-- All runs of the stack, with the record of the commands. -/
def system (device : Device) : System (Stack × List Issued) StackEvent where
  Init state := ∃ m, MemoryManager.new device = some m ∧
    state = (⟨.new, [], World.start device m⟩, [])
  Step state event next := Orders event ∧ state.1.next device event = some next.1 ∧
    next.2 = state.2 ++ state.1.issues event

/-- The compactions keep time stamps apart, files leave room in their slots, and no count of a
level overflows. -/
def Meets (state : Stack × List Issued) : StackEvent → Prop
  | .command invocation => KVStore.Guard.orderly.command state.1.store invocation ∧
      ∀ store, state.1.store.invoke invocation = some store → store.Countable
  | _ => True

/-- The runs whose commands all meet the conditions. -/
abbrev Runs (device : Device) (stack : Stack) (log : List Issued) : Prop :=
  ((system device).guarded Meets).Reachable (stack, log)

/-! ## The invariant -/

/-- The store is in order, and so are the requests that the manager has served. -/
structure Aligned (device : Device) (stack : Stack) (log : List Issued) : Prop where
  runs : KVStore.Runs .orderly stack.store
  countable : stack.store.Countable
  below : ((World.journaled device).guarded World.InTable).Reachable (stack.world, log)
  served : stack.world.stopped = false → ∃ before,
    stack.store.memoryPool = stack.asked.reverse ++ before ∧ stack.world.manager.Recorded before

variable {stack stack' : Stack} {log : List Issued}

theorem Aligned.indexed (aligned : stack.Aligned device log) :
    stack.store.Indexed ∧ stack.store.Confined :=
  KVStore.indexed_of_orderly aligned.runs aligned.countable

theorem pool_eq_requestsSince {before after : KVStore}
    (since : before.memoryPool <:+ after.memoryPool) :
    after.memoryPool = (requestsSince before after).reverse ++ before.memoryPool := by
  obtain ⟨new, same⟩ := since
  rw [requestsSince, List.reverse_reverse, ← same, List.length_append, Nat.add_sub_cancel,
    List.take_left']
  rfl

theorem Aligned.command (aligned : stack.Aligned device log) {invocation : Invocation}
    (meets : Meets (stack, log) (.command invocation))
    (done : stack.command invocation = some stack') : stack'.Aligned device log := by
  rw [Stack.command] at done
  split at done
  · cases done
  · rename_i idle
    obtain ⟨running, idle⟩ := not_or.mp idle
    have noneAsked : stack.asked = [] := not_not.mp (not_or.mp idle).1
    obtain ⟨store, invoked, rfl⟩ := Option.map_eq_some_iff.mp done
    obtain ⟨reply, ok⟩ := KVStore.step_of_invoke invoked
    have since := KVStore.requests_of_exec invocation.valid
      (KVStore.stageRuns_none (KVStore.stages_of_runs aligned.runs)) ok
    refine ⟨aligned.runs.step ⟨meets.1, reply, ok⟩, meets.2 store invoked, aligned.below, ?_⟩
    intro running
    obtain ⟨before, record, recorded⟩ := aligned.served running
    rw [noneAsked] at record
    refine ⟨stack.store.memoryPool, pool_eq_requestsSince since, ?_⟩
    rw [record]
    exact recorded

/-- The next request is in order, and one that the store may make. -/
theorem Aligned.next (aligned : stack.Aligned device log) {op : Op} {rest : List Op}
    (asked : stack.asked = op :: rest) (running : stack.world.stopped = false) :
    OfStore op ∧ ∃ before, stack.store.memoryPool = rest.reverse ++ op :: before ∧
      Pool.Ledger.Clean (op :: before) ∧ stack.world.manager.Recorded before := by
  obtain ⟨indexed, confined⟩ := aligned.indexed
  obtain ⟨before, record, recorded⟩ := aligned.served running
  rw [asked, List.reverse_cons, List.append_assoc] at record
  have clean := indexed.clean
  rw [record] at clean
  refine ⟨confined.requests op ?_, before, record, clean.of_append, recorded⟩
  rw [record]
  exact List.mem_append_right _ List.mem_cons_self

theorem Aligned.request (aligned : stack.Aligned device log) {iter : Finset Nat → List Nat}
    {fuel : Nat} (enumerates : Enumerates iter)
    (stepped : stack.next device (.request iter fuel) = some stack') :
    stack'.Aligned device (log ++ stack.issues (.request iter fuel)) := by
  simp only [Stack.next] at stepped
  split at stepped
  · cases stepped
  · rename_i op rest asked
    obtain ⟨world, operated, rfl⟩ := Option.map_eq_some_iff.mp stepped
    have running : stack.world.stopped = false := by
      by_contra stopped
      rw [World.next_operate] at operated
      rw [World.operate, if_pos (.inl (Bool.eq_true_of_not_eq_false stopped))] at operated
      cases operated
    obtain ⟨⟨inTable, -⟩, before, record, clean, recorded⟩ := aligned.next asked running
    have issues : stack.issues (.request iter fuel) =
        stack.world.issues (.operate op iter fuel) := by
      simp only [Stack.issues, Stack.below, asked, List.head?_cons, Option.map_some]
    have step : ((World.journaled device).guarded World.InTable).Step (stack.world, log)
        (.operate op iter fuel) (world, log ++ stack.world.issues (.operate op iter fuel)) :=
      ⟨inTable, ⟨⟨recorded.allowed clean.1, enumerates⟩, operated⟩, rfl⟩
    refine ⟨aligned.runs, aligned.countable, ?_, ?_⟩
    · rw [issues]
      exact aligned.below.step step
    · intro stillRunning
      refine ⟨op :: before, record, ?_⟩
      obtain ⟨done, count, follows⟩ := World.follows_of_reachable
        (World.reachable_of_journaled aligned.below)
      obtain ⟨roles, books⟩ := MemoryManager.books_of_reachable (follows.manager running)
      have ends := recorded.exec clean.2 roles books clean.1 iter fuel
      exact World.operate_ends operated ends stillRunning

/-- Below the store, only the manager's own calls are carried out. -/
theorem Aligned.below_step (aligned : stack.Aligned device log) {event : Pool.Event}
    (proceeds : event.Proceeds) {world : World}
    (stepped : stack.world.next device event = some world) :
    Aligned device { stack with world := world } (log ++ stack.world.issues event) := by
  obtain ⟨manager, stopped⟩ := World.frame_of_proceeds proceeds stepped
  refine ⟨aligned.runs, aligned.countable, ?_, ?_⟩
  · cases event with
    | operate op iter fuel => cases proceeds
    | carry now =>
        have step : ((World.journaled device).guarded World.InTable).Step (stack.world, log)
            (.carry now) (world, log ++ stack.world.issues (.carry now)) :=
          ⟨trivial, ⟨trivial, stepped⟩, rfl⟩
        exact aligned.below.step step
    | work now worker =>
        have step : ((World.journaled device).guarded World.InTable).Step (stack.world, log)
            (.work now worker) (world, log ++ stack.world.issues (.work now worker)) :=
          ⟨trivial, ⟨trivial, stepped⟩, rfl⟩
        exact aligned.below.step step
  · dsimp only
    rw [manager, stopped]
    exact aligned.served

theorem aligned_of_runs (runs : Runs device stack log) : stack.Aligned device log := by
  refine System.invariant_of_reachable (P := fun state => state.1.Aligned device state.2) ?_ ?_
    runs
  · rintro _ ⟨m, built, rfl⟩
    refine ⟨.init rfl, ?_, .init ⟨⟨m, built, rfl⟩, rfl⟩, ?_⟩
    · intro level _
      change 0 < 2 ^ 31
      decide
    · intro _
      exact ⟨[], rfl, MemoryManager.recorded_new built⟩
  · rintro ⟨stack, log⟩ event ⟨stack', log'⟩ aligned ⟨meets, orders, stepped, issued⟩
    dsimp only at aligned stepped issued
    subst issued
    cases event with
    | command invocation =>
        rw [issues, below, List.append_nil]
        exact aligned.command meets stepped
    | request iter fuel => exact aligned.request orders stepped
    | carry now =>
        obtain ⟨world, carried, rfl⟩ := Option.map_eq_some_iff.mp stepped
        have proceeds : (Pool.Event.carry now).Proceeds := trivial
        exact aligned.below_step proceeds carried
    | work now worker =>
        obtain ⟨world, worked, rfl⟩ := Option.map_eq_some_iff.mp stepped
        have proceeds : (Pool.Event.work now worker).Proceeds := trivial
        exact aligned.below_step proceeds worked

/-- Between two commands, the manager stores the tables of the sets and no others. -/
theorem Aligned.stored (aligned : stack.Aligned device log)
    (running : stack.world.stopped = false) (noneAsked : stack.asked = []) (t : Pool.TableId) :
    (stack.world.manager.mappingTable t).isSome ↔ t ∈ stack.store.ids := by
  obtain ⟨before, record, recorded⟩ := aligned.served running
  rw [noneAsked] at record
  obtain rfl : stack.store.memoryPool = before := record
  exact (recorded.live t).trans (aligned.indexed.1.live t)

/-! ## What holds of the whole stack -/

/-- The requests of the store suit the manager, those of the manager suit the simulator, and
the flash gets legal commands only. -/
structure Coherent (device : Device) (stack : Stack) (log : List Issued) : Prop where
  allowed : stack.world.stopped = false → ∀ op ∈ stack.asked.head?,
    stack.world.manager.Allowed op ∧ op.InTable
  inPlace : stack.world.InPlace
  rules : KeepsRules device.toGeometry stack.world.femu log
  /-- Between two commands, the manager stores the tables of the sets and no others. -/
  stored : stack.world.stopped = false → stack.asked = [] →
    ∀ t, (stack.world.manager.mappingTable t).isSome ↔ t ∈ stack.store.ids

/-- In every interleaving of the main thread with the workers, if no compaction reuses a time
stamp of its level and what is written leaves room in its slot, all levels below the store get
what they rely on. -/
theorem coherent_of_runs (device : Device) (sectors : device.secsz ≤ Pool.pageSize)
    (runs : Runs device stack log) : stack.Coherent device log := by
  have aligned := aligned_of_runs runs
  obtain ⟨⟨done, count, follows⟩, -, served⟩ := World.hosted_of_reachable sectors aligned.below
  obtain ⟨count', erases, recorded⟩ :=
    Flash.recorded_of_reachable device.small device.representable served
  refine ⟨?_, follows.inPlace, recorded.keepsRules, ?_⟩
  · intro running op isNext
    obtain ⟨rest, asked⟩ := List.head?_eq_some_iff.mp isNext
    obtain ⟨ofStore, before, -, clean, recorded⟩ := aligned.next asked running
    exact ⟨recorded.allowed clean.1, ofStore.1⟩
  · exact aligned.stored

theorem Runs.next (runs : Runs device stack log) {event : StackEvent}
    (stepped : stack.next device event = some stack') (meets : Meets (stack, log) event)
    (orders : Orders event) : Runs device stack' (log ++ stack.issues event) :=
  .step runs ⟨meets, orders, stepped, rfl⟩

/-- The second of two large values flushes the first one. -/
theorem flush_wide : ∃ first second : KVStore,
    (KVStore.new.invoke (Command.put 7 wide).invoke = some first ∧
      requestsSince .new first = [] ∧
        ∀ asked world log,
          Meets (⟨.new, asked, world⟩, log) (.command (Command.put 7 wide).invoke)) ∧
    (first.invoke (Command.put 3 wide).invoke = some second ∧
      requestsSince first second = [.writeTable 0 1] ∧
        ∀ asked world log,
          Meets (⟨first, asked, world⟩, log) (.command (Command.put 3 wide).invoke)) ∧
    second.levelNum 0 = 1 := by
  obtain ⟨first, put7, rest⟩ := Option.bind_eq_some_iff.mp
    (show ((KVStore.new.invoke (Command.put 7 wide).invoke).bind fun first =>
        (first.invoke (Command.put 3 wide).invoke).map fun second =>
          decide (KVStore.Guard.orderly.command .new (Command.put 7 wide).invoke ∧
            (∀ level < first.depth, first.levelNum level < 2 ^ 31) ∧
            requestsSince .new first = [] ∧
            KVStore.Guard.orderly.command first (Command.put 3 wide).invoke ∧
            (∀ level < second.depth, second.levelNum level < 2 ^ 31) ∧
            requestsSince first second = [.writeTable 0 1] ∧ second.levelNum 0 = 1)) =
        some true by decide +kernel)
  obtain ⟨second, put3, facts⟩ := Option.map_eq_some_iff.mp rest
  obtain ⟨meets7, small7, asks7, meets3, small3, asks3, number⟩ := of_decide_eq_true facts
  have runs7 : KVStore.Runs .orderly first :=
    .step (.init rfl) ⟨meets7, KVStore.step_of_invoke put7⟩
  have runs3 : KVStore.Runs .orderly second := .step runs7 ⟨meets3, KVStore.step_of_invoke put3⟩
  have countable7 := KVStore.countable_of_depth (KVStore.sound_of_runs runs7) small7
  have countable3 := KVStore.countable_of_depth (KVStore.sound_of_runs runs3) small3
  have meets : ∀ {store : KVStore} {invocation : Invocation} {result : KVStore},
      KVStore.Guard.orderly.command store invocation → store.invoke invocation = some result →
        result.Countable → ∀ asked world log,
          Meets (⟨store, asked, world⟩, log) (.command invocation) := by
    intro store invocation result allowed done countable asked world log
    refine ⟨allowed, fun other same => ?_⟩
    cases done.symm.trans same
    exact countable
  exact ⟨first, second, ⟨put7, asks7, meets meets7 put7 countable7⟩,
    ⟨put3, asks3, meets meets3 put3 countable3⟩, number⟩

/-- A worker writes the table that was flushed. -/
theorem coherent_after_flush : ∃ (stack : Stack) (log : List Issued),
    (stack.world.femu.zoneArray 0).d.state = .full ∧ stack.store.levelNum 0 = 1 ∧
      stack.Coherent device8G log := by
  obtain ⟨first, second, ⟨put7, asks7, meets7⟩, ⟨put3, asks3, meets3⟩, number⟩ := flush_wide
  obtain ⟨world, ran, full⟩ := Option.map_eq_some_iff.mp
    (show (((MemoryManager.new device8G).bind fun m =>
        ((World.start device8G m).operate device8G (.writeTable 0 1)
            (fun zones => zones.sort (· ≤ ·)) 1).bind
          fun world => (world.carry (.still 0)).bind fun world => world.work (.still 0) 2).map
            fun world => (world.femu.zoneArray 0).d.state) =
        some .full by decide +kernel)
  obtain ⟨m, built, ran⟩ := Option.bind_eq_some_iff.mp ran
  obtain ⟨called, operated, ran⟩ := Option.bind_eq_some_iff.mp ran
  obtain ⟨handed, carried, worked⟩ := Option.bind_eq_some_iff.mp ran
  have starts : Runs device8G ⟨.new, [], World.start device8G m⟩ [] := .init ⟨m, built, rfl⟩
  have stored7 : next device8G ⟨.new, [], World.start device8G m⟩
      (.command (Command.put 7 wide).invoke) = some ⟨first, [], World.start device8G m⟩ := by
    simp [next, command, World.start, put7, asks7]
  have stored3 : next device8G ⟨first, [], World.start device8G m⟩
      (.command (Command.put 3 wide).invoke) =
        some ⟨second, [.writeTable 0 1], World.start device8G m⟩ := by
    simp [next, command, World.start, put3, asks3]
  have calls : next device8G ⟨second, [.writeTable 0 1], World.start device8G m⟩
      (.request (fun zones => zones.sort (· ≤ ·)) 1) = some ⟨second, [], called⟩ := by
    simp [next, World.next, operated]
  have hands : next device8G ⟨second, [], called⟩ (.carry (.still 0)) =
      some ⟨second, [], handed⟩ := by
    simp [next, World.next, carried]
  have works : next device8G ⟨second, [], handed⟩ (.work (.still 0) 2) =
      some ⟨second, [], world⟩ := by
    simp [next, World.next, worked]
  have runs := ((((starts.next stored7 (meets7 _ _ _) trivial).next stored3 (meets3 _ _ _)
    trivial).next calls trivial MemoryManager.enumerates_sort).next hands trivial trivial).next
      works trivial trivial
  exact ⟨_, _, full, number, coherent_of_runs device8G (by decide) runs⟩

end Stack

end ZnsLsm.Store
