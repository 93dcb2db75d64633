import ZnsLsm.Store.Views

/-!
# The store as a map

Seen from outside, the store is a map from keys to values: `put` sets a key, `del`
removes it, `get` reads it, and what happens to tables below never shows.  `contents`
runs the map along with the store.
-/

namespace ZnsLsm.Store

open ZnsLsm.Outcome ZnsLsm.Transition
open ZnsLsm.Pool (sstableSize)

/-! ## The map -/

/-- What the store is for. -/
abbrev Content := Nat → Option Str

/-- The reply of a map to a command, and the map after it. -/
def Command.apply (content : Content) : Command → Reply × Content
  | .put key s => (.done, Function.update content key (some s))
  | .get key => (.value ((content key).getD .empty), content)
  | .del key => (.found (content key).isSome, Function.update content key none)

/-- A command that puts a value that fits a table and stands for nothing else. -/
def Command.Plain : Command → Prop
  | .put _ s => Store.Fits s ∧ s ≠ .empty ∧ s ≠ .del
  | .get _ => True
  | .del _ => True

instance : (command : Command) → Decidable command.Plain
  | .put _ _ => inferInstanceAs (Decidable (_ ∧ _))
  | .get _ => inferInstanceAs (Decidable True)
  | .del _ => inferInstanceAs (Decidable True)

theorem Command.Plain.fits {command : Command} (plain : command.Plain) : command.Fits := by
  cases command with
  | put key s => exact plain.1
  | get key => exact trivial
  | del key => exact trivial

namespace KVStore

variable {pops : List Table → List Table} {store store' : KVStore} {level : Nat}

/-- Values fit and are not empty, no compaction drops a table, and every compaction keeps
the newer versions. -/
def Guard.faithful : Guard where
  puts _ _ s := Fits s ∧ s ≠ .empty
  merges call := Apart call ∧ Precedes call.store call.level

instance (call : CompactionCall) : Decidable (Guard.faithful.merges call) :=
  inferInstanceAs (Decidable (_ ∧ _))

/-! ## Compactions and puts -/

theorem moved_of_stageRuns {guard : Guard} (valid : Pops pops) {key : Nat} {s : Str}
    (reached : StageRuns guard (.merging level key s) store) (overfull : store.Overfull level)
    (apart : Apart ⟨pops, store, level⟩) (precedes : Precedes store level)
    (compacted : store.Compacted pops level store') : store.Moved pops level store' := by
  have known := stageSound_of_stageRuns reached
  have partitioned := partitioned_of_stageRuns reached (known.level rfl).1
  have distinct := rank_ne_of_stageRuns reached overfull apart compacted
  have fresh := allFresh_outTables known.sound valid partitioned compacted.nonempty distinct
  exact ⟨compacted, partitioned, precedes.agrees known.sound valid, fun _ =>
    compacted.mem_target_iff known.sound fresh distinct⟩

/-- A cascade of compactions does not change what the store maps a key to. -/
theorem view_cascade (valid : Pops pops) {fuel key : Nat} {s : Str}
    (reached : StageRuns .none (.merging level key s) store)
    (allowed : ∀ call ∈ cascadeCalls pops fuel level store, Guard.faithful.merges call)
    (ok : compactionForLevel pops fuel level store = .ok store') :
    store'.view = store.view := by
  induction fuel generalizing level store with
  | zero => cases ok
  | succ fuel ih =>
      rw [cascadeCalls] at allowed
      rw [compactionForLevel] at ok
      split at ok
      · cases ok
        exact view_of_eq rfl rfl rfl
      · rename_i full
        rw [if_neg full] at allowed
        have overfull := overfull_iff.mpr full
        cases merged : store.compactLevel pops level with
        | error fault =>
            rw [merged] at ok
            cases ok
        | ok next =>
            rw [merged] at ok allowed
            have known := stageSound_of_stageRuns reached
            obtain ⟨apart, precedes⟩ : Guard.faithful.merges ⟨pops, store, level⟩ :=
              allowed _ List.mem_cons_self
            have compacted := ((compactLevel_of_stageRuns valid reached).of_ok merged).2
            have moved := moved_of_stageRuns valid reached overfull apart precedes compacted
            have same := moved.view known.sound valid (known.level rfl).1
            have reached' : StageRuns .none (.merging (level + 1) key s) next :=
              stageRuns_step (.merge valid overfull merged) trivial reached
            have later := ih reached'
              (fun call mem => allowed call (List.mem_cons_of_mem _ mem)) ok
            exact later.trans same

/-- So does the compaction of a put. -/
theorem view_compact (valid : Pops pops) {fuel key : Nat} {s : Str}
    (reached : StageRuns .none (.flushed key s) store)
    (allowed : ∀ call ∈ (if level0 < store.levelNum 0 then cascadeCalls pops fuel 1 store else []),
      Guard.faithful.merges call)
    (ok : compact pops fuel store = .ok store') : store'.view = store.view := by
  rw [compact] at ok
  split at ok
  · rename_i full
    rw [if_pos full] at allowed
    have descended : StageRuns .none (.merging 1 key s) store :=
      stageRuns_step (.descend full) trivial reached
    cases cascade : compactionForLevel pops fuel 1 store with
    | error fault =>
        rw [cascade] at ok
        cases ok
    | ok merged =>
        rw [cascade] at ok
        cases ok
        have same := view_cascade valid descended allowed cascade
        exact (view_of_eq rfl rfl rfl).trans same
  · cases ok
    rfl

/-! ## The put before it enters its key -/

/-- What `put` does before it enters the key: account for the entry, flush and compact. -/
def settle (pops : List Table → List Table) (fuel : Nat) (store : KVStore) (key : Nat)
    (s : Str) : Except Fault KVStore :=
  if sstableSize < (store.charged key s).memory then
    store.flush (store.charged key s) >>= fun flushed =>
      compact pops fuel (flushed.recharge (store.memTable.get key) s)
  else
    pure { store with memTable := store.charged key s }

theorem put_eq (pops : List Table → List Table) (fuel : Nat) (store : KVStore) (key : Nat)
    (s : Str) : store.put pops fuel key s =
      store.settle pops fuel key s >>= fun settled => .ok (settled.insert key s) := by
  rw [settle]
  split
  · rename_i large
    cases flushed : store.flush (store.charged key s) with
    | error fault =>
        rw [put_of_error large flushed]
        rfl
    | ok next =>
        rw [put_of_flushed large flushed]
        rfl
  · rename_i small
    rw [put_of_small small]
    rfl

theorem put_ok {fuel key : Nat} {s : Str} (ok : store.put pops fuel key s = .ok store') :
    ∃ settled, store.settle pops fuel key s = .ok settled ∧ store' = settled.insert key s := by
  rw [put_eq] at ok
  cases settles : store.settle pops fuel key s with
  | error fault =>
      rw [settles] at ok
      cases ok
  | ok settled =>
      rw [settles] at ok
      cases ok
      exact ⟨settled, rfl, rfl⟩

/-- What is left in the memtable, and the stage of a put that flushes and compacts. -/
theorem settle_cases {fuel key : Nat} {s : Str} {settled : KVStore}
    (ok : store.settle pops fuel key s = .ok settled) :
    (¬sstableSize < (store.charged key s).memory ∧
        settled = { store with memTable := store.charged key s }) ∨
      sstableSize < (store.charged key s).memory ∧ ∃ next,
        store.flush (store.charged key s) = .ok next ∧
          compact pops fuel (next.recharge (store.memTable.get key) s) = .ok settled := by
  rw [settle] at ok
  split at ok
  · rename_i large
    cases flushed : store.flush (store.charged key s) with
    | error fault =>
        rw [flushed] at ok
        cases ok
    | ok next =>
        rw [flushed] at ok
        exact .inr ⟨large, next, rfl, ok⟩
  · rename_i small
    cases ok
    exact .inl ⟨small, rfl⟩

/-- While time stamps last, nothing that a put does before it enters its key changes what the
store maps a key to. -/
theorem view_settle (valid : Pops pops) {fuel key : Nat} {s : Str}
    (reached : StageRuns .none .idle store) (few : store.memTable.timeStamp < 2 ^ 32)
    (allowed : ∀ call ∈ store.putCalls pops fuel key s, Guard.faithful.merges call)
    {settled : KVStore} (ok : store.settle pops fuel key s = .ok settled) :
    settled.view = store.view := by
  have sound := (stageSound_of_stageRuns reached).sound
  rcases settle_cases ok with ⟨-, rfl⟩ | ⟨large, next, flushed, compacts⟩
  · exact view_of_eq rfl rfl rfl
  · rw [putCalls_of_flushed large flushed] at allowed
    have step := (flush_ends _ _).of_ok flushed
    have reached' : StageRuns .none (.flushed key s)
        (next.recharge (store.memTable.get key) s) :=
      stageRuns_step (.flush large flushed) trivial reached
    have same := view_compact valid reached' allowed compacts
    have stamp : (store.charged key s).timeStamp = store.memTable.timeStamp := rfl
    have nodes : (store.charged key s).nodes = store.memTable.nodes := rfl
    have unchanged := view_flush sound (descending_of_stageRuns reached few.le)
      nodes stamp few (sound.memTable.memory _) step
    have recharged : (next.recharge (store.memTable.get key) s).view = next.view :=
      view_of_eq rfl rfl rfl
    exact (same.trans recharged).trans unchanged

/-- The time stamp does not go back. -/
theorem timeStamp_le_of_settle (valid : Pops pops) {fuel key : Nat} {s : Str}
    (reached : StageRuns .none .idle store) {settled : KVStore}
    (ok : store.settle pops fuel key s = .ok settled) :
    store.memTable.timeStamp ≤ settled.memTable.timeStamp := by
  rcases settle_cases ok with ⟨-, rfl⟩ | ⟨large, next, flushed, compacts⟩
  · exact Nat.le_refl _
  · have step := (flush_ends _ _).of_ok flushed
    have reached' : StageRuns .none (.flushed key s)
        (next.recharge (store.memTable.get key) s) :=
      stageRuns_step (.flush large flushed) trivial reached
    rw [memTable_compact valid reached' compacts]
    change _ ≤ next.memTable.timeStamp
    rw [step.memTable]
    exact Nat.le_succ _

/-- A put sets its key while time stamps last, and the next time stamp does not go back. -/
theorem view_put (valid : Pops pops) {fuel key : Nat} {s : Str}
    (reached : StageRuns .none .idle store)
    (allowed : ∀ call ∈ store.putCalls pops fuel key s, Guard.faithful.merges call)
    (ok : store.put pops fuel key s = .ok store') :
    (store.memTable.timeStamp < 2 ^ 32 →
        store'.view = Function.update store.view key ((some s).filter (· ≠ .del))) ∧
      store.memTable.timeStamp ≤ store'.memTable.timeStamp := by
  obtain ⟨settled, settles, rfl⟩ := put_ok ok
  constructor
  · intro few
    rw [view_insert, view_settle valid reached few allowed settles]
  · have later := timeStamp_le_of_settle valid reached settles
    exact later

/-! ## Commands -/

theorem command_faithful {command : Command} (plain : command.Plain) (valid : Pops pops)
    {fuel : Nat} (allowed : ∀ call ∈ store.calls pops fuel command, Guard.faithful.merges call) :
    Guard.faithful.command store ⟨command, pops, valid, fuel⟩ := by
  refine ⟨?_, allowed⟩
  cases command with
  | put key s => exact ⟨plain.1, plain.2.1⟩
  | get key => exact trivial
  | del key => exact fun _ => ⟨fits_del, by decide⟩

theorem filled_of_stageRuns {stage : Stage} (reached : StageRuns .faithful stage store) :
    store.Filled :=
  entries_of_stageRuns And.right reached

@[simp]
theorem view_get (store : KVStore) (key : Nat) : (store.get key).2.view = store.view := by
  obtain ⟨memoryPool, same, -⟩ := store.get_eq key
  rw [same]
  exact view_of_eq rfl rfl rfl

theorem timeStamp_get (store : KVStore) (key : Nat) :
    (store.get key).2.memTable.timeStamp = store.memTable.timeStamp := by
  obtain ⟨memoryPool, same, -⟩ := store.get_eq key
  rw [same]

/-- A command that returns replies as the map does and leaves the store with the content
that the map has then. -/
theorem exec_refines (valid : Pops pops) {command : Command} (plain : command.Plain)
    (reached : StageRuns .faithful .idle store) {fuel : Nat}
    (allowed : ∀ call ∈ store.calls pops fuel command, Guard.faithful.merges call)
    {reply : Reply} (ok : store.exec pops fuel command = .ok (reply, store')) :
    (store.memTable.timeStamp < 2 ^ 32 → command.apply store.view = (reply, store'.view)) ∧
      store.memTable.timeStamp ≤ store'.memTable.timeStamp := by
  have sound := (stageSound_of_stageRuns reached).sound
  have filled := filled_of_stageRuns reached
  cases command with
  | put key s =>
      obtain ⟨rfl, done⟩ := exec_put_ok ok
      obtain ⟨same, later⟩ := view_put valid (stageRuns_none reached) allowed done
      refine ⟨fun few => ?_, later⟩
      have kept : (some s).filter (· ≠ .del) = some s :=
        Option.filter_some_pos (decide_eq_true plain.2.2)
      rw [Command.apply, same few, kept]
  | get key =>
      obtain ⟨rfl, rfl⟩ := exec_get_ok ok
      constructor
      · intro _
        rw [Command.apply, get_fst sound filled, view_get]
      · rw [timeStamp_get]
  | del key =>
      have present := get_ne_empty_iff sound filled key
      rcases exec_del_ok ok with ⟨found, rfl, done⟩ | ⟨missing, rfl, rfl⟩
      · have asked : StageRuns .none .idle (store.get key).2 :=
          stageRuns_step .get trivial (stageRuns_none reached)
        rw [calls, if_pos found] at allowed
        obtain ⟨same, later⟩ := view_put valid asked allowed done
        rw [timeStamp_get] at same later
        refine ⟨fun few => ?_, later⟩
        rw [Command.apply, same few, view_get, present.mp found]
        rfl
      · have absent : store.view key = none := by
          rw [← Option.not_isSome_iff_eq_none]
          exact fun isSome => missing (present.mpr isSome)
        constructor
        · intro _
          have unchanged : Function.update store.view key none = store.view := by
            rw [← absent, Function.update_eq_self]
          rw [Command.apply, unchanged, view_get, absent]
          rfl
        · rw [timeStamp_get]

/-! ## Runs of the store and the map -/

/-- The store together with the map that it stands for. -/
def contents : System (KVStore × Content) Invocation where
  Init state := state = (new, fun _ => none)
  Step state invocation state' :=
    system.Step state.1 invocation state'.1 ∧
      state'.2 = (invocation.command.apply state.2).2

/-- The command puts no value with a meaning of its own, and all its compactions keep
tables apart and newer versions. -/
def Faithful (state : KVStore × Content) (invocation : Invocation) : Prop :=
  invocation.command.Plain ∧
    ∀ call ∈ state.1.calls invocation.pops invocation.fuel invocation.command,
      Apart call ∧ Precedes call.store call.level

instance (state : KVStore × Content) (invocation : Invocation) :
    Decidable (Faithful state invocation) :=
  inferInstanceAs (Decidable (_ ∧ _))

theorem stages_of_contents {state : KVStore × Content}
    (reachable : (contents.guarded Faithful).Reachable state) :
    StageRuns .faithful .idle state.1 := by
  induction reachable with
  | init isInit =>
      cases isInit
      exact .init rfl
  | @step _ _ invocation _ step ih =>
      obtain ⟨⟨plain, allowed⟩, ⟨reply, ok⟩, -⟩ := step
      exact (stages_of_exec invocation.valid ih
        (command_faithful plain invocation.valid allowed)).2 reply _ ok

/-- The store has the content of the map as long as time stamps last. -/
theorem view_of_contents {state : KVStore × Content}
    (reachable : (contents.guarded Faithful).Reachable state)
    (few : state.1.memTable.timeStamp < 2 ^ 32) : state.1.view = state.2 := by
  induction reachable with
  | init isInit =>
      cases isInit
      rfl
  | @step _ _ invocation before step ih =>
      obtain ⟨⟨plain, allowed⟩, ⟨reply, ok⟩, content⟩ := step
      obtain ⟨refines, later⟩ :=
        exec_refines invocation.valid plain (stages_of_contents before) allowed ok
      have fewer := later.trans_lt few
      rw [content, ← ih fewer, refines fewer]

/-- After any run of plain commands whose compactions keep tables apart and newer
versions, while fewer than 2^32 flushes have happened, `get` reads the map, and every
further such command returns, replies as the map does, and leaves a store that reads as
the map does then. -/
theorem refines_of_reachable {content : Content}
    (reachable : (contents.guarded Faithful).Reachable (store, content))
    (few : store.memTable.timeStamp < 2 ^ 32) :
    (∀ key, (store.get key).1 = (content key).getD .empty) ∧
      ∀ command : Command, command.Plain → ∀ pops (valid : Pops pops), ∃ bound, ∀ fuel ≥ bound,
        Faithful (store, content) ⟨command, pops, valid, fuel⟩ → ∃ store',
          store.exec pops fuel command = .ok ((command.apply content).1, store') ∧
            ∀ key, (store'.get key).1 = ((command.apply content).2 key).getD .empty := by
  have reached := stages_of_contents reachable
  have reads : ∀ {store : KVStore}, StageRuns .faithful .idle store → ∀ key,
      (store.get key).1 = (store.view key).getD .empty := fun reached key =>
    get_fst (stageSound_of_stageRuns reached).sound (filled_of_stageRuns reached) key
  have same : store.view = content := view_of_contents reachable few
  constructor
  · intro key
    rw [reads reached, same]
  · intro command plain pops valid
    obtain ⟨bound, returns⟩ := exec_returns And.left valid reached plain.fits
    refine ⟨bound, fun fuel ge faithful => ?_⟩
    obtain ⟨reply, store', ok, reached'⟩ :=
      returns fuel ge (command_faithful plain valid faithful.2)
    have refines := (exec_refines valid plain reached faithful.2 ok).1 few
    rw [same] at refines
    refine ⟨store', ?_, ?_⟩
    · rw [refines, ok]
    · intro key
      rw [reads reached', refines]

/-! ## Concrete runs -/

/-- Run a command on the store and on the map. -/
def invokeBoth (state : KVStore × Content) (invocation : Invocation) :
    Option (KVStore × Content) :=
  (state.1.invoke invocation).map fun store =>
    (store, (invocation.command.apply state.2).2)

theorem step_of_invokeBoth {state state' : KVStore × Content} {invocation : Invocation}
    (invoked : invokeBoth state invocation = some state') :
    contents.Step state invocation state' := by
  obtain ⟨next, isSome, rfl⟩ := Option.map_eq_some_iff.mp invoked
  exact ⟨step_of_invoke isSome, rfl⟩

/-- Run commands on a new store and the empty map as long as they are allowed and
return. -/
def runBoth (ok : KVStore × Content → Invocation → Prop)
    [∀ state invocation, Decidable (ok state invocation)] (commands : List Command) :
    Option (KVStore × Content) :=
  System.run invokeBoth ok (new, fun _ => none) (commands.map Command.invoke)

/-- The second compaction merges the new version of key 5 and the deletion of key 7 with the
older ones. -/
theorem refines_after_compaction : ∃ store content,
    runBoth Faithful (versionedPuts ++ [.del 7, .put 4 wide]) = some (store, content) ∧
      (store.ssTable 1).map Table.getMinKey = [1, 2, 3, 6, 8, 9] ∧
        content 5 = some narrow ∧ content 7 = none ∧
          ∀ key, (store.get key).1 = (content key).getD .empty := by
  obtain ⟨⟨store, content⟩, ran, held⟩ := Option.map_eq_some_iff.mp
    (show (runBoth Faithful (versionedPuts ++ [.del 7, .put 4 wide])).map
      (fun state => ((state.1.ssTable 1).map Table.getMinKey, state.1.memTable.timeStamp,
        state.2 5, state.2 7)) =
          some ([1, 2, 3, 6, 8, 9], 8, some narrow, none) by decide +kernel)
  obtain ⟨level, rest⟩ := Prod.mk.inj held
  obtain ⟨stamp, contents⟩ := Prod.mk.inj rest
  obtain ⟨updated, deleted⟩ := Prod.mk.inj contents
  have few : store.memTable.timeStamp < 2 ^ 32 := by
    rw [stamp]
    decide
  exact ⟨store, content, ran, level, updated, deleted, (refines_of_reachable
    (System.reachable_of_run step_of_invokeBoth rfl ran) few).1⟩

/-- The run that drops a table loses the value of key 890. -/
theorem not_refines : ¬∀ store content,
    (contents.guarded fun _ invocation => invocation.command.Plain).Reachable (store, content) →
      store.memTable.timeStamp < 2 ^ 32 → ∀ key, (store.get key).1 = (content key).getD .empty := by
  intro always
  obtain ⟨⟨store, content⟩, ran, held⟩ := Option.map_eq_some_iff.mp
    (show (runBoth (fun _ invocation => invocation.command.Plain)
        (tiedPuts ++ [.put 3008 wide])).map
      (fun state => ((state.1.get 890).1.size, ((state.2 890).getD .empty).size,
        decide (state.1.memTable.timeStamp < 2 ^ 32))) =
          some (0, 40000000, true) by decide +kernel)
  obtain ⟨lost, rest⟩ := Prod.mk.inj held
  obtain ⟨put, few⟩ := Prod.mk.inj rest
  have reads := always store content (System.reachable_of_run step_of_invokeBoth rfl ran)
    (of_decide_eq_true few) 890
  have sizes := congrArg Str.size reads
  change (store.get 890).1.size = ((content 890).getD .empty).size at sizes
  rw [lost, put] at sizes
  cases sizes

end KVStore

end ZnsLsm.Store
