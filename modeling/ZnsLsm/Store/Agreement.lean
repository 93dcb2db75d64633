import ZnsLsm.Store.Index

/-!
# Storage and index agree

A manager serves the requests of the store in the order in which the store makes them.
If no compaction drops one of its tables, the manager then stores the tables of the
sets and no others, and no request finds a table missing or a write still pending.  A
run in which a compaction drops a table leaves its slot allocated for good.
-/

namespace ZnsLsm.Store

open ZnsLsm.Outcome ZnsLsm.Transition
open ZnsLsm.Pool (Device MemoryManager Op TableId sstableSize device8G Ledger.Clean
  Ledger.Reads Ledger.InOrder)
open ZnsLsm.Pool.MemoryManager (Served)

namespace KVStore

variable {store store' : KVStore} {device : Device} {m : MemoryManager}

/-- The store made the request after the requests `before`. -/
def Issued (store : KVStore) (op : Op) (before : Requests) : Prop :=
  ∃ after, store.memoryPool = after ++ op :: before

/-- What the sets of the store and a manager that has served its requests have to do with
each other. -/
structure Agreement (device : Device) (store : KVStore) : Prop where
  distinct : ∀ here there, ∀ first ∈ store.ssTable here, ∀ second ∈ store.ssTable there,
    first.id = second.id → here = there ∧ first = second
  mapped : ∀ m, Served device store.memoryPool m →
    ∀ t, (m.mappingTable t).isSome ↔ t ∈ store.ids
  /-- A written slot is one of the deleted ones or holds a table of the store. -/
  owned : ∀ m, Served device store.memoryPool m → ∀ zone < device.zoneNum, ∀ s,
    sstableSize ∣ s → (m.zoneMetas zone).start ≤ s → s < (m.zoneMetas zone).writePtr →
      s ∉ (m.zoneMetas zone).deletedTable → ∃ t ∈ store.ids, m.mappingTable t = some s
  /-- A table that is read or cleared has a location. -/
  located : ∀ op before m, store.Issued op before → Served device before m → ∀ level num,
    Ledger.Reads (level, num) op ∨ op = .deleteTable level num →
      (m.mappingTable (level, num)).isSome
  /-- The assertion of `deleteTable` holds. -/
  waited : ∀ level num before m, store.Issued (.deleteTable level num) before →
    Served device before m → m.completeTable (level, num) = none

theorem Indexed.agreement (indexed : store.Indexed) (sound : store.Sound) (device : Device) :
    Agreement device store := by
  have cleanOf : ∀ {op before}, store.Issued op before → Ledger.Clean (op :: before) := by
    rintro op before ⟨after, same⟩
    have clean := indexed.clean
    rw [same] at clean
    exact clean.of_append
  have mapped : ∀ m, Served device store.memoryPool m →
      ∀ t, (m.mappingTable t).isSome ↔ t ∈ store.ids := by
    intro m served t
    exact ((served.recorded indexed.clean).2.live t).trans (indexed.live t)
  constructor
  · intro here there first mem second mem' same
    have equal := indexed.id_inj sound mem mem' same
    subst equal
    exact ⟨(sound.id_fst mem).symm.trans (sound.id_fst mem'), rfl⟩
  · exact mapped
  · intro m served zone lt s aligned above below notDeleted
    have books := Pool.MemoryManager.locationBooks_of_reachable
      (served.recorded indexed.clean).1
    have occupied : ¬∀ t, m.mappingTable t ≠ some s := fun vacant =>
      notDeleted ((books.deleted zone lt s).mpr ⟨⟨aligned, above, below⟩, vacant⟩)
    obtain ⟨t, located⟩ := not_forall_not.mp occupied
    refine ⟨t, (mapped m served t).mp ?_, located⟩
    rw [located]
    rfl
  · intro op before m issued served level num either
    obtain ⟨inOrder, clean⟩ := cleanOf issued
    apply ((served.recorded clean).2.live _).mpr
    cases op with
    | getValue readLevel readNum offset length =>
        rcases either with read | deleted
        · cases read
          exact inOrder
        · cases deleted
    | readTable readLevel readNum offset length =>
        rcases either with read | deleted
        · cases read
          exact inOrder
        · cases deleted
    | deleteTable deletedLevel deletedNum =>
        rcases either with read | deleted
        · cases read
        · cases deleted
          exact inOrder.1
    | writeTable writtenLevel writtenNum => rcases either with read | deleted <;> contradiction
    | tryReset => rcases either with read | deleted <;> contradiction
    | evictZone => rcases either with read | deleted <;> contradiction
  · intro level num before m issued served
    obtain ⟨inOrder, clean⟩ := cleanOf issued
    exact (served.recorded clean).2.pending _ inOrder.2

/-- In a run whose compactions all keep time stamps apart, and in which no count of a
level overflows, the sets and the manager agree, also within a command before and after
each of its compactions. -/
theorem agreement_of_runs (device : Device) (runs : Runs .apart store)
    (small : store.Countable) (invocation : Invocation)
    (allowed : Guard.apart.command store invocation) :
    Agreement device store ∧
      ∀ call ∈ store.calls invocation.pops invocation.fuel invocation.command,
        (call.store.Countable → Agreement device call.store) ∧
          ∀ store', call.store.compactLevel call.pops call.level = .ok store' →
            store'.Countable → Agreement device store' := by
  have reached := stages_of_runs runs
  refine ⟨(indexed_of_runs runs small).agreement (sound_of_runs runs) device, ?_⟩
  intro call mem
  obtain ⟨same, key, s, merging, overfull⟩ :=
    (stages_of_exec invocation.valid reached allowed).1 call mem
  have agrees : ∀ {stage next}, StageRuns .apart stage next → next.Countable →
      Agreement device next := by
    intro stage next reached countable
    exact (stageInvariant_indexed.holds id reached countable).agreement
      (stageSound_of_stageRuns reached).sound device
  refine ⟨agrees merging, ?_⟩
  intro store' ok
  have valid : Pops call.pops := same ▸ invocation.valid
  exact agrees (stageRuns_step (.merge valid overfull ok) (allowed.2 call mem) merging)

/-- Beyond the depth all counts are zero. -/
theorem countable_of_depth (sound : store.Sound)
    (small : ∀ level < store.depth, store.levelNum level < 2 ^ 31) : store.Countable := by
  intro level _
  rcases Nat.lt_or_ge level store.depth with inside | outside
  · exact small level inside
  · rw [(sound.bare level outside).2]
    decide

/-- The state after a compaction that replaces tables of level 1, with a manager that has
served its requests. -/
theorem agreement_after_compaction : ∃ store m,
    run .apart (versionedPuts ++ [.put 4 wide]) = some store ∧
      MemoryManager.serve device8G store.memoryPool = some m ∧
        (store.ssTable 1).map Table.getMinKey = [1, 2, 3, 6, 7, 8, 9] ∧
          Agreement device8G store := by
  obtain ⟨store, ran, held⟩ := Option.map_eq_some_iff.mp
    (show (run .apart (versionedPuts ++ [.put 4 wide])).map
      (fun store => ((MemoryManager.serve device8G store.memoryPool).isSome,
        (store.ssTable 1).map Table.getMinKey,
        decide (∀ level < store.depth, store.levelNum level < 2 ^ 31))) =
          some (true, [1, 2, 3, 6, 7, 8, 9], true) by decide +kernel)
  obtain ⟨served, rest⟩ := Prod.mk.inj held
  obtain ⟨level, small⟩ := Prod.mk.inj rest
  obtain ⟨m, isServed⟩ := Option.isSome_iff_exists.mp served
  have runs := runs_of_run ran
  have countable := countable_of_depth (sound_of_runs runs) (of_decide_eq_true small)
  refine ⟨store, m, ran, isServed, level, ?_⟩
  exact (agreement_of_runs device8G runs countable (Command.get 7).invoke
    ⟨trivial, fun _ mem => absurd mem List.not_mem_nil⟩).1

/-- After a compaction has dropped a table, the manager still stores it. -/
theorem not_agreement : ¬∀ device store, system.Reachable store → Agreement device store := by
  intro always
  obtain ⟨store, ran, m, served, stored, absent⟩ : ∃ store,
      run .none (tiedPuts ++ [.put 3008 wide]) = some store ∧ ∃ m,
        MemoryManager.serve device8G store.memoryPool = some m ∧
          (m.mappingTable (2, 8)).isSome = true ∧
            (2, 8) ∉ (store.ssTable 2).map Table.id := by
    obtain ⟨store, ran, held⟩ := Option.bind_eq_some_iff.mp
      (show (run .none (tiedPuts ++ [.put 3008 wide])).bind (fun store =>
        (MemoryManager.serve device8G store.memoryPool).map fun m =>
          decide ((m.mappingTable (2, 8)).isSome = true ∧
            (2, 8) ∉ (store.ssTable 2).map Table.id)) = some true by decide +kernel)
    obtain ⟨m, served, facts⟩ := Option.map_eq_some_iff.mp held
    exact ⟨store, ran, m, served, of_decide_eq_true facts⟩
  have runs := runs_of_run ran
  have agrees := always device8G store (System.reachable_of_guarded runs)
  have known := (agrees.mapped m (MemoryManager.served_of_serve served) (2, 8)).mp stored
  obtain ⟨table, mem, order⟩ := ((sound_of_runs runs).mem_ids_iff 2 8).mp known
  apply absent
  exact List.mem_map.mpr ⟨table, mem, Prod.ext ((sound_of_runs runs).id_fst mem) order⟩

end KVStore

end ZnsLsm.Store
