import ZnsLsm.Store.Partition
import ZnsLsm.Store.Timestamps

/-!
# Tables that really enter their set

A set of tables drops a new table whose time stamp and least key are those of a table
that it holds.  A flush has a new time stamp.  A compaction may meet a table of its
target level with the very time stamp of its files; if none of the tables that it
merges from there has it, every file enters the set and stays.
-/

namespace ZnsLsm.Store

open ZnsLsm.Outcome ZnsLsm.Transition
open ZnsLsm.Pool (sstableSize)

namespace KVStore

variable {pops : List Table → List Table} {store store' : KVStore} {level : Nat}

/-! ## Time stamps fit their field -/

theorem stageInvariant_stamps (guard : Guard) :
    StageInvariant guard Anything fun _ store =>
      ∀ level, ∀ table ∈ store.ssTable level, table.getTimestamp < 2 ^ 32 where
  new level table mem := by cases mem
  write _ _ before _ _ := before
  flush := by
    intro store flushed key s _ _ before _ _ step level table mem
    change table ∈ flushed.ssTable level at mem
    rcases step.mem_cases mem with old | ⟨rfl, rfl⟩
    · exact before level table old
    · exact Nat.mod_lt _ (by decide)
  skip _ _ before _ := before
  descend _ _ before _ := before
  merge := by
    intro pops store store' target key s _ _ before _ _ _ _ compacted level table mem
    rcases compacted.mem_cases mem with old | ⟨rfl, new⟩
    · exact before level table old
    · rw [getTimestamp_of_outTables new]
      exact Nat.mod_lt _ (by decide)
  stop _ _ before _ := before
  insert _ _ before := before
  get _ before _ := before

theorem stamps_of_stageRuns {guard : Guard} {stage : Stage}
    (reached : StageRuns guard stage store) :
    ∀ level, ∀ table ∈ store.ssTable level, table.getTimestamp < 2 ^ 32 :=
  (stageInvariant_stamps guard).holds (fun _ => trivial) reached

/-! ## New tables and the tables that were there -/

/-- No table that a compaction merges from its target level has the time stamp of the
last table that it picks. -/
def Apart (call : CompactionCall) : Prop :=
  ∀ table ∈ call.store.overlapped call.level,
    table.getTimestamp ≠ timestampOf (call.store.picked call.level)

instance (call : CompactionCall) : Decidable (Apart call) :=
  inferInstanceAs (Decidable (∀ table ∈ _, _))

/-- A file can only be dropped for a table that is merged. -/
theorem rank_ne_of_untouched (sound : store.Sound) (valid : Pops pops)
    (partitioned : Partitioned (store.ssTable level)) (nonempty : [] ∉ store.outFiles pops level)
    {table untouched : Table} (new : table ∈ store.outTables pops level)
    (mem : untouched ∈ store.ssTable level) (notMerged : untouched ∉ store.overlapped level) :
    untouched.rank ≠ table.rank := by
  intro same
  have disjoint := disjoint_untouched sound valid partitioned nonempty new mem notMerged
  have leastEq : untouched.getMinKey = table.getMinKey :=
    congrArg (fun rank => (ofLex rank).2) same
  have newRange := (sound.outTables valid nonempty new).min_le_max
  have oldRange := (sound.tables level untouched mem).min_le_max
  have inNew : table.getMinKey ∈ table.range := Set.mem_Icc.mpr ⟨Nat.le_refl _, newRange⟩
  have inOld : table.getMinKey ∈ untouched.range := by
    rw [← leastEq]
    exact Set.mem_Icc.mpr ⟨Nat.le_refl _, oldRange⟩
  exact Set.disjoint_left.mp disjoint inNew inOld

theorem rank_ne_of_apart {last : Table} (small : last.getTimestamp < 2 ^ 32)
    (stampEq : timestampOf (store.picked level) = last.getTimestamp)
    (apart : Apart ⟨pops, store, level⟩) {table old : Table}
    (new : table ∈ store.outTables pops level) (merged : old ∈ store.overlapped level) :
    old.rank ≠ table.rank := by
  intro same
  have stamps : old.getTimestamp = table.getTimestamp :=
    congrArg (fun rank => (ofLex rank).1) same
  apply apart old merged
  rw [stamps, getTimestamp_of_outTables new, stampEq, Nat.mod_eq_of_lt small]

/-- The files of a compaction have different least keys. -/
theorem distinct_outTables (sound : store.Sound) (valid : Pops pops)
    (nonempty : [] ∉ store.outFiles pops level) :
    (store.outTables pops level).Pairwise fun first second => first.rank ≠ second.rank := by
  refine (pairwise_outTables sound valid nonempty).imp_of_mem ?_
  intro first second mem _ less same
  have leastEq : first.getMinKey = second.getMinKey :=
    congrArg (fun rank => (ofLex rank).2) same
  have range := (sound.outTables valid nonempty mem).min_le_max
  omega

/-- Every file enters the set, each at its turn. -/
theorem allFresh_outTables (sound : store.Sound) (valid : Pops pops)
    (partitioned : Partitioned (store.ssTable level)) (nonempty : [] ∉ store.outFiles pops level)
    (apart : ∀ table ∈ store.outTables pops level, ∀ old ∈ store.overlapped level,
      old.rank ≠ table.rank) :
    KeyedSet.AllFresh Table.rank (store.outTables pops level) (store.ssTable level) := by
  apply KeyedSet.allFresh_of_distinct
  · exact distinct_outTables sound valid nonempty
  · intro table new old mem
    by_cases merged : old ∈ store.overlapped level
    · exact apart table new old merged
    · exact rank_ne_of_untouched sound valid partitioned nonempty new mem merged

/-- The files that enter the set are still there when the merged tables are gone. -/
theorem Compacted.mem_target_iff (compacted : store.Compacted pops level store')
    (sound : store.Sound)
    (fresh : KeyedSet.AllFresh Table.rank (store.outTables pops level) (store.ssTable level))
    (apart : ∀ table ∈ store.outTables pops level, ∀ old ∈ store.overlapped level,
      old.rank ≠ table.rank) {table : Table} :
    table ∈ store'.ssTable level ↔ table ∈ store.outTables pops level ∨
      table ∈ store.ssTable level ∧ table ∉ store.overlapped level := by
  constructor
  · exact compacted.mem_target
  · intro either
    rw [compacted.target, KeyedSet.mem_eraseAll, fresh.mem_emplaceAll_iff]
    rcases either with new | ⟨old, stays⟩
    · exact ⟨.inl new, fun merged mem same => apart table new merged mem same.symm⟩
    · refine ⟨.inr old, fun merged mem same => stays ?_⟩
      rwa [(sound.sets level).eq_of_key_eq old (mem_overlapped mem) same]

/-! ## Runs that drop no table -/

/-- Every table that a compaction writes enters the set of its level, and the entries of
its files are held there when the merged tables are removed. -/
structure Inserts (call : CompactionCall) (store' : KVStore) : Prop where
  fresh : KeyedSet.AllFresh Table.rank (call.store.outTables call.pops call.level)
    (call.store.ssTable call.level)
  held : ∀ file ∈ call.store.outFiles call.pops call.level, ∀ entry ∈ file,
    ∃ table ∈ store'.ssTable call.level, entry ∈ table.keyValue

/-- No compaction merges a table of its target level that has the time stamp of its
files. -/
def Guard.apart : Guard where
  puts _ _ _ := True
  merges := Apart

instance (store : KVStore) (key : Nat) (s : Str) : Decidable (Guard.apart.puts store key s) :=
  inferInstanceAs (Decidable True)

instance (call : CompactionCall) : Decidable (Guard.apart.merges call) :=
  inferInstanceAs (Decidable (Apart call))

theorem exists_outTable {file : List (Nat × Str)}
    (mem : file ∈ store.outFiles pops level) :
    ∃ table ∈ store.outTables pops level, table.keyValue = file := by
  rw [← map_keyValue_fileTables level (timestampOf (store.picked level)) (store.levelNum level)
    (store.outFiles pops level)] at mem
  obtain ⟨table, new, same⟩ := List.mem_map.mp mem
  exact ⟨table, new, same⟩

/-- What a compaction needs to insert its tables, at the stage where it starts. -/
theorem rank_ne_of_stageRuns {guard : Guard} {key : Nat} {s : Str}
    (reached : StageRuns guard (.merging level key s) store) (overfull : store.Overfull level)
    (apart : Apart ⟨pops, store, level⟩) (compacted : store.Compacted pops level store') :
    ∀ table ∈ store.outTables pops level, ∀ old ∈ store.overlapped level,
      old.rank ≠ table.rank := by
  intro table new old merged
  have sound := (stageSound_of_stageRuns reached).sound
  obtain ⟨last, picked, stampEq, -, -⟩ := exists_last_picked sound overfull compacted.enough
  have small := stamps_of_stageRuns reached _ last (mem_picked picked)
  exact rank_ne_of_apart small stampEq apart new merged

theorem inserts_of_stageRuns (valid : Pops pops) {key : Nat} {s : Str}
    {guard : Guard} (reached : StageRuns guard (.merging level key s) store)
    (overfull : store.Overfull level) (apart : Apart ⟨pops, store, level⟩)
    (ok : store.compactLevel pops level = .ok store') : Inserts ⟨pops, store, level⟩ store' := by
  have known := stageSound_of_stageRuns reached
  obtain ⟨pos, le⟩ := known.level rfl
  have compacted := (known.sound.ordered.compactLevel valid pos le).of_ok ok
  have distinct := rank_ne_of_stageRuns reached overfull apart compacted
  have fresh := allFresh_outTables known.sound valid (partitioned_of_stageRuns reached pos)
    compacted.nonempty distinct
  refine ⟨fresh, ?_⟩
  intro file mem entry held
  obtain ⟨table, new, rfl⟩ := exists_outTable mem
  exact ⟨table, (compacted.mem_target_iff known.sound fresh distinct).mpr (.inl new), held⟩

/-- A flush has a time stamp that level 0 lacks. -/
theorem fresh_flushTable (shaped : StageShaped .idle store) (key : Nat) (s : Str) (order : Nat) :
    KeyedSet.Fresh Table.rank (flushTable (store.charged key s) order) (store.ssTable 0) := by
  cases shaped with
  | idle tallied shaped =>
      have top := shaped.top
      rw [shaped.count, level0] at top
      have same : (store.charged key s).timeStamp = store.memTable.timeStamp := rfl
      exact tallied.fresh (by omega) same order

/-- In a run whose compactions all keep time stamps apart, a flush and every file of a
compaction enter their sets, and no entry of a file is lost. -/
theorem inserts_of_runs (runs : Runs .apart store) (invocation : Invocation)
    (allowed : Guard.apart.command store invocation) :
    (∀ key s, KeyedSet.Fresh Table.rank
        (flushTable (store.charged key s) (store.levelNum 0 + 1)) (store.ssTable 0)) ∧
      ∀ call ∈ store.calls invocation.pops invocation.fuel invocation.command, ∀ store',
        call.store.compactLevel call.pops call.level = .ok store' → Inserts call store' := by
  have reached := stages_of_runs runs
  constructor
  · intro key s
    exact fresh_flushTable (shaped_of_stageRuns reached) key s _
  · intro call mem store' ok
    have apart : Apart call := allowed.2 call mem
    obtain ⟨same, key, s, merging, overfull⟩ :=
      (stages_of_exec invocation.valid reached allowed).1 call mem
    rcases call with ⟨pops, before, level⟩
    cases same
    exact inserts_of_stageRuns invocation.valid merging overfull apart ok

/-- A put that merges four tables of level 0 with three of level 1. -/
theorem inserts_after_compaction : ∃ store, run .apart versionedPuts = some store ∧
    (store.calls sortPops 20 (.put 4 wide)).map (fun call =>
      (call.store.overlapped call.level).map Table.getMinKey) = [[3, 5, 7]] ∧
    ∀ call ∈ store.calls sortPops 20 (.put 4 wide), ∀ store',
      call.store.compactLevel call.pops call.level = .ok store' → Inserts call store' := by
  obtain ⟨store, ran, held⟩ := Option.map_eq_some_iff.mp
    (show (run .apart versionedPuts).map (fun store =>
      ((store.calls sortPops 20 (.put 4 wide)).map (fun call =>
          (call.store.overlapped call.level).map Table.getMinKey),
        decide (Guard.apart.command store (Command.put 4 wide).invoke))) =
          some ([[3, 5, 7]], true) by decide +kernel)
  obtain ⟨overlap, allowed⟩ := Prod.mk.inj held
  exact ⟨store, ran, overlap,
    (inserts_of_runs (runs_of_run ran) _ (of_decide_eq_true allowed)).2⟩

/-! ## A run that drops a table -/

/-- Puts after which the second compaction into level 2 merges a table with the time
stamp of its files. -/
def tiedPuts : List Command :=
  [.put 0 narrow, .put 890 wide, .put 900 narrow] ++
    ((List.range 12).map fun i => .put (2000 + i) wide) ++
    ((List.range 8).map fun i => .put (2000 + i) narrow) ++
    [.put 900 narrow, .put 800 wide, .put 100 wide, .put 101 wide] ++
    (List.range 8).map fun i => .put (3000 + i) wide

/-- The last compaction of the run drops a table. -/
theorem not_inserts : ¬∀ store, system.Reachable store → ∀ invocation : Invocation,
    ∀ call ∈ store.calls invocation.pops invocation.fuel invocation.command, ∀ store',
      call.store.compactLevel call.pops call.level = .ok store' → Inserts call store' := by
  intro always
  obtain ⟨store, ran, held⟩ := Option.map_eq_some_iff.mp
    (show (run .none tiedPuts).map
      (fun store => decide (∃ call ∈ store.calls sortPops 20 (.put 3008 wide),
        (call.store.compactLevel call.pops call.level).toOption.isSome ∧
          ∃ table ∈ call.store.outTables call.pops call.level,
            ∃ old ∈ call.store.ssTable call.level, old.rank = table.rank)) =
              some true by decide +kernel)
  obtain ⟨call, mem, returns, table, new, old, oldMem, same⟩ := of_decide_eq_true held
  obtain ⟨store', ok⟩ := Outcome.exists_ok_of_isSome returns
  have inserts := always store (System.reachable_of_guarded (runs_of_run ran))
    (Command.put 3008 wide).invoke call mem store' ok
  exact inserts.fresh.fresh new old oldMem same

end KVStore

end ZnsLsm.Store
