import ZnsLsm.RunningBounds
import ZnsLsm.Store.Freshness
import ZnsLsm.Store.Memtable

/-!
# The range of the memtable

`minKey` and `maxKey` follow the keys of the memtable from limits of signed integers on,
and `compactionForLevel` does the same with the tables that it picks.  So the range of a
memtable is true only if it has keys on both sides of 2^63, unless it is the first one.
-/

namespace ZnsLsm.Store

open ZnsLsm.Transition
open ZnsLsm.Pool (sstableSize)

namespace SkipList

variable {list : SkipList}

/-- The keys of the list. -/
def keys (list : SkipList) : Set Nat :=
  {key | ∃ value, (key, value) ∈ list.nodes}

/-- `getMinMaxKey` returns the least and the greatest key. -/
def Exact (list : SkipList) : Prop :=
  IsLeast list.keys list.getMinMaxKey.1 ∧ IsGreatest list.keys list.getMinMaxKey.2

/-- A `clear` has met entries. -/
def cleared : List Edit → Bool
  | [] => false
  | .clear :: edits => cleared edits || !(run edits).nodes.isEmpty
  | _ :: edits => cleared edits

/-- Some key is not above the seed of `minKey`, and after a `clear` some key is not below
that of `maxKey`. -/
def Spans (cleared : Bool) (keys : Set Nat) : Prop :=
  (∃ key ∈ keys, key ≤ int64Max) ∧ (cleared → ∃ key ∈ keys, int64Min ≤ key)

/-- The bounds have followed the keys. -/
def Tracks (high : Nat) (list : SkipList) : Prop :=
  RunningBounds int64Max high list.keys list.minKey list.maxKey

theorem mem_keys_iff {key : Nat} : key ∈ list.keys ↔ (SortedMap.find key list.nodes).isSome := by
  rw [SortedMap.find_isSome_iff]
  constructor
  · rintro ⟨value, mem⟩
    exact ⟨_, mem, rfl⟩
  · rintro ⟨entry, mem, rfl⟩
    exact ⟨entry.2, mem⟩

@[simp]
theorem keys_put (list : SkipList) (key : Nat) (value : Str) :
    (list.put key value).keys = insert key list.keys := by
  ext other
  rw [mem_keys_iff, Set.mem_insert_iff, mem_keys_iff]
  change (SortedMap.find other (SortedMap.assign key value list.nodes)).isSome ↔ _
  by_cases same : key = other
  · simp [same]
  · simp [same, Ne.symm same]

@[simp]
theorem keys_of_nil (empty : list.nodes = []) : list.keys = ∅ := by
  ext key
  simp [keys, empty]

theorem Tracks.put {high : Nat} (tracks : list.Tracks high) (key : Nat) (value : Str) :
    (list.put key value).Tracks high := by
  rw [Tracks, keys_put]
  exact RunningBounds.insert tracks key

/-- What `maxKey` starts from. -/
def seed (cleared : Bool) : Nat :=
  if cleared then int64Min else 0

/-- The bounds are true exactly if the seeds do not lie beyond the keys. -/
theorem Tracks.exact_iff {cleared : Bool} (tracks : list.Tracks (seed cleared)) :
    list.Exact ↔ Spans cleared list.keys := by
  change IsLeast list.keys list.minKey ∧ IsGreatest list.keys list.maxKey ↔ _
  rw [RunningBounds.isLeast_iff tracks, RunningBounds.isGreatest_iff tracks, Spans]
  apply and_congr_right
  rintro ⟨key, mem, -⟩
  cases cleared with
  | true => exact ⟨fun held _ => held, fun held => held rfl⟩
  | false => exact iff_of_true ⟨key, mem, Nat.zero_le key⟩ nofun

theorem tracks_new : new.Tracks (seed false) := by
  rw [Tracks, keys_of_nil rfl]
  exact .start ..

theorem Tracks.clear {cleared : Bool} (tracks : list.Tracks (seed cleared)) :
    list.clear.Tracks (seed (cleared || !list.nodes.isEmpty)) := by
  rw [SkipList.clear]
  cases nodes : list.nodes with
  | nil =>
      rw [List.isEmpty_nil, Bool.not_true, Bool.or_false]
      exact tracks
  | cons node rest =>
      rw [List.isEmpty_cons, Bool.not_false, Bool.or_true, Tracks, keys_of_nil rfl]
      exact .start ..

theorem tracks_run (edits : List Edit) : (run edits).Tracks (seed (cleared edits)) := by
  induction edits with
  | nil => exact tracks_new
  | cons edit edits ih =>
      cases edit with
      | put key value => exact ih.put key value
      | clear => exact ih.clear
      | getTimeStamp => exact ih
      | setMemory memory => exact ih

end SkipList

namespace Table

/-- The range of the table is the range of its keys. -/
def Exact (table : Table) : Prop :=
  IsLeast table.keys table.getMinKey ∧ IsGreatest table.keys table.getMaxKey

end Table

namespace KVStore

variable {store store' : KVStore}

/-! ## The tables of level 0 -/

/-- The bounds of the memtable and of the tables of level 0 have followed their keys, and
those of the second memtable and later ones started from the seeds of `clear`. -/
structure Ranged (store : KVStore) : Prop where
  memTable : store.memTable.Tracks (SkipList.seed (store.memTable.timeStamp ≠ 0))
  tables : ∀ table ∈ store.ssTable 0, ∃ high ≤ int64Min,
    RunningBounds int64Max high table.keys table.getMinKey table.getMaxKey
  count : (store.ssTable 0).length ≤ store.memTable.timeStamp
  later : store.memTable.timeStamp ≤ 1 ∨ store.ssTable 0 = [] ∨
    ∃ table ∈ store.ssTable 0, int64Min ≤ table.getMaxKey

theorem seed_le (cleared : Bool) : SkipList.seed cleared ≤ int64Min := by
  cases cleared with
  | false => exact Nat.zero_le _
  | true => exact Nat.le_refl _

theorem Ranged.of_eq (ranged : store.Ranged)
    (memTable : store'.memTable.Tracks (SkipList.seed (store'.memTable.timeStamp ≠ 0)))
    (stamp : store'.memTable.timeStamp = store.memTable.timeStamp)
    (tables : store'.ssTable 0 = store.ssTable 0) : store'.Ranged where
  memTable := memTable
  tables := tables ▸ ranged.tables
  count := by
    rw [tables, stamp]
    exact ranged.count
  later := by
    rw [tables, stamp]
    exact ranged.later

theorem Ranged.flushed (ranged : store.Ranged) {list : SkipList}
    (tracks : list.Tracks (SkipList.seed (list.timeStamp ≠ 0)))
    (stamp : list.timeStamp = store.memTable.timeStamp)
    (fresh : KeyedSet.Fresh Table.rank (flushTable list (store.levelNum 0 + 1)) (store.ssTable 0))
    (step : store.Flushed list store') : store'.Ranged where
  memTable := by
    rw [step.memTable, SkipList.Tracks, SkipList.keys_of_nil rfl]
    exact .start ..
  tables := by
    intro table mem
    rcases step.mem_cases mem with old | ⟨-, rfl⟩
    · exact ranged.tables table old
    · exact ⟨_, seed_le _, tracks⟩
  count := by
    rw [step.level0, fresh.length_emplace, step.memTable]
    change _ ≤ list.timeStamp + 1
    rw [stamp]
    exact Nat.succ_le_succ ranged.count
  later := by
    rw [step.level0, step.memTable]
    change list.timeStamp + 1 ≤ 1 ∨ _
    by_cases first : list.timeStamp = 0
    · exact .inl (by omega)
    · have seed : SkipList.seed (list.timeStamp ≠ 0) = int64Min := by simp [SkipList.seed, first]
      exact .inr (.inr ⟨_, fresh.mem_emplace, seed ▸ tracks.seed_le_greatest⟩)

theorem Ranged.emptied (ranged : store.Ranged) (memTable : store'.memTable = store.memTable)
    (empty : store'.ssTable 0 = []) : store'.Ranged where
  memTable := memTable ▸ ranged.memTable
  tables table mem := by
    rw [empty] at mem
    cases mem
  count := by
    rw [empty]
    exact Nat.zero_le _
  later := .inr (.inl empty)

theorem stageInvariant_ranged (guard : Guard) :
    StageInvariant guard StageShaped fun _ store => store.Ranged where
  new :=
    { memTable := SkipList.tracks_new
      tables := fun _ => (absurd · List.not_mem_nil)
      count := Nat.le_refl 0
      later := .inr (.inl rfl) }
  write _ _ before _ _ := before.of_eq (SkipList.Tracks.put before.memTable _ _) rfl rfl
  flush := by
    intro store flushed key s _ shaped before _ _ step
    have tracks : (store.charged key s).Tracks
        (SkipList.seed ((store.charged key s).timeStamp ≠ 0)) := before.memTable
    have ranged := before.flushed tracks rfl (fresh_flushTable shaped _ _ _) step
    exact ranged.of_eq ranged.memTable rfl rfl
  skip _ _ before _ := before
  descend _ _ before _ := before
  merge := by
    intro pops store store' level key s _ shaped before pos _ _ overfull compacted
    cases compacted.shaped overfull shaped with
    | first => exact absurd pos (by decide)
    | later _ empty _ => exact before.emptied compacted.memTable empty
  stop _ _ before _ := before.of_eq before.memTable rfl rfl
  insert _ _ before := before.of_eq (SkipList.Tracks.put before.memTable _ _) rfl rfl
  get _ before _ := before.of_eq before.memTable rfl rfl

theorem ranged_of_stageRuns {guard : Guard} {stage : Stage}
    (reached : StageRuns guard stage store) : store.Ranged :=
  (stageInvariant_ranged guard).holds shaped_of_stageRuns reached

/-! ## The tables that the first compaction rewrites -/

/-- The keys of the picked tables. -/
def pickedKeys (store : KVStore) (level : Nat) : Set Nat :=
  {key | ∃ table ∈ store.picked level, key ∈ table.keys}

/-- The range of the table meets the range of the keys. -/
def MeetsHull (keys : Set Nat) (table : Table) : Prop :=
  (∃ key ∈ keys, key ≤ table.getMaxKey) ∧ ∃ key ∈ keys, table.getMinKey ≤ key

/-- No table of level 1 that lies on one side of all picked keys reaches the seed there. -/
def Unreached (store : KVStore) : Prop :=
  ∀ table ∈ store.ssTable 1,
    ((∀ key ∈ store.pickedKeys 1, table.getMaxKey < key) → table.getMaxKey < int64Max) ∧
      ((∀ key ∈ store.pickedKeys 1, key < table.getMinKey) → int64Min < table.getMinKey)

theorem picked_first {key : Nat} {s : Str} (shaped : StageShaped (.merging 1 key s) store) :
    store.picked 1 = store.ssTable 0 ∧ store.ssTable 0 ≠ [] ∧
      (store.ssTable 0).length = level0 + 1 := by
  cases shaped with
  | first length _ =>
      refine ⟨?_, ?_, length⟩
      · rw [picked, compactNum, if_pos rfl, ← length]
        exact List.take_length
      · rintro empty
        rw [empty] at length
        cases length
  | later two => exact absurd two (by decide)

theorem tempMin_first_le_iff (ranged : store.Ranged) (same : store.picked 1 = store.ssTable 0)
    (bound : Nat) : tempMin (store.picked 1) ≤ bound ↔
      (∃ key ∈ store.pickedKeys 1, key ≤ bound) ∨ int64Max ≤ bound := by
  rw [tempMin_le_iff]
  constructor
  · rintro (⟨table, mem, le⟩ | le)
    · obtain ⟨high, -, bounds⟩ := ranged.tables table (same ▸ mem)
      rcases (bounds.least_le_iff bound).mp le with ⟨key, held, le⟩ | le
      · exact .inl ⟨key, ⟨table, mem, held⟩, le⟩
      · exact .inr le
    · exact .inr le
  · rintro (⟨key, ⟨table, mem, held⟩, le⟩ | le)
    · obtain ⟨high, -, bounds⟩ := ranged.tables table (same ▸ mem)
      exact .inl ⟨table, mem, (bounds.least_le held).trans le⟩
    · exact .inr le

theorem le_tempMax_first_iff (ranged : store.Ranged) {key : Nat} {s : Str}
    (shaped : StageShaped (.merging 1 key s) store) (bound : Nat) :
    bound ≤ tempMax (store.picked 1) ↔
      (∃ key ∈ store.pickedKeys 1, bound ≤ key) ∨ bound ≤ int64Min := by
  obtain ⟨same, nonempty, length⟩ := picked_first shaped
  rw [le_tempMax_iff]
  constructor
  · rintro (⟨table, mem, le⟩ | zero)
    · obtain ⟨high, least, bounds⟩ := ranged.tables table (same ▸ mem)
      rcases (bounds.le_greatest_iff bound).mp le with ⟨key, held, le⟩ | le
      · exact .inl ⟨key, ⟨table, mem, held⟩, le⟩
      · exact .inr (le.trans least)
    · exact .inr (zero ▸ Nat.zero_le _)
  · rintro (⟨key, ⟨table, mem, held⟩, le⟩ | le)
    · obtain ⟨high, -, bounds⟩ := ranged.tables table (same ▸ mem)
      exact .inl ⟨table, mem, le.trans (bounds.le_greatest held)⟩
    · have flushes := ranged.count
      rw [length, level0] at flushes
      rcases ranged.later with few | empty | ⟨table, mem, high⟩
      · omega
      · exact absurd empty nonempty
      · exact .inl ⟨table, same ▸ mem, le.trans high⟩

/-- The seeds count as keys. -/
theorem mem_overlapped_first_iff (ranged : store.Ranged) {key : Nat} {s : Str}
    (shaped : StageShaped (.merging 1 key s) store) (table : Table) :
    table ∈ store.overlapped 1 ↔ table ∈ store.ssTable 1 ∧
      ((∃ key ∈ store.pickedKeys 1, key ≤ table.getMaxKey) ∨ int64Max ≤ table.getMaxKey) ∧
        ((∃ key ∈ store.pickedKeys 1, table.getMinKey ≤ key) ∨ table.getMinKey ≤ int64Min) := by
  rw [overlapped, overlapping, List.mem_filter, decide_eq_true_iff,
    tempMin_first_le_iff ranged (picked_first shaped).1, le_tempMax_first_iff ranged shaped]

/-- The first compaction rewrites only tables that meet the range of the flushed keys exactly
if no other table reaches a seed. -/
theorem meetsHull_iff (sound : store.Sound) (ranged : store.Ranged) {key : Nat} {s : Str}
    (shaped : StageShaped (.merging 1 key s) store) :
    (∀ table ∈ store.overlapped 1, MeetsHull (store.pickedKeys 1) table) ↔ store.Unreached := by
  obtain ⟨first, keys⟩ : ∃ first, first ∈ store.pickedKeys 1 := by
    obtain ⟨same, nonempty, -⟩ := picked_first shaped
    obtain ⟨table, mem⟩ := List.exists_mem_of_ne_nil _ nonempty
    obtain ⟨first, held⟩ := (sound.tables 0 table mem).exists_key
    exact ⟨first, table, same ▸ mem, held⟩
  constructor
  · intro meets table mem
    have ordered := (sound.tables 1 table mem).min_le_max
    constructor
    · intro below
      by_contra reaches
      have above : ∃ key ∈ store.pickedKeys 1, table.getMinKey ≤ key :=
        ⟨first, keys, ordered.trans (below first keys).le⟩
      have merged := (mem_overlapped_first_iff ranged shaped table).mpr
        ⟨mem, .inr (Nat.le_of_not_lt reaches), .inl above⟩
      obtain ⟨⟨other, held, le⟩, -⟩ := meets table merged
      exact Nat.not_lt.mpr le (below other held)
    · intro above
      by_contra reaches
      have below : ∃ key ∈ store.pickedKeys 1, key ≤ table.getMaxKey :=
        ⟨first, keys, (above first keys).le.trans ordered⟩
      have merged := (mem_overlapped_first_iff ranged shaped table).mpr
        ⟨mem, .inl below, .inr (Nat.le_of_not_lt reaches)⟩
      obtain ⟨-, other, held, le⟩ := meets table merged
      exact Nat.not_lt.mpr le (above other held)
  · intro unreached table merged
    obtain ⟨mem, low, high⟩ := (mem_overlapped_first_iff ranged shaped table).mp merged
    obtain ⟨below, above⟩ := unreached table mem
    constructor
    · rcases low with held | reaches
      · exact held
      · by_contra missing
        have apart : ∀ key ∈ store.pickedKeys 1, table.getMaxKey < key :=
          fun key held => Nat.lt_of_not_le fun le => missing ⟨key, held, le⟩
        exact Nat.not_le.mpr (below apart) reaches
    · rcases high with held | reaches
      · exact held
      · by_contra missing
        have apart : ∀ key ∈ store.pickedKeys 1, key < table.getMinKey :=
          fun key held => Nat.lt_of_not_le fun le => missing ⟨key, held, le⟩
        exact Nat.not_le.mpr (above apart) reaches

/-! ## Runs -/

/-- The bounds of a skip list are its least and greatest key exactly if its keys lie on the
sides of 2^63 that its seeds ask for.  So it is with the memtable of every state of the store
and with the table that a flush makes of it, and the first compaction rewrites only tables
that meet the flushed keys exactly if no other table reaches a seed. -/
theorem keyRange_iff (reachable : system.Reachable store) :
    (∀ edits, (SkipList.run edits).Exact ↔
        SkipList.Spans (SkipList.cleared edits) (SkipList.run edits).keys) ∧
      (store.memTable.Exact ↔
        SkipList.Spans (store.memTable.timeStamp ≠ 0) store.memTable.keys) ∧
      (∀ key s flushed, store.flush (store.charged key s) = .ok flushed →
        ∃ table ∈ flushed.ssTable 0, table.keyValue = store.memTable.nodes ∧
          (table.Exact ↔
            SkipList.Spans (store.memTable.timeStamp ≠ 0) store.memTable.keys)) ∧
      ∀ invocation : Invocation,
        ∀ call ∈ store.calls invocation.pops invocation.fuel invocation.command,
          call.level = 1 →
            ((∀ table ∈ call.store.overlapped 1, MeetsHull (call.store.pickedKeys 1) table) ↔
              call.store.Unreached) := by
  have reached := stages_of_runs (runs_none reachable)
  have ranged := ranged_of_stageRuns reached
  have exact_iff := ranged.memTable.exact_iff
  refine ⟨fun edits => (SkipList.tracks_run edits).exact_iff, exact_iff, ?_, ?_⟩
  · intro key s flushed ok
    have step := (flush_ends _ _).of_ok ok
    have fresh := fresh_flushTable (shaped_of_stageRuns reached) key s (store.levelNum 0 + 1)
    exact ⟨flushTable (store.charged key s) (store.levelNum 0 + 1),
      step.level0 ▸ fresh.mem_emplace, rfl, exact_iff⟩
  · intro invocation call mem first
    obtain ⟨-, key, s, merging, -⟩ :=
      (stages_of_exec invocation.valid reached (command_none _ _)).1 call mem
    rcases call with ⟨pops, before, level⟩
    cases first
    exact meetsHull_iff (stageSound_of_stageRuns merging).sound (ranged_of_stageRuns merging)
      (shaped_of_stageRuns merging)

/-- The second memtable, with a key on either side of 2^63. -/
theorem keyRange_of_wide : ∃ store,
    run .none [.put 7 wide, .put (2 ^ 63) wide, .put 3 narrow] = some store ∧
      store.memTable.timeStamp = 1 ∧ store.memTable.Exact := by
  obtain ⟨store, ran, held⟩ := Option.map_eq_some_iff.mp
    (show (run .none [.put 7 wide, .put (2 ^ 63) wide, .put 3 narrow]).map
      (fun store => (store.memTable.timeStamp, (store.memTable.nodes.map Prod.fst))) =
        some (1, [3, 2 ^ 63]) by decide +kernel)
  obtain ⟨stamp, keys⟩ := Prod.mk.inj held
  have stored : ∀ key ∈ [3, 2 ^ 63], key ∈ store.memTable.keys := by
    intro key mem
    rw [← keys] at mem
    obtain ⟨entry, held, rfl⟩ := List.mem_map.mp mem
    exact ⟨entry.2, held⟩
  refine ⟨store, ran, stamp, ?_⟩
  refine (keyRange_iff (System.reachable_of_guarded (runs_of_run ran))).2.1.mpr ⟨?_, ?_⟩
  · exact ⟨3, stored 3 (by decide), by decide⟩
  · exact fun _ => ⟨2 ^ 63, stored (2 ^ 63) (by decide), by decide⟩

/-- The second memtable does not bound a small key from above by a key. -/
theorem not_keyRange : ¬∀ store, system.Reachable store → store.memTable.nodes ≠ [] →
    store.memTable.Exact := by
  intro always
  obtain ⟨store, ran, held⟩ := Option.map_eq_some_iff.mp
    (show (run .none [.put 7 wide, .put 3 wide]).map
      (fun store => (store.memTable.nodes.map Prod.fst, store.memTable.maxKey)) =
        some ([3], 2 ^ 63) by decide +kernel)
  obtain ⟨keys, greatest⟩ := Prod.mk.inj held
  have nonempty : store.memTable.nodes ≠ [] := by
    rintro empty
    rw [empty] at keys
    cases keys
  obtain ⟨-, ⟨value, held⟩, -⟩ :=
    always store (System.reachable_of_guarded (runs_of_run ran)) nonempty
  have mem : store.memTable.maxKey ∈ store.memTable.nodes.map Prod.fst :=
    List.mem_map_of_mem (f := Prod.fst) held
  rw [keys, greatest] at mem
  exact absurd mem (by decide)

end KVStore

end ZnsLsm.Store
