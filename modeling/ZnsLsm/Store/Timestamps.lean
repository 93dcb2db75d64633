import ZnsLsm.Store.Shape

/-!
# Time stamps

A compaction gives its files the time stamp of the last table that it picks.  That
stamp lies between those of the picked tables and those of the tables that stay above,
so time stamps never grow from one level to a deeper one.
-/

namespace ZnsLsm.Store

open ZnsLsm.Outcome ZnsLsm.Transition
open ZnsLsm.Pool (sstableSize)

theorem Table.timestamp_le_of_rank_le {first second : Table} (le : first.rank ≤ second.rank) :
    first.getTimestamp ≤ second.getTimestamp := by
  rcases (Prod.Lex.toLex_le_toLex ..).mp le with less | ⟨same, -⟩
  · exact less.le
  · exact same.le

namespace KVStore

variable {pops : List Table → List Table} {store store' : KVStore} {level : Nat}

/-! ## The time stamp of a compaction -/

@[simp]
theorem timestampOf_append (tables : List Table) (last : Table) :
    timestampOf (tables ++ [last]) = last.getTimestamp := by
  rw [timestampOf, List.foldl_append]
  rfl

/-- The time stamp of the first tables of a set is that of the last one of them. -/
theorem timestampOf_take {tables : List Table} (sorted : KeyedSet.Sorted Table.rank tables)
    {count : Nat} (pos : 0 < count) (enough : count ≤ tables.length) :
    ∃ last ∈ tables.take count, timestampOf (tables.take count) = last.getTimestamp ∧
      (∀ table ∈ tables.take count, table.getTimestamp ≤ last.getTimestamp) ∧
        ∀ table ∈ tables.drop count, last.getTimestamp ≤ table.getTimestamp := by
  have nonempty : tables.take count ≠ [] := by
    intro empty
    have length := congrArg List.length empty
    rw [List.length_take, List.length_nil] at length
    omega
  have split := List.dropLast_append_getLast nonempty
  have mem := List.getLast_mem nonempty
  have apart := sorted
  rw [KeyedSet.Sorted, ← List.take_append_drop count tables, List.pairwise_append] at apart
  obtain ⟨ascending, -, less⟩ := apart
  refine ⟨(tables.take count).getLast nonempty, mem, ?_, ?_, ?_⟩
  · rw [← timestampOf_append (tables.take count).dropLast, split]
  · intro table picked
    rw [← split, List.pairwise_append] at ascending
    rw [← split] at picked
    rcases List.mem_append.mp picked with before | last
    · exact Table.timestamp_le_of_rank_le
        (ascending.2.2 table before _ (List.mem_singleton.mpr rfl)).le
    · exact (congrArg Table.getTimestamp (List.mem_singleton.mp last)).le
  · intro table stays
    exact Table.timestamp_le_of_rank_le (less _ mem table stays).le

/-- An overfull level has a table to pick. -/
theorem compactNum_pos (overfull : store.Overfull level) : 0 < store.compactNum level := by
  rw [compactNum]
  split
  · exact Nat.succ_pos _
  · rename_i deeper
    rcases overfull with first | full
    · exact absurd first deeper
    · exact Nat.sub_pos_of_lt full

/-- A compaction picks a table that has its time stamp. -/
theorem exists_last_picked (sound : store.Sound) (overfull : store.Overfull level)
    (enough : store.compactNum level ≤ (store.ssTable (level - 1)).length) :
    ∃ last ∈ store.picked level, timestampOf (store.picked level) = last.getTimestamp ∧
      (∀ table ∈ store.picked level, table.getTimestamp ≤ last.getTimestamp) ∧
        ∀ table ∈ (store.ssTable (level - 1)).drop (store.compactNum level),
          last.getTimestamp ≤ table.getTimestamp :=
  timestampOf_take (sound.sets _) (compactNum_pos overfull) enough

theorem getTimestamp_of_outTables {table : Table} (mem : table ∈ store.outTables pops level) :
    table.getTimestamp = timestampOf (store.picked level) % 2 ^ 32 := by
  obtain ⟨number, file, -, -, -, rfl⟩ := mem_fileTables mem
  rfl

/-! ## The order of the levels -/

/-- Time stamps do not grow downwards, and the next flush has a new one. -/
structure Descending (store : KVStore) : Prop where
  recent : ∀ level, ∀ table ∈ store.ssTable level,
    table.getTimestamp < store.memTable.timeStamp
  levels : ∀ i j, i < j → ∀ upper ∈ store.ssTable i, ∀ lower ∈ store.ssTable j,
    lower.getTimestamp ≤ upper.getTimestamp ∧
      (i = 0 → lower.getTimestamp < upper.getTimestamp)

theorem descending_new : new.Descending where
  recent level table mem := by cases mem
  levels i j less upper mem := by cases mem

/-- Only the time stamp of the memtable and the tables matter. -/
theorem Descending.of_eq (descending : store.Descending)
    (stamp : store'.memTable.timeStamp = store.memTable.timeStamp)
    (tables : store'.ssTable = store.ssTable) : store'.Descending where
  recent := by
    rw [stamp, tables]
    exact descending.recent
  levels := by
    rw [tables]
    exact descending.levels

theorem Descending.flushed (descending : store.Descending) {list : SkipList}
    (same : list.timeStamp = store.memTable.timeStamp) (few : list.timeStamp < 2 ^ 32)
    (flushed : store.Flushed list store') : store'.Descending := by
  have stamp : store'.memTable.timeStamp = store.memTable.timeStamp + 1 := by
    rw [flushed.memTable, ← same]
    rfl
  have new : ∀ order, (flushTable list order).getTimestamp = store.memTable.timeStamp := by
    intro order
    change list.timeStamp % 2 ^ 32 = _
    rw [Nat.mod_eq_of_lt few, same]
  constructor
  · intro level table mem
    rw [stamp]
    rcases flushed.mem_cases mem with old | ⟨rfl, rfl⟩
    · exact (descending.recent level table old).trans (Nat.lt_succ_self _)
    · rw [new]
      exact Nat.lt_succ_self _
  · intro i j less upper mem lower mem'
    rw [flushed.others j (Nat.ne_zero_of_lt less)] at mem'
    rcases flushed.mem_cases mem with old | ⟨rfl, rfl⟩
    · exact descending.levels i j less upper old lower mem'
    · rw [new]
      have recent := descending.recent j lower mem'
      exact ⟨recent.le, fun _ => recent⟩

/-- A compaction keeps the order: what it leaves on level 0 is nothing. -/
theorem Descending.compacted (descending : store.Descending)
    (few : store.memTable.timeStamp ≤ 2 ^ 32) (sound : store.Sound) (pos : 1 ≤ level)
    (overfull : store.Overfull level) (empty : level = 1 → store'.ssTable 0 = [])
    (compacted : store.Compacted pops level store') : store'.Descending := by
  obtain ⟨last, picked, stampEq, -, below⟩ := exists_last_picked sound overfull compacted.enough
  have lastMem := mem_picked picked
  have lastRecent := descending.recent _ last lastMem
  have target : ∀ {table}, table ∈ store'.ssTable level →
      table.getTimestamp = last.getTimestamp ∨ table ∈ store.ssTable level := by
    intro table mem
    rcases compacted.mem_target mem with new | ⟨old, -⟩
    · left
      rw [getTimestamp_of_outTables new, stampEq]
      exact Nat.mod_eq_of_lt (lastRecent.trans_le few)
    · exact .inr old
  -- Every other table was there before, and those above the target are not older.
  have others : ∀ {other}, other ≠ level → ∀ {table}, table ∈ store'.ssTable other →
      table ∈ store.ssTable other := fun ne _ mem => compacted.mem_of_ne ne mem
  constructor
  · intro other table mem
    rw [compacted.memTable]
    by_cases here : other = level
    · subst here
      rcases target mem with same | old
      · rw [same]
        exact lastRecent
      · exact descending.recent _ table old
    · exact descending.recent _ table (others here mem)
  · intro i j less upper mem lower mem'
    by_cases lowerHere : j = level
    · subst lowerHere
      have upperOld := others (Nat.ne_of_lt less) mem
      rcases target mem' with same | old
      · rw [same]
        by_cases above : i = j - 1
        · subst above
          rw [compacted.above] at mem
          refine ⟨below upper mem, fun zero => ?_⟩
          have first : j = 1 := by omega
          subst first
          have gone := empty rfl
          rw [compacted.above] at gone
          rw [gone] at mem
          cases mem
        · exact descending.levels i (j - 1) (by omega) upper upperOld last lastMem
      · exact descending.levels i j less upper upperOld lower old
    · have lowerOld := others lowerHere mem'
      by_cases upperHere : i = level
      · subst upperHere
        rcases target mem with same | old
        · rw [same]
          have above := descending.levels (i - 1) j (by omega) last lastMem lower lowerOld
          exact ⟨above.1, fun zero => absurd zero (Nat.ne_of_gt pos)⟩
        · exact descending.levels i j less upper old lower lowerOld
      · exact descending.levels i j less upper (others upperHere mem) lower lowerOld

theorem stageInvariant_descending (guard : Guard) :
    StageInvariant guard StageShaped fun _ store =>
      store.memTable.timeStamp ≤ 2 ^ 32 → store.Descending where
  new _ := descending_new
  write _ _ before _ _ few := (before few).of_eq rfl rfl
  flush := by
    intro store flushed key s _ _ before _ _ step few
    change flushed.memTable.timeStamp ≤ 2 ^ 32 at few
    rw [step.memTable] at few
    have less : (store.charged key s).timeStamp < 2 ^ 32 := few
    have same : (store.charged key s).timeStamp = store.memTable.timeStamp := rfl
    exact ((before (Nat.le_of_lt less)).flushed same less step).of_eq rfl rfl
  skip _ _ before _ := before
  descend _ _ before _ := before
  merge := by
    intro pops store store' level key s sound shaped before pos _ _ overfull compacted few
    rw [compacted.memTable] at few
    refine (before few).compacted few sound pos overfull ?_ compacted
    rintro rfl
    cases compacted.shaped overfull shaped with
    | later _ empty _ => exact empty
  stop _ _ before _ few := (before few).of_eq rfl rfl
  insert _ _ before few := (before few).of_eq rfl rfl
  get _ before _ few := (before few).of_eq rfl rfl

theorem descending_of_stageRuns {guard : Guard} {stage : Stage}
    (reached : StageRuns guard stage store) (few : store.memTable.timeStamp ≤ 2 ^ 32) :
    store.Descending :=
  (stageInvariant_descending guard).holds shaped_of_stageRuns reached few

/-- While fewer than 2^32 flushes have happened, which the time stamp of the memtable
counts, time stamps never grow downwards. -/
theorem descending_of_reachable (reachable : system.Reachable store)
    (few : store.memTable.timeStamp < 2 ^ 32) : store.Descending :=
  descending_of_stageRuns (stages_of_runs (runs_none reachable)) few.le

/-- Five tables on two levels after two compactions. -/
theorem descending_after_compaction : ∃ store,
    run .none ([7, 3, 5, 1, 9, 11].map fun key => .put key wide) = some store ∧
      ((store.ssTable 0).map Table.getTimestamp, (store.ssTable 1).map Table.getTimestamp) =
        ([4], [3, 3, 3, 3]) ∧ store.Descending := by
  obtain ⟨store, ran, held⟩ := Option.map_eq_some_iff.mp
    (show (run .none ([7, 3, 5, 1, 9, 11].map fun key => .put key wide)).map
      (fun store => (((store.ssTable 0).map Table.getTimestamp,
        (store.ssTable 1).map Table.getTimestamp), store.memTable.timeStamp)) =
          some (([4], [3, 3, 3, 3]), 5) by decide +kernel)
  obtain ⟨stamps, count⟩ := Prod.mk.inj held
  refine ⟨store, ran, stamps, descending_of_reachable
    (System.reachable_of_guarded (runs_of_run ran)) ?_⟩
  rw [count]
  decide

end KVStore

end ZnsLsm.Store
