import Mathlib.Data.Set.Pairwise.Basic
import Mathlib.Order.CompletePartialOrder
import Mathlib.Order.Interval.Set.Basic
import ZnsLsm.Store.Sound

/-!
# The levels below level 0 partition the keys

A compaction merges with the picked tables every table of the target level that meets
their range.  A table that stays meets neither that range nor a merged table, so all
merged keys lie on one side of it, and the new tables, cut from one ascending list,
are disjoint from it and from each other.
-/

namespace ZnsLsm.Store

open ZnsLsm.Outcome ZnsLsm.Transition

namespace Table

/-- The keys between the least and the greatest key of the table. -/
def range (table : Table) : Set Nat :=
  Set.Icc table.getMinKey table.getMaxKey

/-- The keys that the table stores. -/
def keys (table : Table) : Set Nat :=
  {key | ∃ value, (key, value) ∈ table.keyValue}

theorem Sound.mem_range {table : Table} {level : Nat} (sound : table.Sound level) {key : Nat}
    (mem : key ∈ table.keys) : key ∈ table.range := by
  obtain ⟨value, held⟩ := mem
  exact sound.range _ held

theorem Sound.exists_key {table : Table} {level : Nat} (sound : table.Sound level) :
    ∃ key, key ∈ table.keys := by
  obtain ⟨entry, rest, same⟩ := List.exists_cons_of_ne_nil sound.nonempty
  exact ⟨entry.1, entry.2, same ▸ List.mem_cons_self⟩

theorem Sound.min_le_max {table : Table} {level : Nat} (sound : table.Sound level) :
    table.getMinKey ≤ table.getMaxKey := by
  obtain ⟨key, mem⟩ := sound.exists_key
  exact (sound.mem_range mem).1.trans (sound.mem_range mem).2

end Table

namespace KVStore

/-- Disjoint ranges, each with stored keys at its ends. -/
structure Partitioned (tables : List Table) : Prop where
  disjoint : Set.PairwiseDisjoint {table | table ∈ tables} Table.range
  least : ∀ table ∈ tables, IsLeast table.keys table.getMinKey
  greatest : ∀ table ∈ tables, IsGreatest table.keys table.getMaxKey

variable {pops : List Table → List Table} {store store' : KVStore} {level : Nat}

/-! ## The range of the picked tables -/

theorem tempMin_le_iff (picked : List Table) (bound : Nat) :
    tempMin picked ≤ bound ↔
      (∃ table ∈ picked, table.getMinKey ≤ bound) ∨ int64Max ≤ bound := by
  rw [tempMin]
  generalize int64Max = least
  induction picked generalizing least with
  | nil => simp
  | cons first picked ih =>
      rw [List.foldl_cons, ih]
      simp only [List.mem_cons, exists_eq_or_imp]
      by_cases later : ∃ table ∈ picked, table.getMinKey ≤ bound
      · simp only [later, true_or, or_true]
      · simp only [later, false_or, or_false]
        split
        · omega
        · omega

theorem tempMin_le {picked : List Table} {table : Table} (mem : table ∈ picked) :
    tempMin picked ≤ table.getMinKey :=
  (tempMin_le_iff ..).mpr (.inl ⟨table, mem, Nat.le_refl _⟩)

theorem le_tempMax_iff (picked : List Table) (bound : Nat) :
    bound ≤ tempMax picked ↔ (∃ table ∈ picked, bound ≤ table.getMaxKey) ∨ bound = 0 := by
  have general : ∀ greatest, bound ≤ picked.foldl (fun greatest table =>
      if greatest < table.getMaxKey then table.getMaxKey else greatest) greatest ↔
        (∃ table ∈ picked, bound ≤ table.getMaxKey) ∨ bound ≤ greatest := by
    induction picked with
    | nil => simp
    | cons first picked ih =>
        intro greatest
        rw [List.foldl_cons, ih]
        simp only [List.mem_cons, exists_eq_or_imp]
        by_cases later : ∃ table ∈ picked, bound ≤ table.getMaxKey
        · simp only [later, true_or, or_true]
        · simp only [later, false_or, or_false]
          split
          · omega
          · omega
  rw [tempMax, general, Nat.le_zero]

theorem le_tempMax {picked : List Table} {table : Table} (mem : table ∈ picked) :
    table.getMaxKey ≤ tempMax picked :=
  (le_tempMax_iff ..).mpr (.inl ⟨table, mem, Nat.le_refl _⟩)

/-! ## Tables that a compaction leaves alone -/

/-- A table that is not merged lies on one side of all tables that are. -/
theorem apart_of_untouched (sound : store.Sound) (partitioned : Partitioned (store.ssTable level))
    {untouched : Table} (mem : untouched ∈ store.ssTable level)
    (notMerged : untouched ∉ store.overlapped level) :
    (∀ table, table ∈ store.picked level ∨ table ∈ store.overlapped level →
        untouched.getMaxKey < table.getMinKey) ∨
      ∀ table, table ∈ store.picked level ∨ table ∈ store.overlapped level →
        table.getMaxKey < untouched.getMinKey := by
  have ordered := (sound.tables level untouched mem).min_le_max
  have outside : ¬(tempMin (store.picked level) ≤ untouched.getMaxKey ∧
      untouched.getMinKey ≤ tempMax (store.picked level)) := by
    intro meets
    exact notMerged (List.mem_filter.mpr ⟨mem, decide_eq_true meets⟩)
  have apart : ∀ table ∈ store.overlapped level,
      table.getMinKey ≤ untouched.getMaxKey → untouched.getMinKey ≤ table.getMaxKey → False := by
    intro table merged low high
    have ne : table ≠ untouched := by
      rintro rfl
      exact notMerged merged
    have disjoint := Set.disjoint_left.mp
      (partitioned.disjoint (mem_overlapped merged) mem ne)
    by_cases less : untouched.getMinKey ≤ table.getMinKey
    · have valid := (sound.tables level table (mem_overlapped merged)).min_le_max
      exact disjoint (Set.mem_Icc.mpr ⟨Nat.le_refl _, valid⟩) (Set.mem_Icc.mpr ⟨less, low⟩)
    · exact disjoint (Set.mem_Icc.mpr ⟨(Nat.lt_of_not_le less).le, high⟩)
        (Set.mem_Icc.mpr ⟨Nat.le_refl _, ordered⟩)
  have meets : ∀ table ∈ store.overlapped level,
      tempMin (store.picked level) ≤ table.getMaxKey ∧
        table.getMinKey ≤ tempMax (store.picked level) :=
    fun table merged => of_decide_eq_true (List.mem_filter.mp merged).2
  by_cases below : untouched.getMaxKey < tempMin (store.picked level)
  · left
    rintro table (picked | merged)
    · exact below.trans_le (tempMin_le picked)
    · by_contra notLess
      have high := (meets table merged).1
      exact apart table merged (Nat.le_of_not_lt notLess) (by omega)
  · right
    have above : tempMax (store.picked level) < untouched.getMinKey := by omega
    rintro table (picked | merged)
    · exact (le_tempMax picked).trans_lt above
    · by_contra notLess
      have low := (meets table merged).2
      exact apart table merged (by omega) (Nat.le_of_not_lt notLess)

/-! ## New tables -/

theorem getMinKey_mem_keys (level timestamp order : Nat) {file : List (Nat × Str)}
    (nonempty : file ≠ []) :
    (fileTable level timestamp order file).getMinKey ∈
      (fileTable level timestamp order file).keys := by
  obtain ⟨first, rest, rfl⟩ := List.exists_cons_of_ne_nil nonempty
  exact ⟨first.2, List.mem_cons_self⟩

theorem getMaxKey_mem_keys (level timestamp order : Nat) {file : List (Nat × Str)}
    (nonempty : file ≠ []) :
    (fileTable level timestamp order file).getMaxKey ∈
      (fileTable level timestamp order file).keys := by
  refine ⟨(file.getLast nonempty).2, ?_⟩
  change ((file.getLast?.map Prod.fst).getD 0, _) ∈ file
  rw [List.getLast?_eq_some_getLast nonempty]
  exact List.getLast_mem nonempty

/-- The ends of the range of a new table are stored in a merged table. -/
theorem exists_merged_of_outTable (sound : store.Sound) (valid : Pops pops)
    {table : Table} (mem : table ∈ store.outTables pops level) {key : Nat}
    (held : key ∈ table.keys) :
    ∃ merged, (merged ∈ store.picked level ∨ merged ∈ store.overlapped level) ∧
      key ∈ merged.keys := by
  obtain ⟨number, file, -, -, member, rfl⟩ := mem_fileTables mem
  obtain ⟨value, inFile⟩ := held
  obtain ⟨merged, tableMem, inTable⟩ :=
    exists_of_mem_survivors sound valid (mem_survivors_of_file member inFile)
  exact ⟨merged, tableMem, value, inTable⟩

/-- The ends of a new table are stored keys. -/
theorem ends_of_outTable (nonempty : [] ∉ store.outFiles pops level) {table : Table}
    (mem : table ∈ store.outTables pops level) :
    table.getMinKey ∈ table.keys ∧ table.getMaxKey ∈ table.keys := by
  obtain ⟨number, file, -, -, member, rfl⟩ := mem_fileTables mem
  have filled : file ≠ [] := by
    rintro rfl
    exact nonempty member
  exact ⟨getMinKey_mem_keys _ _ _ filled, getMaxKey_mem_keys _ _ _ filled⟩

/-- New tables stand in ascending order. -/
theorem pairwise_fileTables {timestamp order : Nat} {files : List (List (Nat × Str))}
    (nonempty : [] ∉ files) (sorted : SortedMap.Sorted files.flatten) :
    (fileTables level timestamp order files).Pairwise fun first second =>
      first.getMaxKey < second.getMinKey := by
  induction files generalizing order with
  | nil => exact List.Pairwise.nil
  | cons file files ih =>
      rw [List.mem_cons, not_or] at nonempty
      rw [SortedMap.Sorted, List.flatten_cons, List.pairwise_append] at sorted
      refine List.pairwise_cons.mpr ⟨?_, ih nonempty.2 sorted.2.1⟩
      intro table mem
      obtain ⟨number, later, -, -, member, rfl⟩ := mem_fileTables mem
      have filled : later ≠ [] := by
        rintro rfl
        exact nonempty.2 member
      obtain ⟨first, inFirst⟩ := getMaxKey_mem_keys level timestamp (order + 1) (Ne.symm nonempty.1)
      obtain ⟨second, inLater⟩ := getMinKey_mem_keys level timestamp number filled
      exact sorted.2.2 _ inFirst _ (List.mem_flatten_of_mem member inLater)

theorem pairwise_outTables (sound : store.Sound) (valid : Pops pops)
    (nonempty : [] ∉ store.outFiles pops level) :
    (store.outTables pops level).Pairwise fun first second =>
      first.getMaxKey < second.getMinKey := by
  apply pairwise_fileTables nonempty
  rw [outFiles, flatten_cut, List.nil_append]
  exact List.Pairwise.filter _
    (SortedMap.sorted_merge (sound.ordered.merging valid level))

theorem disjoint_of_lt {first second : Table} (less : first.getMaxKey < second.getMinKey) :
    Disjoint first.range second.range := by
  rw [Set.disjoint_left]
  intro key inFirst inSecond
  exact absurd (inFirst.2.trans_lt less) (Nat.not_lt.mpr inSecond.1)

/-- The new tables are disjoint from each other. -/
theorem disjoint_outTables (sound : store.Sound) (valid : Pops pops)
    (nonempty : [] ∉ store.outFiles pops level) :
    Set.PairwiseDisjoint {table | table ∈ store.outTables pops level} Table.range := by
  have ascending := pairwise_outTables sound valid nonempty
  have apart := ascending.imp fun {first second} less => disjoint_of_lt less
  have : Std.Symm fun first second : Table => Disjoint first.range second.range :=
    ⟨fun _ _ disjoint => disjoint.symm⟩
  exact fun first mem second mem' ne => apart.forall mem mem' ne

/-- A new table is disjoint from a table that stays. -/
theorem disjoint_untouched (sound : store.Sound) (valid : Pops pops)
    (partitioned : Partitioned (store.ssTable level)) (nonempty : [] ∉ store.outFiles pops level)
    {table untouched : Table} (new : table ∈ store.outTables pops level)
    (mem : untouched ∈ store.ssTable level) (notMerged : untouched ∉ store.overlapped level) :
    Disjoint table.range untouched.range := by
  obtain ⟨least, greatest⟩ := ends_of_outTable nonempty new
  have tableSound : ∀ {merged : Table},
      merged ∈ store.picked level ∨ merged ∈ store.overlapped level →
        ∃ level, merged.Sound level := by
    rintro merged (picked | overlapped)
    · exact ⟨_, sound.tables _ merged (mem_picked picked)⟩
    · exact ⟨_, sound.tables _ merged (mem_overlapped overlapped)⟩
  rcases apart_of_untouched sound partitioned mem notMerged with greater | less
  · obtain ⟨merged, either, held⟩ := exists_merged_of_outTable sound valid new least
    obtain ⟨_, mergedSound⟩ := tableSound either
    exact (disjoint_of_lt ((greater merged either).trans_le (mergedSound.mem_range held).1)).symm
  · obtain ⟨merged, either, held⟩ := exists_merged_of_outTable sound valid new greatest
    obtain ⟨_, mergedSound⟩ := tableSound either
    exact disjoint_of_lt ((mergedSound.mem_range held).2.trans_lt (less merged either))

/-! ## The partition is kept -/

theorem partitioned_nil : Partitioned [] where
  disjoint _ mem := absurd mem List.not_mem_nil
  least _ mem := absurd mem List.not_mem_nil
  greatest _ mem := absurd mem List.not_mem_nil

theorem Partitioned.subset {tables others : List Table} (partitioned : Partitioned tables)
    (subset : ∀ table ∈ others, table ∈ tables) : Partitioned others where
  disjoint := partitioned.disjoint.subset subset
  least table mem := partitioned.least table (subset table mem)
  greatest table mem := partitioned.greatest table (subset table mem)

theorem Partitioned.compacted (sound : store.Sound) (valid : Pops pops)
    (partitioned : Partitioned (store.ssTable level))
    (compacted : store.Compacted pops level store') : Partitioned (store'.ssTable level) where
  disjoint first mem second mem' ne := by
    rcases compacted.mem_target mem with new | ⟨old, kept⟩
    · rcases compacted.mem_target mem' with new' | ⟨old', kept'⟩
      · exact disjoint_outTables sound valid compacted.nonempty new new' ne
      · exact disjoint_untouched sound valid partitioned compacted.nonempty new old' kept'
    · rcases compacted.mem_target mem' with new' | ⟨old', kept'⟩
      · exact (disjoint_untouched sound valid partitioned compacted.nonempty new' old kept).symm
      · exact partitioned.disjoint old old' ne
  least table mem := by
    rcases compacted.mem_target mem with new | ⟨old, -⟩
    · have tableSound := sound.outTables valid compacted.nonempty new
      exact ⟨(ends_of_outTable compacted.nonempty new).1, fun key held =>
        (tableSound.mem_range held).1⟩
    · exact partitioned.least table old
  greatest table mem := by
    rcases compacted.mem_target mem with new | ⟨old, -⟩
    · have tableSound := sound.outTables valid compacted.nonempty new
      exact ⟨(ends_of_outTable compacted.nonempty new).2, fun key held =>
        (tableSound.mem_range held).2⟩
    · exact partitioned.greatest table old

/-- Every level below level 0 is partitioned at every stage. -/
theorem stageInvariant_partitioned (guard : Guard) :
    StageInvariant guard Anything fun _ store =>
      ∀ level, 1 ≤ level → Partitioned (store.ssTable level) where
  new _ _ := partitioned_nil
  write _ _ partitioned _ _ := partitioned
  flush _ _ partitioned _ _ flushed level pos := by
    rw [recharge, flushed.others level (by omega)]
    exact partitioned level pos
  skip _ _ partitioned _ := partitioned
  descend _ _ partitioned _ := partitioned
  merge := by
    intro pops store store' target key s sound _ partitioned _ _ valid _ compacted level pos
    by_cases here : level = target
    · subst here
      exact (partitioned level pos).compacted sound valid compacted
    · exact (partitioned level pos).subset fun _ mem => compacted.mem_of_ne here mem
  stop _ _ partitioned _ := partitioned
  insert _ _ partitioned := partitioned
  get _ partitioned _ := partitioned

theorem partitioned_of_stageRuns {guard : Guard} {stage : Stage}
    (reached : StageRuns guard stage store) (pos : 1 ≤ level) :
    Partitioned (store.ssTable level) :=
  (stageInvariant_partitioned guard).holds (fun _ => trivial) reached level pos

/-- Below level 0, the ranges of the tables of a level are disjoint, and the ends of a
range are the least and the greatest stored key. -/
theorem partitioned_of_reachable (reachable : system.Reachable store) (pos : 1 ≤ level) :
    Partitioned (store.ssTable level) :=
  partitioned_of_stageRuns (stages_of_runs (runs_none reachable)) pos

/-- Four tables on level 1 after the first compaction. -/
theorem partitioned_after_compaction : ∃ store,
    run .none ([7, 3, 5, 1, 9].map fun key => .put key wide) = some store ∧
      (store.ssTable 1).length = 4 ∧ Partitioned (store.ssTable 1) := by
  obtain ⟨store, ran, length⟩ := Option.map_eq_some_iff.mp
    (show (run .none ([7, 3, 5, 1, 9].map fun key => .put key wide)).map
      (fun store => (store.ssTable 1).length) = some 4 by decide +kernel)
  exact ⟨store, ran, length, partitioned_of_reachable
    (System.reachable_of_guarded (runs_of_run ran)) (Nat.le_refl 1)⟩

end KVStore

end ZnsLsm.Store
